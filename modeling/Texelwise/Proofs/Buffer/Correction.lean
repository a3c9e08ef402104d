import Mathlib.Algebra.Group.Nat.Defs
import Mathlib.Order.Bounds.Basic
import Texelwise.Buffer.Shape
import Texelwise.Proofs.Buffer.Packing

/-!
# Packing in numbers of 128 bits

A packed side is found from an estimate in numbers of 128 bits, by two loops that are not bounded
beforehand. Here the loops are written with a check on every number, and nothing comes back where a
number does not fit. Both end, as raising stops at `length` and lowering at 0. From any estimate
below `2 ^ 33` no check fails, and the square that they lead to does not depend on the estimate.

* `raiseSide?`, `lowerSide?`: the corrections; `packFrom?`: the texture for a length.
* `raiseSide?_eq`, `lowerSide?_eq`: every number stays in 128 bits.
* `packFrom?_eq_square`: the texture for a length, from any estimate.
-/

namespace Texelwise

/-! ## Checked loops -/

/-- Raises a side until its square holds `length`; nothing if a number does not fit in 128 bits. -/
def raiseSide? (length side : Nat) : Option Nat := do
  guard (side * side < 2 ^ 128)
  if side * side < length then
    guard (side + 1 < 2 ^ 128)
    raiseSide? length (side + 1)
  else return side
termination_by length - side * side
decreasing_by
  have : (side + 1) * (side + 1) = side * side + 2 * side + 1 := by grind
  omega

/-- Lowers a side as long as the square of the next smaller side holds `length`; nothing if a number
does not fit in 128 bits. -/
def lowerSide? (length : Nat) : Nat → Option Nat
  | 0 => some 0
  | side + 1 => do
    guard (side * side < 2 ^ 128)
    if length ≤ side * side then lowerSide? length side else return side + 1

/-- The texture for a length, found from an estimate. -/
def packFrom? (estimate length : Nat) : Option TextureSize := do
  let raised ← raiseSide? length estimate
  let lowered ← lowerSide? length raised
  let side := texels (max lowered 4)
  return ⟨side, side⟩

/-! ## The checks pass -/

section

variable {length side : Nat}

/-- A side whose square is below `2 ^ 64` has 32 bits, so the next one has 33. -/
theorem succ_lt_of_square_lt (h : side * side < 2 ^ 64) : side + 1 < 2 ^ 33 := by
  have hside : side < 2 ^ 32 := by
    rw [← Nat.mul_self_lt_mul_self_iff]
    exact h
  omega

theorem guard_square (h : side < 2 ^ 33) :
    (guard (side * side < 2 ^ 128) : Option Unit) = some () :=
  (Option.guard_eq_some' ()).mpr (Nat.lt_trans (Nat.mul_self_lt_mul_self h) (by decide))

/-- Raising passes every check and ends with a side of at most 33 bits. -/
theorem raiseSide?_eq (hlength : length < 2 ^ 64) (hside : side < 2 ^ 33) :
    raiseSide? length side = some (raiseSide length side) ∧ raiseSide length side < 2 ^ 33 := by
  fun_induction raiseSide length side with
  | case1 side hlt ih =>
    have hnext := succ_lt_of_square_lt (Nat.lt_trans hlt hlength)
    obtain ⟨hraise, hbound⟩ := ih hnext
    refine ⟨?_, hbound⟩
    have hfits : (guard (side + 1 < 2 ^ 128) : Option Unit) = some () :=
      (Option.guard_eq_some' ()).mpr (Nat.lt_trans hnext (by decide))
    rw [raiseSide?, guard_square hside, hfits, ← hraise]
    exact if_pos hlt
  | case2 side hnot =>
    refine ⟨?_, hside⟩
    rw [raiseSide?, guard_square hside]
    exact if_neg hnot

/-- Lowering passes every check. -/
theorem lowerSide?_eq (hside : side < 2 ^ 33) :
    lowerSide? length side = some (lowerSide length side) := by
  induction side with
  | zero => rw [lowerSide?, lowerSide]
  | succ lower ih =>
    have hlower : lower < 2 ^ 33 := Nat.lt_of_succ_lt hside
    rw [lowerSide?, lowerSide, guard_square hlower, Option.bind_eq_bind, Option.bind_some]
    split
    · exact ih hlower
    · rfl

end

/-! ## The square -/

section

variable {length estimate root : Nat}

/-- The checked loops lead to the side that is found without the checks. -/
theorem packFrom?_eq (hlength : length < 2 ^ 64) (hestimate : estimate < 2 ^ 33) :
    packFrom? estimate length =
      some ⟨packSideFrom estimate length, packSideFrom estimate length⟩ := by
  obtain ⟨hraise, hraised⟩ := raiseSide?_eq hlength hestimate
  rw [packFrom?, hraise, Option.bind_eq_bind, Option.bind_some, lowerSide?_eq hraised]
  rfl

/-- The side of the square for a length with this root. -/
def squareSide (root : Nat) : Nat := min (2 ^ 32 - 1) (max 4 root)

theorem squareSide_mono {root' : Nat} (h : root ≤ root') : squareSide root ≤ squareSide root' := by
  unfold squareSide
  omega

variable (hroot : IsLeast {s | length ≤ s * s} root)

include hroot

theorem packSideFrom_eq_squareSide (estimate : Nat) :
    packSideFrom estimate length = squareSide root := by
  rw [packSideFrom_eq hroot, squareSide, Nat.min_comm, Nat.max_comm]
  rfl

theorem packFrom?_eq_squareSide (hlength : length < 2 ^ 64) (hestimate : estimate < 2 ^ 33) :
    packFrom? estimate length = some ⟨squareSide root, squareSide root⟩ := by
  rw [packFrom?_eq hlength hestimate, packSideFrom_eq_squareSide hroot]

/-- A longer length has no smaller root. -/
theorem root_le_root {longer root' : Nat} (hle : length ≤ longer)
    (hroot' : IsLeast {s | longer ≤ s * s} root') : root ≤ root' :=
  hroot.2 (Nat.le_trans hle hroot'.1)

/-- The square holds every length that a square of 32 bits can hold. -/
theorem le_squareSide (h : length ≤ (2 ^ 32 - 1) ^ 2) :
    length ≤ squareSide root * squareSide root := by
  have hfits : length ≤ (2 ^ 32 - 1) * (2 ^ 32 - 1) := Nat.pow_two (2 ^ 32 - 1) ▸ h
  have hbound : root ≤ 2 ^ 32 - 1 := hroot.2 hfits
  have hle : root ≤ squareSide root := by
    unfold squareSide
    omega
  exact Nat.le_trans hroot.1 (Nat.mul_le_mul hle hle)

end

/-- For every length of 64 bits and every estimate below `2 ^ 33` both corrections end without
leaving 128 bits, and the texture is the square whose side is the least one that holds the length,
but at least 4 and at most the largest number of 32 bits. It is the same from every estimate, a
longer length has no smaller one, and it holds every length that a square of 32 bits can hold. -/
theorem packFrom?_eq_square {length estimate : Nat} (hlength : length < 2 ^ 64)
    (hestimate : estimate < 2 ^ 33) :
    ∃ root raised side, IsLeast {s | length ≤ s * s} root ∧
      raiseSide? length estimate = some raised ∧ lowerSide? length raised = some root ∧
      side = min (2 ^ 32 - 1) (max 4 root) ∧ packFrom? estimate length = some ⟨side, side⟩ ∧
      packSide length = side ∧
      (∀ other < 2 ^ 33, packFrom? other length = packFrom? estimate length) ∧
      (∀ longer other, length ≤ longer → longer < 2 ^ 64 → other < 2 ^ 33 →
        ∃ size, packFrom? other longer = some size ∧ side ≤ size.width ∧ side ≤ size.height) ∧
      (length ≤ (2 ^ 32 - 1) ^ 2 → length ≤ side * side) := by
  have hroot : IsLeast {s | length ≤ s * s} (lowerSide length (raiseSide length estimate)) :=
    isLeast_lowerSide (le_square_raiseSide length estimate)
  obtain ⟨hraise, hraised⟩ := raiseSide?_eq hlength hestimate
  have hpack := packFrom?_eq_squareSide hroot hlength hestimate
  refine ⟨_, _, _, hroot, hraise, lowerSide?_eq hraised, rfl, hpack,
    packSideFrom_eq_squareSide hroot _, fun other hother => ?_, ?_, le_squareSide hroot⟩
  · rw [packFrom?_eq_squareSide hroot hlength hother, hpack]
  · intro longer other hle hlonger hother
    obtain ⟨root', hroot'⟩ := exists_isLeast_root longer
    have hside := squareSide_mono (root_le_root hroot hle hroot')
    exact ⟨_, packFrom?_eq_squareSide hroot' hlonger hother, hside, hside⟩

/-- The longest length, from an estimate that is far too large: its root has 33 bits, and the side
is cut off. -/
theorem packFrom?_eq_square_longest :
    2 ^ 64 - 1 < 2 ^ 64 ∧ 2 ^ 33 - 1 < 2 ^ 33 ∧
      packFrom? (2 ^ 33 - 1) (2 ^ 64 - 1) = some ⟨2 ^ 32 - 1, 2 ^ 32 - 1⟩ ∧
      (∃ raised, raiseSide? (2 ^ 64 - 1) (2 ^ 33 - 1) = some raised ∧
        lowerSide? (2 ^ 64 - 1) raised = some (2 ^ 32)) ∧
      packFrom? 0 (2 ^ 64 - 1) = some ⟨2 ^ 32 - 1, 2 ^ 32 - 1⟩ := by
  obtain ⟨root, raised, side, hroot, hraise, hlower, hside, hpack, -, hsame, -⟩ :=
    packFrom?_eq_square (show 2 ^ 64 - 1 < 2 ^ 64 by decide) (show 2 ^ 33 - 1 < 2 ^ 33 by decide)
  have hleast : IsLeast {s | 2 ^ 64 - 1 ≤ s * s} (2 ^ 32) := by
    refine ⟨by decide, fun s hs => ?_⟩
    by_contra hlt
    have hle : s ≤ 2 ^ 32 - 1 := by omega
    have hsquare : s * s ≤ (2 ^ 32 - 1) * (2 ^ 32 - 1) := Nat.mul_le_mul hle hle
    exact absurd (Nat.le_trans hs hsquare) (by decide)
  obtain rfl := hroot.unique hleast
  have hside : side = 2 ^ 32 - 1 := by
    rw [hside]
    decide
  rw [hside] at hpack
  exact ⟨by decide, by decide, hpack, ⟨raised, hraise, hlower⟩,
    (hsame 0 (by decide)).trans hpack⟩

end Texelwise

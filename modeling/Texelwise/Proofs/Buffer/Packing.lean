import Mathlib.Order.Bounds.Basic
import Texelwise.Buffer.Packing

/-!
# What a packed side holds

Whatever the estimate, the corrected side is the least whose square holds the length, but at least 4
and at most what 32 bits can name.

* `isLeast_lowerSide`: the two corrections end at the least side.
* `packSideFrom_eq`: the side for a length, from any estimate.
* `le_square_packSide`: a packed side below the largest one has room for the whole length.
* `packSide_le_iff`: the lengths whose packed side stays within a limit.
-/

namespace Texelwise

theorem le_square_raiseSide (length side : Nat) :
    length ≤ raiseSide length side * raiseSide length side := by
  fun_induction raiseSide length side with
  | case1 side h ih => exact ih
  | case2 side h => exact Nat.not_lt.mp h

/-- Lowered from a side whose square holds the length, the side is the least one. -/
theorem isLeast_lowerSide {length side : Nat} (h : length ≤ side * side) :
    IsLeast {s | length ≤ s * s} (lowerSide length side) := by
  induction side with
  | zero => exact ⟨h, fun s _ => Nat.zero_le s⟩
  | succ side ih =>
    rw [lowerSide]
    split
    · exact ih ‹_›
    · rename_i hsmall
      refine ⟨h, fun s hs => ?_⟩
      by_contra hlt
      have hle : s ≤ side := by omega
      exact hsmall (Nat.le_trans hs (Nat.mul_le_mul hle hle))

/-- The side for a length does not depend on the estimate. -/
theorem packSideFrom_eq {length root : Nat} (h : IsLeast {s | length ≤ s * s} root)
    (estimate : Nat) : packSideFrom estimate length = min (max root 4) maxSide := by
  have hlower := isLeast_lowerSide (le_square_raiseSide length estimate)
  rw [packSideFrom, hlower.unique h]
  rfl

theorem exists_isLeast_root (length : Nat) : ∃ root, IsLeast {s | length ≤ s * s} root :=
  ⟨_, isLeast_lowerSide (le_square_raiseSide length 0)⟩

theorem four_le_packSide (length : Nat) : 4 ≤ packSide length := by
  rw [packSide, packSideFrom, texels]
  have hfour : 4 ≤ maxSide := by decide
  omega

theorem packSide_le (length : Nat) : packSide length ≤ maxSide := Nat.min_le_right _ maxSide

theorem le_square_packSide {length : Nat} (h : packSide length < maxSide) :
    length ≤ packSide length * packSide length := by
  obtain ⟨root, hroot⟩ := exists_isLeast_root length
  have hside : packSide length = min (max root 4) maxSide := packSideFrom_eq hroot _
  have hle : root ≤ packSide length := by omega
  exact Nat.le_trans hroot.1 (Nat.mul_le_mul hle hle)

/-- Within a limit below the largest side are the sides of the lengths that a square of the limit
holds. -/
theorem packSide_le_iff {length limit : Nat} (hlimit : limit < maxSide) :
    packSide length ≤ limit ↔ 4 ≤ limit ∧ length ≤ limit * limit := by
  constructor
  · intro h
    have hroom := le_square_packSide (Nat.lt_of_le_of_lt h hlimit)
    exact ⟨Nat.le_trans (four_le_packSide length) h, Nat.le_trans hroom (Nat.mul_le_mul h h)⟩
  · rintro ⟨hfour, hroom⟩
    obtain ⟨root, hroot⟩ := exists_isLeast_root length
    have hside : packSide length = min (max root 4) maxSide := packSideFrom_eq hroot _
    have hle : root ≤ limit := hroot.2 hroom
    omega

end Texelwise

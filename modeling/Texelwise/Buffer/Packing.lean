/-!
# Packing a length into a square

A buffer of one or three dimensions lies in a square texture. Its side is the least number whose
square holds the length, but at least 4 and at most the largest 32-bit number.

The side is found from a starting estimate, which is first raised until the square holds the
length and then lowered as long as a smaller square still does; so the estimate may be off either
way.

* `raiseSide`, `lowerSide`: the two corrections.
* `packSide`: the side for a length.
-/

namespace Texelwise

/-- The largest side of a texture that 32 bits can name. -/
def maxSide : Nat := UInt32.size - 1

/-- A number of texels in 32 bits; larger numbers count as the largest. -/
def texels (n : Nat) : Nat := min n maxSide

/-- The largest number whose square is at most `n`, for an `n` of so many digits in base 4. -/
def floorRoot : Nat → Nat → Nat
  | 0, _ => 0
  | digits + 1, n =>
    let root := 2 * floorRoot digits (n / 4)
    if (root + 1) * (root + 1) ≤ n then root + 1 else root

/-- Raises a side until its square holds `length`. -/
def raiseSide (length side : Nat) : Nat :=
  if side * side < length then raiseSide length (side + 1) else side
termination_by length - side * side
decreasing_by
  have : (side + 1) * (side + 1) = side * side + 2 * side + 1 := by grind
  omega

/-- Lowers a side as long as the square of the next smaller side holds `length`. -/
def lowerSide (length : Nat) : Nat → Nat
  | 0 => 0
  | side + 1 => if length ≤ side * side then lowerSide length side else side + 1

/-- The side for a length, found from an estimate. -/
def packSideFrom (estimate length : Nat) : Nat :=
  texels (max (lowerSide length (raiseSide length estimate)) 4)

/-- The side of the square texture for a length. -/
def packSide (length : Nat) : Nat := packSideFrom (floorRoot 32 length) length

end Texelwise

import Texelwise.Proofs.Buffer.Numbering
import Texelwise.Proofs.Buffer.Packing

/-!
# Which shapes fit

Counts of elements, sides and extents all stop at a largest number on the way. This module says what
that comes to in exact numbers: which shapes have a texture whose sides keep within a limit, and
that nothing was cut off for those that do.

* `Shape.count_eq_foldl`: products that are cut off on the way.
* `Shape.Fits`, `Shape.side_le_iff`: the shapes with a small enough texture.
* `Shape.count_le_area`: their texture has a texel for every element.
* `Shape.Packs`: the sides of the texture that a shape asks for, whether it fits or not.
-/

namespace Texelwise

/-! ## Counting -/

/-- A product in 64 bits; larger ones count as the largest number. -/
def saturatingMul (m n : Nat) : Nat := min (m * n) maxCount

/-- Products one after another, where each is cut off, come to the whole product cut off at the end.
A factor of zero makes up for what was cut off before it. -/
theorem foldl_saturatingMul (dims : List Nat) (n : Nat) :
    dims.foldl saturatingMul (min n maxCount) = min (n * dims.prod) maxCount := by
  induction dims generalizing n with
  | nil => rw [List.foldl_nil, List.prod_nil, Nat.mul_one]
  | cons d dims ih =>
    have hstep : saturatingMul (min n maxCount) d = min (n * d) maxCount := by
      unfold saturatingMul
      rcases Nat.eq_zero_or_pos d with rfl | hd
      · rw [Nat.mul_zero, Nat.mul_zero]
      · rcases Nat.le_total n maxCount with hn | hn
        · rw [Nat.min_eq_left hn]
        · have hmax : maxCount ≤ maxCount * d := Nat.le_mul_of_pos_right _ hd
          have hnd : maxCount * d ≤ n * d := Nat.mul_le_mul_right d hn
          rw [Nat.min_eq_right hn, Nat.min_eq_right hmax, Nat.min_eq_right (Nat.le_trans hmax hnd)]
    rw [List.foldl_cons, hstep, ih, List.prod_cons, Nat.mul_assoc]

namespace Shape

variable {r : Rank} {limit : Nat}

/-- The number of elements is the product of the dimensions, cut off after each factor. -/
theorem count_eq_foldl (s : Shape r) : s.count = s.dims.foldl saturatingMul 1 := by
  have hfold := foldl_saturatingMul s.dims 1
  rw [Nat.one_mul, Nat.min_eq_left (by decide)] at hfold
  rw [count, volumeOf_eq_prod, hfold]

/-! ## Shapes that fit -/

/-- A device whose textures have at most `limit` texels a side has room for the shape. -/
def Fits (limit : Nat) : Shape r → Prop
  | .plane width height => width ≤ limit ∧ height ≤ limit
  | s => 4 ≤ limit ∧ s.volumeOf ≤ limit * limit

/-- The product of two sides in 32 bits is a number of 64 bits. -/
theorem square_lt_maxCount (h : limit < maxSide) : limit * limit < maxCount :=
  calc limit * limit ≤ maxSide * maxSide := Nat.mul_le_mul (Nat.le_of_lt h) (Nat.le_of_lt h)
    _ < maxCount := by decide

theorem packSide_count_le_iff (s : Shape r) (h : limit < maxSide) :
    packSide s.count ≤ limit ↔ 4 ≤ limit ∧ s.volumeOf ≤ limit * limit := by
  have hmax := square_lt_maxCount h
  rw [packSide_le_iff h, count]
  omega

/-- A shape fits just if neither side of its texture is above the limit. -/
theorem side_le_iff (s : Shape r) (h : limit < maxSide) :
    s.textureSize.width ≤ limit ∧ s.textureSize.height ≤ limit ↔ s.Fits limit := by
  cases s with
  | line width => exact and_self_iff.trans (packSide_count_le_iff (.line width) h)
  | plane width height =>
    simp only [textureSize, texels, Fits]
    omega
  | volume width height depth =>
    exact and_self_iff.trans (packSide_count_le_iff (.volume width height depth) h)

/-- The elements of a shape that fits are counted exactly. -/
theorem Fits.count_eq {s : Shape r} (hs : s.Fits limit) (h : limit < maxSide) :
    s.count = s.volumeOf := by
  have hmax := square_lt_maxCount h
  have hroom : s.volumeOf ≤ limit * limit := by
    cases s with
    | line width => exact hs.2
    | plane width height => exact Nat.mul_le_mul hs.1 hs.2
    | volume width height depth => exact hs.2
  exact Nat.min_eq_left (by omega)

/-- The texture of a shape that fits has a texel for every element. -/
theorem Fits.volumeOf_le_area {s : Shape r} (hs : s.Fits limit) (h : limit < maxSide) :
    s.volumeOf ≤ s.textureSize.area := by
  have hside := ((s.side_le_iff h).mpr hs).1
  rw [← hs.count_eq h]
  cases s with
  | line width => exact le_square_packSide (Nat.lt_of_le_of_lt hside h)
  | plane width height =>
    obtain ⟨hwidth, hheight⟩ := hs
    have hwidth : texels width = width := Nat.min_eq_left (by omega)
    have hheight : texels height = height := Nat.min_eq_left (by omega)
    rw [textureSize, TextureSize.area, hwidth, hheight]
    exact Nat.min_le_left _ _
  | volume width height depth => exact le_square_packSide (Nat.lt_of_le_of_lt hside h)

/-- A texture whose sides are not cut off has a texel for every element. -/
theorem count_le_area {s : Shape r} (hwidth : s.textureSize.width < maxSide)
    (hheight : s.textureSize.height < maxSide) : s.count ≤ s.textureSize.area := by
  have hlimit : maxSide - 1 < maxSide := by decide
  have hfits : s.Fits (maxSide - 1) := (s.side_le_iff hlimit).mp ⟨by omega, by omega⟩
  rw [hfits.count_eq hlimit]
  exact hfits.volumeOf_le_area hlimit

/-! ## Sides -/

/-- The sides of the texture that a shape asks for: those of a plane are its own, and any other
shape asks for the least square that holds its elements, of at least 4 texels a side. What 32 bits
cannot name counts as the largest number that they can. -/
def Packs (size : TextureSize) : Shape r → Prop
  | .plane width height => size = ⟨min width maxSide, min height maxSide⟩
  | s => ∃ root, IsLeast {side | s.volumeOf ≤ side * side} root ∧
    size = ⟨min (max root 4) maxSide, min (max root 4) maxSide⟩

/-- Where a length is cut off, its side is cut off as well. -/
theorem exists_packSide_count (s : Shape r) :
    ∃ root, IsLeast {side | s.volumeOf ≤ side * side} root ∧
      packSide s.count = min (max root 4) maxSide := by
  obtain ⟨root, hroot⟩ := exists_isLeast_root s.volumeOf
  obtain ⟨cut, hcut⟩ := exists_isLeast_root s.count
  refine ⟨root, hroot, (packSideFrom_eq hcut _).trans ?_⟩
  rcases Nat.le_total s.volumeOf maxCount with hle | hle
  · have hcount : s.count = s.volumeOf := Nat.min_eq_left hle
    rw [hcount] at hcut
    rw [hcut.unique hroot]
  · -- both roots are larger than 32 bits can name
    have hcount : s.count = maxCount := Nat.min_eq_right hle
    have hlarge : ∀ side, maxCount ≤ side * side → maxSide ≤ side := fun side hside => by
      by_contra hlt
      have := square_lt_maxCount (Nat.lt_of_not_le hlt)
      omega
    have hcutle : maxSide ≤ cut := hlarge cut (hcount ▸ hcut.1)
    have hrootle : maxSide ≤ root := hlarge root (Nat.le_trans hle hroot.1)
    omega

theorem packs_textureSize (s : Shape r) : s.Packs s.textureSize := by
  cases s with
  | plane width height => rfl
  | line width =>
    obtain ⟨root, hroot, hside⟩ := exists_packSide_count (.line width)
    exact ⟨root, hroot, by rw [textureSize, hside]⟩
  | volume width height depth =>
    obtain ⟨root, hroot, hside⟩ := exists_packSide_count (.volume width height depth)
    exact ⟨root, hroot, by rw [textureSize, hside]⟩

end Shape

end Texelwise

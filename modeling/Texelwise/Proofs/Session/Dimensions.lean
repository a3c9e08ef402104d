import Mathlib.Algebra.BigOperators.Group.List.Lemmas
import Mathlib.Algebra.BigOperators.Ring.List
import Mathlib.Algebra.Ring.Nat
import Texelwise.Proofs.Program.Coordinates
import Texelwise.Proofs.Session.Capacity

/-!
# What a buffer reports of its dimensions

The extents of a buffer have 32 bits and the companions that a shader reads are signed, while the
dimensions of its shape may have 64 bits. A device looks at the texture alone. So what a buffer
reports is what it was made with as long as the texture bounds every dimension: it does for lines,
for planes and for volumes with elements, but not for a volume that is empty.

* `Shape.exactExtents`: the dimensions as they are.
* `Shape.lt_of_fits`: the dimensions of shapes that fit have 31 bits, but for empty volumes.
* `Buffer.reports_iff_of_create`: when the extents and the companions of a new buffer are exact.
* `Buffer.extents_cut_off`: volumes without elements for which they are not.
-/

namespace Texelwise

theorem texels_eq_iff {n : Nat} : texels n = n ↔ n ≤ maxSide := by
  rw [texels]
  omega

/-- A number of texels is read as it is if it is one of 31 bits. -/
theorem toInt_signedWord_texels {n : Nat} : (signedWord (texels n)).toInt = n ↔ n < 2 ^ 31 := by
  have hmax : maxSide = 2 ^ 32 - 1 := by decide
  rw [toInt_signedWord (Shape.texels_le n), texels]
  split <;> omega

namespace Shape

variable {r : Rank} {limit : Nat}

/-- The dimensions of a shape as extents with nothing cut off; a dimension that it does not have
counts as 1. -/
def exactExtents : Shape r → Extents
  | .line width => ⟨width, 1, 1⟩
  | .plane width height => ⟨width, height, 1⟩
  | .volume width height depth => ⟨width, height, depth⟩

theorem extents_eq_exactExtents_iff {s : Shape r} :
    s.extents = s.exactExtents ↔ ∀ n ∈ s.dims, n ≤ maxSide := by
  cases s <;> simp [extents, exactExtents, dims, texels_eq_iff]

/-- Every dimension of a shape that has elements divides their number. -/
theorem le_volumeOf {s : Shape r} (hpos : 0 ∉ s.dims) {n : Nat} (hn : n ∈ s.dims) :
    n ≤ s.volumeOf := by
  rw [volumeOf_eq_prod]
  have hne : s.dims.prod ≠ 0 := List.prod_ne_zero hpos
  exact Nat.le_of_dvd (Nat.pos_of_ne_zero hne) (List.dvd_prod hn)

/-- The dimensions of a shape that fits are bounded by the texture, unless it is a volume without
elements. -/
theorem lt_of_fits {s : Shape r} (h : s.Fits limit) (hlimit : limit ≤ largestSquareSide)
    (hpos : r = .three → 0 ∉ s.dims) : ∀ n ∈ s.dims, n < 2 ^ 31 := by
  intro n hn
  have hsquare : limit * limit ≤ largestSquareSide * largestSquareSide :=
    Nat.mul_le_mul hlimit hlimit
  have hmax : largestSquareSide < 2 ^ 31 ∧ largestSquareSide * largestSquareSide < 2 ^ 31 := by
    decide
  cases s with
  | line w =>
    obtain rfl : n = w := List.mem_singleton.mp hn
    have hroom : n ≤ limit * limit := h.2
    omega
  | plane w h' =>
    obtain ⟨hw, hh⟩ := h
    simp only [dims, List.mem_cons, List.not_mem_nil, or_false] at hn
    omega
  | volume w h' d =>
    have hle := le_volumeOf (hpos rfl) hn
    have hroom : (Shape.volume w h' d).volumeOf ≤ limit * limit := h.2
    omega

end Shape

/-! ## Companions -/

/-- The companions of a buffer as a shader reads them. -/
def BufferDesc.signedCompanions (desc : BufferDesc) : List Int :=
  (companionWords desc).map fun w => w.toInt32.toInt

/-- The extents of a shape are read as they are if each dimension is a number of 31 bits. -/
theorem Shape.signedExtents_eq_iff {r : Rank} {s : Shape r} :
    [s.extents.width, s.extents.height, s.extents.depth].map (fun n => (signedWord n).toInt) =
        [(s.exactExtents.width : Int), (s.exactExtents.height : Int),
          (s.exactExtents.depth : Int)] ↔
      ∀ n ∈ s.dims, n < 2 ^ 31 := by
  have hone : (signedWord 1).toInt = (1 : Nat) := toInt_signedWord_of_lt (by decide)
  cases s <;>
    simp only [extents, exactExtents, dims, List.map_cons, List.map_nil, List.cons.injEq,
      toInt_signedWord_texels, hone, and_true, List.forall_mem_cons, List.not_mem_nil,
      false_imp_iff, implies_true]

/-! ## New buffers -/

namespace Buffer

/-- What a new buffer reports, on a device whose largest texture has a number of texels of 31 bits.
The sides of the texture are always read as they are. The extents are the dimensions that the buffer
was made with exactly if these have 32 bits, and they are read as such by a shader exactly if they
have 31 bits. So it is with all buffers but volumes without elements. -/
theorem reports_iff_of_create {device : Device}
    (hlimit : device.limits.maxTextureSide ≤ largestSquareSide) {id : BufferId} {kind : BufferKind}
    {shape : Shape kind.rank} {b : Buffer} (h : create device id kind shape = .ok b) :
    let size := b.describe.textureSize
    let exact := shape.exactExtents
    b.summary.extents = b.describe.extents ∧ size = shape.textureSize ∧
      b.describe.signedCompanions.take 2 = [(size.width : Int), (size.height : Int)] ∧
      (b.describe.extents = exact ↔ ∀ n ∈ shape.dims, n ≤ maxSide) ∧
      (b.describe.signedCompanions = [(size.width : Int), (size.height : Int),
          (exact.width : Int), (exact.height : Int), (exact.depth : Int)] ↔
        ∀ n ∈ shape.dims, n < 2 ^ 31) ∧
      ((kind.rank = .three → 0 ∉ shape.dims) → ∀ n ∈ shape.dims, n < 2 ^ 31) := by
  have hmax : largestSquareSide < maxSide ∧ largestSquareSide < 2 ^ 31 := by decide
  have hwithin := (eq_of_create h).1
  have hfits : shape.Fits device.limits.maxTextureSide :=
    (shape.side_le_iff (Nat.lt_of_le_of_lt hlimit hmax.1)).mp hwithin
  obtain ⟨hwidth, hheight⟩ := hwithin
  obtain ⟨texture, -, rfl⟩ := exists_texture_of_create h
  have hsides : [(signedWord shape.textureSize.width).toInt,
      (signedWord shape.textureSize.height).toInt] =
        [(shape.textureSize.width : Int), (shape.textureSize.height : Int)] := by
    rw [toInt_signedWord_of_lt (by omega), toInt_signedWord_of_lt (by omega)]
  refine ⟨rfl, rfl, hsides, Shape.extents_eq_exactExtents_iff, ?_, Shape.lt_of_fits hfits hlimit⟩
  rw [← Shape.signedExtents_eq_iff]
  exact ⟨fun hall => congrArg (List.drop 2) hall, fun hrest => congrArg₂ (· ++ ·) hsides hrest⟩

/-- A volume of 24 elements. -/
theorem reports_iff_of_create_full :
    ∃ b, create (.plain {}) ⟨1⟩ ⟨.float, .three⟩ (.volume 2 3 4) = .ok b ∧
      b.describe.extents = ⟨2, 3, 4⟩ ∧ b.describe.signedCompanions = [5, 5, 2, 3, 4] := by
  have hsize : (Shape.volume 2 3 4).textureSize = ⟨5, 5⟩ := by decide +kernel
  obtain ⟨b, hb⟩ : ∃ b, create (.plain {}) ⟨1⟩ ⟨.float, .three⟩ (.volume 2 3 4) = .ok b := by
    refine (exists_create_iff (Device.copies_plain {})).mpr ⟨?_, ?_, .inr ?_⟩ <;> rw [hsize] <;>
      decide
  obtain ⟨-, htexture, -, hextents, hcompanions, hsmall⟩ := reports_iff_of_create (by decide) hb
  have hlt := hsmall fun _ => by decide
  refine ⟨b, hb, hextents.mpr (by decide), (hcompanions.mpr hlt).trans ?_⟩
  rw [htexture, hsize]
  rfl

/-- A volume without height is made whatever its other dimensions are; only its extents are cut
off. -/
theorem exists_create_volume_zero {device : Device} (hd : device.Copies)
    (h : 4 ≤ device.limits.maxTextureSide) (id : BufferId) (e : ElementKind) (w d : Nat) :
    ∃ b, create device id ⟨e, .three⟩ (.volume w 0 d) = .ok b ∧
      b.describe = ⟨id, ⟨e, .three⟩, ⟨texels w, 0, texels d⟩, ⟨4, 4⟩⟩ := by
  have hcount : (Shape.volume w 0 d).count = 0 := by simp [Shape.count, Shape.volumeOf]
  have hsize : (Shape.volume w 0 d).textureSize = ⟨4, 4⟩ := by
    rw [Shape.textureSize, hcount, show packSide 0 = 4 by decide +kernel]
  obtain ⟨b, hb⟩ : ∃ b, create device id ⟨e, .three⟩ (.volume w 0 d) = .ok b := by
    refine (exists_create_iff hd).mpr ⟨?_, ?_, .inr ?_⟩ <;> rw [hsize]
    · exact ⟨h, h⟩
    · decide
    · decide
  exact ⟨b, hb, by rw [describe_of_create hb, hsize]; rfl⟩

/-- Two volumes without elements that are made although one of their dimensions is large. With 33
bits it is cut off in the extents, and a shader reads -1 for it; with 32 bits it is exact, but a
shader reads it as negative. A plane without elements is refused for the same dimension. -/
theorem extents_cut_off :
    let device := Device.plain {}
    (∃ b, create device ⟨1⟩ ⟨.float, .three⟩ (.volume (2 ^ 32) 0 1) = .ok b ∧
      b.describe.extents = ⟨2 ^ 32 - 1, 0, 1⟩ ∧
      b.describe.extents ≠ (Shape.volume (2 ^ 32) 0 1).exactExtents ∧
      b.describe.signedCompanions = [4, 4, -1, 0, 1]) ∧
    (∃ b, create device ⟨1⟩ ⟨.float, .three⟩ (.volume (2 ^ 31) 0 1) = .ok b ∧
      b.describe.extents = (Shape.volume (2 ^ 31) 0 1).exactExtents ∧
      b.describe.signedCompanions = [4, 4, -2 ^ 31, 0, 1]) ∧
    create device ⟨1⟩ ⟨.float, .two⟩ (.plane (2 ^ 32) 0) =
      .error (.tooLarge ⟨2 ^ 32 - 1, 0⟩ 8192) := by
  intro device
  have hmade := @exists_create_volume_zero device (Device.copies_plain {}) (by decide) ⟨1⟩ .float
  obtain ⟨wide, hwide, hdesc⟩ := hmade (2 ^ 32) 1
  obtain ⟨wide', hwide', hdesc'⟩ := hmade (2 ^ 31) 1
  refine ⟨⟨wide, hwide, ?_⟩, ⟨wide', hwide', ?_⟩, rfl⟩
  · rw [hdesc]
    decide
  · rw [hdesc']
    decide

end Buffer

end Texelwise

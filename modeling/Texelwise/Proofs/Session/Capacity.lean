import Texelwise.Proofs.Buffer.Fitting
import Texelwise.Proofs.Session.Attachments
import Texelwise.Proofs.Session.Uploads

/-!
# Which buffers a device has room for

A buffer is made if its texture is small enough, the host can hold its texels and the device takes
its rows. The first is what the limit of the device asks for and the only one that is reported; the
others stop the program, and only matter on devices with sides of 30 bits or more.

* `Shape.hosted_of_fits`: what fits below that is held.
* `Buffer.Addressed`: every element of a buffer has a texel of its own in the staging memory.
* `Session.create_iff_fits`: what is admitted, and what holds of every buffer of a session.
* `Session.plane_not_hosted`: a plane that fits but is not made.
-/

namespace Texelwise

/-! ## Texels on the host -/

/-- A shape that fits below sides of 30 bits is held. -/
theorem Shape.hosted_of_fits {r : Rank} {s : Shape r} {limit : Nat} (h : s.Fits limit)
    (hlimit : limit ≤ maxRowWidth) : s.Hosted := by
  have hmax : maxRowWidth < maxSide := by decide
  obtain ⟨hwidth, hheight⟩ := (s.side_le_iff (Nat.lt_of_le_of_lt hlimit hmax)).mpr h
  have hrow := Nat.le_trans hwidth hlimit
  have hcolumn := Nat.le_trans hheight hlimit
  refine ⟨?_, .inr hrow⟩
  calc 4 * s.textureSize.area ≤ 4 * (maxRowWidth * maxRowWidth) :=
        Nat.mul_le_mul_left 4 (Nat.mul_le_mul hrow hcolumn)
    _ ≤ maxAllocation := by decide

/-! ## Buffers -/

namespace Buffer

variable {limit : Nat}

/-- Every element of a buffer has a texel in its staging memory. -/
structure Addressed (b : Buffer) : Prop where
  /-- The elements are counted exactly. -/
  count : b.shape.count = b.shape.volumeOf
  /-- The staging memory has a texel for each of them. -/
  room : b.shape.count ≤ b.staging.texels.size
  /-- A place inside the shape is that of an element. -/
  offset : ∀ c, b.shape.Contains c → ∃ i, b.shape.offset c = .ok i ∧ i < b.shape.count
  /-- So all of them are there to be read. -/
  data : ∃ elements, InPlace.elements.result b.staging = .ok (elements, b.staging) ∧
    elements.length = b.shape.count

/-- Staging memory of the size of the texture has a texel for each element of a shape that fits. -/
theorem addressed_of_fits {b : Buffer} (h : limit < maxSide) (hb : b.shape.Fits limit)
    (hsize : b.staging.texels.size = b.textureSize.area) : b.Addressed := by
  have hcount := hb.count_eq h
  have hroom : b.shape.count ≤ b.staging.texels.size := by
    rw [hcount, hsize]
    exact hb.volumeOf_le_area h
  have hlength : b.staging.data.length = b.shape.count := by
    rw [Staging.data, List.length_map, Array.length_toList, Array.size_extract, Nat.sub_zero]
    exact Nat.min_eq_left hroom
  refine ⟨hcount, hroom, fun c hc => ?_, _, ?_, hlength⟩
  · have hlt : b.shape.index c < b.shape.count := hcount ▸ Shape.index_lt_volumeOf hc
    have hmax : b.shape.count < UInt64.size :=
      Nat.lt_of_le_of_lt (Nat.min_le_right _ _) (by decide)
    exact ⟨_, Shape.offset_of_index_lt hc (Nat.lt_trans hlt hmax), hlt⟩
  · have hroom : b.staging.shape.count ≤ b.staging.texels.size := hroom
    rw [InPlace.result, InPlace.run_elements, if_pos hroom]

end Buffer

namespace Session

/-- On a device whose largest side is below the largest that 32 bits can name, and that copies as
documented, a buffer is made exactly if its shape fits and the host can hold its texels and rows;
with sides of less than 30 bits everything that fits is held. A shape that does not fit is refused
with the sides of its texture, and one that fits but cannot be held stops the program. In every
session that steps lead to, all buffers fit and have a texel for each of their elements. -/
theorem create_iff_fits {device : Device} (hd : device.Copies)
    (hlimit : device.limits.maxTextureSide < maxSide) :
    let limit := device.limits.maxTextureSide
    (∀ id kind (shape : Shape kind.rank),
      ((∃ b, Buffer.create device id kind shape = .ok b) ↔ shape.Fits limit ∧ shape.Hosted) ∧
      (limit < 2 ^ 30 → shape.Fits limit → shape.Hosted) ∧
      (∀ b, Buffer.create device id kind shape = .ok b →
        (∃ texture, b = ⟨id, kind, .zeros shape, texture⟩) ∧ b.Addressed) ∧
      (∀ size side, Buffer.create device id kind shape = .error (.tooLarge size side) ↔
        ¬shape.Fits limit ∧ size = shape.textureSize ∧ side = limit) ∧
      (shape.Fits limit → ¬shape.Hosted →
        ∃ message, Buffer.create device id kind shape = .error (.stopped message)) ∧
      shape.Packs shape.textureSize ∧
      shape.count = shape.dims.foldl saturatingMul 1) ∧
    ∀ before name b, ((start device).run before).1.buffers.get? name = some b →
      b.shape.Fits limit ∧ b.Addressed := by
  intro limit
  refine ⟨fun id kind shape => ?_, fun before name b hb => ?_⟩
  · have hfits : shape.textureSize.Within device.limits ↔ shape.Fits limit :=
      shape.side_le_iff hlimit
    refine ⟨?_, ?_, ?_, ?_, ?_, shape.packs_textureSize, shape.count_eq_foldl⟩
    · rw [← hfits]
      exact Buffer.exists_create_iff hd
    · intro hlt hs
      exact Shape.hosted_of_fits hs (Nat.le_pred_of_lt hlt)
    · intro b hb
      have hwithin := (Buffer.eq_of_create hb).1
      obtain ⟨texture, -, rfl⟩ := Buffer.exists_texture_of_create hb
      exact ⟨⟨texture, rfl⟩,
        Buffer.addressed_of_fits hlimit (hfits.mp hwithin) Array.size_replicate⟩
    · intro size side
      rw [← hfits]
      constructor
      · intro herror
        by_cases hwithin : shape.textureSize.Within device.limits
        · obtain ⟨message, hmessage⟩ := Buffer.eq_stopped_of_create hwithin herror
          cases hmessage
        · rw [Buffer.create_of_not_within hwithin] at herror
          cases herror
          exact ⟨hwithin, rfl, rfl⟩
      · rintro ⟨hwithin, rfl, rfl⟩
        exact Buffer.create_of_not_within hwithin
    · intro hs hhost
      cases hcreate : Buffer.create device id kind shape with
      | ok b => exact absurd ((Buffer.exists_create_iff hd).mp ⟨b, hcreate⟩).2 hhost
      | error e =>
        obtain ⟨message, rfl⟩ := Buffer.eq_stopped_of_create (hfits.mpr hs) hcreate
        exact ⟨message, rfl⟩
  · have hfits : b.shape.Fits limit := by
      have hwithin := (within_run (within_start device) before).buffer hb
      rw [limits_run_start] at hwithin
      exact (b.shape.side_le_iff hlimit).mp hwithin
    have hholds := uploaded_run (uploaded_start device fun _ => ⟨[], false, false⟩) hd
      (sound_start device) before name b hb
    exact ⟨hfits, Buffer.addressed_of_fits hlimit hfits hholds.staging⟩

/-- With textures of at most 4 texels a side, a volume with two huge sides and no depth is made, one
of 17 elements is refused with a texture of 5 texels a side, and one of 16 elements has them all. -/
theorem create_iff_fits_volumes :
    let device := Device.plain ⟨4, 8, 32, 65536, 16, 2 ^ 28⟩
    (∃ b, Buffer.create device ⟨1⟩ ⟨.float, .three⟩ (.volume (2 ^ 32) (2 ^ 32) 0) = .ok b) ∧
    Buffer.create device ⟨1⟩ ⟨.float, .three⟩ (.volume 17 1 1) = .error (.tooLarge ⟨5, 5⟩ 4) ∧
    ∃ b, ((start device).run [.create "a" ⟨.float, .three⟩ (.volume 4 2 2)]).1.buffers.get? "a" =
      some b ∧ b.Addressed := by
  intro device
  have hlimit : device.limits.maxTextureSide < maxSide := by decide
  obtain ⟨hcreate, hlive⟩ := create_iff_fits (Device.copies_plain _) hlimit
  obtain ⟨hmade, hhosted, -⟩ := hcreate ⟨1⟩ ⟨.float, .three⟩ (.volume (2 ^ 32) (2 ^ 32) 0)
  refine ⟨hmade.mpr ⟨⟨by decide, by decide⟩, hhosted (by decide) ⟨by decide, by decide⟩⟩, ?_, ?_⟩
  · have hsize : (Shape.volume 17 1 1).textureSize = ⟨5, 5⟩ := by decide +kernel
    refine ((hcreate ⟨1⟩ ⟨.float, .three⟩ (.volume 17 1 1)).2.2.2.1 _ _).mpr
      ⟨fun hfits => absurd hfits.2 (by decide), hsize.symm, rfl⟩
  · have hbuffer : (((start device).run [.create "a" ⟨.float, .three⟩
        (.volume 4 2 2)]).1.buffers.get? "a").isSome = true := by decide +kernel
    obtain ⟨b, hb⟩ := Option.isSome_iff_exists.mp hbuffer
    exact ⟨b, hb, (hlive _ _ b hb).2⟩

/-- A plane of `2 ^ 31` texels a side fits on a device with such sides, but no host has an
allocation for it. -/
theorem plane_not_hosted :
    let device := Device.plain { maxTextureSide := 2 ^ 31 }
    let plane := Shape.plane (2 ^ 31) (2 ^ 31)
    device.limits.maxTextureSide < maxSide ∧ plane.Fits device.limits.maxTextureSide ∧
      Buffer.create device ⟨1⟩ ⟨.float, .two⟩ plane = .error (.stopped capacityMessage) := by
  intro device plane
  have hwithin : plane.textureSize.Within device.limits := by decide
  have hnone : (Staging.create? plane : Option (Staging ⟨.float, .two⟩)) = none :=
    if_neg (by decide)
  refine ⟨by decide, ⟨Nat.le_refl _, Nat.le_refl _⟩, ?_⟩
  unfold Buffer.create
  dsimp only
  rw [if_pos hwithin, hnone]

end Session

end Texelwise

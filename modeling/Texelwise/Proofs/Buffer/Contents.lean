import Texelwise.Proofs.Buffer.Rows

/-!
# What staging memory and texture hold

The texture of a buffer holds what was written to it last: the zeros of a new buffer, the staging
memory at the last upload, or what a drawing left. Reading back gives just that, however its rows
are padded on the way. Past the last element both memories are zero where no drawing reached them:
no other operation reaches a texel there.

* `Staging.Padded`: staging memory that is zero past the last element; filling and setting elements
  keep it so, also where they stop.
* `Held`, `Buffer.Holds`: what the texture of a buffer holds, and what is known of both memories.
  Creation starts with zeros, `push` uploads the staging memory, drawing paints the texture, and
  `pull` and writes to staging memory leave it.
-/

namespace Texelwise

/-! ## Places of elements -/

namespace Shape

variable {r : Rank}

theorem lt_volumeOf_of_offset {s : Shape r} {c : Coord r} {i : Nat} (h : s.offset c = .ok i) :
    i < s.volumeOf := by
  obtain ⟨hc, rfl⟩ := offset_eq_ok_iff.mp h
  exact Nat.lt_of_le_of_lt (Nat.mod_le _ _) (index_lt_volumeOf hc)

theorem texels_le (n : Nat) : texels n ≤ maxSide := Nat.min_le_right n maxSide

theorem area_textureSize_lt (s : Shape r) : s.textureSize.area < maxCount := by
  have hside : s.textureSize.width ≤ maxSide ∧ s.textureSize.height ≤ maxSide := by
    cases s <;> exact ⟨texels_le _, texels_le _⟩
  calc s.textureSize.area ≤ maxSide * maxSide := Nat.mul_le_mul hside.1 hside.2
    _ < maxCount := by decide

/-- A place inside the shape is that of an element, or lies beyond every texture. -/
theorem lt_count_or_of_offset {s : Shape r} {c : Coord r} {i : Nat} (h : s.offset c = .ok i) :
    i < s.count ∨ s.textureSize.area ≤ i := by
  have hlt := lt_volumeOf_of_offset h
  have harea := s.area_textureSize_lt
  unfold count
  omega

end Shape

/-! ## Texels past the last element -/

theorem getD_replicate_zero (n i : Nat) :
    (Array.replicate n Texel.zero).getD i Texel.zero = Texel.zero := by
  rw [Array.getD_eq_getD_getElem?, Array.getElem?_replicate]
  split <;> rfl

namespace Staging

variable {kind : BufferKind}

/-- There is a texel for each texel of the texture, and those past the last element are zero. -/
structure Padded (m : Staging kind) : Prop where
  size : m.texels.size = m.shape.textureSize.area
  zero : ∀ i, m.shape.count ≤ i → m.texels.getD i Texel.zero = Texel.zero

theorem padded_zeros (shape : Shape kind.rank) : (zeros shape).Padded := by
  exact ⟨Array.size_replicate, fun i _ => getD_replicate_zero _ i⟩

theorem getD_overwrite_of_ne {m : Staging kind} {i j : Nat} (h : i < m.texels.size) (hj : j ≠ i)
    (t : Texel) : (m.overwrite i [t]).texels.getD j Texel.zero = m.texels.getD j Texel.zero := by
  have hwithin : i + [t].length ≤ m.texels.toList.length := h
  rw [Array.getD_eq_getD_getElem?, Array.getD_eq_getD_getElem?, overwrite, List.getElem?_toArray,
    getElem?_overwrite hwithin, List.length_singleton, if_neg (by omega), Array.getElem?_toList]

/-- Setting an element reaches no texel past the last element. -/
theorem keeps_put_padded (c : Coord kind.rank) (e : Element) :
    InPlace.Keeps Padded (InPlace.put c e) := by
  intro m hm
  rw [InPlace.memory, InPlace.run_put]
  cases hc : m.shape.offset c with
  | error e => exact hm
  | ok i =>
    dsimp only
    by_cases h : i < m.texels.size
    · rw [if_pos h]
      refine ⟨(size_overwrite h).trans hm.size, fun j hj => ?_⟩
      have hj : m.shape.count ≤ j := hj
      have hplace := Shape.lt_count_or_of_offset hc
      rw [hm.size] at h
      rw [getD_overwrite_of_ne (hm.size ▸ h) (by omega)]
      exact hm.zero j hj
    · rw [if_neg h]
      exact hm

end Staging

/-! ## Bytes -/

theorem flatMap_bytes_replicate (n : Nat) :
    (List.replicate n Texel.zero).flatMap Texel.bytes = List.replicate (4 * n) 0 := by
  induction n with
  | zero => rfl
  | succ n ih =>
    rw [List.replicate_succ, List.flatMap_cons, ih, Nat.mul_succ, Nat.add_comm,
      ← List.replicate_append_replicate]
    rfl

/-- What the texture of a buffer holds, and whether something that was drawn is in its memories. -/
structure Held where
  /-- What was written to the texture last. -/
  bytes : List UInt8
  /-- A drawing may have reached the texture. -/
  drawn : Bool
  /-- A drawing may have reached the staging memory, through the texture. -/
  pulled : Bool

namespace Held

/-- After an upload of these bytes. -/
def push (bytes : List UInt8) (held : Held) : Held := { held with bytes, drawn := held.pulled }

/-- After the texture was read back. -/
def pull (held : Held) : Held := { held with pulled := held.drawn }

/-- After a drawing that left these bytes. -/
def draw (bytes : List UInt8) (held : Held) : Held := { held with bytes, drawn := true }

end Held

namespace Buffer

/-- The memories of a buffer have their sizes. If the texture has a texel, it holds what was written
to it last; and past the last element both memories are zero where no drawing reached them. -/
structure Holds (b : Buffer) (held : Held) : Prop where
  staging : b.staging.texels.size = b.textureSize.area
  size : b.texture.size = b.textureSize.allocated
  bytes : b.textureSize.isEmpty = false → b.texture.bytes = held.bytes
  padded : b.textureSize.isEmpty = false → held.pulled = false → b.staging.Padded
  zero : b.textureSize.isEmpty = false → held.drawn = false →
    ∀ i, b.shape.count ≤ i → b.texture.texels.getD i Texel.zero = Texel.zero

namespace Holds

variable {device : Device} {b b' : Buffer} {held held' : Held}

theorem texture_size (h : b.Holds held) (hempty : b.textureSize.isEmpty = false) :
    b.texture.size = b.textureSize :=
  h.size.trans (TextureSize.allocated_eq hempty)

/-- Nothing is said of a texture without texels. -/
theorem of_isEmpty (h : b.Holds held) (hempty : b.textureSize.isEmpty = true) : b.Holds held' := by
  have hfalse : b.textureSize.isEmpty ≠ false := by
    rw [hempty]
    decide
  exact ⟨h.staging, h.size, fun h => absurd h hfalse, fun h => absurd h hfalse,
    fun h => absurd h hfalse⟩

/-- Uploading puts the staging memory into the texture. -/
theorem push (hd : device.Copies) (h : b.Holds held) (hpush : b.push device = .ok b') :
    b'.Holds (held.push b.staging.bytes) := by
  rcases eq_of_push hpush with ⟨hempty, rfl⟩ | ⟨hempty, texel, htexel, rfl⟩
  · exact h.of_isEmpty hempty
  · have htexels := texels_of_write hd hempty (h.texture_size hempty) h.staging htexel
    refine ⟨h.staging, h.size, fun _ => ?_, h.padded, fun _ hpulled => ?_⟩
    · rw [Texture.bytes, htexels]
      rfl
    · rw [htexels]
      exact (h.padded hempty hpulled).zero

/-- Drawing puts texels into the texture, and nothing is known of those past the last element. -/
theorem paint (h : b.Holds held) (texel : TexelAt) :
    (b.paint texel).Holds (held.draw (b.paint texel).texture.bytes) :=
  ⟨h.staging, h.size, fun _ => rfl, h.padded, fun _ => nofun⟩

theorem withStaging (h : b.Holds held) {m : Staging b.kind}
    (hm : Staging.Shaped b.shape b.staging.texels.size m)
    (hpadded : b.textureSize.isEmpty = false → held.pulled = false → m.Padded) :
    (b.withStaging m).Holds held := by
  have hsame : (b.withStaging m).shape = b.shape := hm.1
  have htexture : (b.withStaging m).textureSize = b.textureSize := textureSize_withStaging hm.1
  refine ⟨?_, ?_, ?_, ?_, ?_⟩
  · rw [htexture]
    exact hm.2.trans h.staging
  · rw [htexture]
    exact h.size
  · rw [htexture]
    exact h.bytes
  · rw [htexture]
    exact hpadded
  · rw [htexture, hsame]
    exact h.zero

/-- Reading back puts the texture into the staging memory. -/
theorem pull (hd : device.Copies) (h : b.Holds held) {answer : WaitAnswer}
    (hpull : b.pull device answer = .ok b') : b'.Holds held.pull := by
  cases hempty : b.textureSize.isEmpty with
  | true =>
    rcases eq_of_pull hpull with ⟨-, rfl⟩ | ⟨hfalse, -⟩
    · exact h.of_isEmpty hempty
    · rw [hempty] at hfalse
      cases hfalse
  | false =>
    obtain ⟨m, hshape, htexels, rfl⟩ :=
      texels_of_pull hd hempty (h.texture_size hempty) h.staging hpull
    have hsize : m.texels.size = b.staging.texels.size := by
      rw [htexels, b.texture.area, h.texture_size hempty, h.staging]
    have hpadded : held.drawn = false → m.Padded := by
      intro hdrawn
      refine ⟨?_, ?_⟩
      · rw [hsize, hshape]
        exact h.staging
      · rw [hshape, htexels]
        exact h.zero hempty hdrawn
    have hunknown : b.Holds { held with pulled := true } :=
      ⟨h.staging, h.size, h.bytes, fun _ => nofun, h.zero⟩
    have hholds := hunknown.withStaging ⟨hshape, hsize⟩ fun _ => nofun
    exact ⟨hholds.staging, hholds.size, hholds.bytes, fun _ => hpadded, hholds.zero⟩

/-- What is done to the staging memory in place is not in the texture. -/
theorem memory {α : Type} (h : b.Holds held) {x : InPlace b.kind α}
    (hshaped : InPlace.Keeps (Staging.Shaped b.shape b.staging.texels.size) x)
    (hpadded : InPlace.Keeps Staging.Padded x) :
    (b.withStaging (x.memory b.staging)).Holds held :=
  h.withStaging (hshaped _ b.staging.shaped_self) fun hempty hpulled =>
    hpadded _ (h.padded hempty hpulled)

end Holds

/-- A new buffer holds zeros. -/
theorem holds_of_create {device : Device} (hd : device.Copies) {id : BufferId} {kind : BufferKind}
    {shape : Shape kind.rank} {b : Buffer} (h : create device id kind shape = .ok b) :
    b.Holds ⟨List.replicate (4 * shape.textureSize.area) 0, false, false⟩ := by
  obtain ⟨-, -, hpush⟩ := eq_of_create h
  have hzeros : (Staging.zeros shape : Staging kind).bytes =
      List.replicate (4 * shape.textureSize.area) 0 := by
    rw [← flatMap_bytes_replicate, Staging.bytes, Staging.zeros, Array.toList_replicate]
  have hfresh : Holds ⟨id, kind, .zeros shape, .zeros shape.textureSize.allocated⟩
      ⟨(Texture.zeros shape.textureSize.allocated).bytes, false, false⟩ :=
    ⟨Array.size_replicate, rfl, fun _ => rfl, fun _ _ => Staging.padded_zeros shape,
      fun _ _ i _ => getD_replicate_zero _ i⟩
  rw [← hzeros]
  exact hfresh.push hd hpush

end Buffer

end Texelwise

import Texelwise.Buffer.Basic
import Texelwise.Proofs.Buffer.InPlace
import Texelwise.Proofs.Result

/-!
# What keeps a buffer the same buffer

Uploading, reading back, drawing and setting elements change what a buffer holds, not which buffer
it is, and not its shape.

* `InPlace.Keeps`: properties of staging memory that a computation keeps, also where it stops.
* `Staging.Shaped`: no operation changes the shape or the number of texels.
* `Buffer.eq_of_push`, `Buffer.eq_of_pull`, `Buffer.eq_of_create`: what the operations on buffers
  give back.
-/

namespace Texelwise

namespace InPlace

variable {kind : BufferKind} {α β σ : Type} {P : Staging kind → Prop}

/-! ## Properties that computations keep -/

/-- A property of staging memory that a computation keeps, also where it stops. -/
def Keeps (P : Staging kind → Prop) (x : InPlace kind α) : Prop := ∀ m, P m → P (x.memory m)

theorem memory_of_result {x : InPlace kind α} {m m' : Staging kind} {a : α}
    (h : x.result m = .ok (a, m')) : x.memory m = m' := by
  simp only [result, memory] at h ⊢
  split at h
  · cases h
    rfl
  · cases h

/-- A computation that leaves every memory as it is. -/
theorem keeps_of_memory_eq {x : InPlace kind α} (h : ∀ m, x.memory m = m) : Keeps P x := by
  intro m hm
  rwa [h]

theorem keeps_pure (a : α) : Keeps P (pure a : InPlace kind α) := keeps_of_memory_eq fun _ => rfl

theorem keeps_throw (fault : StagingFault kind.rank) : Keeps P (throw fault : InPlace kind α) :=
  keeps_of_memory_eq fun _ => rfl

theorem keeps_get : Keeps P (get : InPlace kind (Staging kind)) := keeps_of_memory_eq fun _ => rfl

theorem keeps_require (result : Except (AccessError kind.rank) α) :
    Keeps P (require result : InPlace kind α) := by
  refine keeps_of_memory_eq fun m => ?_
  cases result <;> rfl

theorem Keeps.bind {x : InPlace kind α} {f : α → InPlace kind β} (hx : Keeps P x)
    (hf : ∀ a, Keeps P (f a)) : Keeps P (x >>= f) := by
  intro m hm
  have hm' := hx m hm
  simp only [memory, EStateM.run_bind] at hm' ⊢
  cases hrun : x.run m with
  | error e m' =>
    rw [hrun] at hm'
    exact hm'
  | ok a m' =>
    rw [hrun] at hm'
    exact hf a m' hm'

theorem memory_read (c : Coord kind.rank) (m : Staging kind) : (read c).memory m = m := by
  rw [memory, run_read]
  cases m.shape.offset c with
  | error e => rfl
  | ok i =>
    dsimp only
    cases m.texels[i]? <;> rfl

theorem keeps_read (c : Coord kind.rank) : Keeps P (read c) := keeps_of_memory_eq (memory_read c)

/-- Filling keeps what putting an element keeps. -/
theorem keeps_fillFrom (hput : ∀ c e, Keeps P (put c e)) (next : Generator kind σ) (count i : Nat)
    (s : σ) : Keeps P (fillFrom next count i s) := by
  induction count generalizing i s with
  | zero => exact keeps_pure s
  | succ count ih =>
    refine keeps_get.bind fun m => (keeps_require _).bind fun c => ?_
    cases next s c with
    | error reason => exact keeps_throw _
    | ok r => exact (hput c r.1).bind fun _ => ih (i + 1) r.2

theorem keeps_fill (hput : ∀ c e, Keeps P (put c e)) (next : Generator kind σ) (s : σ) :
    Keeps P (fill next s) :=
  keeps_get.bind fun _ => keeps_fillFrom hput next _ _ s

theorem keeps_fillWords (hput : ∀ c e, Keeps P (put c e)) (start step : UInt32) :
    Keeps P (fillWords start step) :=
  (keeps_fill hput _ _).bind fun _ => keeps_pure _

end InPlace

/-! ## Shapes -/

namespace Staging

variable {kind : BufferKind} {shape : Shape kind.rank} {size : Nat} {m : Staging kind}

/-- The memory has this shape and so many texels. -/
def Shaped (shape : Shape kind.rank) (size : Nat) (m : Staging kind) : Prop :=
  m.shape = shape ∧ m.texels.size = size

theorem shaped_self (m : Staging kind) : Shaped m.shape m.texels.size m := ⟨rfl, rfl⟩

theorem keeps_put_shaped (c : Coord kind.rank) (e : Element) :
    InPlace.Keeps (Shaped shape size) (InPlace.put c e) := by
  intro m hm
  rw [InPlace.memory, InPlace.run_put]
  cases m.shape.offset c with
  | error e => exact hm
  | ok i =>
    dsimp only
    by_cases h : i < m.texels.size
    · rw [if_pos h]
      exact ⟨hm.1, (size_overwrite h).trans hm.2⟩
    · rw [if_neg h]
      exact hm

theorem Shaped.write (hm : Shaped shape size m) (offset : Nat) (values : List UInt8) :
    Shaped shape size (m.write offset values) :=
  ⟨(m.shape_write offset values).trans hm.1, (m.size_write offset values).trans hm.2⟩

theorem Shaped.copyRows (hm : Shaped shape size m) {row : Nat} {chunks : List (Nat × List UInt8)}
    {m' : Staging kind} (h : Staging.copyRows row chunks m = .ok m') : Shaped shape size m' := by
  induction chunks generalizing m with
  | nil =>
    cases h
    exact hm
  | cons chunk rest ih =>
    rw [Staging.copyRows] at h
    split at h
    · cases h
    · exact ih (hm.write _ _) h

theorem Shaped.takeRows (hm : Shaped shape size m) {row padded : Nat} {mapped : List UInt8}
    {m' : Staging kind} (h : m.takeRows row padded mapped = .ok m') : Shaped shape size m' := by
  unfold Staging.takeRows at h
  split at h
  · cases h
  · exact hm.copyRows (ok_of_mapError h)

end Staging

/-! ## Buffers -/

namespace Buffer

variable {device : Device} {b b' : Buffer}

@[simp] theorem id_paint (b : Buffer) (texel : TexelAt) : (b.paint texel).id = b.id := rfl

@[simp] theorem shape_paint (b : Buffer) (texel : TexelAt) : (b.paint texel).shape = b.shape := rfl

@[simp] theorem textureSize_paint (b : Buffer) (texel : TexelAt) :
    (b.paint texel).textureSize = b.textureSize := rfl

@[simp] theorem id_withStaging (b : Buffer) (m : Staging b.kind) : (b.withStaging m).id = b.id :=
  rfl

theorem textureSize_withStaging {m : Staging b.kind} (h : m.shape = b.shape) :
    (b.withStaging m).textureSize = b.textureSize :=
  congrArg Shape.textureSize h

/-- Uploading paints the texture, if it does anything. -/
theorem eq_of_push (h : b.push device = .ok b') :
    b.textureSize.isEmpty = true ∧ b' = b ∨ b.textureSize.isEmpty = false ∧ ∃ texel,
      device.write b.texture b.staging.bytes b.textureSize.layout b.textureSize = .ok texel ∧
        b' = b.paint texel := by
  unfold push at h
  dsimp only at h
  split at h
  · rename_i hempty
    cases h
    exact .inl ⟨hempty, rfl⟩
  · rename_i hempty
    obtain ⟨texel, htexel, rfl⟩ := ok_of_map (ok_of_mapError h)
    exact .inr ⟨by simpa using hempty, texel, htexel, rfl⟩

/-- Reading back takes the rows that the device gives into the staging memory, if it does
anything. -/
theorem eq_of_pull {answer : WaitAnswer} (h : b.pull device answer = .ok b') :
    b.textureSize.isEmpty = true ∧ b' = b ∨ b.textureSize.isEmpty = false ∧
      answer = .mapped ∧ ∃ mapped m,
        device.read b.texture b.textureSize.paddedLayout b.textureSize
          b.textureSize.paddedBytes = .ok mapped ∧
        b.staging.takeRows (rowBytes b.textureSize.width).toNat
          (paddedRowBytes b.textureSize.width).toNat mapped = .ok m ∧ b' = b.withStaging m := by
  unfold pull at h
  dsimp only at h
  split at h
  · rename_i hempty
    cases h
    exact .inl ⟨hempty, rfl⟩
  · rename_i hempty
    split at h
    · cases h
    · cases h
    · cases h
    · cases h
    · rename_i mapped hread
      obtain ⟨m, hm, rfl⟩ := ok_of_map (ok_of_mapError h)
      exact .inr ⟨by simpa using hempty, rfl, mapped, m, hread, hm, rfl⟩

/-- Reading back changes the staging memory alone, and not its shape. -/
theorem exists_staging_of_pull {answer : WaitAnswer} (h : b.pull device answer = .ok b') :
    ∃ m : Staging b.kind,
      Staging.Shaped b.shape b.staging.texels.size m ∧ b' = b.withStaging m := by
  rcases eq_of_pull h with ⟨-, rfl⟩ | ⟨-, -, mapped, m, -, hm, rfl⟩
  · exact ⟨b'.staging, b'.staging.shaped_self, rfl⟩
  · exact ⟨m, b.staging.shaped_self.takeRows hm, rfl⟩

variable {id : BufferId} {kind : BufferKind} {shape : Shape kind.rank}

/-- A new buffer is one of zeros that is not too large. -/
theorem eq_of_create (h : create device id kind shape = .ok b) :
    shape.textureSize.Within device.limits ∧ Staging.create? shape = some (.zeros shape) ∧
      push device ⟨id, kind, .zeros shape, .zeros shape.textureSize.allocated⟩ = .ok b := by
  unfold create at h
  dsimp only at h
  split at h
  · rename_i hwithin
    split at h
    · cases h
    · rename_i staging hstaging
      have hzeros : staging = .zeros shape := by
        unfold Staging.create? at hstaging
        split at hstaging
        · exact (Option.some.inj hstaging).symm
        · cases hstaging
      subst hzeros
      exact ⟨hwithin, hstaging, h⟩
  · cases h

theorem exists_texture_of_create (h : create device id kind shape = .ok b) :
    ∃ texture, texture.size = shape.textureSize.allocated ∧
      b = ⟨id, kind, .zeros shape, texture⟩ := by
  obtain ⟨-, -, h⟩ := eq_of_create h
  rcases eq_of_push h with ⟨-, rfl⟩ | ⟨-, texel, -, rfl⟩
  · exact ⟨_, rfl, rfl⟩
  · exact ⟨_, Texture.size_paint _ texel, rfl⟩

/-- What a program knows about a new buffer. -/
theorem describe_of_create (h : create device id kind shape = .ok b) :
    b.describe = ⟨id, kind, shape.extents, shape.textureSize⟩ := by
  obtain ⟨texture, -, rfl⟩ := exists_texture_of_create h
  rfl

/-- A new buffer has a texture that the device allows. -/
theorem within_of_create (h : create device id kind shape = .ok b) :
    b.textureSize.Within device.limits := by
  obtain ⟨texture, -, rfl⟩ := exists_texture_of_create h
  exact (eq_of_create h).1

end Buffer

end Texelwise

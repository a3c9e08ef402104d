import Mathlib.Data.List.Nodup
import Texelwise.Session.Basic
import Texelwise.Proofs.Buffer.Identity
import Texelwise.Proofs.Kernel.Slots
import Texelwise.Proofs.Program.Creation
import Texelwise.Proofs.Result

/-!
# What the steps of a session do

A step changes the entries of a session in few ways, and one that fails in fewer. Facts about all
reachable sessions are read off what each kind of step can make of it.

* `Session.Changes`: what a step that succeeds makes of a session; `changes_of_attempt` says that
  there is no more to it. `remains_cases` says what a step that fails leaves.
* `Session.Sound`: no two buffers have one identity, none has one that is still to come, and the
  programs are those that the device has made.
* `sound_step`, `sound_run`: every step keeps a session sound, so every reachable session is.
-/

namespace Texelwise

/-! ## Names -/

namespace Named

variable {κ α β : Type} [DecidableEq κ]

theorem mem_entries_of_get? {m : Named κ α} {name : κ} {value : α}
    (h : m.get? name = some value) : (name, value) ∈ m.entries := by
  obtain ⟨l₁, l₂, hl, -⟩ := List.lookup_eq_some_iff.mp h
  rw [hl]
  exact List.mem_append_right _ List.mem_cons_self

/-- What is put at a name comes new, or in the place of what was there. -/
theorem mem_put {name : κ} {value : α} {entries : List (κ × α)} {e : κ × α}
    (h : e ∈ put name value entries) : e = (name, value) ∨ e ∈ entries := by
  induction entries with
  | nil => exact .inl (List.mem_singleton.mp h)
  | cons x rest ih =>
    rw [put] at h
    split at h
    · rename_i hx
      rcases List.mem_cons.mp h with rfl | h
      · exact .inl (by rw [hx])
      · exact .inr (List.mem_cons_of_mem _ h)
    · rcases List.mem_cons.mp h with rfl | h
      · exact .inr List.mem_cons_self
      · exact (ih h).imp id (List.mem_cons_of_mem _)

/-- A value that looks the same as the one in its place changes no view of the entries. -/
theorem map_set {f : α → β} {m : Named κ α} {name : κ} {old new : α}
    (h : m.get? name = some old) (hf : f new = f old) :
    (m.set name new).entries.map (fun e => f e.2) = m.entries.map fun e => f e.2 := by
  obtain ⟨entries⟩ := m
  simp only [set, get?] at h ⊢
  induction entries with
  | nil => cases h
  | cons x rest ih =>
    obtain ⟨n, v⟩ := x
    rw [put]
    by_cases hn : n = name
    · rw [List.lookup_cons, hn, beq_self_eq_true] at h
      obtain rfl : v = old := by simpa using h
      rw [if_pos hn, List.map_cons, List.map_cons, hf]
    · rw [List.lookup_cons, beq_false_of_ne (Ne.symm hn)] at h
      rw [if_neg hn, List.map_cons, List.map_cons, ih h]

/-- A value with a new view keeps the views apart. -/
theorem nodup_set {f : α → β} {m : Named κ α} {name : κ} {new : α}
    (h : (m.entries.map fun e => f e.2).Nodup) (hnew : f new ∉ m.entries.map fun e => f e.2) :
    ((m.set name new).entries.map fun e => f e.2).Nodup := by
  obtain ⟨entries⟩ := m
  simp only [set] at h hnew ⊢
  induction entries with
  | nil => exact List.nodup_cons.mpr ⟨List.not_mem_nil, List.nodup_nil⟩
  | cons x rest ih =>
    obtain ⟨n, v⟩ := x
    rw [List.map_cons] at h hnew
    obtain ⟨hv, hrest⟩ := List.nodup_cons.mp h
    obtain ⟨hne, hnot⟩ := not_or.mp fun hor => hnew (List.mem_cons.mpr hor)
    rw [put]
    split
    · exact List.nodup_cons.mpr ⟨hnot, hrest⟩
    · refine List.nodup_cons.mpr ⟨fun hmem => ?_, ih hrest hnot⟩
      obtain ⟨e, he, hfe⟩ := List.mem_map.mp hmem
      rcases mem_put he with rfl | he
      · exact hne hfe
      · exact hv (List.mem_map.mpr ⟨e, he, hfe⟩)

end Named

/-- Whether a step that succeeds leaves every session as it is. -/
def Step.reads : Step → Bool
  | .describe _ | .get _ _ | .data _ | .finish _ | .limits => true
  | .create _ _ _ | .set _ _ _ | .fill _ _ _ | .push _ | .pull _ _ | .compile _ _ | .run _ _ _
  | .drop _ => false

namespace Session

/-! ## Steps by what they change -/

theorem get?_of_buffer {s : Session} {id : String} {b : Buffer} (h : s.buffer id = .ok b) :
    s.buffers.get? id = some b := by
  unfold buffer at h
  split at h
  · cases h; assumption
  · cases h

theorem buffer_of_get? {s : Session} {name : String} {b : Buffer}
    (h : s.buffers.get? name = some b) : s.buffer name = .ok b := by
  rw [buffer, h]

theorem program_of_get? {s : Session} {id : String} {p : Program}
    (h : s.programs.get? id = some p) : s.program id = .ok p := by
  rw [program, h]

theorem get?_of_program {s : Session} {id : String} {p : Program} (h : s.program id = .ok p) :
    s.programs.get? id = some p := by
  unfold program at h
  split at h
  · cases h; assumption
  · cases h

theorem describe_eq_ok {s : Session} {n : String} {desc : BufferDesc}
    (h : s.describe n = .ok desc) : ∃ b, s.buffers.get? n = some b ∧ desc = b.describe := by
  obtain ⟨b, hb, h⟩ := ok_of_bind h
  cases h
  exact ⟨b, get?_of_buffer hb, rfl⟩

/-- The buffers that names stand for. -/
abbrev Stands (s : Session) (names : List String) (bs : List Buffer) : Prop :=
  List.Forall₂ (fun n b => s.buffers.get? n = some b) names bs

theorem stands_of_mapM {s : Session} {names : List String} {descs : List BufferDesc}
    (h : names.mapM s.describe = .ok descs) :
    ∃ bs, s.Stands names bs ∧ descs = bs.map Buffer.describe := by
  have hall := forall₂_of_mapM h
  clear h
  induction hall with
  | nil => exact ⟨[], .nil, rfl⟩
  | cons hd _ ih =>
    obtain ⟨bs, hbs, rfl⟩ := ih
    obtain ⟨b, hb, rfl⟩ := describe_eq_ok hd
    exact ⟨b :: bs, .cons hb hbs, rfl⟩

/-- What a step that succeeds makes of a session, and the calls that it makes. -/
inductive Changes (s : Session) : Step → List Call → Session → Prop
  | same {request : Step} (hreads : request.reads = true) : s.Changes request [] s
  | create {name : String} {kind : BufferKind} {shape : Shape kind.rank} {b : Buffer}
      (hb : Buffer.create s.device s.nextId kind shape = .ok b) : s.Changes
        (.create name kind shape) [] { s.putBuffer name b with nextId := s.nextId.next }
  | set {name : String} {place : List Nat} {e : Element} {b : Buffer} {c : Coord b.kind.rank}
      (hb : s.buffers.get? name = some b) : s.Changes (.set name place e) []
        (s.putBuffer name (b.withStaging ((InPlace.put c e).memory b.staging)))
  | fill {name : String} {start step : UInt32} {b : Buffer} (hb : s.buffers.get? name = some b) :
      s.Changes (.fill name start step) []
        (s.putBuffer name (b.withStaging ((InPlace.fillWords start step).memory b.staging)))
  | push {name : String} {b b' : Buffer} (hb : s.buffers.get? name = some b)
      (hpush : b.push s.device = .ok b') : s.Changes (.push name) [] (s.putBuffer name b')
  | pull {name : String} {answer : WaitAnswer} {b b' : Buffer}
      (hb : s.buffers.get? name = some b) (hpull : b.pull s.device answer = .ok b') :
      s.Changes (.pull name answer) [] (s.putBuffer name b')
  | compile {name : String} {source : Text} {p : Program}
      (hp : Program.create s.device source = .ok p) : s.Changes (.compile name source)
        p.creationCalls { s with programs := s.programs.set name p }
  | run {name : String} {outputs : List String} {values : List (Text × StepValue)} {p : Program}
      {bs : List Buffer} {uniforms : Uniforms} {calls : List Call}
      (hp : s.programs.get? name = some p) (hbs : s.Stands outputs bs)
      (hcalls : p.run s.limits (bs.map Buffer.describe) uniforms = .ok calls) :
      s.Changes (.run name outputs values) calls (s.drawn (s.drawing p calls) (bs.map (·.id)))
  | drop {name : String} : s.Changes (.drop name) []
      { s with buffers := s.buffers.erase name, programs := s.programs.erase name }

/-- Every step that succeeds changes a session in one of these ways. -/
theorem changes_of_attempt {s : Session} {request : Step} {o : Outcome}
    (h : s.attempt request = .ok o) : s.Changes request o.calls o.session := by
  cases request with
  | create id kind shape =>
    obtain ⟨b, hb, h⟩ := ok_of_bind h
    cases h
    exact .create (ok_of_mapError hb)
  | describe id =>
    obtain ⟨b, hb, h⟩ := ok_of_bind h
    cases h
    exact .same rfl
  | get id place =>
    obtain ⟨b, hb, h⟩ := ok_of_bind h
    obtain ⟨c, hc, h⟩ := ok_of_bind h
    obtain ⟨⟨e, _⟩, he, h⟩ := ok_of_bind h
    cases h
    exact .same rfl
  | set id place e =>
    obtain ⟨b, hb, h⟩ := ok_of_bind h
    obtain ⟨c, hc, h⟩ := ok_of_bind h
    dsimp only at h
    split at h
    · cases h
    · obtain ⟨⟨_, staging⟩, hs, h⟩ := ok_of_bind h
      cases h
      rw [← InPlace.memory_of_result (ok_of_mapError hs)]
      exact .set (get?_of_buffer hb)
  | fill id start step =>
    obtain ⟨b, hb, h⟩ := ok_of_bind h
    obtain ⟨⟨places, staging⟩, hs, h⟩ := ok_of_bind h
    cases h
    rw [← InPlace.memory_of_result (ok_of_mapError hs)]
    exact .fill (get?_of_buffer hb)
  | data id =>
    obtain ⟨b, hb, h⟩ := ok_of_bind h
    obtain ⟨⟨elements, _⟩, he, h⟩ := ok_of_bind h
    cases h
    exact .same rfl
  | push id =>
    obtain ⟨b, hb, h⟩ := ok_of_bind h
    obtain ⟨b', hb', h⟩ := ok_of_bind h
    cases h
    exact .push (get?_of_buffer hb) (ok_of_mapError hb')
  | pull id answer =>
    obtain ⟨b, hb, h⟩ := ok_of_bind h
    obtain ⟨b', hb', h⟩ := ok_of_bind h
    cases h
    exact .pull (get?_of_buffer hb) (ok_of_mapError hb')
  | compile id source =>
    obtain ⟨p, hp, h⟩ := ok_of_bind h
    cases h
    exact .compile (ok_of_mapError hp)
  | run id outputs values =>
    obtain ⟨p, hp, h⟩ := ok_of_bind h
    obtain ⟨descs, hd, h⟩ := ok_of_bind h
    obtain ⟨vs, hv, h⟩ := ok_of_bind h
    obtain ⟨calls, hc, h⟩ := ok_of_bind h
    cases h
    obtain ⟨bs, hbs, rfl⟩ := stands_of_mapM hd
    rw [List.map_map]
    exact .run (get?_of_program hp) hbs (ok_of_mapError hc)
  | drop id =>
    cases h
    exact .drop
  | finish failure =>
    cases failure with
    | none =>
      cases h
      exact .same rfl
    | some reason => cases h
  | limits =>
    cases h
    exact .same rfl

/-- What a step that fails leaves of a session: all of it, but for an identity that was used up or
elements that were filled before it stopped. -/
theorem remains_cases (s : Session) (request : Step) :
    s.remains request = s ∨
      (∃ name kind shape, request = .create name kind shape ∧
        shape.textureSize.Within s.device.limits ∧
        s.remains request = { s with nextId := s.nextId.next }) ∨
      ∃ name start step b, request = .fill name start step ∧ s.buffers.get? name = some b ∧
        s.remains request =
          s.putBuffer name (b.withStaging ((InPlace.fillWords start step).memory b.staging)) := by
  cases request with
  | create id kind shape =>
    by_cases hwithin : shape.textureSize.Within s.device.limits
    · exact .inr (.inl ⟨id, kind, shape, rfl, hwithin, if_pos hwithin⟩)
    · exact .inl (if_neg hwithin)
  | fill id start step =>
    cases hb : s.buffers.get? id with
    | none =>
      refine .inl ?_
      rw [remains, hb]
    | some b =>
      refine .inr (.inr ⟨id, start, step, b, rfl, hb, ?_⟩)
      rw [remains, hb]
  | _ => exact .inl rfl

theorem Changes.device {s s' : Session} {request : Step} {calls : List Call}
    (h : s.Changes request calls s') : s'.device = s.device := by
  cases h <;> rfl

/-- No step changes the device. -/
theorem device_step (s : Session) (request : Step) : (s.step request).1.device = s.device := by
  cases ha : s.attempt request with
  | error e =>
    rw [step_of_attempt_error ha]
    rcases s.remains_cases request with h | ⟨_, _, _, -, -, h⟩ | ⟨_, _, _, _, -, -, h⟩ <;> rw [h]
    rfl
  | ok o =>
    rw [step_of_attempt_ok ha]
    exact (changes_of_attempt ha).device

theorem device_run (s : Session) (requests : List Step) : (s.run requests).1.device = s.device := by
  induction requests generalizing s with
  | nil => rfl
  | cons request rest ih => exact (ih (s.step request).1).trans (s.device_step request)

theorem limits_run_start (device : Device) (requests : List Step) :
    ((start device).run requests).1.limits = device.limits := by
  rw [limits, device_run]
  rfl

/-! ## Drawing -/

/-- The texels that a drawing leaves in the texture of a buffer that is among the targets. -/
def drawnTexel? (s : Session) (d : Draw) (targets : List BufferId) (id : BufferId) :
    Option TexelAt :=
  (targets.findIdx? fun target => target = id).map (s.device.draw d)

theorem get?_drawn (s : Session) (d : Draw) (targets : List BufferId) (name : String) :
    (s.drawn d targets).buffers.get? name = (s.buffers.get? name).map fun b =>
      ((s.drawnTexel? d targets b.id).map b.paint).getD b := by
  rw [drawn, Named.get?_mapValues]
  congr 1
  funext b
  rw [drawnTexel?]
  cases targets.findIdx? fun target => target = b.id <;> rfl

/-- A drawing leaves everything of a buffer but the texels of its texture. -/
theorem map_drawn {α : Type} {f : Buffer → α} (hf : ∀ b texel, f (b.paint texel) = f b)
    (s : Session) (d : Draw) (targets : List BufferId) :
    ((s.drawn d targets).buffers.entries.map fun e => f e.2) =
      s.buffers.entries.map fun e => f e.2 := by
  rw [drawn, Named.mapValues, List.map_map]
  refine List.map_congr_left fun e _ => ?_
  simp only [Function.comp_apply]
  split
  · exact hf e.2 _
  · rfl

/-! ## Sound sessions -/

/-- The identities of the buffers. -/
def ids (s : Session) : List BufferId := s.buffers.entries.map fun e => e.2.id

/-- Buffers have identities of their own, later buffers will have others, and programs are made on
the device. -/
structure Sound (s : Session) : Prop where
  nodup : s.ids.Nodup
  fresh : ∀ id ∈ s.ids, id.number < s.nextId.number
  made : ∀ e ∈ s.programs.entries, ∃ source, Program.create s.device source = .ok e.2

theorem sound_start (device : Device) : (start device).Sound := by
  refine ⟨List.nodup_nil, ?_, ?_⟩
  · intro id hid
    cases hid
  · intro e he
    cases he

/-- A program comes from the compiler. -/
theorem Sound.compiled {s : Session} (h : s.Sound) {name : String} {p : Program}
    (hp : s.programs.get? name = some p) : ∃ source, Texelwise.compile source = .ok p.script := by
  obtain ⟨source, hmade⟩ := h.made _ (Named.mem_entries_of_get? hp)
  exact ⟨source, (Program.create_eq_ok hmade).1⟩

/-- Putting a buffer in its own place keeps a session sound. -/
theorem Sound.putBuffer {s : Session} (h : s.Sound) {name : String} {b b' : Buffer}
    (hb : s.buffers.get? name = some b) (hid : b'.id = b.id) : (s.putBuffer name b').Sound := by
  have hids : (s.putBuffer name b').ids = s.ids := Named.map_set hb hid
  refine ⟨?_, ?_, h.made⟩
  · rw [hids]
    exact h.nodup
  · rw [hids]
    exact h.fresh

/-- Identities can be used up without a buffer. -/
theorem Sound.next {s : Session} (h : s.Sound) :
    ({ s with nextId := s.nextId.next } : Session).Sound :=
  ⟨h.nodup, fun id hid => Nat.lt_succ_of_lt (h.fresh id hid), h.made⟩

/-- None of the ways to change a session makes it unsound. -/
theorem Sound.changes {s s' : Session} {request : Step} {calls : List Call} (h : s.Sound)
    (hc : s.Changes request calls s') : s'.Sound := by
  cases hc with
  | same => exact h
  | set hb => exact h.putBuffer hb rfl
  | fill hb => exact h.putBuffer hb rfl
  | push hb hpush =>
    refine h.putBuffer hb ?_
    rcases Buffer.eq_of_push hpush with ⟨-, rfl⟩ | ⟨-, texel, -, rfl⟩ <;> rfl
  | pull hb hpull =>
    obtain ⟨m, -, rfl⟩ := Buffer.exists_staging_of_pull hpull
    exact h.putBuffer hb rfl
  | @create name kind shape b hb =>
    have hid : b.id = s.nextId := by
      obtain ⟨texture, -, rfl⟩ := Buffer.exists_texture_of_create hb
      rfl
    -- All identities so far are below the next one.
    have hnew : b.id ∉ s.ids := by
      intro hmem
      have := h.fresh b.id hmem
      rw [hid] at this
      omega
    refine ⟨Named.nodup_set h.nodup hnew, ?_, h.made⟩
    intro id hmem
    obtain ⟨e, he, rfl⟩ := List.mem_map.mp hmem
    show e.2.id.number < s.nextId.number + 1
    rcases Named.mem_put he with rfl | he
    · rw [hid]
      omega
    · have := h.fresh e.2.id (List.mem_map.mpr ⟨e, he, rfl⟩)
      omega
  | @compile name source p hp =>
    refine ⟨h.nodup, h.fresh, ?_⟩
    intro e he
    rcases Named.mem_put he with rfl | he
    · exact ⟨source, hp⟩
    · exact h.made e he
  | @run name outputs values p bs uniforms calls hp hbs =>
    have hids : (s.drawn (s.drawing p calls) (bs.map (·.id))).ids = s.ids :=
      s.map_drawn Buffer.id_paint _ _
    refine ⟨?_, ?_, h.made⟩
    · rw [hids]
      exact h.nodup
    · rw [hids]
      exact h.fresh
  | @drop name =>
    have hsub : List.Sublist (s.buffers.entries.filter fun e => e.1 ≠ name) s.buffers.entries :=
      List.filter_sublist
    refine ⟨h.nodup.sublist (hsub.map _), ?_, ?_⟩
    · intro id hmem
      exact h.fresh id ((hsub.map fun e => e.2.id).subset hmem)
    · intro e he
      exact h.made e (List.mem_of_mem_filter he)

/-- What a step that fails leaves is sound. -/
theorem Sound.remains {s : Session} (h : s.Sound) (request : Step) : (s.remains request).Sound := by
  rcases s.remains_cases request with hs | ⟨_, _, _, -, -, hs⟩ | ⟨_, _, _, b, -, hb, hs⟩ <;> rw [hs]
  · exact h
  · exact h.next
  · exact h.putBuffer hb rfl

/-- A step keeps a session sound. -/
theorem sound_step {s : Session} (h : s.Sound) (request : Step) : (s.step request).1.Sound := by
  cases ha : s.attempt request with
  | error e =>
    rw [step_of_attempt_error ha]
    exact h.remains request
  | ok o =>
    rw [step_of_attempt_ok ha]
    exact h.changes (changes_of_attempt ha)

/-- Steps one after another keep a session sound. -/
theorem sound_run {s : Session} (h : s.Sound) (requests : List Step) :
    (s.run requests).1.Sound := by
  induction requests generalizing s with
  | nil => exact h
  | cons request rest ih => exact ih (sound_step h request)

/-- In a sound session a buffer has one name. -/
theorem Sound.name_unique {s : Session} (h : s.Sound) {n n' : String} {b b' : Buffer}
    (hb : s.buffers.get? n = some b) (hb' : s.buffers.get? n' = some b') (hid : b.id = b'.id) :
    n = n' ∧ b = b' := by
  have hmem := Named.mem_entries_of_get? hb
  have hmem' := Named.mem_entries_of_get? hb'
  have heq : (n, b) = (n', b') := List.inj_on_of_nodup_map h.nodup hmem hmem' hid
  exact ⟨congrArg Prod.fst heq, congrArg Prod.snd heq⟩

end Session

end Texelwise

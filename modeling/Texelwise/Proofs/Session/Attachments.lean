import Texelwise.Proofs.Buffer.Packing
import Texelwise.Proofs.Program.Creation
import Texelwise.Proofs.Session.Aliasing

/-!
# Which runs fail at their textures

What has no place on a device is refused when it is made. A run that passes validation therefore
finds every texture small enough and every output with an attachment to go to; only a plane without
texels still has no texture to draw into.

* `Session.Within`: all that a session holds has passed the limits of its device;
  `Session.within_run` says so of every session that steps lead to.
* `Program.firstFault?_of_accepted`: the only fault that validation leaves.
* `Session.Asks`: what a run asks for; `Session.attempt_run_eq_error_iff` says how it fails.
* `Session.incompleteAttachment_iff_of_run`: the runs that fail at their textures.
-/

namespace Texelwise

/-! ## Textures without texels -/

theorem TextureSize.isEmpty_iff {size : TextureSize} :
    size.isEmpty = true ↔ size.width = 0 ∨ size.height = 0 := by
  simp [isEmpty]

/-- A packed texture has texels, however few elements there are. -/
theorem isEmpty_packed (length : Nat) :
    ¬ (TextureSize.mk (packSide length) (packSide length)).isEmpty = true := by
  have hfour := four_le_packSide length
  rw [TextureSize.isEmpty_iff]
  dsimp only
  omega

theorem Shape.rank_of_isEmpty {r : Rank} {s : Shape r} (h : s.textureSize.isEmpty = true) :
    r = .two := by
  cases s with
  | plane width height => rfl
  | line width => exact absurd h (isEmpty_packed _)
  | volume width height depth => exact absurd h (isEmpty_packed _)

/-! ## Limits -/

/-- A script has outputs, and the device has room for it. -/
structure Script.Within (script : Script) (limits : Limits) : Prop where
  limit : Program.exceededLimit? limits script = none
  outputs : script.thread.outputs ≠ []

namespace Program

theorem within_of_create {device : Device} {source : Text} {p : Program}
    (h : create device source = .ok p) : p.script.Within device.limits :=
  ⟨(create_eq_ok h).2.1, outputs_ne_nil_of_compile (create_eq_ok h).1⟩

theorem length_le_of_exceededLimit? {limits : Limits} {script : Script}
    (h : exceededLimit? limits script = none) :
    script.thread.outputs.length ≤ limits.maxColorAttachments := by
  unfold exceededLimit? at h
  dsimp only at h
  split at h
  · cases h
  · rename_i hle
    exact Nat.le_trans (Nat.not_lt.mp hle) (Nat.min_le_left _ _)

end Program

theorem Accepted.length_eq {script : Script} {outputs : List BufferDesc} {uniforms : Uniforms}
    (h : Accepted script outputs uniforms) :
    outputs.length = script.thread.outputs.length := by
  have hlength := congrArg List.length h.kinds
  rwa [List.length_map, List.length_map] at hlength

theorem Accepted.rank_eq {script : Script} {outputs : List BufferDesc} {uniforms : Uniforms}
    (h : Accepted script outputs uniforms) {desc : BufferDesc} (hdesc : desc ∈ outputs) :
    desc.kind.rank = script.thread.rank := by
  have hkind : desc.kind ∈ outputs.map (·.kind) := List.mem_map_of_mem hdesc
  rw [h.kinds] at hkind
  obtain ⟨e, -, he⟩ := List.mem_map.mp hkind
  rw [← he]

namespace Program

variable {limits : Limits}

theorem attachmentFault?_of_within {size : TextureSize} (h : size.Within limits) :
    attachmentFault? limits size = if size.isEmpty then some (.empty size) else none := by
  have hside : ¬ (limits.maxTextureSide < size.width ∨ limits.maxTextureSide < size.height) :=
    not_or.mpr ⟨Nat.not_lt.mpr h.1, Nat.not_lt.mpr h.2⟩
  rw [attachmentFault?, if_neg hside]

/-- The only fault that validation leaves is a texture without texels, and the first output has
it. -/
theorem firstFault?_of_accepted {script : Script} {first : BufferDesc} {rest : List BufferDesc}
    {uniforms : Uniforms} (h : Accepted script (first :: rest) uniforms)
    (hscript : script.Within limits) (hsize : first.textureSize.Within limits) :
    firstFault? limits (first :: rest) =
      if first.textureSize.isEmpty then some (0, .empty first.textureSize) else none := by
  have hcount : ¬ limits.maxColorAttachments < (first :: rest).length := by
    rw [h.length_eq]
    exact Nat.not_lt.mpr (length_le_of_exceededLimit? hscript.limit)
  -- All outputs have the size of the first one and so the same fault.
  have hfault : ∀ o ∈ first :: rest, attachmentFault? limits o.textureSize =
      if first.textureSize.isEmpty then some (.empty first.textureSize) else none := fun o ho => by
    rw [h.sizes first rfl o ho]
    exact attachmentFault?_of_within hsize
  rw [firstFault?, if_neg hcount]
  split
  · rename_i hempty
    rw [List.zipIdx_cons, List.findSome?_cons]
    dsimp only
    rw [hfault first List.mem_cons_self, if_pos hempty]
    rfl
  · rename_i hempty
    rw [List.findSome?_eq_none_iff]
    rintro ⟨o, i⟩ hx
    have ho : o ∈ first :: rest := List.mem_of_getElem? (List.mem_zipIdx_iff_getElem?.mp hx)
    dsimp only
    rw [hfault o ho, if_neg hempty]
    rfl

/-- A run fails at its textures exactly if validation finds nothing and the first output has a
texture without texels. -/
theorem run_eq_incompleteAttachment_iff {p : Program} {outputs : List BufferDesc}
    {uniforms : Uniforms} (hscript : p.script.Within limits)
    (hsizes : ∀ o ∈ outputs, o.textureSize.Within limits) {index : Nat} {reason : String} :
    p.run limits outputs uniforms = .error (.incompleteAttachment index reason) ↔
      violations p.script outputs uniforms = [] ∧ ∃ first ∈ outputs.head?,
        first.textureSize.isEmpty = true ∧ index = 0 ∧
          reason = (AttachmentFault.empty first.textureSize).reason := by
  unfold run
  dsimp only
  split
  · rename_i hfound
    refine ⟨nofun, fun h => ?_⟩
    rw [h.1] at hfound
    cases hfound
  · rename_i hfound
    have hnil : violations p.script outputs uniforms = [] := by simpa using hfound
    have haccepted := violations_eq_nil_iff.mp hnil
    cases outputs with
    | nil => exact ⟨nofun, fun ⟨_, first, hfirst, _⟩ => nomatch hfirst⟩
    | cons first rest =>
      simp only [firstFault?_of_accepted haccepted hscript (hsizes first List.mem_cons_self),
        List.head?_cons, Option.mem_def, Option.some.injEq, exists_eq_left', hnil, true_and]
      by_cases hempty : first.textureSize.isEmpty = true
      · rw [if_pos hempty]
        simp [hempty, eq_comm]
      · rw [if_neg hempty]
        -- A block that is not laid out as it should be is another failure.
        cases hbytes : blockBytes p.script.bindings first uniforms <;>
          simp [hempty, Except.map, Except.mapError]

end Program

namespace Session

/-! ## Sessions within limits -/

/-- All that a session holds has passed the limits of its device. -/
structure Within (s : Session) : Prop where
  buffers : ∀ e ∈ s.buffers.entries, e.2.textureSize.Within s.limits
  programs : ∀ e ∈ s.programs.entries, e.2.script.Within s.limits

theorem within_start (device : Device) : (start device).Within := by
  refine ⟨fun e he => ?_, fun e he => ?_⟩ <;> cases he

theorem Within.putBuffer {s : Session} (h : s.Within) {name : String} {b : Buffer}
    (hb : b.textureSize.Within s.limits) : (s.putBuffer name b).Within := by
  refine ⟨fun e he => ?_, h.programs⟩
  rcases Named.mem_put he with rfl | he
  · exact hb
  · exact h.buffers e he

theorem Within.buffer {s : Session} (h : s.Within) {name : String} {b : Buffer}
    (hb : s.buffers.get? name = some b) : b.textureSize.Within s.limits :=
  h.buffers _ (Named.mem_entries_of_get? hb)

/-- A computation on staging memory leaves the size of the texture. -/
theorem Within.withStaging {s : Session} (h : s.Within) {name : String} {b : Buffer}
    (hb : s.buffers.get? name = some b) {α : Type} {x : InPlace b.kind α}
    (hx : InPlace.Keeps (Staging.Shaped b.shape b.staging.texels.size) x) :
    (s.putBuffer name (b.withStaging (x.memory b.staging))).Within := by
  have hshape := (hx b.staging b.staging.shaped_self).1
  refine h.putBuffer ?_
  rw [Buffer.textureSize_withStaging hshape]
  exact h.buffer hb

/-- None of the ways to change a session exceeds a limit. -/
theorem Within.changes {s s' : Session} {request : Step} {calls : List Call} (h : s.Within)
    (hc : s.Changes request calls s') : s'.Within := by
  cases hc with
  | same => exact h
  | @create name kind shape b hb =>
    exact ⟨(h.putBuffer (Buffer.within_of_create hb)).1, h.programs⟩
  | @set name place e b c hb => exact h.withStaging hb (Staging.keeps_put_shaped c e)
  | @fill name start step b hb =>
    exact h.withStaging hb (InPlace.keeps_fillWords Staging.keeps_put_shaped start step)
  | @push name b b' hb hpush =>
    refine h.putBuffer ?_
    rcases Buffer.eq_of_push hpush with ⟨-, rfl⟩ | ⟨-, texel, -, rfl⟩
    · exact h.buffer hb
    · rw [Buffer.textureSize_paint]
      exact h.buffer hb
  | @pull name answer b b' hb hpull =>
    obtain ⟨m, hm, rfl⟩ := Buffer.exists_staging_of_pull hpull
    refine h.putBuffer ?_
    rw [Buffer.textureSize_withStaging hm.1]
    exact h.buffer hb
  | @compile name source p hp =>
    refine ⟨h.buffers, fun e he => ?_⟩
    rcases Named.mem_put he with rfl | he
    · exact Program.within_of_create hp
    · exact h.programs e he
  | @run name outputs values p bs uniforms calls hp hbs =>
    refine ⟨fun e he => ?_, h.programs⟩
    have hsizes := s.map_drawn Buffer.textureSize_paint (s.drawing p calls) (bs.map (·.id))
    have hsize : e.2.textureSize ∈ s.buffers.entries.map fun e => e.2.textureSize := by
      rw [← hsizes]
      exact List.mem_map.mpr ⟨e, he, rfl⟩
    obtain ⟨e', he', hsize⟩ := List.mem_map.mp hsize
    rw [← hsize]
    exact h.buffers e' he'
  | @drop name =>
    exact ⟨fun e he => h.buffers e (List.mem_of_mem_filter he),
      fun e he => h.programs e (List.mem_of_mem_filter he)⟩

/-- Nor does what a step that fails leaves. -/
theorem Within.remains {s : Session} (h : s.Within) (request : Step) :
    (s.remains request).Within := by
  rcases s.remains_cases request with hs | ⟨_, _, _, -, -, hs⟩ | ⟨_, _, _, b, -, hb, hs⟩ <;> rw [hs]
  · exact h
  · exact ⟨h.buffers, h.programs⟩
  · exact h.withStaging hb (InPlace.keeps_fillWords Staging.keeps_put_shaped _ _)

/-- A step exceeds no limit. -/
theorem within_step {s : Session} (h : s.Within) (request : Step) : (s.step request).1.Within := by
  cases ha : s.attempt request with
  | error e =>
    rw [step_of_attempt_error ha]
    exact h.remains request
  | ok o =>
    rw [step_of_attempt_ok ha]
    exact h.changes (changes_of_attempt ha)

/-- Steps one after another exceed no limit. -/
theorem within_run {s : Session} (h : s.Within) (requests : List Step) :
    (s.run requests).1.Within := by
  induction requests generalizing s with
  | nil => exact h
  | cons request rest ih => exact ih (within_step h request)

/-! ## What a run asks for -/

/-- A run asks for the program `p` on the outputs `bs` with the values `uniforms`. -/
structure Asks (s : Session) (id : String) (outputs : List String)
    (values : List (Text × StepValue)) (p : Program) (bs : List Buffer) (uniforms : Uniforms) :
    Prop where
  program : s.programs.get? id = some p
  outputs : s.Stands outputs bs
  values : ∃ vs, List.Forall₂ (fun x y => y.1 = x.1 ∧ s.Means x.2 y.2) values vs ∧
    uniforms = .ofList vs

theorem mapM_describe {s : Session} {names : List String} {bs : List Buffer}
    (h : s.Stands names bs) : names.mapM s.describe = .ok (bs.map Buffer.describe) := by
  refine mapM_of_forall₂ ?_
  rw [List.forall₂_map_right_iff]
  refine h.imp fun n b hb => ?_
  rw [describe, buffer_of_get? hb]
  rfl

theorem mapM_value {s : Session} {values : List (Text × StepValue)}
    {vs : List (Text × UniformValue)}
    (h : List.Forall₂ (fun x y => y.1 = x.1 ∧ s.Means x.2 y.2) values vs) :
    (values.mapM fun (name, v) => do return (name, ← s.value v)) = .ok vs := by
  refine mapM_of_forall₂ (h.imp ?_)
  rintro ⟨name, v⟩ ⟨name', w⟩ ⟨rfl, hw⟩
  have hw : s.value v = .ok w := hw
  dsimp only
  rw [hw]
  rfl

/-- A run that asks for something that there is gives what the program gives. -/
theorem Asks.attempt_eq {s : Session} {id : String} {outputs : List String}
    {values : List (Text × StepValue)} {p : Program} {bs : List Buffer} {uniforms : Uniforms}
    (h : s.Asks id outputs values p bs uniforms) :
    s.attempt (.run id outputs values) =
      ((p.run s.limits (bs.map Buffer.describe) uniforms).mapError StepError.execute).map
        fun calls => ⟨s.drawn (s.drawing p calls) (bs.map (·.id)), .completed, calls⟩ := by
  obtain ⟨hp, hbs, vs, hvs, rfl⟩ := h
  have hids : (bs.map Buffer.describe).map (·.id) = bs.map (·.id) := List.map_map
  rw [attempt, execute, program_of_get? hp, mapM_describe hbs, mapM_value hvs, ← hids]
  rfl

/-- A run that its program refuses asks for something that there is. -/
theorem exists_asks_of_attempt {s : Session} {id : String} {outputs : List String}
    {values : List (Text × StepValue)} {e : ExecuteError}
    (h : s.attempt (.run id outputs values) = .error (.execute e)) :
    ∃ p bs uniforms, s.Asks id outputs values p bs uniforms := by
  have hbuffer : ∀ n, s.buffer n ≠ .error (.execute e) := fun n h => by
    unfold buffer at h
    split at h <;> cases h
  have hdescribe : ∀ n, s.describe n ≠ .error (.execute e) := fun n h => by
    rcases error_of_bind h with h | ⟨b, -, h⟩
    · exact hbuffer n h
    · cases h
  -- Looking up the program, the outputs and the values fails with other errors.
  rcases error_of_bind h with h | ⟨p, hp, h⟩
  · unfold program at h
    split at h <;> cases h
  · rcases error_of_bind h with h | ⟨descs, hdescs, h⟩
    · obtain ⟨n, -, h⟩ := error_of_mapM h
      exact absurd h (hdescribe n)
    · rcases error_of_bind h with h | ⟨vs, hvs, -⟩
      · obtain ⟨⟨name, v⟩, -, h⟩ := error_of_mapM h
        rcases error_of_bind h with h | ⟨w, -, h⟩
        · cases v with
          | int | float => cases h
          | buffer n =>
            rcases error_of_bind h with h | ⟨desc, -, h⟩
            · exact absurd h (hdescribe n)
            · cases h
        · cases h
      · obtain ⟨bs, hbs, rfl⟩ := stands_of_mapM hdescs
        refine ⟨p, bs, .ofList vs, get?_of_program hp, hbs, vs, (forall₂_of_mapM hvs).imp ?_, rfl⟩
        rintro ⟨name, v⟩ ⟨name', w⟩ hw
        obtain ⟨w', hw', h⟩ := ok_of_bind hw
        cases h
        exact ⟨rfl, hw'⟩

/-- A run is refused by its program exactly if it asks for something that there is and the program
refuses that. -/
theorem attempt_run_eq_error_iff {s : Session} {id : String} {outputs : List String}
    {values : List (Text × StepValue)} {e : ExecuteError} :
    s.attempt (.run id outputs values) = .error (.execute e) ↔
      ∃ p bs uniforms, s.Asks id outputs values p bs uniforms ∧
        p.run s.limits (bs.map Buffer.describe) uniforms = .error e := by
  have hrun : ∀ {p bs uniforms}, s.Asks id outputs values p bs uniforms →
      (s.attempt (.run id outputs values) = .error (.execute e) ↔
        p.run s.limits (bs.map Buffer.describe) uniforms = .error e) := fun {p bs uniforms} h => by
    rw [h.attempt_eq]
    cases p.run s.limits (bs.map Buffer.describe) uniforms with
    | ok calls => exact ⟨nofun, nofun⟩
    | error e' => simp [Except.mapError, Except.map]
  constructor
  · intro h
    obtain ⟨p, bs, uniforms, hasks⟩ := exists_asks_of_attempt h
    exact ⟨p, bs, uniforms, hasks, (hrun hasks).mp h⟩
  · rintro ⟨p, bs, uniforms, hasks, h⟩
    exact (hrun hasks).mpr h

theorem step_eq_error_iff {s : Session} {request : Step} {e : StepError} :
    (s.step request).2.1 = .error e ↔ s.attempt request = .error e := by
  cases ha : s.attempt request with
  | error e' =>
    rw [step_of_attempt_error ha]
    simp
  | ok o =>
    rw [step_of_attempt_ok ha]
    exact ⟨nofun, nofun⟩

/-! ## Runs that fail at their textures -/

/-- The outputs of a run are buffers of the session. -/
theorem Within.outputs {s : Session} (h : s.Within) {names : List String} {bs : List Buffer}
    (hbs : s.Stands names bs) : ∀ b ∈ bs, b.textureSize.Within s.limits := by
  intro b hb
  obtain ⟨n, -, hn⟩ := exists_of_forall₂ hbs hb
  exact h.buffer hn

/-- A run fails at its textures exactly if validation finds nothing and the first output has a
texture without texels. -/
theorem Within.attempt_run_eq_error_iff {s : Session} (hs : s.Within) {id : String}
    {outputs : List String} {values : List (Text × StepValue)} {index : Nat} {reason : String} :
    s.attempt (.run id outputs values) =
        .error (.execute (.incompleteAttachment index reason)) ↔
      ∃ p first rest uniforms, s.Asks id outputs values p (first :: rest) uniforms ∧
        violations p.script ((first :: rest).map Buffer.describe) uniforms = [] ∧
        first.textureSize.isEmpty = true ∧ index = 0 ∧
        reason = (AttachmentFault.empty first.textureSize).reason := by
  have hrun : ∀ {p bs uniforms}, s.Asks id outputs values p bs uniforms →
      (p.run s.limits (bs.map Buffer.describe) uniforms =
          .error (.incompleteAttachment index reason) ↔ _) := fun {p bs uniforms} h => by
    refine Program.run_eq_incompleteAttachment_iff
      (hs.programs _ (Named.mem_entries_of_get? h.program)) fun o ho => ?_
    obtain ⟨b, hb, rfl⟩ := List.mem_map.mp ho
    exact hs.outputs h.outputs b hb
  rw [Session.attempt_run_eq_error_iff]
  constructor
  · rintro ⟨p, bs, uniforms, hasks, h⟩
    obtain ⟨hnil, first, hfirst, hempty, hindex, hreason⟩ := (hrun hasks).mp h
    cases bs with
    | nil => cases hfirst
    | cons b rest =>
      obtain rfl : b.describe = first := Option.some.inj hfirst
      exact ⟨p, b, rest, uniforms, hasks, hnil, hempty, hindex, hreason⟩
  · rintro ⟨p, b, rest, uniforms, hasks, hnil, hempty, hindex, hreason⟩
    exact ⟨p, b :: rest, uniforms, hasks,
      (hrun hasks).mpr ⟨hnil, b.describe, rfl, hempty, hindex, hreason⟩⟩

/-- After validation there is an output, there are not too many, and none is too large. -/
theorem Within.outputs_of_asks {s : Session} (hs : s.Within) {id : String} {outputs : List String}
    {values : List (Text × StepValue)} {p : Program} {bs : List Buffer} {uniforms : Uniforms}
    (hasks : s.Asks id outputs values p bs uniforms)
    (hnil : violations p.script (bs.map Buffer.describe) uniforms = []) :
    bs ≠ [] ∧ ¬ s.limits.maxColorAttachments < bs.length ∧
      ∀ b ∈ bs, ¬ (s.limits.maxTextureSide < b.textureSize.width ∨
        s.limits.maxTextureSide < b.textureSize.height) := by
  have hscript := hs.programs _ (Named.mem_entries_of_get? hasks.program)
  have hlength := (violations_eq_nil_iff.mp hnil).length_eq
  rw [List.length_map] at hlength
  refine ⟨?_, ?_, fun b hb => ?_⟩
  · rintro rfl
    exact hscript.outputs (List.length_eq_zero_iff.mp hlength.symm)
  · rw [hlength]
    exact Nat.not_lt.mpr (Program.length_le_of_exceededLimit? hscript.limit)
  · obtain ⟨hwidth, hheight⟩ := hs.outputs hasks.outputs b hb
    exact not_or.mpr ⟨Nat.not_lt.mpr hwidth, Nat.not_lt.mpr hheight⟩

/-- In every session that steps lead to, all that is there has passed the limits of the device. So
of the checks after validation only one can fail: a run fails at its textures exactly if validation
finds nothing and the texture of the first output has a side of zero; that output is the one that
the failure names, and the thread has two parameters. -/
theorem incompleteAttachment_iff_of_run (device : Device) (before : List Step) :
    let s := ((start device).run before).1
    s.Within ∧
      ∀ id outputs values,
        ((∃ index reason, (s.step (.run id outputs values)).2.1 =
            .error (.execute (.incompleteAttachment index reason))) ↔
          ∃ p first rest uniforms, s.Asks id outputs values p (first :: rest) uniforms ∧
            violations p.script ((first :: rest).map Buffer.describe) uniforms = [] ∧
            (first.textureSize.width = 0 ∨ first.textureSize.height = 0)) ∧
        (∀ index reason, (s.step (.run id outputs values)).2.1 =
            .error (.execute (.incompleteAttachment index reason)) →
          index = 0 ∧ (∃ p, s.programs.get? id = some p ∧ p.script.thread.rank = .two) ∧
            ∃ n b, outputs.head? = some n ∧ s.buffers.get? n = some b ∧
              reason = (AttachmentFault.empty b.textureSize).reason) ∧
        ∀ p bs uniforms, s.Asks id outputs values p bs uniforms →
          violations p.script (bs.map Buffer.describe) uniforms = [] →
          bs ≠ [] ∧ ¬ s.limits.maxColorAttachments < bs.length ∧
            ∀ b ∈ bs, ¬ (s.limits.maxTextureSide < b.textureSize.width ∨
              s.limits.maxTextureSide < b.textureSize.height) := by
  intro s
  have hs : s.Within := within_run (within_start device) before
  refine ⟨hs, fun id outputs values => ⟨?_, ?_, ?_⟩⟩
  · simp only [step_eq_error_iff, hs.attempt_run_eq_error_iff]
    constructor
    · rintro ⟨index, reason, p, b, rest, uniforms, hasks, hnil, hempty, -, -⟩
      exact ⟨p, b, rest, uniforms, hasks, hnil, TextureSize.isEmpty_iff.mp hempty⟩
    · rintro ⟨p, b, rest, uniforms, hasks, hnil, hempty⟩
      exact ⟨0, _, p, b, rest, uniforms, hasks, hnil, TextureSize.isEmpty_iff.mpr hempty, rfl, rfl⟩
  · intro index reason h
    rw [step_eq_error_iff, hs.attempt_run_eq_error_iff] at h
    obtain ⟨p, b, rest, uniforms, hasks, hnil, hempty, rfl, rfl⟩ := h
    have hfirst : b.describe ∈ (b :: rest).map Buffer.describe := List.mem_cons_self
    have hrank : b.kind.rank = p.script.thread.rank :=
      (violations_eq_nil_iff.mp hnil).rank_eq hfirst
    refine ⟨rfl, ⟨p, hasks.program, hrank ▸ Shape.rank_of_isEmpty hempty⟩, ?_⟩
    have hbs := hasks.outputs
    cases outputs with
    | nil => cases hbs
    | cons n names =>
      cases hbs with
      | cons hb _ => exact ⟨n, b, rfl, hb, rfl⟩
  · intro p bs uniforms hasks hnil
    exact hs.outputs_of_asks hasks hnil

/-- A plane without columns as the only output. -/
theorem incompleteAttachment_of_run_empty :
    let s := ((start (.plain {})).run [.create "a" ⟨.float, .two⟩ (.plane 0 3),
      .compile "p" "[float] thread (int x, int y) \x7b\x7d".toList]).1
    ∃ p first rest uniforms, s.Asks "p" ["a"] [] p (first :: rest) uniforms ∧
      violations p.script ((first :: rest).map Buffer.describe) uniforms = [] ∧
      (first.textureSize.width = 0 ∨ first.textureSize.height = 0) := by
  intro s
  have hindex : (match (s.step (.run "p" ["a"] [])).2.1 with
      | .error (.execute (.incompleteAttachment index _)) => some index
      | _ => none) = some 0 := by decide +kernel
  refine ((incompleteAttachment_iff_of_run (.plain {}) _).2 "p" ["a"] []).1.mp ?_
  split at hindex
  · exact ⟨_, _, ‹_›⟩
  · cases hindex

end Session

end Texelwise

import Texelwise.Proofs.Buffer.Filling
import Texelwise.Proofs.Session.Uploads

/-!
# Steps by their effects

The session treats a step as one result. Here a step is what it does in order: it looks up and
checks, draws an identity, changes buffers in place and talks to the device, and where it fails
everything that it has done by then stays done. Both are the same: a step that fails has made no
call, and it has changed nothing unless it stops while it makes a buffer or fills one.

* `World`: the session, what waits for the next submission, and the calls so far.
* `Effect.perform`: a step by its effects.
* `Effect.run_perform`: this is what the session makes of the step.
* `Session.atomic_of_run`: what a step that fails leaves, and the calls of a run are complete.
-/

namespace Texelwise

/-! ## The world -/

/-- What steps work on. -/
structure World where
  session : Session
  /-- Writes that the device makes at the next submission. -/
  queued : List Call
  /-- Calls that the device carries out when they are submitted. -/
  encoded : List Call
  /-- The calls that have reached the device. -/
  calls : List Call

/-- A computation that changes the world and may fail on the way; a failure undoes nothing. -/
abbrev Effect := EStateM StepError World

theorem InPlace.memory_elements {kind : BufferKind} (m : Staging kind) :
    InPlace.elements.memory m = m := by
  rw [memory, run_elements]
  by_cases h : m.shape.count ≤ m.texels.size
  · rw [if_pos h]
  · rw [if_neg h]

theorem InPlace.eq_of_run_put_error {kind : BufferKind} {c : Coord kind.rank} {e : Element}
    {m m' : Staging kind} {fault : StagingFault kind.rank}
    (h : (put c e).run m = .error fault m') : m' = m := by
  rw [run_put] at h
  split at h
  · cases h
    rfl
  · split at h
    · cases h
    · cases h
      rfl

/-! ## Effects -/

namespace Effect

variable {α ε : Type}

/-- Reads something off the session. -/
def find (read : Session → Except StepError α) : Effect α := do
  match read (← get).session with
  | .ok a => return a
  | .error e => throw e

/-- Goes on with a result that is not a failure. -/
def require (wrap : ε → StepError) (result : Except ε α) : Effect α :=
  match result with
  | .ok a => return a
  | .error e => throw (wrap e)

/-- Changes the session. -/
def update (change : Session → Session) : Effect Unit :=
  modify fun w => { w with session := change w.session }

/-- Works on the staging memory of a buffer in its place. -/
def inPlace (id : String) (b : Buffer) (x : InPlace b.kind α) : Effect α := fun w =>
  match x.run b.staging with
  | .ok a m => .ok a { w with session := w.session.putBuffer id (b.withStaging m) }
  | .error fault m =>
    .error (.staging fault) { w with session := w.session.putBuffer id (b.withStaging m) }

/-- Makes a call that is carried out at once. -/
def call (c : Call) : Effect Unit := modify fun w => { w with calls := w.calls ++ [c] }

/-- Encodes a call. -/
def encode (c : Call) : Effect Unit :=
  modify fun w => { w with encoded := w.encoded ++ [c], calls := w.calls ++ [c] }

/-- Encodes calls one after another. -/
def encodeAll : List Call → Effect Unit
  | [] => return
  | c :: rest => do
    encode c
    encodeAll rest

/-- Queues a write. -/
def queue (c : Call) : Effect Unit := modify fun w => { w with queued := w.queued ++ [c] }

/-- Submits a copy: the device makes the queued writes. -/
def flush : Effect Unit := modify fun w => { w with queued := [], calls := w.calls ++ w.queued }

/-- Submits what is encoded: the device makes the queued writes and draws into the targets. -/
def submit (p : Program) (targets : List BufferId) : Effect Unit := modify fun w =>
  { session := w.session.drawn (w.session.drawing p (w.encoded ++ w.queued)) targets,
    queued := [], encoded := [], calls := w.calls ++ w.queued }

theorem run_encodeAll (cs : List Call) (w : World) : (encodeAll cs).run w =
    .ok () { w with encoded := w.encoded ++ cs, calls := w.calls ++ cs } := by
  induction cs generalizing w with
  | nil => simp only [encodeAll, EStateM.run_pure, List.append_nil]
  | cons c rest ih =>
    simp only [encodeAll, encode, EStateM.run_bind, EStateM.run_modify, ih, List.append_assoc,
      List.cons_append, List.nil_append]

/-! ## Steps -/

/-- Draws the next identity. -/
def takeId : Effect BufferId := do
  let fresh := (← get).session.nextId
  update fun s => { s with nextId := s.nextId.next }
  return fresh

/-- Makes a buffer: its texture is checked before it gets an identity, and its staging memory is
there before the texture is filled. -/
def create (id : String) (kind : BufferKind) (shape : Shape kind.rank) : Effect Answer := do
  let device := (← get).session.device
  let size := shape.textureSize
  if ¬ size.Within device.limits then
    throw (.buffer (.tooLarge size device.limits.maxTextureSide))
  let fresh ← takeId
  match Staging.create? shape with
  | none => throw (.buffer (.stopped capacityMessage))
  | some staging =>
    let b ← require .buffer
      (Buffer.push device ⟨fresh, kind, staging, Texture.zeros size.allocated⟩)
    update (·.putBuffer id b)
    return .buffer b.summary

/-- Sets an element in place. -/
def set (id : String) (place : List Nat) (e : Element) : Effect Answer := do
  let b ← find (·.buffer id)
  let c ← find fun _ => Session.coordOf b place
  if e.kind ≠ b.kind.element then throw (.misfit b.kind)
  inPlace id b (InPlace.put c e)
  return .stored

/-- Fills a buffer in place. -/
def fill (id : String) (start step : UInt32) : Effect Answer := do
  let b ← find (·.buffer id)
  let places ← inPlace id b (InPlace.fillWords start step)
  return .places (places.map Coord.toList)

/-- Reads a texture back in place, after what was submitted before. -/
def pull (id : String) (answer : WaitAnswer) : Effect Answer := do
  let device := (← get).session.device
  let b ← find (·.buffer id)
  if !b.textureSize.isEmpty then flush
  let b ← require .buffer (b.pull device answer)
  update (·.putBuffer id b)
  return .stored

/-- Makes a program: script, shaders and limits are checked before the pipeline is made. -/
def compile (id : String) (source : Text) : Effect Answer := do
  let device := (← get).session.device
  let script ← require (fun e => .program (.compile e)) (Texelwise.compile source)
  let vertex ← require (fun e => .program (.shader .vertex e)) (device.check .vertex script.vertex)
  let _ ← require (fun e => .program (.shader .fragment e))
    (device.check .fragment script.fragment)
  match Program.exceededLimit? device.limits script with
  | some e => throw (.program e)
  | none =>
    let p : Program := ⟨script, vertex.inputs.contains texcoordLocation⟩
    call (.pipeline script.thread.outputs.length (vertexStrides p.readsTexcoord))
    call (.uniformBuffer script.bindings.blockSize.toNat)
    update fun s => { s with programs := s.programs.set id p }
    return .program p.describe script.bindings.blockSize.toNat

/-- Runs a program: outputs, values and attachments are checked before the block is written, which
waits until the drawing is submitted. -/
def execute (id : String) (outputs : List String) (values : List (Text × StepValue)) :
    Effect Answer := do
  let p ← find (·.program id)
  let outputs ← find fun s => outputs.mapM s.describe
  let values ← find fun s => values.mapM fun (name, v) => do return (name, ← s.value v)
  let uniforms : Uniforms := .ofList values
  let found := violations p.script outputs uniforms
  if !found.isEmpty then throw (.execute (.validation found))
  match outputs with
  | [] => throw (.execute (.validation [.outputCount p.script.thread.outputs.length 0]))
  | first :: _ =>
    match Program.firstFault? (← get).session.limits outputs with
    | some (index, fault) => throw (.execute (.incompleteAttachment index fault.reason))
    | none =>
      let block ← require (fun e => .execute (.stopped e))
        (blockBytes p.script.bindings first uniforms)
      queue (.uniforms block)
      encode (.bind blockBinding samplerBinding (Program.boundTextures p.script.bindings uniforms))
      encode (.pass (outputs.map fun o => ⟨o.id, o.textureSize⟩))
      encode (.viewport first.textureSize)
      encodeAll p.vertexCalls
      encode (.draw squareIndices.length)
      submit p (outputs.map (·.id))
      return .completed

/-- Drops the buffer of an id and then its program. -/
def drop (id : String) : Effect Answer := do
  let s := (← get).session
  update fun s => { s with buffers := s.buffers.erase id }
  update fun s => { s with programs := s.programs.erase id }
  return .dropped (s.buffers.get? id).isSome (s.programs.get? id).isSome

/-- A step by its effects. -/
def perform : Step → Effect Answer
  | .create id kind shape => create id kind shape
  | .describe id => do return .buffer (← find (·.buffer id)).summary
  | .get id place => do
    let b ← find (·.buffer id)
    let c ← find fun _ => Session.coordOf b place
    return .element (← inPlace id b (InPlace.read c))
  | .set id place e => set id place e
  | .fill id start step => fill id start step
  | .data id => do
    let b ← find (·.buffer id)
    return .elements (← inPlace id b InPlace.elements)
  | .push id => do
    let device := (← get).session.device
    let b ← require .buffer ((← find (·.buffer id)).push device)
    update (·.putBuffer id b)
    return .stored
  | .pull id answer => pull id answer
  | .compile id source => compile id source
  | .run id outputs values => execute id outputs values
  | .drop id => drop id
  | .finish none => return .completed
  | .finish (some reason) => throw (.poll reason)
  | .limits => do return .limits (← get).session.limits

/-! ## Effects and outcomes -/

/-- What a step by its effects has to come to, after some calls; `left` is the session where it
fails. -/
def outcome (calls : List Call) (left : Session) :
    Except StepError Outcome → EStateM.Result StepError World Answer
  | .ok o => .ok o.answer ⟨o.session, [], [], calls ++ o.calls⟩
  | .error e => .error e ⟨left, [], [], calls⟩

section

variable {s left : Session} {calls : List Call}

theorem outcome_answered (s' : Session) (answer : Answer) :
    outcome calls left (.ok (s'.answered answer)) = .ok answer ⟨s', [], [], calls⟩ := by
  rw [outcome, Session.answered, List.append_nil]

theorem run_find_of_ok {read : Session → Except StepError α} {a : α} (h : read s = .ok a)
    (k : α → Effect Answer) :
    (find read >>= k).run ⟨s, [], [], calls⟩ = (k a).run ⟨s, [], [], calls⟩ := by
  have hfind : (find read).run ⟨s, [], [], calls⟩ = .ok a ⟨s, [], [], calls⟩ := by
    simp only [find, EStateM.run_bind, EStateM.run_get, h, EStateM.run_pure]
  rw [EStateM.run_bind, hfind]

theorem run_find_of_error {read : Session → Except StepError α} {e : StepError}
    (h : read s = .error e) (k : α → Effect Answer) :
    (find read >>= k).run ⟨s, [], [], calls⟩ = .error e ⟨s, [], [], calls⟩ := by
  have hfind : (find read).run ⟨s, [], [], calls⟩ = .error e ⟨s, [], [], calls⟩ := by
    simp only [find, EStateM.run_bind, EStateM.run_get, h]
    rfl
  rw [EStateM.run_bind, hfind]

/-- What is only read off the session is the same by effects and as a result. -/
theorem run_find {read : Session → Except StepError α} {k : α → Effect Answer}
    {k' : α → Except StepError Outcome}
    (h : ∀ a, read s = .ok a → (k a).run ⟨s, [], [], calls⟩ = outcome calls s (k' a)) :
    (find read >>= k).run ⟨s, [], [], calls⟩ = outcome calls s (read s >>= k') := by
  cases hr : read s with
  | error e => exact run_find_of_error hr k
  | ok a => exact (run_find_of_ok hr k).trans (h a hr)

/-- What is only checked is the same by effects and as a result. -/
theorem run_require {wrap : ε → StepError} {result : Except ε α} {k : α → Effect Answer}
    {k' : α → Except StepError Outcome}
    (h : ∀ a, result = .ok a → (k a).run ⟨s, [], [], calls⟩ = outcome calls s (k' a)) :
    (require wrap result >>= k).run ⟨s, [], [], calls⟩ =
      outcome calls s (result.mapError wrap >>= k') := by
  cases result with
  | error e => rfl
  | ok a => exact h a rfl

/-- Work in place is the same by effects and as a result; `left` is the session with what it leaves
where it stops. -/
theorem run_inPlace {id : String} {b : Buffer} {x : InPlace b.kind α} {k : α → Effect Answer}
    {k' : α × Staging b.kind → Except StepError Outcome}
    (hleft : ∀ fault m, x.run b.staging = .error fault m → s.putBuffer id (b.withStaging m) = left)
    (h : ∀ a m, x.run b.staging = .ok a m →
      (k a).run ⟨s.putBuffer id (b.withStaging m), [], [], calls⟩ =
        outcome calls left (k' (a, m))) :
    (inPlace id b x >>= k).run ⟨s, [], [], calls⟩ =
      outcome calls left ((x.result b.staging).mapError .staging >>= k') := by
  rw [EStateM.run_bind, InPlace.result]
  unfold inPlace EStateM.run at *
  cases hx : x b.staging with
  | error fault m =>
    show EStateM.Result.error _ _ = EStateM.Result.error _ _
    rw [hleft fault m hx]
  | ok a m => exact h a m hx

/-- Work that leaves the memory as it is is the same by effects and as a result. -/
theorem run_inPlace_same {id : String} {b : Buffer} (hb : s.buffers.get? id = some b)
    {x : InPlace b.kind α} (hx : x.memory b.staging = b.staging) {k : α → Effect Answer}
    {k' : α × Staging b.kind → Except StepError Outcome}
    (h : ∀ a, (k a).run ⟨s, [], [], calls⟩ = outcome calls s (k' (a, b.staging))) :
    (inPlace id b x >>= k).run ⟨s, [], [], calls⟩ =
      outcome calls s ((x.result b.staging).mapError .staging >>= k') := by
  have hsame : s.putBuffer id (b.withStaging b.staging) = s := Session.putBuffer_of_get? hb
  refine run_inPlace (fun fault m hm => ?_) fun a m hm => ?_
  · simp only [InPlace.memory, hm] at hx
    rw [hx, hsame]
  · simp only [InPlace.memory, hm] at hx
    rw [hx, hsame]
    exact h a

end

/-! ## Steps and their effects -/

section

variable (s : Session) (calls : List Call)

theorem run_create (id : String) (kind : BufferKind) (shape : Shape kind.rank) :
    (create id kind shape).run ⟨s, [], [], calls⟩ =
      outcome calls (s.remains (.create id kind shape)) (s.create id kind shape) := by
  simp only [create, EStateM.run_bind, EStateM.run_get, Session.create, Buffer.create]
  by_cases hwithin : shape.textureSize.Within s.device.limits
  · have hleft : s.remains (.create id kind shape) = { s with nextId := s.nextId.next } :=
      if_pos hwithin
    rw [hleft, if_neg (not_not_intro hwithin), if_pos hwithin]
    simp only [takeId, update, EStateM.run_bind, EStateM.run_get, EStateM.run_modify,
      EStateM.run_pure]
    cases Staging.create? shape with
    | none => rfl
    | some staging =>
      dsimp only
      cases Buffer.push s.device ⟨s.nextId, kind, staging, .zeros shape.textureSize.allocated⟩ with
      | error e => rfl
      | ok b => exact (outcome_answered _ _).symm
  · have hleft : s.remains (.create id kind shape) = s := if_neg hwithin
    rw [hleft, if_pos hwithin, if_neg hwithin]
    rfl

theorem run_set (id : String) (place : List Nat) (e : Element) :
    (set id place e).run ⟨s, [], [], calls⟩ = outcome calls s (s.set id place e) := by
  refine run_find fun b hb => run_find fun c hc => ?_
  dsimp only
  by_cases hkind : e.kind ≠ b.kind.element
  · rw [if_pos hkind, if_pos hkind]
    rfl
  · rw [if_neg hkind, if_neg hkind]
    refine run_inPlace (fun fault m hm => ?_) fun _ m _ => (outcome_answered _ _).symm
    rw [InPlace.eq_of_run_put_error hm]
    exact Session.putBuffer_of_get? (Session.get?_of_buffer hb)

theorem run_fill (id : String) (start step : UInt32) :
    (fill id start step).run ⟨s, [], [], calls⟩ =
      outcome calls (s.remains (.fill id start step)) (s.fill id start step) := by
  cases hb : s.buffers.get? id with
  | none =>
    have hbuffer : s.buffer id = .error (.unknownBuffer id) := by rw [Session.buffer, hb]
    rw [fill, run_find_of_error hbuffer, Session.fill, hbuffer, Session.remains, hb]
    rfl
  | some b =>
    have hbuffer := Session.buffer_of_get? hb
    rw [fill, run_find_of_ok hbuffer, Session.fill, hbuffer, Session.remains, hb]
    refine run_inPlace (fun fault m hm => ?_) fun _ m _ => (outcome_answered _ _).symm
    simp only [InPlace.memory, hm]

theorem run_get (id : String) (place : List Nat) :
    (perform (.get id place)).run ⟨s, [], [], calls⟩ = outcome calls s (s.get id place) := by
  refine run_find fun b hb => run_find fun c _ => ?_
  exact run_inPlace_same (Session.get?_of_buffer hb) (InPlace.memory_read c _)
    fun e => (outcome_answered _ _).symm

theorem run_data (id : String) :
    (perform (.data id)).run ⟨s, [], [], calls⟩ = outcome calls s (s.data id) := by
  refine run_find fun b hb => ?_
  exact run_inPlace_same (Session.get?_of_buffer hb) (InPlace.memory_elements _)
    fun es => (outcome_answered _ _).symm

theorem run_push (id : String) :
    (perform (.push id)).run ⟨s, [], [], calls⟩ = outcome calls s (s.push id) := by
  refine run_find fun b hb => ?_
  exact run_require fun b' _ => (outcome_answered _ _).symm

theorem run_pull (id : String) (answer : WaitAnswer) :
    (pull id answer).run ⟨s, [], [], calls⟩ = outcome calls s (s.pull id answer) := by
  have hflush : flush.run ⟨s, [], [], calls⟩ = .ok () ⟨s, [], [], calls⟩ := by
    rw [flush, EStateM.run_modify, List.append_nil]
  refine run_find fun b hb => ?_
  dsimp only
  split
  · rw [EStateM.run_bind, hflush]
    exact run_require fun b' _ => (outcome_answered _ _).symm
  · exact run_require fun b' _ => (outcome_answered _ _).symm

theorem run_compile (id : String) (source : Text) :
    (compile id source).run ⟨s, [], [], calls⟩ = outcome calls s (s.compile id source) := by
  have hcompile : s.compile id source =
      (Texelwise.compile source).mapError (fun e => .program (.compile e)) >>= fun script =>
      (s.device.check .vertex script.vertex).mapError (fun e => .program (.shader .vertex e)) >>=
      fun vertex =>
      (s.device.check .fragment script.fragment).mapError
        (fun e => .program (.shader .fragment e)) >>= fun _ =>
      match Program.exceededLimit? s.device.limits script with
      | some e => .error (.program e)
      | none =>
        let p : Program := ⟨script, vertex.inputs.contains texcoordLocation⟩
        .ok ⟨{ s with programs := s.programs.set id p },
          .program p.describe script.bindings.blockSize.toNat, p.creationCalls⟩ := by
    simp only [Session.compile, Program.create, mapError_bind, mapError_mapError, bind_assoc]
    congr 1; funext script; congr 1; funext vertex; congr 1; funext _
    cases Program.exceededLimit? s.device.limits script <;> rfl
  rw [hcompile]
  refine run_require fun script _ => run_require fun vertex _ => run_require fun _ _ => ?_
  dsimp only
  cases Program.exceededLimit? s.device.limits script with
  | some e => rfl
  | none =>
    have hcalls (p : Program) : calls ++ p.creationCalls =
        calls ++ [.pipeline p.script.thread.outputs.length (vertexStrides p.readsTexcoord)] ++
          [.uniformBuffer p.script.bindings.blockSize.toNat] := by
      rw [List.append_assoc]
      rfl
    simp only [outcome, hcalls]
    rfl

theorem run_execute (id : String) (outputs : List String) (values : List (Text × StepValue)) :
    (execute id outputs values).run ⟨s, [], [], calls⟩ =
      outcome calls s (s.execute id outputs values) := by
  refine run_find fun p _ => run_find fun descs _ => run_find fun vs _ => ?_
  dsimp only
  unfold Program.run
  by_cases hfound : (!(violations p.script descs (.ofList vs)).isEmpty) = true
  · rw [if_pos hfound, if_pos hfound]
    rfl
  · rw [if_neg hfound, if_neg hfound]
    cases descs with
    | nil => rfl
    | cons first rest =>
      simp only [EStateM.run_bind, EStateM.run_get]
      cases Program.firstFault? s.limits (first :: rest) with
      | some fault => rfl
      | none =>
        cases blockBytes p.script.bindings first (.ofList vs) with
        | error e => rfl
        | ok block =>
          have hmade : p.runCalls first (first :: rest) (.ofList vs) block =
              [.bind blockBinding samplerBinding
                (Program.boundTextures p.script.bindings (.ofList vs))] ++
              [.pass ((first :: rest).map fun o => ⟨o.id, o.textureSize⟩)] ++
              [.viewport first.textureSize] ++ p.vertexCalls ++
              [.draw squareIndices.length] ++ [.uniforms block] := by
            simp only [Program.runCalls, List.append_assoc, List.cons_append, List.nil_append]
          simp only [require, queue, encode, submit, run_encodeAll, EStateM.run_bind,
            EStateM.run_modify, EStateM.run_pure, List.nil_append]
          simp only [Except.map, Except.mapError, bind, Except.bind, pure, Except.pure, outcome,
            hmade, List.append_assoc]

/-- A step by its effects is what the session makes of it, also where it fails. -/
theorem run_perform (request : Step) :
    (perform request).run ⟨s, [], [], calls⟩ =
      outcome calls (s.remains request) (s.attempt request) := by
  cases request with
  | create id kind shape => exact run_create s calls id kind shape
  | describe id => exact run_find fun b _ => (outcome_answered _ _).symm
  | get id place => exact run_get s calls id place
  | set id place e => exact run_set s calls id place e
  | fill id start step => exact run_fill s calls id start step
  | data id => exact run_data s calls id
  | push id => exact run_push s calls id
  | pull id answer => exact run_pull s calls id answer
  | compile id source => exact run_compile s calls id source
  | run id outputs values => exact run_execute s calls id outputs values
  | drop id => exact (outcome_answered _ _).symm
  | finish failure =>
    cases failure with
    | none => exact (outcome_answered _ _).symm
    | some reason => rfl
  | limits => exact (outcome_answered _ _).symm

end

end Effect

namespace Session

/-! ## Runs -/

theorem run_append (s : Session) (before after : List Step) :
    s.run (before ++ after) =
      (((s.run before).1.run after).1, (s.run before).2 ++ ((s.run before).1.run after).2) := by
  induction before generalizing s with
  | nil => rfl
  | cons request before ih =>
    simp only [List.cons_append, run, ih]

/-- A step that fails and leaves the session as it is can be left out. -/
theorem run_insert_of_error {s : Session} {before : List Step} {request : Step} {e : StepError}
    (h : (s.run before).1.step request = ((s.run before).1, .error e, [])) (after : List Step) :
    s.run (before ++ request :: after) = ((s.run (before ++ after)).1,
      (s.run before).2 ++ (.error e, []) :: ((s.run before).1.run after).2) := by
  rw [run_append, run_append]
  simp only [run, h]

/-- What a step that fails with an error leaves: all of the session, unless the step stops while it
makes a buffer, which uses up an identity, or while it fills one. -/
theorem remains_of_attempt_error {s : Session} {request : Step} {e : StepError}
    (h : s.attempt request = .error e) : s.remains request = s ∨
      (∃ id kind shape reason, request = .create id kind shape ∧ e = .buffer (.stopped reason) ∧
        s.remains request = { s with nextId := s.nextId.next }) ∨
      ∃ id start step b, request = .fill id start step ∧ s.buffers.get? id = some b ∧
        s.remains request =
          s.putBuffer id (b.withStaging ((InPlace.fillWords start step).memory b.staging)) := by
  rcases s.remains_cases request with hs | ⟨id, kind, shape, rfl, hwithin, hs⟩ | hfill
  · exact .inl hs
  · rcases error_of_bind h with h | ⟨b, -, h⟩
    · obtain ⟨e', he', rfl⟩ := error_of_mapError h
      obtain ⟨reason, rfl⟩ := Buffer.eq_stopped_of_create hwithin he'
      exact .inr (.inl ⟨id, kind, shape, reason, rfl, rfl, hs⟩)
    · cases h
  · exact .inr (.inr hfill)

/-- A device that copies as documented, with sides of less than 30 bits, makes every buffer whose
texture is small enough. -/
theorem exists_attempt_create {s : Session} (hd : s.device.Copies)
    (hlimit : s.device.limits.maxTextureSide < 2 ^ 30) {id : String} {kind : BufferKind}
    {shape : Shape kind.rank} (hsize : shape.textureSize.Within s.device.limits) :
    ∃ o, s.attempt (.create id kind shape) = .ok o := by
  have hside : s.device.limits.maxTextureSide < maxSide := Nat.lt_trans hlimit (by decide)
  have hhosted := Shape.hosted_of_fits ((shape.side_le_iff hside).mp hsize)
    (Nat.le_pred_of_lt hlimit)
  obtain ⟨b, hb⟩ : ∃ b, Buffer.create s.device s.nextId kind shape = .ok b :=
    (Buffer.exists_create_iff hd).mpr ⟨hsize, hhosted⟩
  rw [attempt, create, hb]
  exact ⟨_, rfl⟩

/-- A buffer with a texel for each element is filled. -/
theorem exists_attempt_fill {s : Session} {id : String} {b : Buffer}
    (hb : s.buffers.get? id = some b) (hroom : b.shape.count ≤ b.staging.texels.size)
    (start step : UInt32) : ∃ o, s.attempt (.fill id start step) = .ok o := by
  obtain ⟨filled, hfilled⟩ := InPlace.exists_result_fillWords hroom start step
  rw [attempt, fill, buffer_of_get? hb]
  change ∃ o, (((InPlace.fillWords start step).result b.staging).mapError _ >>= _) = _
  rw [hfilled]
  exact ⟨_, rfl⟩

/-- So there a step that fails leaves all of the session. -/
theorem remains_eq_of_attempt_error {device : Device} (hd : device.Copies)
    (hlimit : device.limits.maxTextureSide < 2 ^ 30) (before : List Step) {request : Step}
    {e : StepError} (h : ((start device).run before).1.attempt request = .error e) :
    ((start device).run before).1.remains request = ((start device).run before).1 := by
  have hside : device.limits.maxTextureSide < maxSide := Nat.lt_trans hlimit (by decide)
  have hdevice := device_run (start device) before
  have hwithin := within_run (within_start device) before
  have huploaded := uploaded_run (uploaded_start device fun _ => ⟨[], false, false⟩) hd
    (sound_start device) before
  generalize ((start device).run before).1 = s at *
  obtain rfl : s.device = device := hdevice
  rcases s.remains_cases request with hs | ⟨_, _, _, rfl, hsize, -⟩ | ⟨id, _, _, b, rfl, hb, -⟩
  · exact hs
  · obtain ⟨o, ho⟩ := exists_attempt_create hd hlimit hsize
    rw [ho] at h
    cases h
  · have hfits : b.shape.Fits s.device.limits.maxTextureSide :=
      (b.shape.side_le_iff hside).mp (hwithin.buffer hb)
    have haddressed := Buffer.addressed_of_fits hside hfits (huploaded id b hb).staging
    obtain ⟨o, ho⟩ := exists_attempt_fill hb haddressed.room _ _
    rw [ho] at h
    cases h

/-- A run of a program that succeeds draws into the textures of its outputs and makes one complete
sequence of calls. -/
theorem drawn_of_attempt_run {device : Device} (hd : device.ReadsTexcoord) {s : Session}
    (hs : s.Sound) (hdevice : s.device = device) {id : String} {outputs : List String}
    {values : List (Text × StepValue)} {o : Outcome}
    (h : s.attempt (.run id outputs values) = .ok o) :
    (∃ p, s.programs.get? id = some p ∧ o.session = { s with buffers := o.session.buffers } ∧
      ∀ name, o.session.buffers.get? name = (s.buffers.get? name).map fun b =>
        match outputs.findIdx? (· = name) with
        | some target => b.paint (device.draw (s.drawing p o.calls) target)
        | none => b) ∧
      ∃ textures attachments size bytes,
        o.calls = [.bind blockBinding samplerBinding textures, .pass attachments, .viewport size,
          .vertices 0, .vertices 1, .draw squareIndices.length, .uniforms bytes] := by
  subst hdevice
  obtain ⟨p, bs, uniforms, hp, hbs, -, hrun, hsession⟩ := attempt_run_eq_ok h
  obtain ⟨-, first, rest, bytes, -, -, hcalls⟩ := Program.run_eq_ok hrun
  refine ⟨⟨p, hp, ?_, fun name => ?_⟩, ?_⟩
  · rw [hsession]
    rfl
  · rw [hsession, get?_drawn]
    cases hb : s.buffers.get? name with
    | none => rfl
    | some b =>
      rw [Option.map_some, Option.map_some, drawnTexel?, findIdx?_of_stands hs hbs hb]
      cases outputs.findIdx? fun n => n = name <;> rfl
  · rw [hcalls, Program.runCalls, Program.vertexCalls, hs.readsTexcoord hd hp]
    exact ⟨_, _, _, _, rfl⟩

/-- Take any session that steps lead to, and perform one more step effect by effect, on a device
where the vertex shader reads texture coordinates.

If it fails, it has made no call, and nothing waits for a submission. The session is as before, and
everything after it goes as if it had not been there, but for two steps. One that makes a buffer
whose texture is small enough, and that the host or the device then stops, has used up an identity;
one that fills a buffer leaves in its staging memory what it has written. So all is left as it was
where a texture is too large, a script or a shader is refused, a limit is passed, a run is invalid
or an output cannot be drawn to, or an element outside the shape is read or set. On a device that
copies as documented and whose sides have less than 30 bits neither of the two steps is stopped, and
whatever fails leaves the session as it was.

If it succeeds, the session and the calls are those of the step. A run of a program then has left
the session as it was but for the textures of its outputs, which have what was drawn into them, and
has made one complete sequence of calls. -/
theorem atomic_of_run {device : Device} (hd : device.ReadsTexcoord) (before : List Step)
    (request : Step) (calls : List Call) :
    let s := ((start device).run before).1
    match (Effect.perform request).run ⟨s, [], [], calls⟩ with
    | .error e w => w = ⟨w.session, [], [], calls⟩ ∧ s.step request = (w.session, .error e, []) ∧
        (w.session = s ∨
          (∃ id kind shape reason, request = .create id kind shape ∧
            e = .buffer (.stopped reason) ∧ w.session = { s with nextId := s.nextId.next }) ∨
          ∃ id start step b, request = .fill id start step ∧ s.buffers.get? id = some b ∧
            w.session =
              s.putBuffer id (b.withStaging ((InPlace.fillWords start step).memory b.staging))) ∧
        (device.Copies → device.limits.maxTextureSide < 2 ^ 30 → w.session = s) ∧
        (w.session = s → ∀ after, ∃ last given more, (start device).run before = (s, given) ∧
          (start device).run (before ++ after) = (last, given ++ more) ∧
          (start device).run (before ++ request :: after) =
            (last, given ++ (.error e, []) :: more))
    | .ok answer w => ∃ made, w = ⟨w.session, [], [], calls ++ made⟩ ∧
        s.step request = (w.session, .ok answer, made) ∧
        ∀ id outputs values, request = .run id outputs values →
          (∃ p, s.programs.get? id = some p ∧ w.session = { s with buffers := w.session.buffers } ∧
            ∀ name, w.session.buffers.get? name = (s.buffers.get? name).map fun b =>
              match outputs.findIdx? (· = name) with
              | some target => b.paint (device.draw (s.drawing p made) target)
              | none => b) ∧
          ∃ textures attachments size bytes,
            made = [.bind blockBinding samplerBinding textures, .pass attachments, .viewport size,
              .vertices 0, .vertices 1, .draw squareIndices.length, .uniforms bytes] := by
  intro s
  rw [Effect.run_perform]
  cases h : s.attempt request with
  | error e =>
    have hstep := step_of_attempt_error h
    refine ⟨rfl, hstep, remains_of_attempt_error h,
      fun hcopies hlimit => remains_eq_of_attempt_error hcopies hlimit before h,
      fun hleft after => ⟨_, _, _, rfl, run_append _ _ _, ?_⟩⟩
    rw [show s.remains request = s from hleft] at hstep
    rw [run_insert_of_error hstep, run_append]
  | ok o =>
    refine ⟨o.calls, rfl, step_of_attempt_ok h, ?_⟩
    rintro id outputs values rfl
    exact drawn_of_attempt_run hd (sound_run (sound_start device) before) (device_run _ before) h

/-- A buffer that is too large does not come in the place of the one that is there. -/
theorem atomic_of_run_tooLarge :
    let device := Device.plain {}
    let before : List Step :=
      [.create "a" ⟨.float, .two⟩ (.plane 3 1), .set "a" [1, 0] (.float 7)]
    let request : Step := .create "a" ⟨.color, .two⟩ (.plane 8193 1)
    device.ReadsTexcoord ∧
      (((start device).run before).1.step request).2 =
        (.error (.buffer (.tooLarge ⟨8193, 1⟩ 8192)), []) ∧
      ∃ last given, (start device).run (before ++ request :: [.get "a" [1, 0]]) =
        (last, given ++ [(.error (.buffer (.tooLarge ⟨8193, 1⟩ 8192)), []),
          (.ok (.element (.float 7)), [])]) := by
  intro device before request
  have hd : device.ReadsTexcoord := Device.readsTexcoord_plain {}
  have hspec := atomic_of_run hd before request []
  have hfails : (Effect.perform request).run ⟨((start device).run before).1, [], [], []⟩ =
      .error (.buffer (.tooLarge ⟨8193, 1⟩ 8192)) ⟨((start device).run before).1, [], [], []⟩ := rfl
  simp only [hfails] at hspec
  obtain ⟨-, hstep, -, -, hafter⟩ := hspec
  obtain ⟨last, given, more, hgiven, hwithout, hwith⟩ := hafter trivial [.get "a" [1, 0]]
  have hget : (((start device).run before).1.step (.get "a" [1, 0])).2 =
      (.ok (.element (.float 7)), []) := by
    refine Prod.ext (ok_of_toOption ?_) ?_ <;> decide +kernel
  have hmore : ((start device).run (before ++ [.get "a" [1, 0]])).2 =
      ((start device).run before).2 ++ [(.ok (.element (.float 7)), [])] := by
    rw [run_append, ← hget]
    rfl
  rw [hwithout, hgiven] at hmore
  rw [hwith, hstep, List.append_cancel_left hmore]
  exact ⟨hd, rfl, last, given, rfl⟩

end Session

end Texelwise

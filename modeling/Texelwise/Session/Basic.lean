import Texelwise.Named
import Texelwise.Session.Step

/-!
# Sessions

A session keeps buffers and programs by their ids on one device. A step succeeds, with an answer and
the calls that it made, or fails and makes none. Uploads and drawings are put into the textures as
they are made: the device does them in this order, and before anything that is read back.

* `Session.attempt`: one step, or why it fails.
* `Session.remains`: what a step that fails leaves of the session.
* `Session.step`: one step, whether it succeeds or not.
* `Session.run`: steps one after another.
-/

namespace Texelwise

/-- The buffers and programs on a device. -/
structure Session where
  device : Device
  buffers : Named String Buffer
  programs : Named String Program
  /-- The identity of the next buffer. -/
  nextId : BufferId

/-- What a step that succeeds leads to. -/
structure Outcome where
  session : Session
  answer : Answer
  calls : List Call

namespace Session

/-- A session on a device, without buffers and programs. -/
def start (device : Device) : Session := ⟨device, .empty, .empty, ⟨1⟩⟩

/-- The limits of the device. -/
def limits (s : Session) : Limits := s.device.limits

/-! ## Looking up -/

/-- The buffer of an id. -/
def buffer (s : Session) (id : String) : Except StepError Buffer :=
  match s.buffers.get? id with
  | some b => .ok b
  | none => .error (.unknownBuffer id)

/-- The program of an id. -/
def program (s : Session) (id : String) : Except StepError Program :=
  match s.programs.get? id with
  | some p => .ok p
  | none => .error (.unknownProgram id)

/-- The coordinate at a place of a buffer. -/
def coordOf (b : Buffer) (place : List Nat) : Except StepError (Coord b.kind.rank) :=
  match Coord.ofList? b.kind.rank place with
  | some c => .ok c
  | none => .error (.misfit b.kind)

/-- The description of the buffer of an id. -/
def describe (s : Session) (id : String) : Except StepError BufferDesc := do
  return (← s.buffer id).describe

/-- The value that is meant for a uniform. -/
def value (s : Session) : StepValue → Except StepError UniformValue
  | .int value => .ok (.int value)
  | .float bits => .ok (.float bits)
  | .buffer id => do return .buffer (← s.describe id)

/-- Puts a buffer at an id. -/
def putBuffer (s : Session) (id : String) (b : Buffer) : Session :=
  { s with buffers := s.buffers.set id b }

/-! ## Drawing -/

/-- The texture of the buffer with an identity. -/
def texture? (s : Session) (id : BufferId) : Option Texture :=
  (s.buffers.entries.find? fun e => e.2.id = id).map (·.2.texture)

/-- What a run of a program with these calls draws. -/
def drawing (s : Session) (p : Program) (calls : List Call) : Draw :=
  ⟨p.script.vertex, p.script.fragment, calls, s.texture?⟩

/-- The session after a drawing into the textures of these buffers. -/
def drawn (s : Session) (d : Draw) (targets : List BufferId) : Session :=
  { s with buffers := s.buffers.mapValues fun b =>
      match targets.findIdx? fun id => id = b.id with
      | some target => b.paint (s.device.draw d target)
      | none => b }

/-! ## Steps -/

/-- An answer without calls. -/
def answered (s : Session) (answer : Answer) : Outcome := ⟨s, answer, []⟩

/-- Makes a buffer of a fresh identity. -/
def create (s : Session) (id : String) (kind : BufferKind) (shape : Shape kind.rank) :
    Except StepError Outcome := do
  let b ← (Buffer.create s.device s.nextId kind shape).mapError .buffer
  let s := { s.putBuffer id b with nextId := s.nextId.next }
  return s.answered (.buffer b.summary)

/-- Reads an element. -/
def get (s : Session) (id : String) (place : List Nat) : Except StepError Outcome := do
  let b ← s.buffer id
  let c ← coordOf b place
  let (e, _) ← ((InPlace.read c).result b.staging).mapError .staging
  return s.answered (.element e)

/-- Sets an element. -/
def set (s : Session) (id : String) (place : List Nat) (e : Element) :
    Except StepError Outcome := do
  let b ← s.buffer id
  let c ← coordOf b place
  if e.kind ≠ b.kind.element then throw (.misfit b.kind)
  let (_, staging) ← ((InPlace.put c e).result b.staging).mapError .staging
  return (s.putBuffer id (b.withStaging staging)).answered .stored

/-- Fills a buffer. -/
def fill (s : Session) (id : String) (start step : UInt32) : Except StepError Outcome := do
  let b ← s.buffer id
  let (places, staging) ← ((InPlace.fillWords start step).result b.staging).mapError .staging
  return (s.putBuffer id (b.withStaging staging)).answered (.places (places.map Coord.toList))

/-- Lists the elements of a buffer. -/
def data (s : Session) (id : String) : Except StepError Outcome := do
  let b ← s.buffer id
  let (elements, _) ← (InPlace.elements.result b.staging).mapError .staging
  return s.answered (.elements elements)

/-- Uploads the staging memory of a buffer. -/
def push (s : Session) (id : String) : Except StepError Outcome := do
  let b ← ((← s.buffer id).push s.device).mapError .buffer
  return (s.putBuffer id b).answered .stored

/-- Reads the texture of a buffer back. -/
def pull (s : Session) (id : String) (answer : WaitAnswer) : Except StepError Outcome := do
  let b ← ((← s.buffer id).pull s.device answer).mapError .buffer
  return (s.putBuffer id b).answered .stored

/-- Makes a program. -/
def compile (s : Session) (id : String) (source : Text) : Except StepError Outcome := do
  let p ← (Program.create s.device source).mapError .program
  return ⟨{ s with programs := s.programs.set id p },
    .program p.describe p.script.bindings.blockSize.toNat, p.creationCalls⟩

/-- Runs a program, which draws into the textures of the outputs. -/
def execute (s : Session) (id : String) (outputs : List String)
    (values : List (Text × StepValue)) : Except StepError Outcome := do
  let p ← s.program id
  let outputs ← outputs.mapM s.describe
  let values ← values.mapM fun (name, v) => do return (name, ← s.value v)
  let calls ← (p.run s.limits outputs (.ofList values)).mapError .execute
  return ⟨s.drawn (s.drawing p calls) (outputs.map (·.id)), .completed, calls⟩

/-- Drops what has an id. -/
def drop (s : Session) (id : String) : Outcome :=
  answered { s with buffers := s.buffers.erase id, programs := s.programs.erase id }
    (.dropped (s.buffers.get? id).isSome (s.programs.get? id).isSome)

/-- One step, or why it fails. -/
def attempt (s : Session) : Step → Except StepError Outcome
  | .create id kind shape => s.create id kind shape
  | .describe id => do return s.answered (.buffer (← s.buffer id).summary)
  | .get id place => s.get id place
  | .set id place e => s.set id place e
  | .fill id start step => s.fill id start step
  | .data id => s.data id
  | .push id => s.push id
  | .pull id answer => s.pull id answer
  | .compile id source => s.compile id source
  | .run id outputs values => s.execute id outputs values
  | .drop id => .ok (s.drop id)
  | .finish none => .ok (s.answered .completed)
  | .finish (some reason) => .error (.poll reason)
  | .limits => .ok (s.answered (.limits s.limits))

/-- What a step that fails leaves of the session. A buffer that is not made after its texture was
found small enough has used up its identity, and elements that were filled stay filled. -/
def remains (s : Session) : Step → Session
  | .create _ _ shape =>
    if shape.textureSize.Within s.limits then { s with nextId := s.nextId.next } else s
  | .fill id start step =>
    match s.buffers.get? id with
    | some b => s.putBuffer id (b.withStaging ((InPlace.fillWords start step).memory b.staging))
    | none => s
  | _ => s

/-- One step: its answer or its error, the calls that it made, and the session after it. -/
def step (s : Session) (request : Step) : Session × Except StepError Answer × List Call :=
  match s.attempt request with
  | .ok o => (o.session, .ok o.answer, o.calls)
  | .error e => (s.remains request, .error e, [])

/-- Steps one after another: what each gave, and the session after the last. -/
def run (s : Session) : List Step → Session × List (Except StepError Answer × List Call)
  | [] => (s, [])
  | request :: rest =>
    let (s, given) := s.step request
    let (s, more) := s.run rest
    (s, given :: more)

/-- A step that fails makes no calls. -/
theorem step_of_attempt_error {s : Session} {request : Step} {e : StepError}
    (h : s.attempt request = .error e) : s.step request = (s.remains request, .error e, []) := by
  simp [step, h]

/-- A step that succeeds gives what its attempt leads to. -/
theorem step_of_attempt_ok {s : Session} {request : Step} {o : Outcome}
    (h : s.attempt request = .ok o) : s.step request = (o.session, .ok o.answer, o.calls) := by
  simp [step, h]

end Session

end Texelwise

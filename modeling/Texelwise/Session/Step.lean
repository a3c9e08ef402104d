import Texelwise.Buffer.Basic
import Texelwise.Program.Basic

/-!
# Steps of a session

What a caller can ask of a session, what it is answered, and why a step fails. Buffers and
programs go by ids that the caller chooses.

* `Step`: one request.
* `Answer`: the answer to a step that succeeds.
* `StepError`: the cause of a failure, with its wording.
-/

namespace Texelwise

/-! ## Steps -/

/-- A value for a uniform, with a buffer by its id. -/
inductive StepValue where
  | int (value : Int32)
  /-- A float by its bit pattern. -/
  | float (bits : UInt32)
  | buffer (id : String)
  deriving DecidableEq, Repr

/-- One request. A place is the list of the components of a coordinate. -/
inductive Step where
  /-- Makes a buffer, in place of one that has the id. -/
  | create (id : String) (kind : BufferKind) (shape : Shape kind.rank)
  | describe (id : String)
  | get (id : String) (place : List Nat)
  | set (id : String) (place : List Nat) (element : Element)
  /-- Fills a buffer from words that rise by `step`. -/
  | fill (id : String) (start step : UInt32)
  | data (id : String)
  | push (id : String)
  /-- Reads a texture back; waiting for the device ends with `answer`. -/
  | pull (id : String) (answer : WaitAnswer)
  /-- Makes a program, in place of one that has the id. -/
  | compile (id : String) (source : Text)
  | run (id : String) (outputs : List String) (values : List (Text × StepValue))
  /-- Drops the buffer and the program of an id. -/
  | drop (id : String)
  /-- Waits for the device, which may fail. -/
  | finish (failure : Option String)
  | limits

/-! ## Answers -/

/-- What a caller can see of a buffer besides its elements. -/
structure BufferSummary where
  kind : BufferKind
  extents : Extents
  count : Nat
  textureSize : TextureSize
  deriving DecidableEq, Repr

/-- What a caller can see of a buffer besides its elements. -/
def Buffer.summary (b : Buffer) : BufferSummary :=
  ⟨b.kind, b.shape.extents, b.shape.count, b.textureSize⟩

/-- The answer to a step that succeeds. -/
inductive Answer where
  /-- An element was set, or a buffer was pushed or pulled. -/
  | stored
  /-- A program ran or the device is done. -/
  | completed
  | buffer (summary : BufferSummary)
  | element (element : Element)
  | elements (elements : List Element)
  /-- The places that were filled, in their order. -/
  | places (places : List (List Nat))
  | program (description : String) (blockSize : Nat)
  /-- Whether there were a buffer and a program to drop. -/
  | dropped (buffer program : Bool)
  | limits (limits : Limits)
  deriving DecidableEq, Repr

/-! ## Errors -/

/-- Why a step fails. -/
inductive StepError where
  | unknownBuffer (id : String)
  | unknownProgram (id : String)
  /-- A place or an element does not fit the kind of a buffer. -/
  | misfit (kind : BufferKind)
  | buffer (error : BufferError)
  | staging {r : Rank} (fault : StagingFault r)
  | program (error : ProgramError)
  | execute (error : ExecuteError)
  /-- Waiting for the device failed. -/
  | poll (reason : String)

/-- The wording of a failure. -/
def StepError.message : StepError → String
  | .unknownBuffer id => s!"no buffer {id}"
  | .unknownProgram id => s!"no program {id}"
  | .misfit kind =>
    let kind := String.ofList kind.word
    s!"does not fit {kind}"
  | .buffer error => error.message
  | .staging fault => fault.message
  | .program error => error.message
  | .execute error => error.message
  | .poll reason => reason

end Texelwise

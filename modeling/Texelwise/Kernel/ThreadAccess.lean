import Texelwise.Kernel.BufferAccess

/-!
# The thread in shader text

A thread program writes `thread[k]`, asks for its extents as `thread.width` and opens with its
header. In the shader the outputs are registers, the extents are members of the uniform block and
the header is a function header.

* `replaceOutputs`: writes become registers; an index that no output has is an error.
* `replaceOutputExtents`: extents become built-in members.
* `replaceHeader`: the header becomes `void thread(...)`.
-/

namespace Texelwise

/-- The word `thread`. -/
def threadWord : Text := "thread".toList

namespace Pattern

/-- A write to an output; it captures the number between the brackets. -/
def output : Pattern :=
  literal threadWord ++ spaceOptional ++ mark '[' ++ spaceOptional ++ group numeric ++
    spaceOptional ++ mark ']'

end Pattern

/-! ## Outputs -/

/-- The value of a text of decimal digits below `2 ^ 64`; other texts have none. -/
def readIndex? (t : Text) : Option Nat :=
  if t.isEmpty || !t.all Char.isDigit then none
  else
    let n := Nat.ofDigitChars 10 t 0
    if n < UInt64.size then some n else none

/-- The register of output `index`. -/
def outputRegister (index : Nat) : Text := threadOutputName (Text.ofNat index)

/-- What stands for a write to an output. A float is the first channel of its register. A number
that is no index, or the index of no output, leaves the text as it is. -/
def outputText (thread : ThreadSignature) (o : Occurrence) : Text :=
  match readIndex? (o.capture 0) with
  | none => o.text
  | some index =>
    match thread.outputs[index]? with
    | some .float => outputRegister index ++ ".r".toList
    | some .color => outputRegister index
    | none => o.text

/-- The index of a write if no output has it. -/
def outOfRange? (thread : ThreadSignature) (o : Occurrence) : Option Nat :=
  (readIndex? (o.capture 0)).filter fun index => thread.outputs.length ≤ index

/-- Replaces the writes to outputs; the first index out of range is an error. -/
def replaceOutputs (thread : ThreadSignature) (code : Text) : Except CompileError Text := do
  let found ← (Pattern.output.occurrences code).mapError .pattern
  match found.findSome? (outOfRange? thread) with
  | some index => throw (.outputIndexOutOfRange index thread.outputs.length)
  | none => (Pattern.output.replaceAll (outputText thread) code).mapError .pattern

/-! ## Extents and header -/

/-- Replaces the extents of the output. -/
def replaceOutputExtents (code : Text) : Except PatternError Text :=
  extentFields.foldlM
    (fun code field =>
      (Pattern.field threadWord field).replaceAll (fun _ => threadOutputName field) code)
    code

/-- Replaces the thread header by a function header with the same parameters. -/
def replaceHeader (code : Text) : Except PatternError Text :=
  Pattern.header.replaceAll
    (fun o => "void thread(".toList ++ Text.trim (o.capture 1) ++ [')'])
    code

end Texelwise

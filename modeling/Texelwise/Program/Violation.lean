import Texelwise.Program.Uniforms

/-!
# Violations

What can be wrong with the buffers and values that a caller gives to a program, each with its
wording.
-/

namespace Texelwise

/-- One reason why a program cannot run on what it is given. -/
inductive Violation where
  /-- There are more or fewer outputs than the program writes. -/
  | outputCount (expected found : Nat)
  /-- An output does not have the rank of the thread. -/
  | outputIndexing (index : Nat) (expected : Rank) (found : BufferKind)
  /-- An output does not hold the element that is written to it. -/
  | outputElement (index : Nat) (expected : ElementKind) (found : BufferKind)
  /-- The texture of an output does not have the size of the first one. -/
  | outputDimensions (index : Nat) (expected found : TextureSize)
  /-- A value does not have the declared type. -/
  | uniformKind (name : Text) (expected : UniformType) (found : Text)
  /-- A buffer stands twice among the outputs. -/
  | duplicateOutput (index first : Nat)
  /-- A buffer is both read and written. -/
  | aliased (name : Text) (output : Nat)
  deriving DecidableEq, Repr

/-- The wording of a violation. -/
def Violation.message : Violation → String
  | .outputCount expected found => s!"expected {expected} outputs, {found} given"
  | .outputIndexing index expected found =>
    let expected := String.ofList expected.label
    let found := String.ofList found.word
    s!"output {index}: {found} cannot be written by a {expected} thread"
  | .outputElement index expected found =>
    let expected := String.ofList expected.word
    let found := String.ofList found.word
    s!"output {index}: {found} cannot hold a `{expected}` output"
  | .outputDimensions index expected found =>
    let expected := expected.label
    let found := found.label
    s!"output {index}: texture is {found}, other outputs are {expected}"
  | .uniformKind name expected found =>
    let name := String.ofList name
    let expected := String.ofList expected.word
    let found := String.ofList found
    s!"uniform `{name}` is declared {expected}, {found} given"
  | .duplicateOutput index first => s!"output {index} is the same buffer as output {first}"
  | .aliased name output =>
    let name := String.ofList name
    s!"uniform `{name}` is also bound as output {output}"

end Texelwise

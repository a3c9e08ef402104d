import Texelwise.Kernel.Kind
import Texelwise.Kernel.Error

/-!
# The interface of a thread program

A program is text with one thread header, `[<outputs>] thread (<params>)`, and any number of
declarations `uniform <type> <name>;`. Both are found by pattern, wherever they stand.

* `readThread`: the rank and the outputs of the one header.
* `readUniforms`: the declarations in the order of the text.
* `Interface.ofText`: both; the header is read first.
-/

namespace Texelwise

/-! ## Patterns -/

namespace Pattern

/-- The part of a header up to the opening parenthesis. -/
def headerStart : Pattern :=
  mark '[' ++ group codeBlock ++ mark ']' ++ spaceOptional ++ literal "thread".toList ++
    spaceOptional ++ mark '('

/-- A thread header; it captures the outputs and the parameters. -/
def header : Pattern := headerStart ++ group codeBlock ++ mark ')'

/-- A thread header without parameters, which has no code block between the parentheses. -/
def emptyHeader : Pattern := headerStart ++ spaceOptional ++ mark ')'

/-- A declaration whose type fits `type`; its last capture is the name. -/
def declaration (type : Pattern) : Pattern :=
  literal "uniform".toList ++ spaceMandated ++ type ++ spaceMandated ++ group alphanumeric ++
    spaceOptional ++ mark ';'

/-- A declaration of any type; it captures the type and the name. -/
def anyDeclaration : Pattern := declaration (group alphanumeric)

end Pattern

/-! ## The header -/

/-- The outputs that a header lists between its brackets, separated by commas. -/
def readOutputs (t : Text) : Except CompileError (List ElementKind) :=
  ((Text.cut ',' t).map Text.trim).mapM fun w =>
    match ElementKind.ofWord? w with
    | some e => .ok e
    | none => .error (.invalidOutput w)

/-- The number of parameters between the parentheses: the parts between commas that hold more
than blanks. -/
def parameterCount (t : Text) : Nat :=
  ((Text.cut ',' t).filter fun p => !Text.isAllBlank p).length

/-- The signature that the two captures of a header describe. -/
def readHeader (outputs params : Text) : Except CompileError ThreadSignature := do
  let outputs ← readOutputs outputs
  match Rank.ofNat? (parameterCount params) with
  | some rank => return ⟨rank, outputs⟩
  | none => throw (.invalidParameterCount (parameterCount params))

/-- The signature of the one thread header in a program. -/
def readThread (code : Text) : Except CompileError ThreadSignature := do
  match ← (Pattern.header.occurrences code).mapError .pattern with
  | [o] => readHeader (o.capture 0) (o.capture 1)
  | [] =>
    let empty ← (Pattern.emptyHeader.occurrences code).mapError .pattern
    throw (if empty.isEmpty then .missingThread else .invalidParameterCount 0)
  | many => throw (.multipleThreads many.length)

/-! ## The uniforms -/

/-- Reads found declarations one by one; the names in `seen` are taken. -/
def readDeclarations (seen : List Text) :
    List Occurrence → Except CompileError (List UniformDeclaration)
  | [] => .ok []
  | o :: rest =>
    let name := o.capture 1
    match UniformType.ofWord? (o.capture 0) with
    | none => .error (.unknownUniformType name (o.capture 0))
    | some type =>
      if name ∈ seen then .error (.duplicateUniform name)
      else (readDeclarations (name :: seen) rest).map (⟨name, type⟩ :: ·)

/-- The uniforms that a program declares. -/
def readUniforms (code : Text) : Except CompileError (List UniformDeclaration) := do
  let found ← (Pattern.anyDeclaration.occurrences code).mapError .pattern
  readDeclarations [] found

/-! ## Both -/

/-- What a program offers to its caller. -/
structure Interface where
  thread : ThreadSignature
  uniforms : List UniformDeclaration
  deriving DecidableEq, Repr

/-- The interface of a program without comments. -/
def Interface.ofText (code : Text) : Except CompileError Interface := do
  let thread ← readThread code
  let uniforms ← readUniforms code
  return ⟨thread, uniforms⟩

end Texelwise

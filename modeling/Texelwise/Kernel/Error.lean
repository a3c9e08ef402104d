import Texelwise.Pattern.Scan

/-!
# Compile errors

Every way in which a thread program is rejected, with its wording.
-/

namespace Texelwise

/-- Why a thread program does not compile. -/
inductive CompileError where
  /-- There is no thread header. -/
  | missingThread
  /-- There are several thread headers. -/
  | multipleThreads (count : Nat)
  /-- A word among the outputs is no element. -/
  | invalidOutput (word : Text)
  /-- The thread function does not have 1, 2 or 3 parameters. -/
  | invalidParameterCount (count : Nat)
  /-- A uniform has a type that is none of the eight. -/
  | unknownUniformType (name type : Text)
  /-- Two uniforms have one name. -/
  | duplicateUniform (name : Text)
  /-- An output is written that the header does not declare. -/
  | outputIndexOutOfRange (index outputs : Nat)
  /-- A pattern of the compiler failed to scan. -/
  | pattern (error : PatternError)
  deriving DecidableEq, Repr

/-- The wording of a compile error. -/
def CompileError.message : CompileError → String
  | .missingThread => "program has no `[<outputs>] thread (<params>)` signature"
  | .multipleThreads count =>
    s!"program declares {count} thread functions, expected exactly one"
  | .invalidOutput word =>
    let word := String.ofList word
    s!"invalid thread output `{word}`, expected `float` or `color`"
  | .invalidParameterCount count =>
    s!"thread functions take 1, 2 or 3 parameters, got {count}"
  | .unknownUniformType name type =>
    let name := String.ofList name
    let type := String.ofList type
    s!"uniform `{name}` has unknown type `{type}`"
  | .duplicateUniform name =>
    let name := String.ofList name
    s!"uniform `{name}` is declared more than once"
  | .outputIndexOutOfRange index outputs =>
    s!"thread[{index}] written but the thread declares {outputs} output(s)"
  | .pattern error => error.message

end Texelwise

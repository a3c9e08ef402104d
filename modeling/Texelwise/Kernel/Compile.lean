import Texelwise.Kernel.ThreadAccess
import Texelwise.Text.Comment
import Texelwise.Log
import Texelwise.Shader.Codec
import Texelwise.Shader.Stage

/-!
# Compiling a thread program

A program becomes a pair of shaders in passes over its text: first the interface is read, then the
buffer kinds are treated one after another, then scalars, outputs, extents and the header. The
fragment shader is the changed text between fixed text and generated text.

* `compileLogged`: the compiled script, or the error, with what was logged on the way.
* `compile`: the script or the error alone.
-/

namespace Texelwise

/-- A compiled thread program. -/
structure Script where
  thread : ThreadSignature
  uniforms : List UniformDeclaration
  bindings : BindingTable
  vertex : Text
  fragment : Text
  deriving DecidableEq, Repr

/-! ## Passes -/

/-- The passes for the kinds in order: the text after each kind, and the text after all of them. -/
def replaceAllBuffers (table : BindingTable) :
    List BufferKind → Text → List (BufferKind × Text) × Except PatternError Text
  | [], code => ([], .ok code)
  | kind :: kinds, code =>
    match replaceBuffers table kind code with
    | .error e => ([], .error e)
    | .ok next =>
      let (stages, final) := replaceAllBuffers table kinds next
      ((kind, next) :: stages, final)

/-- The passes after the buffers. -/
def replaceThread (thread : ThreadSignature) (table : BindingTable) (code : Text) :
    Except CompileError Text := do
  let code ← (replaceDeclarations UniformType.int.word table code).mapError .pattern
  let code ← (replaceDeclarations UniformType.float.word table code).mapError .pattern
  let code ← replaceOutputs thread code
  let code ← (replaceOutputExtents code).mapError .pattern
  (replaceHeader code).mapError .pattern

/-- The fragment shader around the changed program text. -/
def fragmentText (thread : ThreadSignature) (table : BindingTable) (code : Text) : Text :=
  ['\n'].intercalate
    [Shader.version, table.uniformText, Shader.fragmentInputs, Shader.outputRegisters thread,
      Shader.integerMod, Shader.codec ByteOrder.host, Shader.selectFunctions, code,
      Shader.threadMain thread]

/-! ## Log records -/

/-- The record of what a program offers. -/
def Interface.record (i : Interface) : LogRecord :=
  ⟨.debug,
    "thread ".toList ++ i.thread.rank.label ++ " -> [".toList ++
      argumentList (i.thread.outputs.map ElementKind.word) ++ "], ".toList ++
      Text.ofNat i.uniforms.length ++ " uniform(s)".toList⟩

/-- The record of the text after the passes for one kind. -/
def stageRecord (stage : BufferKind × Text) : LogRecord :=
  ⟨.trace, "after ".toList ++ stage.1.word ++ " pass:\n".toList ++ stage.2⟩

/-! ## The compiler -/

/-- Builds the script from the text after the buffer passes. -/
def finishScript (i : Interface) (table : BindingTable) (code : Except PatternError Text) :
    Except CompileError Script := do
  let code ← code.mapError .pattern
  let code ← replaceThread i.thread table code
  return ⟨i.thread, i.uniforms, table, Shader.vertex, fragmentText i.thread table code⟩

/-- Compiles a program. Nothing is logged before the interface is read. -/
def compileLogged (source : Text) : List LogRecord × Except CompileError Script :=
  let code := Text.stripComments source
  match Interface.ofText code with
  | .error e => ([], .error e)
  | .ok i =>
    let table := BindingTable.ofDeclarations i.uniforms
    let (stages, final) := replaceAllBuffers table BufferKind.all code
    (i.record :: stages.map stageRecord, finishScript i table final)

/-- The compiled script of a program. -/
def compile (source : Text) : Except CompileError Script := (compileLogged source).2

theorem compile_of_interface {source : Text} {i : Interface}
    (h : Interface.ofText (Text.stripComments source) = .ok i) :
    compile source = finishScript i (.ofDeclarations i.uniforms)
      (replaceAllBuffers (.ofDeclarations i.uniforms) BufferKind.all
        (Text.stripComments source)).2 := by
  simp only [compile, compileLogged, h]

theorem compile_eq_error_of_interface {source : Text} {e : CompileError}
    (h : Interface.ofText (Text.stripComments source) = .error e) : compile source = .error e := by
  simp only [compile, compileLogged, h]

/-- A program that compiles has an interface. -/
theorem exists_interface_of_compile {source : Text} {script : Script}
    (h : compile source = .ok script) :
    ∃ i, Interface.ofText (Text.stripComments source) = .ok i := by
  cases hi : Interface.ofText (Text.stripComments source) with
  | error e =>
    rw [compile_eq_error_of_interface hi] at h
    cases h
  | ok i => exact ⟨i, rfl⟩

end Texelwise

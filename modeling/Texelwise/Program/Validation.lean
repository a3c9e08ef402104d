import Texelwise.Kernel.Compile
import Texelwise.Program.Violation

/-!
# Validation

Checks the outputs and values of one run against the interface of a program. All violations are
listed, outputs before uniforms.

* `violations`: every violation; a run goes ahead only if there is none.
-/

namespace Texelwise

/-- The violation of a wrong number of outputs. -/
def countViolations (thread : ThreadSignature) (outputs : List BufferDesc) : List Violation :=
  if outputs.length = thread.outputs.length then []
  else [.outputCount thread.outputs.length outputs.length]

/-- The violations of one output by its kind. -/
def kindViolations (rank : Rank) (index : Nat) (desc : BufferDesc) (element : ElementKind) :
    List Violation :=
  (if desc.kind.rank = rank then [] else [.outputIndexing index rank desc.kind]) ++
    if desc.kind.element = element then [] else [.outputElement index element desc.kind]

/-- The violation of output `index` by an earlier output that is the same buffer. -/
def duplicateViolation? (outputs : List BufferDesc) (index : Nat) (desc : BufferDesc) :
    Option Violation :=
  ((outputs.take index).findIdx? fun o => o.id = desc.id).map (.duplicateOutput index)

/-- The violation of an output whose texture does not have the size of the first one. -/
def sizeViolation? (first : BufferDesc) (index : Nat) (desc : BufferDesc) : Option Violation :=
  if desc.textureSize = first.textureSize then none
  else some (.outputDimensions index first.textureSize desc.textureSize)

/-- The violations of the outputs as a whole. -/
def outputViolations (thread : ThreadSignature) (outputs : List BufferDesc) : List Violation :=
  countViolations thread outputs ++
  ((outputs.zip thread.outputs).zipIdx.flatMap fun ((desc, element), index) =>
    kindViolations thread.rank index desc element) ++
  (outputs.zipIdx.filterMap fun (desc, index) => duplicateViolation? outputs index desc) ++
  match outputs with
  | [] => []
  | first :: _ => outputs.zipIdx.filterMap fun (desc, index) => sizeViolation? first index desc

/-- The violations of a value for one declared uniform. -/
def valueViolations (outputs : List BufferDesc) (d : UniformDeclaration) (value : UniformValue) :
    List Violation :=
  (if d.type.accepts value then [] else [.uniformKind d.name d.type value.kindWord]) ++
    match value with
    | .buffer desc =>
      ((outputs.findIdx? fun o => o.id = desc.id).map (Violation.aliased d.name)).toList
    | .int _ | .float _ => []

/-- The violations of the value supplied for one declared uniform; none if there is no value. -/
def uniformViolations (outputs : List BufferDesc) (uniforms : Uniforms) (d : UniformDeclaration) :
    List Violation :=
  match uniforms.get? d.name with
  | none => []
  | some value => valueViolations outputs d value

/-- Every violation of a run. -/
def violations (script : Script) (outputs : List BufferDesc) (uniforms : Uniforms) :
    List Violation :=
  outputViolations script.thread outputs ++
    script.uniforms.flatMap (uniformViolations outputs uniforms)

end Texelwise

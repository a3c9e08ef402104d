import Texelwise.Device.Device
import Texelwise.Kernel.Error
import Texelwise.Program.Violation

/-!
# Program errors

Why a program cannot be made or run on a device, with the wording of each cause.
-/

namespace Texelwise

/-! ## Making a program -/

/-- What a program needs of a device and the device has a limit on. -/
inductive LimitedResource where
  | outputs
  | uniformBytes
  | bufferUniforms
  deriving DecidableEq, Repr

/-- The words for a resource. -/
def LimitedResource.words : LimitedResource → String
  | .outputs => "thread outputs"
  | .uniformBytes => "uniform bytes"
  | .bufferUniforms => "buffer uniforms"

/-- Why a program cannot be made. -/
inductive ProgramError where
  | compile (error : CompileError)
  /-- A generated shader was refused. -/
  | shader (stage : ShaderStage) (diagnostic : String)
  /-- The program needs more than the device has. -/
  | limit (resource : LimitedResource) (requested allowed : Nat)
  deriving DecidableEq, Repr

/-- The wording of a program error. -/
def ProgramError.message : ProgramError → String
  | .compile error => error.message
  | .shader stage diagnostic =>
    let stage := stage.word
    s!"{stage} shader failed to compile:\n{diagnostic}"
  | .limit resource requested allowed =>
    let words := resource.words
    s!"program needs {requested} {words}, device allows {allowed}"

/-! ## Running a program -/

/-- Why a texture cannot be drawn into. -/
inductive AttachmentFault where
  /-- There are more outputs than the device draws into at once. -/
  | tooMany (limit : Nat)
  /-- The texture has a zero side. -/
  | empty (size : TextureSize)
  /-- The texture has a side above the limit. -/
  | tooLarge (size : TextureSize) (limit : Nat)
  deriving DecidableEq, Repr

/-- The wording of a fault. -/
def AttachmentFault.reason : AttachmentFault → String
  | .tooMany limit => s!"device supports {limit} color attachments"
  | .empty size =>
    let label := size.label
    s!"texture is empty ({label})"
  | .tooLarge size limit =>
    let label := size.label
    s!"texture {label} exceeds {limit}"

/-- Why a program does not run. -/
inductive ExecuteError where
  | validation (violations : List Violation)
  /-- The texture of an output cannot be drawn into. -/
  | incompleteAttachment (index : Nat) (reason : String)
  /-- A member lies outside of the uniform block, which stops the run. -/
  | stopped (fault : RangeFault)
  deriving DecidableEq, Repr

/-- The wording of a failure; violations have a line each. -/
def ExecuteError.message : ExecuteError → String
  | .validation violations => "\n".intercalate (violations.map Violation.message)
  | .incompleteAttachment index reason =>
    s!"output {index} cannot be a render attachment: {reason}"
  | .stopped fault => fault.message

end Texelwise

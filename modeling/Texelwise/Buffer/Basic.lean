import Texelwise.Buffer.Staging
import Texelwise.Device.Device

/-!
# Buffers

A buffer is a staging memory with a texture on the device. Elements are read and written in the
staging memory alone; `push` uploads it and `pull` reads the texture back. Where a side of the
texture is zero, neither does anything.

* `Buffer.create`: a buffer of zeros, or why there is none.
* `Buffer.push`, `Buffer.pull`: the copies to and from the texture, with the sizes and pitches that
  the device is handed.
* `Buffer.describe`: what a program needs to know about a buffer.
-/

namespace Texelwise

/-! ## Errors -/

/-- Why a buffer operation fails. -/
inductive BufferError where
  /-- The texture has a side above the limit. -/
  | tooLarge (size : TextureSize) (limit : Nat)
  /-- The readback cannot be made accessible. -/
  | map (reason : String)
  /-- The device never said whether the readback was mapped. -/
  | mapCallbackDropped
  /-- Waiting for the device failed. -/
  | poll (reason : String)
  /-- The host or the device stops the program with this message. -/
  | stopped (message : String)
  deriving DecidableEq, Repr

/-- The wording of a buffer error. -/
def BufferError.message : BufferError → String
  | .tooLarge size limit =>
    let label := size.label
    s!"buffer texture {label} exceeds the device limit of {limit}"
  | .map reason => s!"failed to map readback buffer: {reason}"
  | .mapCallbackDropped => "readback map callback was dropped"
  | .poll reason => s!"device poll failed: {reason}"
  | .stopped message => message

/-- The message where more is asked for than one allocation can have. -/
def capacityMessage : String := "capacity overflow"

/-! ## Sizes -/

/-- A texture is not larger than the device allows. -/
def TextureSize.Within (size : TextureSize) (limits : Limits) : Prop :=
  size.width ≤ limits.maxTextureSide ∧ size.height ≤ limits.maxTextureSide

instance (size : TextureSize) (limits : Limits) : Decidable (size.Within limits) :=
  inferInstanceAs (Decidable (_ ∧ _))

/-- The bytes of a row of so many texels. -/
def rowBytes (width : Nat) : UInt32 := UInt32.ofNat width * texelSize

/-- The bytes of a row with its padding. -/
def paddedRowBytes (width : Nat) : UInt32 := divCeil (rowBytes width) rowAlignment * rowAlignment

/-- How the texels of a size lie in staging memory. -/
def TextureSize.layout (size : TextureSize) : CopyLayout := ⟨0, rowBytes size.width, size.height⟩

/-- How the texels of a size lie in a device buffer. -/
def TextureSize.paddedLayout (size : TextureSize) : CopyLayout :=
  ⟨0, paddedRowBytes size.width, size.height⟩

/-- The bytes of a device buffer for the texels of a size. -/
def TextureSize.paddedBytes (size : TextureSize) : Nat :=
  (paddedRowBytes size.width).toNat * size.height

/-! ## Buffers -/

/-- A buffer of any kind. -/
structure Buffer where
  id : BufferId
  kind : BufferKind
  staging : Staging kind
  texture : Texture

namespace Buffer

/-- The shape of a buffer. -/
def shape (b : Buffer) : Shape b.kind.rank := b.staging.shape

/-- The sides of the texture as the shape asks for them. -/
def textureSize (b : Buffer) : TextureSize := b.shape.textureSize

/-- What a program needs to know about a buffer. -/
def describe (b : Buffer) : BufferDesc := ⟨b.id, b.kind, b.shape.extents, b.textureSize⟩

/-- The buffer with another staging memory. -/
def withStaging (b : Buffer) (staging : Staging b.kind) : Buffer := { b with staging }

/-- The buffer with these texels in its texture. -/
def paint (b : Buffer) (texel : TexelAt) : Buffer := { b with texture := b.texture.paint texel }

/-- Uploads the staging memory to the texture. -/
def push (device : Device) (b : Buffer) : Except BufferError Buffer :=
  let size := b.textureSize
  if size.isEmpty then .ok b
  else ((device.write b.texture b.staging.bytes size.layout size).map b.paint).mapError .stopped

/-- Reads the texture back into the staging memory, after waiting for the device. -/
def pull (device : Device) (answer : WaitAnswer) (b : Buffer) : Except BufferError Buffer :=
  let size := b.textureSize
  if size.isEmpty then .ok b
  else
    match device.read b.texture size.paddedLayout size size.paddedBytes, answer with
    | .error message, _ => .error (.stopped message)
    | .ok _, .poll reason => .error (.poll reason)
    | .ok _, .dropped => .error .mapCallbackDropped
    | .ok _, .unmapped reason => .error (.map reason)
    | .ok mapped, .mapped =>
      ((b.staging.takeRows (rowBytes size.width).toNat (paddedRowBytes size.width).toNat
        mapped).map b.withStaging).mapError .stopped

/-- A buffer of zeros, with its texture filled. -/
def create (device : Device) (id : BufferId) (kind : BufferKind) (shape : Shape kind.rank) :
    Except BufferError Buffer :=
  let size := shape.textureSize
  if size.Within device.limits then
    match Staging.create? shape with
    | none => .error (.stopped capacityMessage)
    | some staging => push device ⟨id, kind, staging, Texture.zeros size.allocated⟩
  else .error (.tooLarge size device.limits.maxTextureSide)

end Buffer

end Texelwise

import Texelwise.Bytes
import Texelwise.Device.Call
import Texelwise.Device.Limits
import Texelwise.Shader.Stage

/-!
# Devices

What the graphics layer does is not part of this library: it checks shader texts, copies between
bytes and textures, and draws. A device is a parameter that says what comes of each. The library
hands over all that it hands to the graphics layer, so that a fault in a size or a pitch shows.

* `Device`: a device by what it answers.
* `Device.Copies`, `Device.ReadsTexcoord`: what the documentation of the graphics layer promises.
* `Device.plain`: a device that draws nothing.
-/

namespace Texelwise

/-! ## Shaders -/

/-- The two shaders of a program. -/
inductive ShaderStage where
  | vertex
  | fragment
  deriving DecidableEq, Repr

/-- The word for a stage. -/
def ShaderStage.word : ShaderStage → String
  | .vertex => "vertex"
  | .fragment => "fragment"

/-- What is known of a shader that has been checked. -/
structure ShaderModule where
  /-- The locations of the attributes that its entry points read. -/
  inputs : List Nat
  deriving DecidableEq, Repr

/-- The location of positions. -/
def positionLocation : Nat := 0

/-- The location of texture coordinates. -/
def texcoordLocation : Nat := 1

/-! ## Copies -/

/-- How the texels of an image lie in bytes. -/
structure CopyLayout where
  /-- Where the first row starts. -/
  offset : Nat
  /-- From the start of a row to that of the next one. -/
  bytesPerRow : UInt32
  rowsPerImage : Nat
  deriving DecidableEq, Repr

/-- The bytes of one texel. -/
def texelSize : UInt32 := 4

/-- The number that the rows of a copy from a texture have to be a multiple of, in bytes. -/
def rowAlignment : UInt32 := 256

/-- The texel in the four bytes from a place on; bytes that are not there count as zero. -/
def Texel.ofBytes (bytes : Array UInt8) (i : Nat) : Texel :=
  ⟨bytes.getD i 0, bytes.getD (i + 1) 0, bytes.getD (i + 2) 0, bytes.getD (i + 3) 0⟩

/-- Where the texel of a column and a row starts. -/
def CopyLayout.place (l : CopyLayout) (x y : Nat) : Nat :=
  l.offset + y * l.bytesPerRow.toNat + 4 * x

/-- A part of this size at the origin of a texture lies inside it. -/
def TextureSize.Inside (size : TextureSize) (t : Texture) : Prop :=
  size.width ≤ t.size.width ∧ size.height ≤ t.size.height

/-- How waiting for bytes from the device ends. -/
inductive WaitAnswer where
  /-- They are there. -/
  | mapped
  /-- Waiting fails. -/
  | poll (reason : String)
  /-- It is never said whether they are there. -/
  | dropped
  /-- They cannot be made accessible. -/
  | unmapped (reason : String)
  deriving DecidableEq, Repr

/-! ## Devices -/

/-- A drawing that is submitted: the shaders, the calls that set it up, and the textures that they
name as they are before it. -/
structure Draw where
  vertex : Text
  fragment : Text
  calls : List Call
  texture? : BufferId → Option Texture

/-- A device by what it answers. An error stops the caller with this message. -/
structure Device where
  limits : Limits
  /-- What is known of a shader text, or why it is refused. -/
  check : ShaderStage → Text → Except String ShaderModule
  /-- The texels of a texture after bytes of this layout were copied to the part of this size at its
  origin. -/
  write : Texture → List UInt8 → CopyLayout → TextureSize → Except String TexelAt
  /-- The so many bytes of a device buffer after the part of this size at the origin of a texture
  was copied to it. -/
  read : Texture → CopyLayout → TextureSize → (length : Nat) → Except String (List UInt8)
  /-- The texels of a target by its index after a drawing. -/
  draw : Draw → (target : Nat) → TexelAt

namespace Device

/-- The vertex shader that all programs share reads texture coordinates, if it is accepted. -/
def ReadsTexcoord (d : Device) : Prop :=
  ∀ m, d.check .vertex Shader.vertex = .ok m → texcoordLocation ∈ m.inputs

/-- Copies between bytes and textures do what the graphics layer documents, for parts that have a
texel and lie inside the texture. -/
structure Copies (d : Device) : Prop where
  /-- Rows that overlap are refused. -/
  write_refuses : ∀ t bytes layout (size : TextureSize), size.isEmpty = false →
    layout.bytesPerRow.toNat < 4 * size.width →
    ∃ reason, d.write t bytes layout size = .error reason
  /-- Bytes that are enough are copied row by row, and the rest of the texture stays. -/
  write_rows : ∀ t bytes layout (size : TextureSize), size.isEmpty = false → size.Inside t →
    4 * size.width ≤ layout.bytesPerRow.toNat →
    layout.place size.width (size.height - 1) ≤ bytes.length →
    ∃ texel, d.write t bytes layout size = .ok texel ∧
      ∀ x < t.size.width, ∀ y < t.size.height, texel x y =
        if x < size.width ∧ y < size.height then .ofBytes bytes.toArray (layout.place x y)
        else t.texel x y
  read_refuses : ∀ t layout (size : TextureSize) length, size.isEmpty = false →
    layout.bytesPerRow.toNat < 4 * size.width →
    ∃ reason, d.read t layout size length = .error reason
  /-- Aligned rows that do not overlap are accepted, if the device can hold them. -/
  read_accepts : ∀ t layout (size : TextureSize) length, size.isEmpty = false → size.Inside t →
    rowAlignment.toNat ∣ layout.bytesPerRow.toNat →
    4 * size.width ≤ layout.bytesPerRow.toNat →
    layout.offset + layout.bytesPerRow.toNat * size.height ≤ length →
    length ≤ d.limits.maxBufferSize → ∃ bytes, d.read t layout size length = .ok bytes
  /-- What is read has the texels row by row. -/
  read_rows : ∀ t layout (size : TextureSize) length bytes, size.isEmpty = false → size.Inside t →
    d.read t layout size length = .ok bytes → bytes.length = length ∧
      ∀ x < size.width, ∀ y < size.height,
        Texel.ofBytes bytes.toArray (layout.place x y) = t.texel x y

/-! ## A plain device -/

/-- What stands at a place of the rows of a texture, each texel four bytes long; zero between the
rows. -/
def rowByte (t : Texture) (layout : CopyLayout) (size : TextureSize) (i : Nat) : UInt8 :=
  let stride := layout.bytesPerRow.toNat
  let column := (i - layout.offset) % stride
  let row := (i - layout.offset) / stride
  if i < layout.offset ∨ 4 * size.width ≤ column ∨ size.height ≤ row then 0
  else (t.texel (column / 4) row).bytes.getD (column % 4) 0

/-- A device that takes every shader, copies as documented and draws nothing. -/
def plain (limits : Limits) : Device where
  limits
  check _ _ := .ok ⟨[positionLocation, texcoordLocation]⟩
  write t bytes layout size :=
    if layout.bytesPerRow.toNat < 4 * size.width then
      .error "bytes per row are less than the bytes of a row"
    else if bytes.length < layout.place size.width (size.height - 1) then
      .error "the copy ends past the bytes"
    else
      let bytes := bytes.toArray
      .ok fun x y =>
        if x < size.width ∧ y < size.height then .ofBytes bytes (layout.place x y) else t.texel x y
  read t layout size length :=
    if layout.bytesPerRow % rowAlignment ≠ 0 ∨ layout.bytesPerRow.toNat < 4 * size.width then
      .error "bytes per row do not fit the rows"
    else if length < layout.offset + layout.bytesPerRow.toNat * size.height ∨
        limits.maxBufferSize < length then
      .error "the buffer does not fit the copy"
    else .ok ((List.range length).map (rowByte t layout size))
  draw d target x y :=
    match d.calls.findSome? fun
      | .pass attachments => attachments[target]?
      | _ => none with
    | some attachment =>
      match d.texture? attachment.id with
      | some t => t.texel x y
      | none => .zero
    | none => .zero

end Device

end Texelwise

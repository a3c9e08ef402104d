import Texelwise.Buffer.Description
import Texelwise.Buffer.Texture

/-!
# Device calls

The calls that reach the device when a program is made or run, in their order, each with its
printed form.
-/

namespace Texelwise

/-! ## The square -/

/-- The bytes of a float in a vertex. -/
def vertexFloatSize : Nat := 4

/-- The bytes of a vertex in each vertex buffer: a position of three floats and, if the vertex
shader reads them, texture coordinates of two. -/
def vertexStrides (readsTexcoord : Bool) : List Nat :=
  3 * vertexFloatSize :: if readsTexcoord then [2 * vertexFloatSize] else []

/-- The corners of the two triangles that make up the square. -/
def squareIndices : List Nat := [0, 1, 2, 2, 3, 0]

/-! ## Calls -/

/-- A texture in a binding group. -/
inductive BoundTexture where
  | buffer (id : BufferId) (size : TextureSize)
  /-- What is bound for a buffer that the caller does not supply. -/
  | placeholder
  deriving DecidableEq, Repr

/-- The sides of a bound texture as it is allocated. -/
def BoundTexture.size : BoundTexture → TextureSize
  | .buffer _ size => size.allocated
  | .placeholder => ⟨1, 1⟩

/-- A texture that is drawn into. -/
structure Attachment where
  id : BufferId
  size : TextureSize
  deriving DecidableEq, Repr

/-- A call to the device. -/
inductive Call where
  /-- Makes a pipeline with so many targets and these vertex strides. -/
  | pipeline (targets : Nat) (strides : List Nat)
  /-- Makes a buffer for a uniform block. -/
  | uniformBuffer (size : Nat)
  /-- Binds the uniform block, the sampler and textures by their bindings. -/
  | bind (block sampler : Nat) (textures : List (Nat × BoundTexture))
  /-- Starts to draw into textures. -/
  | pass (attachments : List Attachment)
  /-- Draws to the whole of these sides. -/
  | viewport (size : TextureSize)
  /-- Reads vertices from a vertex buffer. -/
  | vertices (slot : Nat)
  /-- Draws so many indices once. -/
  | draw (indices : Nat)
  /-- Fills the uniform block. -/
  | uniforms (bytes : List UInt8)
  deriving DecidableEq, Repr

/-- Two hexadecimal digits of a byte. -/
def hexByte (b : UInt8) : List Char :=
  [Nat.digitChar (b.toNat / 16), Nat.digitChar (b.toNat % 16)]

/-- Items with a space before each. -/
def spaced (items : List String) : String := String.join (items.map (" " ++ ·))

/-- The printed form of a call. -/
def Call.text : Call → String
  | .pipeline targets strides =>
    let strides := spaced (strides.map toString)
    s!"pipeline targets {targets} strides{strides}"
  | .uniformBuffer size => s!"uniform buffer {size}"
  | .bind block sampler textures =>
    let textures := spaced (textures.map fun (binding, texture) =>
      toString binding ++ ":" ++ texture.size.label)
    s!"bind {block} {sampler}{textures}"
  | .pass attachments => "pass" ++ spaced (attachments.map (·.size.label))
  | .viewport size =>
    let width := size.width
    let height := size.height
    s!"viewport 0 0 {width} {height}"
  | .vertices slot => s!"vertices {slot}"
  | .draw indices => s!"draw 0 {indices} 0 0 1"
  | .uniforms bytes =>
    let digits := String.ofList (bytes.flatMap hexByte)
    s!"uniforms {digits}"

end Texelwise

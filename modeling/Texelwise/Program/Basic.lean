import Texelwise.Device.Call
import Texelwise.Program.Block
import Texelwise.Program.Error
import Texelwise.Program.Validation

/-!
# Programs

A program is a compiled script on a device. Making one has the device check its shaders and then
checks what it needs against the limits of the device; running one checks the outputs and values,
then the textures, and only then makes calls.

* `Program.create`: the program of a source text, or why there is none.
* `Program.run`: the calls of one run, or why it is refused.
-/

namespace Texelwise

/-- A program on a device. -/
structure Program where
  script : Script
  /-- Whether the vertex shader reads texture coordinates. -/
  readsTexcoord : Bool
  deriving DecidableEq, Repr

namespace Program

/-! ## Making a program -/

/-- The first limit of a device that a script exceeds. -/
def exceededLimit? (limits : Limits) (script : Script) : Option ProgramError :=
  let outputs := script.thread.outputs.length
  let block := script.bindings.blockSize.toNat
  let textures := script.bindings.textures.length
  if limits.maxOutputs < outputs then some (.limit .outputs outputs limits.maxOutputs)
  else if limits.maxUniformBlockSize < block then
    some (.limit .uniformBytes block limits.maxUniformBlockSize)
  else if limits.maxSampledTextures < textures then
    some (.limit .bufferUniforms textures limits.maxSampledTextures)
  else none

/-- The program of a source text. -/
def create (device : Device) (source : Text) : Except ProgramError Program := do
  let script ← (compile source).mapError .compile
  let vertex ← (device.check .vertex script.vertex).mapError (.shader .vertex)
  let _ ← (device.check .fragment script.fragment).mapError (.shader .fragment)
  match exceededLimit? device.limits script with
  | some e => throw e
  | none => return ⟨script, vertex.inputs.contains texcoordLocation⟩

/-- The calls that make a program. -/
def creationCalls (p : Program) : List Call :=
  [.pipeline p.script.thread.outputs.length (vertexStrides p.readsTexcoord),
    .uniformBuffer p.script.bindings.blockSize.toNat]

/-! ## Running a program -/

/-- The fault of a texture as an output. -/
def attachmentFault? (limits : Limits) (size : TextureSize) : Option AttachmentFault :=
  if size.isEmpty then some (.empty size)
  else if limits.maxTextureSide < size.width ∨ limits.maxTextureSide < size.height then
    some (.tooLarge size limits.maxTextureSide)
  else none

/-- The first fault among the outputs, with the index of the output. -/
def firstFault? (limits : Limits) (outputs : List BufferDesc) : Option (Nat × AttachmentFault) :=
  if limits.maxColorAttachments < outputs.length then
    some (limits.maxColorAttachments, .tooMany limits.maxColorAttachments)
  else
    outputs.zipIdx.findSome? fun (desc, index) =>
      (attachmentFault? limits desc.textureSize).map (index, ·)

/-- What is bound to the texture binding of a slot. -/
def boundTexture (uniforms : Uniforms) (slot : UniformSlot) : BoundTexture :=
  match uniforms.get? slot.name with
  | some (.buffer desc) => .buffer desc.id desc.textureSize
  | _ => .placeholder

/-- The textures of the binding group, by binding. -/
def boundTextures (table : BindingTable) (uniforms : Uniforms) : List (Nat × BoundTexture) :=
  table.slots.filterMap fun slot => slot.texture.map fun binding =>
    (binding, boundTexture uniforms slot)

/-- The calls that set up the vertices: positions and, if they are read, texture coordinates. -/
def vertexCalls (p : Program) : List Call :=
  .vertices 0 :: if p.readsTexcoord then [.vertices 1] else []

/-- The calls of a run that has passed all checks; `first` is the first output, and `block` holds
the bytes of the uniform block. -/
def runCalls (p : Program) (first : BufferDesc) (outputs : List BufferDesc) (uniforms : Uniforms)
    (block : List UInt8) : List Call :=
  [.bind blockBinding samplerBinding (boundTextures p.script.bindings uniforms),
    .pass (outputs.map fun o => ⟨o.id, o.textureSize⟩), .viewport first.textureSize] ++
  p.vertexCalls ++ [.draw squareIndices.length, .uniforms block]

/-- The calls of a run on these outputs and values. -/
def run (p : Program) (limits : Limits) (outputs : List BufferDesc) (uniforms : Uniforms) :
    Except ExecuteError (List Call) :=
  let found := violations p.script outputs uniforms
  if !found.isEmpty then .error (.validation found)
  else
    match outputs with
    | [] => .error (.validation [.outputCount p.script.thread.outputs.length 0])
    | first :: _ =>
      match firstFault? limits outputs with
      | some (index, fault) => .error (.incompleteAttachment index fault.reason)
      | none =>
        ((blockBytes p.script.bindings first uniforms).map
          (p.runCalls first outputs uniforms)).mapError .stopped

/-! ## Description -/

/-- The name of an element in the description of a program. -/
def elementName : ElementKind → String
  | .float => "Float"
  | .color => "Color"

/-- The name of a rank in the description of a program. -/
def rankName (r : Rank) : String := "D" ++ toString r.toNat

/-- The name of a uniform type in the description of a program. -/
def typeName : UniformType → String
  | .int => "Int"
  | .float => "Float"
  | .buffer kind => "Buffer(" ++ String.ofList kind.word ++ ")"

/-- A declaration in the description of a program. -/
def describeDeclaration (d : UniformDeclaration) : String :=
  "UniformDeclaration \x7b name: \"" ++ String.ofList d.name ++ "\", ty: " ++ typeName d.type ++
    " \x7d"

/-- The description of a program by its interface. -/
def describe (p : Program) : String :=
  let outputs := ", ".intercalate (p.script.thread.outputs.map elementName)
  let uniforms := ", ".intercalate (p.script.uniforms.map describeDeclaration)
  "Program \x7b thread: ThreadFunction \x7b indexing: " ++ rankName p.script.thread.rank ++
    ", outputs: [" ++ outputs ++ "] \x7d, uniforms: [" ++ uniforms ++
    "], reads_texcoord: " ++ toString p.readsTexcoord ++ ", .. \x7d"

end Program

end Texelwise

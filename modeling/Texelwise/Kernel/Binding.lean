import Texelwise.Bytes
import Texelwise.Kernel.Kind

/-!
# Bindings

All data of a program lives in one binding group: binding 0 is the uniform block, binding 1 the
sampler, and from binding 2 on there is one texture per buffer declaration, in declaration order.

The block holds 4-byte scalars back to back: five built-in members, then for each declaration
either the scalar itself or the extents of the buffer, its companions. Its offsets and its size are
32-bit numbers, so a block of `2 ^ 30` members or more is not laid out as it should be.

* `BindingTable.ofDeclarations`: the slots of a list of declarations.
* `blockSize`: the size of a block, in whole groups of 16 bytes.
* `BindingTable.uniformText`: the shader text that declares the block and the sampler.
-/

namespace Texelwise

/-! ## Generated names -/

/-- The decimal digits of a number. -/
def Text.ofNat (n : Nat) : Text := Nat.toDigits 10 n

/-- The shader name of something that belongs to the buffer `name`. -/
def bufferMemberName (name member : Text) : Text := "nc_uniform_".toList ++ name ++ '_' :: member

/-- The shader name of the texture of the buffer `name`. -/
def textureName (name : Text) : Text := bufferMemberName name "texture".toList

/-- The shader name of an extent of the thread's output. -/
def threadOutputName (member : Text) : Text := "nc_thread_output_".toList ++ member

/-- The fields that a buffer of rank 3 has; one of lower rank has the first ones. -/
def extentFields : List Text := ["width".toList, "height".toList, "depth".toList]

/-- The fields of a buffer of this rank. -/
def Rank.fields (r : Rank) : List Text := extentFields.take r.toNat

/-- The companion members of a kind: the sides of the texture, then the fields. -/
def BufferKind.companions (k : BufferKind) : List Text :=
  ["textureWidth".toList, "textureHeight".toList] ++ k.rank.fields

/-- The names of the built-in members, in order. -/
def builtinNames : List Text :=
  ["nc_thread_viewport_width".toList, "nc_thread_viewport_height".toList,
    "nc_thread_output_width".toList, "nc_thread_output_height".toList,
    "nc_thread_output_depth".toList]

/-- The name of the uniform block. -/
def blockName : Text := "nc_uniform_block".toList

/-- The name of the sampler. -/
def samplerName : Text := "nc_sampler".toList

/-! ## The uniform block -/

/-- The binding of the uniform block. -/
def blockBinding : Nat := 0

/-- The binding of the sampler. -/
def samplerBinding : Nat := 1

/-- The binding of the first texture. Textures are numbered exactly: no program has `2 ^ 32 - 2` of
them, since each takes at least three members of the block. -/
def firstTextureBinding : Nat := 2

/-- The bytes of one member. -/
def memberSize : UInt32 := 4

/-- The bytes of the group to which block sizes are rounded up. -/
def blockAlignment : UInt32 := 16

/-- The byte size of a block of `members` members, at least one group. -/
def blockSize (members : Nat) : UInt32 :=
  let raw := UInt32.ofNat members * memberSize
  max (divCeil raw blockAlignment) 1 * blockAlignment

/-- The type of a block member. -/
inductive ScalarType where
  | int
  | float
  deriving DecidableEq, Repr

/-- The shader's word for a scalar type. -/
def ScalarType.word : ScalarType → Text
  | .int => "int".toList
  | .float => "float".toList

/-- One member of the uniform block. -/
structure BlockMember where
  name : Text
  type : ScalarType
  /-- Where the member starts in the block, in bytes. -/
  offset : UInt32
  deriving DecidableEq, Repr

/-- The names and types of the members that a declaration adds to the block. -/
def UniformDeclaration.memberTypes (d : UniformDeclaration) : List (Text × ScalarType) :=
  match d.type with
  | .int => [(d.name, .int)]
  | .float => [(d.name, .float)]
  | .buffer k => k.companions.map fun m => (bufferMemberName d.name m, .int)

/-- Where the member behind so many others starts. -/
def BlockMember.after (offset : UInt32) (members : Nat) : UInt32 :=
  offset + UInt32.ofNat members * memberSize

/-- Places members one after another from byte `offset` on. -/
def BlockMember.place (offset : UInt32) : List (Text × ScalarType) → List BlockMember
  | [] => []
  | (name, type) :: rest => ⟨name, type, offset⟩ :: place (offset + memberSize) rest

@[simp] theorem BlockMember.length_place (offset : UInt32) (ms : List (Text × ScalarType)) :
    (BlockMember.place offset ms).length = ms.length := by
  induction ms generalizing offset with
  | nil => rfl
  | cons m ms ih => simp [BlockMember.place, ih]

/-! ## Slots -/

/-- Where one declaration is bound. -/
structure UniformSlot where
  declaration : UniformDeclaration
  /-- The binding of the texture of a buffer. -/
  texture : Option Nat
  /-- The scalar itself, or the companions of a buffer. -/
  members : List BlockMember
  deriving DecidableEq, Repr

namespace UniformSlot

/-- The declared name. -/
def name (s : UniformSlot) : Text := s.declaration.name

/-- The shader text in place of the declaration: a texture for a buffer, nothing for a scalar. -/
def declarationText (s : UniformSlot) : Text :=
  match s.texture with
  | some binding =>
    "layout(set = 0, binding = ".toList ++ Text.ofNat binding ++ ") uniform texture2D ".toList ++
      textureName s.name ++ [';']
  | none => []

/-- Binds declarations one after another, members from byte `offset` and textures from binding
`texture` on. -/
def bind (offset : UInt32) (texture : Nat) : List UniformDeclaration → List UniformSlot
  | [] => []
  | d :: ds =>
    let members := BlockMember.place offset d.memberTypes
    let next := BlockMember.after offset members.length
    match d.type with
    | .buffer _ => ⟨d, some texture, members⟩ :: bind next (texture + 1) ds
    | .int | .float => ⟨d, none, members⟩ :: bind next texture ds

end UniformSlot

/-! ## The table -/

/-- The bindings of a program, one slot per declaration. -/
structure BindingTable where
  builtins : List BlockMember
  slots : List UniformSlot
  deriving DecidableEq, Repr

namespace BindingTable

/-- Binds a list of declarations. -/
def ofDeclarations (ds : List UniformDeclaration) : BindingTable :=
  let builtins := BlockMember.place 0 (builtinNames.map fun n => (n, .int))
  ⟨builtins, UniformSlot.bind (BlockMember.after 0 builtins.length) firstTextureBinding ds⟩

/-- All members of the block in order. -/
def members (t : BindingTable) : List BlockMember := t.builtins ++ t.slots.flatMap (·.members)

/-- The byte size of the block. -/
def blockSize (t : BindingTable) : UInt32 := Texelwise.blockSize t.members.length

/-- The bindings of the textures in order. -/
def textures (t : BindingTable) : List Nat := t.slots.filterMap (·.texture)

/-- The position of the first slot with this name. -/
def position? (t : BindingTable) (name : Text) : Option Nat :=
  t.slots.findIdx? fun s => s.name = name

/-- The first slot with this name. -/
def slot? (t : BindingTable) (name : Text) : Option UniformSlot :=
  t.slots.find? fun s => s.name = name

/-- All bindings of the group in order. -/
def bindings (t : BindingTable) : List Nat := blockBinding :: samplerBinding :: t.textures

/-- The shader line that declares a member. -/
def memberText (m : BlockMember) : Text :=
  "  ".toList ++ m.type.word ++ ' ' :: m.name ++ ";\n".toList

/-- The shader text that declares the block and the sampler. -/
def uniformText (t : BindingTable) : Text :=
  "layout(set = 0, binding = ".toList ++ Text.ofNat blockBinding ++ ") uniform ".toList ++
    blockName ++ " \x7b\n".toList ++ t.members.flatMap memberText ++ "\x7d;\n".toList ++
    "layout(set = 0, binding = ".toList ++ Text.ofNat samplerBinding ++
    ") uniform sampler ".toList ++ samplerName ++ ";\n".toList

end BindingTable

end Texelwise

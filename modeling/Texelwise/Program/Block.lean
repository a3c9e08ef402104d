import Texelwise.Kernel.Binding
import Texelwise.Program.Uniforms
import Texelwise.Buffer.Texel

/-!
# The contents of the uniform block

The block of one run is filled with zeros and then written to, four bytes at a time: the built-in
members describe the first output, and the members of each declaration hold the value that the
caller supplies. They stay zero if there is none. A member that ends past the block stops the run.
-/

namespace Texelwise

/-- The words of a buffer's companions: the sides of its texture, then its extents. -/
def companionWords (desc : BufferDesc) : List UInt32 :=
  [desc.textureSize.width, desc.textureSize.height, desc.extents.width, desc.extents.height,
    desc.extents.depth].map UInt32.ofNat

/-- The words of a value: its two's complement, its bit pattern or its companions. -/
def UniformValue.words : UniformValue → List UInt32
  | .int value => [value.toUInt32]
  | .float bits => [bits]
  | .buffer desc => companionWords desc

/-- Puts words at members, first to first, as far as both go. -/
def putWords (block : List UInt8) : List BlockMember → List UInt32 → Except RangeFault (List UInt8)
  | m :: ms, w :: ws => do
    putWords (← writeRange block m.offset.toNat (Texel.ofBits w).bytes) ms ws
  | _, _ => .ok block

/-- Puts the value supplied for a slot. -/
def putSlot (uniforms : Uniforms) (block : List UInt8) (slot : UniformSlot) :
    Except RangeFault (List UInt8) :=
  match uniforms.get? slot.name with
  | none => .ok block
  | some value => putWords block slot.members value.words

/-- The bytes of the block of a run whose first output is `first`. -/
def blockBytes (table : BindingTable) (first : BufferDesc) (uniforms : Uniforms) :
    Except RangeFault (List UInt8) := do
  let zeros := List.replicate table.blockSize.toNat 0
  table.slots.foldlM (putSlot uniforms) (← putWords zeros table.builtins (companionWords first))

/-- The built-in members are put first, then those of the slots. -/
theorem blockBytes_eq_bind (table : BindingTable) (first : BufferDesc) (uniforms : Uniforms) :
    blockBytes table first uniforms =
      putWords (List.replicate table.blockSize.toNat 0) table.builtins (companionWords first) >>=
        fun block => table.slots.foldlM (putSlot uniforms) block := rfl

end Texelwise

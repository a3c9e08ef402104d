import Texelwise.Buffer.Shape

/-!
# Descriptions of buffers

What programs are told about a buffer, and the identity that tells it apart from all others.
-/

namespace Texelwise

/-- Tells buffers apart; no two buffers of a session have the same identity. Identities are counted
up in 64 bits, and fewer than `2 ^ 64` buffers are ever made, so the number is an exact one here. -/
structure BufferId where
  number : Nat
  deriving DecidableEq, Repr

/-- The next identity. -/
def BufferId.next (id : BufferId) : BufferId := ⟨id.number + 1⟩

/-- What a program needs to know about a buffer. -/
structure BufferDesc where
  id : BufferId
  kind : BufferKind
  extents : Extents
  textureSize : TextureSize
  deriving DecidableEq, Repr

end Texelwise

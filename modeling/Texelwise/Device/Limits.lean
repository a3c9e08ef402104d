/-!
# Device limits

What a device can do, as far as buffers and programs depend on it.
-/

namespace Texelwise

/-- The limits of a device. -/
structure Limits where
  /-- The largest side of a texture. -/
  maxTextureSide : Nat := 8192
  /-- The largest number of textures drawn into at once. -/
  maxColorAttachments : Nat := 8
  /-- The largest number of bytes that one sample takes in all of them. -/
  maxAttachmentBytesPerSample : Nat := 32
  /-- The largest uniform block in bytes. -/
  maxUniformBlockSize : Nat := 65536
  /-- The largest number of textures that a shader can read. -/
  maxSampledTextures : Nat := 16
  /-- The largest number of bytes in one device buffer. -/
  maxBufferSize : Nat := 268435456
  deriving DecidableEq, Repr

/-- The bytes per sample that one attachment costs, as the graphics layer gives them for textures of
four normalised bytes a texel. -/
def attachmentCost : Nat := 8

/-- The largest number of outputs that a program can have on a device. -/
def Limits.maxOutputs (l : Limits) : Nat :=
  min l.maxColorAttachments (l.maxAttachmentBytesPerSample / attachmentCost)

end Texelwise

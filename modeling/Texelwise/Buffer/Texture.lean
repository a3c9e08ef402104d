import Texelwise.Buffer.Shape
import Texelwise.Buffer.Texel

/-!
# Textures

The device side of a buffer. A texture has at least one texel a side, and as many texels as its
sides say; what the device does to it gives each place a texel and leaves the sides.
-/

namespace Texelwise

/-- The texels of a texture, row by row. -/
structure Texture where
  size : TextureSize
  texels : Array Texel
  area : texels.size = size.area
  deriving DecidableEq, Repr

/-- The sides of the texture that is allocated for a size: no side is zero. -/
def TextureSize.allocated (s : TextureSize) : TextureSize := ⟨max s.width 1, max s.height 1⟩

/-- A texel for each place, by column and row. -/
abbrev TexelAt := Nat → Nat → Texel

namespace Texture

/-- The texture of a size with these texels. -/
def ofTexels (size : TextureSize) (texel : TexelAt) : Texture :=
  ⟨size, Array.ofFn fun i : Fin size.area => texel (i % size.width) (i / size.width),
    Array.size_ofFn⟩

/-- A fresh texture. -/
def zeros (size : TextureSize) : Texture :=
  ⟨size, Array.replicate size.area Texel.zero, Array.size_replicate⟩

/-- The texel at a place. -/
def texel (t : Texture) : TexelAt := fun x y => t.texels.getD (y * t.size.width + x) Texel.zero

/-- The texture with these texels in place of its own. -/
def paint (t : Texture) (texel : TexelAt) : Texture := ofTexels t.size texel

@[simp] theorem size_paint (t : Texture) (texel : TexelAt) : (t.paint texel).size = t.size := rfl

end Texture

end Texelwise

import Texelwise.Buffer.Packing
import Texelwise.Kernel.Kind

/-!
# Shapes

A shape is the logical size of a buffer, a coordinate the place of one element. Elements are
numbered row by row, with the first coordinate running fastest; element `i` is texel `i` of the
texture.

* `Shape.offset`: the number of a coordinate, or an error for one outside the shape.
* `Shape.coordAt`: the coordinate of a number, or an error where a dimension is zero.
* `Shape.textureSize`: a plane is its own texture; lines and volumes are packed into a square.

The number of elements has 64 bits and the extents have 32; larger values count as the largest. The
number of a coordinate is found in 64 bits, where what goes past them is lost, as it is where a
build does not check for it.
-/

namespace Texelwise

/-- The largest number of elements that 64 bits can name. -/
def maxCount : Nat := UInt64.size - 1

/-- The logical size of a buffer of a given rank. -/
inductive Shape : Rank → Type where
  | line (width : Nat) : Shape .one
  | plane (width height : Nat) : Shape .two
  | volume (width height depth : Nat) : Shape .three
  deriving DecidableEq, Repr

/-- The place of an element in a buffer of a given rank. -/
inductive Coord : Rank → Type where
  | line (x : Nat) : Coord .one
  | plane (x y : Nat) : Coord .two
  | volume (x y z : Nat) : Coord .three
  deriving DecidableEq, Repr

/-- The extents of a buffer; a dimension that it does not have counts as 1. -/
structure Extents where
  width : Nat
  height : Nat
  depth : Nat
  deriving DecidableEq, Repr

/-- The sides of a texture. -/
structure TextureSize where
  width : Nat
  height : Nat
  deriving DecidableEq, Repr

namespace TextureSize

/-- The number of texels. -/
def area (s : TextureSize) : Nat := s.width * s.height

/-- Whether a side is zero, so that there is no texel. -/
def isEmpty (s : TextureSize) : Bool := s.width = 0 || s.height = 0

/-- The sides as `3x4`. -/
def label (s : TextureSize) : String :=
  let width := s.width
  let height := s.height
  s!"{width}x{height}"

end TextureSize

/-- Why a buffer of rank `r` cannot be accessed at a place. -/
inductive AccessError (r : Rank) where
  /-- The coordinate lies outside the shape. -/
  | outside (shape : Shape r) (coord : Coord r)
  /-- A dimension by which a number is to be divided is zero. -/
  | zeroDivisor
  deriving DecidableEq, Repr

/-- The wording for a coordinate outside a shape. -/
def outsideMessage {r : Rank} : Shape r → Coord r → String
  | .line width, .line x => s!"index {x} out of bounds for width {width}"
  | .plane width height, .plane x y => s!"index ({x}, {y}) out of bounds for {width}x{height}"
  | .volume width height depth, .volume x y z =>
    s!"index ({x}, {y}, {z}) out of bounds for {width}x{height}x{depth}"

/-- The wording of an access error. -/
def AccessError.message {r : Rank} : AccessError r → String
  | .outside shape coord => outsideMessage shape coord
  | .zeroDivisor => "attempt to calculate the remainder with a divisor of zero"

/-- The coordinate with these components, if there are as many as the rank asks for. -/
def Coord.ofList? : (r : Rank) → List Nat → Option (Coord r)
  | .one, [x] => some (.line x)
  | .two, [x, y] => some (.plane x y)
  | .three, [x, y, z] => some (.volume x y z)
  | _, _ => none

/-- The components of a coordinate. -/
def Coord.toList {r : Rank} : Coord r → List Nat
  | .line x => [x]
  | .plane x y => [x, y]
  | .volume x y z => [x, y, z]

namespace Shape

variable {r : Rank}

/-- The shape with these dimensions, if there are as many as the rank asks for. -/
def ofList? : (r : Rank) → List Nat → Option (Shape r)
  | .one, [width] => some (.line width)
  | .two, [width, height] => some (.plane width height)
  | .three, [width, height, depth] => some (.volume width height depth)
  | _, _ => none

/-- The exact number of elements. -/
def volumeOf : Shape r → Nat
  | .line width => width
  | .plane width height => width * height
  | .volume width height depth => width * height * depth

/-- The number of elements in 64 bits. -/
def count (s : Shape r) : Nat := min s.volumeOf maxCount

/-- The extents in 32 bits. -/
def extents : Shape r → Extents
  | .line width => ⟨texels width, 1, 1⟩
  | .plane width height => ⟨texels width, texels height, 1⟩
  | .volume width height depth => ⟨texels width, texels height, texels depth⟩

/-- The sides of the texture that holds the elements. -/
def textureSize : Shape r → TextureSize
  | .line width => ⟨packSide (line width).count, packSide (line width).count⟩
  | .plane width height => ⟨texels width, texels height⟩
  | .volume width height depth =>
    ⟨packSide (volume width height depth).count, packSide (volume width height depth).count⟩

/-- Whether a coordinate lies inside the shape. -/
def Contains : Shape r → Coord r → Prop
  | .line width, .line x => x < width
  | .plane width height, .plane x y => x < width ∧ y < height
  | .volume width height depth, .volume x y z => x < width ∧ y < height ∧ z < depth

instance : (s : Shape r) → (c : Coord r) → Decidable (s.Contains c)
  | .line width, .line x => inferInstanceAs (Decidable (x < width))
  | .plane width height, .plane x y => inferInstanceAs (Decidable (x < width ∧ y < height))
  | .volume width height depth, .volume x y z =>
    inferInstanceAs (Decidable (x < width ∧ y < height ∧ z < depth))

/-- The number of a coordinate, whether it lies inside or not. -/
def index : Shape r → Coord r → Nat
  | .line _, .line x => x
  | .plane width _, .plane x y => x + y * width
  | .volume width height _, .volume x y z => x + y * width + z * width * height

/-- The number of a coordinate inside the shape, in 64 bits. -/
def offset (s : Shape r) (c : Coord r) : Except (AccessError r) Nat :=
  if s.Contains c then .ok (s.index c % UInt64.size) else .error (.outside s c)

/-- The coordinate of element `i`. -/
def coordAt (s : Shape r) (i : Nat) : Except (AccessError r) (Coord r) :=
  match s with
  | .line _ => .ok (.line i)
  | .plane width _ =>
    if width = 0 then .error .zeroDivisor else .ok (.plane (i % width) (i / width))
  | .volume width height _ =>
    if width = 0 ∨ height = 0 then .error .zeroDivisor
    else .ok (.volume (i % width) (i / width % height) (i / (width * height)))

end Shape

end Texelwise

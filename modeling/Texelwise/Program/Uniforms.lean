import Texelwise.Buffer.Description
import Texelwise.Named

/-!
# Uniform values

The values that a caller gives to the uniforms of a program, by name. A name holds one value: a
later one takes the place of an earlier one and keeps its position.
-/

namespace Texelwise

/-- A value for a uniform. -/
inductive UniformValue where
  | int (value : Int32)
  /-- A float by its bit pattern. -/
  | float (bits : UInt32)
  | buffer (desc : BufferDesc)
  deriving DecidableEq, Repr

/-- The word for the type of a value, as in a declaration. -/
def UniformValue.kindWord : UniformValue → Text
  | .int _ => UniformType.int.word
  | .float _ => UniformType.float.word
  | .buffer desc => desc.kind.word

/-- Whether a value can stand for a uniform of this type. -/
def UniformType.accepts : UniformType → UniformValue → Bool
  | .int, .int _ => true
  | .float, .float _ => true
  | .buffer kind, .buffer desc => desc.kind = kind
  | _, _ => false

/-- Values by name, in the order in which the names were first set. -/
abbrev Uniforms := Named Text UniformValue

end Texelwise

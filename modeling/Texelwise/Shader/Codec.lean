import Texelwise.Text.Basic

/-!
# Floats in texels

A float buffer keeps the four bytes of each float in a texel. A shader sees the bytes as channels
between 0 and 1: `nc_decode` builds the float from them, and `nc_encode` takes a float apart.
Both are shader text; the byte order decides which channel holds the sign.
-/

namespace Texelwise

/-- The order of the bytes of a float in memory. -/
inductive ByteOrder where
  | little
  | big
  deriving DecidableEq, Repr

/-- The byte order in which textures are filled. -/
def ByteOrder.host : ByteOrder := .little

namespace Shader

/-- Turns the channels round for a float with its sign in the first byte. -/
def swapText : ByteOrder → Text
  | .little => []
  | .big => "  bytes = bytes.abgr;\n".toList

/-- The shader text of `nc_decode` and `nc_encode`. It calls `nc_int_mod`. -/
def codec (order : ByteOrder) : Text :=
  "const vec2 NC_MAGIC_VEC        = vec2(1.0, -256.0);
const vec4 NC_SCALE_FACTOR     = vec4(1.0, 256.0, 65536.0, 0.0);
const vec4 NC_SCALE_FACTOR_INV = vec4(1.0, 0.00390625, 0.0000152587890625, 0.0);
const float NC_MANTISSA_SCALE  = 8388608.0;
const float NC_MANTISSA_ULP    = 0.00000011920928955078125;

float nc_decode(vec4 rgba) \x7b
  vec4 bytes = rgba;
".toList ++ swapText order ++
  "  bytes = floor(bytes * 255.0 + 0.5);
  vec2 gte128 = vec2(bytes.b >= 128.0 ? 1.0 : 0.0, bytes.a >= 128.0 ? 1.0 : 0.0);
  float exponent = 2.0 * bytes.a - 127.0 + dot(gte128, NC_MAGIC_VEC);
  if (exponent <= -127.0) \x7b
    return 0.0;
  \x7d
  bytes.b = bytes.b - 128.0 * gte128.x;
  float mantissa = dot(bytes, NC_SCALE_FACTOR) * NC_MANTISSA_ULP + 1.0;
  return mantissa * exp2(exponent) * (gte128.y * -2.0 + 1.0);
\x7d

vec4 nc_encode(float f) \x7b
  float F = abs(f);
  if (F == 0.0) \x7b
    return vec4(0.0);
  \x7d
  float negative = f < 0.0 ? 1.0 : 0.0;
  float exponent = floor(log2(F));
  // Two half steps keep every intermediate a normal float.
  float half_exponent = floor(exponent * 0.5);
  float mantissa = F * exp2(-half_exponent) * exp2(half_exponent - exponent);
  if (mantissa >= 2.0) \x7b
    exponent += 1.0;
    mantissa *= 0.5;
  \x7d
  if (mantissa < 1.0) \x7b
    exponent -= 1.0;
    mantissa *= 2.0;
  \x7d
  if (exponent < -126.0) \x7b
    return vec4(0.0);
  \x7d
  vec4 bytes = vec4((mantissa - 1.0) * NC_MANTISSA_SCALE) * NC_SCALE_FACTOR_INV;
  bytes.r = nc_int_mod(bytes.r, 256.0);
  bytes.g = nc_int_mod(bytes.g, 256.0);
  bytes.b = nc_int_mod(bytes.b, 128.0);
  bytes.a = floor(exponent * 0.5 + 63.5);
  bytes.b += nc_int_mod(exponent + 127.0, 2.0) * 128.0;
  bytes.a += negative * 128.0;
  bytes = floor(bytes) / 255.0;
".toList ++ swapText order ++
  "  return bytes;
\x7d
".toList

end Shader

end Texelwise

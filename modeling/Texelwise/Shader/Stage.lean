import Texelwise.Kernel.Binding

/-!
# Shader text around a thread function

The vertex shader passes the coordinates of a square through. The fragment shader calls the thread
function once per texel: `threadMain` finds the logical index of the texel, runs the function and
encodes the float outputs.

* `version`, `vertex`, `fragmentInputs`, `integerMod`, `selectFunctions`: text that is the same for
  every program.
* `outputRegisters`, `threadMain`: text that depends on the header.
-/

namespace Texelwise.Shader

/-- The version line. -/
def version : Text := "#version 450\n".toList

/-- The vertex shader. -/
def vertex : Text := version ++
  "
layout(location = 0) in vec3 nc_thread_position;
layout(location = 1) in vec2 nc_thread_texcoord;
layout(location = 0) out vec2 nc_thread_uv;

void main() \x7b
  nc_thread_uv = nc_thread_texcoord;
  gl_Position = vec4(nc_thread_position.x, nc_thread_position.y, nc_thread_position.z, 1.0);
\x7d
".toList

/-- The input of the fragment shader. -/
def fragmentInputs : Text := "layout(location = 0) in vec2 nc_thread_uv;\n".toList

/-- Remainders of whole numbers. The float forms put a result within one of the divisor back to
zero, which a rounded remainder can miss. -/
def integerMod : Text :=
  "vec2 nc_int_mod(vec2 x, float y) \x7b
  vec2 res = floor(mod(x, vec2(y)));
  return res * step(vec2(1.0 - floor(y)), -res);
\x7d
vec3 nc_int_mod(vec3 x, float y) \x7b
  vec3 res = floor(mod(x, vec3(y)));
  return res * step(vec3(1.0 - floor(y)), -res);
\x7d
vec4 nc_int_mod(vec4 x, vec4 y) \x7b
  vec4 res = floor(mod(x, y));
  return res * step(1.0 - floor(y), -res);
\x7d
float nc_int_mod(float x, float y) \x7b
  float res = floor(mod(x, y));
  return res * (res > floor(y) - 1.0 ? 0.0 : 1.0);
\x7d
int nc_int_mod(int x, int y) \x7b
  return x - (x / y) * y;
\x7d
".toList

/-- The texture coordinates of a logical index, by rank. -/
def selectFunctions : Text :=
  "vec2 nc_select_1D(int textureWidth, int textureHeight, int width, int index_x) \x7b
  float x = float(nc_int_mod(index_x, textureWidth)) + 0.5;
  float y = float(index_x / textureWidth) + 0.5;
  return vec2(x / float(textureWidth), y / float(textureHeight));
\x7d

vec2 nc_select_2D(int textureWidth, int textureHeight, int width, int height, int index_x, int index_y) \x7b
  float x = (float(index_x) + 0.5) / float(textureWidth);
  float y = (float(index_y) + 0.5) / float(textureHeight);
  return vec2(x, y);
\x7d

vec2 nc_select_3D(int textureWidth, int textureHeight, int width, int height, int depth, int index_x, int index_y, int index_z) \x7b
  int i = index_x + (index_y * width) + (index_z * (width * height));
  float x = float(nc_int_mod(i, textureWidth)) + 0.5;
  float y = float(i / textureWidth) + 0.5;
  return vec2(x / float(textureWidth), y / float(textureHeight));
\x7d
".toList

/-- One register per output. -/
def outputRegisters (thread : ThreadSignature) : Text :=
  (List.range thread.outputs.length).flatMap fun i =>
    "layout(location = ".toList ++ Text.ofNat i ++ ") out vec4 ".toList ++
      threadOutputName (Text.ofNat i) ++ ";\n".toList

/-- The lines that call the thread function with the logical index of texel `x`, `y`. -/
def threadCall : Rank → Text
  | .one => "  thread(x + y * nc_thread_viewport_width);\n".toList
  | .two => "  thread(x, y);\n".toList
  | .three =>
    ("  int i = x + y * nc_thread_viewport_width;\n" ++
      "  int ix = nc_int_mod(i, nc_thread_output_width);\n" ++
      "  int iy = nc_int_mod(i / nc_thread_output_width, nc_thread_output_height);\n" ++
      "  int iz = nc_int_mod(i / (nc_thread_output_width * nc_thread_output_height), " ++
      "nc_thread_output_depth);\n" ++
      "  thread(ix, iy, iz);\n").toList

/-- The line that encodes output `index`, if it is a float. -/
def encodeLine (index : Nat) : ElementKind → Text
  | .color => []
  | .float =>
    let register := threadOutputName (Text.ofNat index)
    "  ".toList ++ register ++ " = nc_encode(".toList ++ register ++ ".r);\n".toList

/-- The entry point of the fragment shader. -/
def threadMain (thread : ThreadSignature) : Text :=
  ("void main() \x7b\n" ++
    "  int x = int(nc_thread_uv.x * float(nc_thread_viewport_width));\n" ++
    "  int y = int(nc_thread_uv.y * float(nc_thread_viewport_height));\n").toList ++
  threadCall thread.rank ++
  (thread.outputs.zipIdx.flatMap fun (element, index) => encodeLine index element) ++
  "\x7d\n".toList

end Texelwise.Shader

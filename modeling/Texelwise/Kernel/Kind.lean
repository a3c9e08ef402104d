import Texelwise.Text.Basic

/-!
# Kinds of buffers and uniforms

A thread program names its data by a few words: elements (`float`, `color`), buffer kinds
(`Float1D` to `Color3D`) and uniform types (the buffer kinds, `int`, `float`). Each type here has
its word and the reader of that word.

* `BufferKind.all` lists the six kinds in the order in which the compiler treats them.
* `UniformType.ofWord?` reads exactly the eight type words.
-/

namespace Texelwise

/-- The number of dimensions of a buffer, or of integer parameters of a thread function. -/
inductive Rank where
  | one
  | two
  | three
  deriving DecidableEq, Repr

namespace Rank

/-- The rank as a number from 1 to 3. -/
def toNat : Rank → Nat
  | .one => 1
  | .two => 2
  | .three => 3

/-- The rank of that many dimensions, if there is one. -/
def ofNat? : Nat → Option Rank
  | 1 => some .one
  | 2 => some .two
  | 3 => some .three
  | _ => none

/-- `1D`, `2D` or `3D`. -/
def label : Rank → Text
  | .one => "1D".toList
  | .two => "2D".toList
  | .three => "3D".toList

theorem toNat_pos (r : Rank) : 0 < r.toNat := by cases r <;> decide

@[simp] theorem ofNat?_toNat (r : Rank) : ofNat? r.toNat = some r := by cases r <;> rfl

theorem ofNat?_eq_some_iff {n : Nat} {r : Rank} : ofNat? n = some r ↔ n = r.toNat := by
  constructor
  · unfold ofNat?
    split <;> intro h <;> cases h <;> rfl
  · rintro rfl
    exact ofNat?_toNat r

end Rank

/-- What a texel holds: a 32-bit float by its bytes, or a color of four bytes. -/
inductive ElementKind where
  | float
  | color
  deriving DecidableEq, Repr

namespace ElementKind

/-- The word for an element in a thread header. -/
def word : ElementKind → Text
  | .float => "float".toList
  | .color => "color".toList

/-- The element of a word. -/
def ofWord? (w : Text) : Option ElementKind :=
  [float, color].find? fun e => e.word = w

end ElementKind

/-- An element kind and a rank. -/
structure BufferKind where
  element : ElementKind
  rank : Rank
  deriving DecidableEq, Repr

namespace BufferKind

/-- The six kinds, floats before colors and each by rising rank. -/
def all : List BufferKind :=
  [⟨.float, .one⟩, ⟨.float, .two⟩, ⟨.float, .three⟩,
    ⟨.color, .one⟩, ⟨.color, .two⟩, ⟨.color, .three⟩]

/-- The word for a kind, such as `Float2D`. -/
def word (k : BufferKind) : Text :=
  (match k.element with
    | .float => "Float".toList
    | .color => "Color".toList) ++ k.rank.label

/-- The kind of a word. -/
def ofWord? (w : Text) : Option BufferKind := all.find? fun k => k.word = w

theorem mem_all (k : BufferKind) : k ∈ all := by
  obtain ⟨e, r⟩ := k
  cases e <;> cases r <;> decide

end BufferKind

/-- The declared type of a uniform. -/
inductive UniformType where
  | int
  | float
  | buffer (kind : BufferKind)
  deriving DecidableEq, Repr

namespace UniformType

/-- The word for a type in a declaration. -/
def word : UniformType → Text
  | .int => "int".toList
  | .float => "float".toList
  | .buffer k => k.word

/-- The type of a word. -/
def ofWord? (w : Text) : Option UniformType :=
  if w = "int".toList then some .int
  else if w = "float".toList then some .float
  else (BufferKind.ofWord? w).map .buffer

/-- The buffer kind of a type that is a buffer. -/
def bufferKind? : UniformType → Option BufferKind
  | .buffer k => some k
  | .int | .float => none

end UniformType

/-- One `uniform <type> <name>;` of a program. -/
structure UniformDeclaration where
  name : Text
  type : UniformType
  deriving DecidableEq, Repr

/-- The header of a thread function: its rank and what it writes. -/
structure ThreadSignature where
  rank : Rank
  outputs : List ElementKind
  deriving DecidableEq, Repr

end Texelwise

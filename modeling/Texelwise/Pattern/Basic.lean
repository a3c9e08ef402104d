import Texelwise.Token.Basic

/-!
# Token patterns

A pattern is a sequence of atoms with nested captures. It describes a run of tokens; captures
name parts of the run and are numbered by where they open, outer before inner.

* `Pattern`: built from `literal`, `alphanumeric`, `codeBlock` and the like with `++` and `group`.
* `Pattern.captureCount`: how many captures an occurrence has.
* `Pattern.Consumes`: whether every occurrence takes at least one token.
-/

namespace Texelwise

/-- What one step of a pattern asks of the tokens that follow. -/
inductive Atom where
  /-- One token with exactly this text. -/
  | literal (text : Text)
  /-- One identifier or number. -/
  | alphanumeric
  /-- One number. -/
  | numeric
  /-- A run of tokens with balanced brackets. -/
  | codeBlock
  /-- At most one run of blanks. -/
  | spaceOptional
  /-- One run of blanks. -/
  | spaceMandated
  deriving DecidableEq, Repr

/-- A sequence of atoms and captures. -/
inductive Pattern where
  | nil
  | atom (first : Atom) (rest : Pattern)
  | capture (inner rest : Pattern)
  deriving DecidableEq, Repr

namespace Pattern

/-- One pattern after another. -/
def append : Pattern → Pattern → Pattern
  | .nil, q => q
  | .atom a p, q => .atom a (p.append q)
  | .capture i p, q => .capture i (p.append q)

instance : Append Pattern := ⟨append⟩

@[simp] theorem nil_append (q : Pattern) : Pattern.nil ++ q = q := rfl

@[simp] theorem atom_append (a : Atom) (p q : Pattern) : Pattern.atom a p ++ q = .atom a (p ++ q) :=
  rfl

@[simp] theorem capture_append (i p q : Pattern) :
    Pattern.capture i p ++ q = .capture i (p ++ q) := rfl

@[simp] theorem append_nil (p : Pattern) : p ++ Pattern.nil = p := by
  induction p <;> simp_all

theorem append_assoc (p q r : Pattern) : p ++ q ++ r = p ++ (q ++ r) := by
  induction p <;> simp_all

/-! ## Building blocks -/

/-- One token with exactly the text `text`. -/
def literal (text : Text) : Pattern := .atom (.literal text) .nil

/-- One token that is the single character `c`. -/
def mark (c : Char) : Pattern := literal [c]

/-- One identifier or number. -/
def alphanumeric : Pattern := .atom .alphanumeric .nil

/-- One number. -/
def numeric : Pattern := .atom .numeric .nil

/-- A run of tokens with balanced brackets. -/
def codeBlock : Pattern := .atom .codeBlock .nil

/-- At most one run of blanks. -/
def spaceOptional : Pattern := .atom .spaceOptional .nil

/-- One run of blanks. -/
def spaceMandated : Pattern := .atom .spaceMandated .nil

/-- Captures what `inner` takes. -/
def group (inner : Pattern) : Pattern := .capture inner .nil

/-! ## Captures and consumption -/

/-- The number of captures at all depths. -/
def captureCount : Pattern → Nat
  | .nil => 0
  | .atom _ p => p.captureCount
  | .capture i p => i.captureCount + 1 + p.captureCount

/-- Whether some atom at some depth is more than an optional space, so that every occurrence
takes a token. -/
def Consumes : Pattern → Bool
  | .nil => false
  | .atom a p => a != .spaceOptional || p.Consumes
  | .capture i p => i.Consumes || p.Consumes

@[simp] theorem captureCount_append (p q : Pattern) :
    (p ++ q).captureCount = p.captureCount + q.captureCount := by
  induction p with
  | nil => simp [captureCount]
  | atom a p ih => simp [captureCount, ih]
  | capture i p _ ih => simp [captureCount, ih, Nat.add_assoc]

@[simp] theorem consumes_append (p q : Pattern) :
    (p ++ q).Consumes = (p.Consumes || q.Consumes) := by
  induction p with
  | nil => simp [Consumes]
  | atom a p ih => simp [Consumes, ih, Bool.or_assoc]
  | capture i p _ ih => simp [Consumes, ih, Bool.or_assoc]

end Pattern

end Texelwise

import Texelwise.Proofs.Pattern.Ranges

/-!
# Marks that no occurrence takes

A pattern without code blocks takes a mark only by a literal. A mark that is none of its literals
cuts every scan in two: what stands before it and what stands after it are scanned on their own.

* `Pattern.Avoids`: whether no part of a pattern takes the mark.
* `Pattern.walk_append_mark`: the pieces on both sides of such a mark.
-/

namespace Texelwise

open Token

/-- Whether the atom never takes the mark `c`. -/
def Atom.Avoids (c : Char) : Atom → Bool
  | .literal text => text ≠ [c]
  | .codeBlock => false
  | _ => true

/-- Whether no part of the pattern ever takes the mark `c`. -/
def Pattern.Avoids (c : Char) : Pattern → Bool
  | .nil => true
  | .atom a p => a.Avoids c && p.Avoids c
  | .capture i p => i.Avoids c && p.Avoids c

variable {c : Char}

@[simp] theorem Pattern.avoids_append (p q : Pattern) :
    (p ++ q).Avoids c = (p.Avoids c && q.Avoids c) := by
  induction p with
  | nil => rfl
  | atom a p ih => simp [Avoids, ih, Bool.and_assoc]
  | capture i p _ ih => simp [Avoids, ih, Bool.and_assoc]

/-- In front of such a mark an atom takes what it takes in front of the end. -/
theorem Atom.split?_append_mark {a : Atom} (ha : a.Avoids c = true) (ts us : List Token) :
    a.split? (ts ++ mark c :: us) =
      (a.split? ts).map fun (run, left) => (run, left ++ mark c :: us) := by
  cases ts with
  | nil =>
    cases a with
    | literal text =>
      have hne : ¬[c] = text := fun heq => by simp [Avoids, heq.symm] at ha
      simp [split?, accepts, mark, hne]
    | codeBlock => cases ha
    | _ => simp [split?, accepts, mark]
  | cons t ts =>
    cases a with
    | codeBlock => cases ha
    | _ =>
      simp only [List.cons_append, split?]
      split <;> rfl

namespace Pattern

variable {p : Pattern}

/-- In front of such a mark a pattern takes what it takes in front of the end. -/
theorem match?_append_mark (hp : p.Avoids c = true) (ts us : List Token) :
    p.match? (ts ++ Token.mark c :: us) =
      (p.match? ts).map fun m => { m with rest := m.rest ++ Token.mark c :: us } := by
  induction p generalizing ts with
  | nil => rfl
  | atom a p ih =>
    rw [Avoids, Bool.and_eq_true] at hp
    simp only [match?, Option.bind_eq_bind, Atom.split?_append_mark hp.1]
    cases a.split? ts with
    | none => rfl
    | some split =>
      simp only [Option.map_some, Option.bind_some, ih hp.2]
      cases p.match? split.2 <;> rfl
  | capture i p ihi ihp =>
    rw [Avoids, Bool.and_eq_true] at hp
    simp only [match?, Option.bind_eq_bind, ihi hp.1]
    cases i.match? ts with
    | none => rfl
    | some m =>
      simp only [Option.map_some, Option.bind_some, ihp hp.2]
      cases p.match? m.rest <;> rfl

/-- The pieces before the mark and after it are those of two scans. -/
theorem walk_append_mark (hp : p.Consumes = true) (hc : p.Avoids c = true) (ts us : List Token) :
    p.walk (ts ++ Token.mark c :: us) = p.walk ts ++ .kept (Token.mark c) :: p.walk us := by
  fun_induction walk p ts with
  | case1 =>
    have hmark := match?_append_mark hc [] us
    rw [match?_nil hp] at hmark
    exact walk_keep hmark
  | case2 t ts hm ih =>
    have hmark := match?_append_mark hc (t :: ts) us
    rw [hm, List.cons_append] at hmark
    rw [List.cons_append, walk_keep hmark, ih]
    rfl
  | case3 t ts m hm hlt ih =>
    have hmark := match?_append_mark hc (t :: ts) us
    rw [hm] at hmark
    rw [walk_found hp hmark, ih]
    rfl
  | case4 t ts m hm hlt => exact absurd (length_lt_of_match? hp hm) hlt

/-- Replacing goes on behind the mark as if nothing stood before it. -/
theorem replaceAll_append_mark (hp : p.Consumes = true) (hc : p.Avoids c = true)
    {x y z : Text} (hz : tokenize z = tokenize x ++ Token.mark c :: tokenize y)
    (substitute : Occurrence → Text) :
    ∃ out more, p.replaceAll substitute x = .ok out ∧ p.replaceAll substitute y = .ok more ∧
      p.replaceAll substitute z = .ok (out ++ c :: more) := by
  refine ⟨_, _, replaceAll_eq_walk hp substitute x, replaceAll_eq_walk hp substitute y, ?_⟩
  rw [replaceAll_eq_walk hp, hz, walk_append_mark hp hc]
  simp [Piece.emit, Token.mark]

end Pattern

end Texelwise

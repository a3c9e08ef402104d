import Mathlib.Logic.Function.Basic
import Texelwise.Pattern.Display

/-!
# Reading patterns in print

Every printed pattern can be read in one way only, up to how its literals are cut: an empty literal
leaves nothing in print, and two literals side by side look like one. Whatever characters the
literals have, all else is seen in print.

* `Pattern.joined`: no empty literals, and no literal directly before another.
* `Pattern.spelled`: one literal for each character.
* `Atom.display_append_inj`: no atom of a spelled pattern looks like the start of another one.
* `Pattern.display_append_inj`: spelled patterns are read in one way.
* `Pattern.display_eq_iff_joined`: so patterns look alike just if they are the same when joined.
-/

namespace Texelwise

namespace Pattern

/-! ## Literals joined -/

/-- Puts a literal in front of a pattern and joins it with one that is there. -/
def joinLiteral (w : Text) : Pattern → Pattern
  | .atom (.literal v) p => .atom (.literal (w ++ v)) p
  | p => if w = [] then p else .atom (.literal w) p

/-- The pattern without empty literals and with literals side by side joined, at every depth of
captures. -/
def joined : Pattern → Pattern
  | .nil => .nil
  | .atom (.literal w) p => joinLiteral w p.joined
  | .atom a p => .atom a p.joined
  | .capture i p => .capture i.joined p.joined

/-- Whether no literal is empty and none stands directly before another, at every depth of
captures. -/
def IsJoined : Pattern → Prop
  | .nil => True
  | .atom (.literal w) p => w ≠ [] ∧ (∀ v q, p ≠ .atom (.literal v) q) ∧ p.IsJoined
  | .atom _ p => p.IsJoined
  | .capture i p => i.IsJoined ∧ p.IsJoined

/-- The pattern without its literals: the captures as they are nested, and the other atoms. -/
def skeleton : Pattern → Pattern
  | .nil => .nil
  | .atom (.literal _) p => p.skeleton
  | .atom a p => .atom a p.skeleton
  | .capture i p => .capture i.skeleton p.skeleton

/-- The pattern with each literal cut into its characters. -/
def spelled : Pattern → Pattern
  | .nil => .nil
  | .atom (.literal w) p => w.foldr (fun c q => .atom (.literal [c]) q) p.spelled
  | .atom a p => .atom a p.spelled
  | .capture i p => .capture i.spelled p.spelled

end Pattern

/-! ## Atoms in print -/

namespace Text

theorem escape_append (v w : Text) : escape (v ++ w) = escape v ++ escape w := by
  induction v with
  | nil => rfl
  | cons c v ih =>
    rw [List.cons_append, escape, escape, ih]
    split <;> rfl

/-- A character in print: itself, or behind a backslash if it is no letter, digit or underscore. -/
theorem escape_singleton (c : Char) :
    isWordChar c = true ∧ escape [c] = [c] ∨ isWordChar c = false ∧ escape [c] = ['\\', c] := by
  cases h : isWordChar c <;> simp [escape, h]

end Text

namespace Atom

/-! The printed forms are given by their characters, as a string is slow to read. -/

@[simp] theorem display_literal (w : Text) : (literal w).display = w.escape := rfl

@[simp] theorem display_alphanumeric : alphanumeric.display = ['\\', 'w', '+'] := rfl

@[simp] theorem display_numeric : numeric.display = ['[', '0', '-', '9', ']', '+'] := rfl

@[simp] theorem display_codeBlock : codeBlock.display =
    ['[', '\\', 'w', '\\', 's', '\\', '+', '\\', '-', '\\', '*', '\\', '/', '%', '\\', '(',
      '\\', ')', ',', ':', ';', ']', '+'] := rfl

@[simp] theorem display_spaceOptional : spaceOptional.display = ['\\', 's', '*'] := rfl

@[simp] theorem display_spaceMandated : spaceMandated.display = ['\\', 's', '+'] := rfl

/-- An atom of a spelled pattern: a literal of one character, or no literal. -/
def IsUnit : Atom → Prop
  | .literal w => ∃ c, w = [c]
  | _ => True

theorem isUnit_of_not_literal {a : Atom} (ha : ∀ w, a ≠ .literal w) : a.IsUnit := by
  cases a with
  | literal w => exact absurd rfl (ha w)
  | _ => trivial

/-- Classes of tokens start with a bracket, or with a backslash before a letter. -/
theorem display_of_not_literal {a : Atom} (ha : ∀ w, a ≠ .literal w) :
    (∃ rest, a.display = '[' :: rest) ∨
      ∃ c rest, a.display = '\\' :: c :: rest ∧ isWordChar c = true := by
  cases a with
  | literal w => exact absurd rfl (ha w)
  | alphanumeric => exact .inr ⟨'w', _, display_alphanumeric, by decide⟩
  | numeric => exact .inl ⟨_, display_numeric⟩
  | codeBlock => exact .inl ⟨_, display_codeBlock⟩
  | spaceOptional => exact .inr ⟨'s', _, display_spaceOptional, by decide⟩
  | spaceMandated => exact .inr ⟨'s', _, display_spaceMandated, by decide⟩

/-- A character of a literal does not look like a class of tokens. -/
theorem display_literal_ne {c : Char} {a : Atom} (ha : ∀ w, a ≠ .literal w) (x y : Text) :
    (literal [c]).display ++ x ≠ a.display ++ y := by
  have hmark : isWordChar '\\' = false ∧ isWordChar '[' = false := by decide
  intro h
  rw [display_literal] at h
  rcases Text.escape_singleton c with ⟨hc, hescape⟩ | ⟨hc, hescape⟩ <;> rw [hescape] at h <;>
    rcases display_of_not_literal ha with ⟨rest, hrest⟩ | ⟨d, rest, hrest, hd⟩ <;>
    rw [hrest] at h
  · obtain ⟨rfl, -⟩ := List.cons.inj h
    simp [hmark] at hc
  · obtain ⟨rfl, -⟩ := List.cons.inj h
    simp [hmark] at hc
  · obtain ⟨hne, -⟩ := List.cons.inj h
    exact absurd hne (by decide)
  · obtain ⟨rfl, -⟩ := List.cons.inj (List.cons.inj h).2
    simp [hd] at hc

/-- Characters of literals are read in one way. -/
theorem escape_append_inj {c d : Char} {x y : Text}
    (h : Text.escape [c] ++ x = Text.escape [d] ++ y) : c = d ∧ x = y := by
  have hmark : isWordChar '\\' = false := by decide
  rcases Text.escape_singleton c with ⟨hc, hescape⟩ | ⟨hc, hescape⟩ <;>
    rcases Text.escape_singleton d with ⟨hd, hescape'⟩ | ⟨hd, hescape'⟩ <;>
    rw [hescape, hescape'] at h
  · exact List.cons.inj h
  · obtain ⟨rfl, -⟩ := List.cons.inj h
    simp [hmark] at hc
  · obtain ⟨rfl, -⟩ := List.cons.inj h
    simp [hmark] at hd
  · exact List.cons.inj (List.cons.inj h).2

/-- No atom of a spelled pattern looks like the start of another one. -/
theorem display_append_inj {a b : Atom} (ha : a.IsUnit) (hb : b.IsUnit) {x y : Text}
    (h : a.display ++ x = b.display ++ y) : a = b ∧ x = y := by
  cases a with
  | literal w =>
    obtain ⟨c, rfl⟩ := ha
    cases b with
    | literal v =>
      obtain ⟨d, rfl⟩ := hb
      obtain ⟨rfl, rfl⟩ := escape_append_inj h
      exact ⟨rfl, rfl⟩
    | _ => exact absurd h (display_literal_ne (by simp) x y)
  | _ =>
    cases b with
    | literal v =>
      obtain ⟨d, rfl⟩ := hb
      exact absurd h.symm (display_literal_ne (by simp) y x)
    | _ => simp_all

/-- An atom of a spelled pattern starts with a character that is no parenthesis. -/
theorem IsUnit.exists_display_eq_cons {a : Atom} (ha : a.IsUnit) :
    ∃ c rest, a.display = c :: rest ∧ c ≠ '(' ∧ c ≠ ')' := by
  by_cases hliteral : ∃ w, a = literal w
  · obtain ⟨w, rfl⟩ := hliteral
    obtain ⟨c, rfl⟩ := ha
    rcases Text.escape_singleton c with ⟨hc, hescape⟩ | ⟨-, hescape⟩
    · refine ⟨c, [], hescape, ?_, ?_⟩ <;> rintro rfl <;> exact absurd hc (by decide)
    · exact ⟨'\\', [c], hescape, by decide, by decide⟩
  · rcases display_of_not_literal fun w h => hliteral ⟨w, h⟩ with ⟨rest, h⟩ | ⟨c, rest, h, -⟩
    · exact ⟨'[', rest, h, by decide, by decide⟩
    · exact ⟨'\\', c :: rest, h, by decide, by decide⟩

end Atom

/-! ## Spelled patterns in print -/

namespace Pattern

/-- Whether every literal has one character, at every depth of captures. -/
def IsSpelled : Pattern → Prop
  | .nil => True
  | .atom a p => a.IsUnit ∧ p.IsSpelled
  | .capture i p => i.IsSpelled ∧ p.IsSpelled

theorem isSpelled_spelled (p : Pattern) : p.spelled.IsSpelled := by
  induction p using spelled.induct with
  | case1 => trivial
  | case2 w p ih =>
    rw [spelled]
    induction w with
    | nil => exact ih
    | cons c w ihw => exact ⟨⟨c, rfl⟩, ihw⟩
  | case3 a p ha ih =>
    rw [spelled]
    · exact ⟨Atom.isUnit_of_not_literal ha, ih⟩
    · exact ha
  | case4 i p ihi ihp => exact ⟨ihi, ihp⟩

/-- Cutting literals leaves no trace in print. -/
theorem display_spelled (p : Pattern) : p.spelled.display = p.display := by
  induction p using spelled.induct with
  | case1 => rfl
  | case2 w p ih =>
    rw [display, Atom.display_literal, spelled]
    induction w with
    | nil => exact ih
    | cons c w ihw =>
      rw [List.foldr_cons, display, ihw, Atom.display_literal, ← List.append_assoc,
        ← Text.escape_append]
      rfl
  | case3 a p ha ih =>
    rw [spelled, display, display, ih]
    exact ha
  | case4 i p ihi ihp => rw [spelled, display, display, ihi, ihp]

/-- What stands after a pattern in print: nothing, or the parenthesis that closes its capture. -/
def ClosesCapture (x : Text) : Prop := ∀ c rest, x = c :: rest → c = ')'

theorem closesCapture_nil : ClosesCapture [] := nofun

theorem closesCapture_cons (x : Text) : ClosesCapture (')' :: x) := by
  rintro c rest ⟨⟩
  rfl

/-- No closing parenthesis looks like an atom or like the start of a capture. -/
theorem ClosesCapture.display_ne {p : Pattern} (hp : p.IsSpelled) {x y : Text}
    (hx : ClosesCapture x) (h : x = p.display ++ y) : p = .nil := by
  cases p with
  | nil => rfl
  | atom a p =>
    obtain ⟨c, rest, hdisplay, -, hc⟩ := hp.1.exists_display_eq_cons
    rw [display, hdisplay] at h
    exact absurd (hx c _ h) hc
  | capture i p => exact absurd (hx '(' _ h) (by decide)

/-- An atom does not look like the start of a capture. -/
theorem display_atom_ne_capture {a : Atom} (ha : a.IsUnit) (p i q : Pattern) (x y : Text) :
    (Pattern.atom a p).display ++ x ≠ (Pattern.capture i q).display ++ y := by
  obtain ⟨c, rest, hdisplay, hc, -⟩ := ha.exists_display_eq_cons
  rw [display, display, hdisplay]
  exact fun h => hc (List.cons.inj h).1

/-- Spelled patterns are read in one way: the characters of two of them that agree as far as the
next closing parenthesis are the same pattern. -/
theorem display_append_inj {p q : Pattern} (hp : p.IsSpelled) (hq : q.IsSpelled) {x y : Text}
    (hx : ClosesCapture x) (hy : ClosesCapture y) (h : p.display ++ x = q.display ++ y) :
    p = q ∧ x = y := by
  -- Along `p` with any rest `x`: inside a capture the rest starts with its parenthesis.
  induction p generalizing q x y with
  | nil =>
    obtain rfl := hx.display_ne hq h
    exact ⟨rfl, h⟩
  | atom a p ih =>
    cases q with
    | nil => exact absurd (hy.display_ne hp h.symm) (by simp)
    | atom b q =>
      simp only [display, List.append_assoc] at h
      obtain ⟨rfl, hafter⟩ := Atom.display_append_inj hp.1 hq.1 h
      obtain ⟨rfl, hend⟩ := ih hp.2 hq.2 hx hy hafter
      exact ⟨rfl, hend⟩
    | capture j q => exact absurd h (display_atom_ne_capture hp.1 p j q x y)
  | capture i p ihi ihp =>
    cases q with
    | nil => exact absurd (hy.display_ne hp h.symm) (by simp)
    | atom b q => exact absurd h.symm (display_atom_ne_capture hq.1 q i p y x)
    | capture j q =>
      simp only [display, List.cons_append, List.append_assoc, List.cons.injEq, true_and] at h
      obtain ⟨rfl, hafter⟩ := ihi hp.1 hq.1 (closesCapture_cons _) (closesCapture_cons _) h
      obtain ⟨rfl, hend⟩ := ihp hp.2 hq.2 hx hy (List.cons.inj hafter).2
      exact ⟨rfl, hend⟩

/-! ## Joined patterns in print -/

theorem joinLiteral_nil (p : Pattern) : joinLiteral [] p = p := by
  unfold joinLiteral
  split <;> simp

theorem joinLiteral_of_not_literal (w : Text) {p : Pattern}
    (hp : ∀ v q, p ≠ .atom (.literal v) q) :
    joinLiteral w p = if w = [] then p else .atom (.literal w) p := by
  unfold joinLiteral
  split
  · exact absurd rfl (hp _ _)
  · rfl

theorem joinLiteral_append (v w : Text) (p : Pattern) :
    joinLiteral (v ++ w) p = joinLiteral v (joinLiteral w p) := by
  by_cases hp : ∃ u q, p = .atom (.literal u) q
  · obtain ⟨u, q, rfl⟩ := hp
    simp [joinLiteral]
  · have hp : ∀ u q, p ≠ .atom (.literal u) q := fun u q h => hp ⟨u, q, h⟩
    rw [joinLiteral_of_not_literal w hp, joinLiteral_of_not_literal (v ++ w) hp]
    by_cases hw : w = []
    · simp [hw, joinLiteral_of_not_literal v hp]
    · simp [hw, joinLiteral]

/-- Cutting literals and joining them again is joining them. -/
theorem joined_spelled (p : Pattern) : p.spelled.joined = p.joined := by
  induction p using spelled.induct with
  | case1 => rfl
  | case2 w p ih =>
    rw [joined, spelled]
    induction w with
    | nil => rw [List.foldr_nil, ih, joinLiteral_nil]
    | cons c w ihw =>
      rw [List.foldr_cons, joined, ihw, ← joinLiteral_append]
      rfl
  | case3 a p ha ih => rw [spelled, joined, joined, ih] <;> exact ha
  | case4 i p ihi ihp => rw [spelled, joined, joined, ihi, ihp]

theorem display_joinLiteral (w : Text) (p : Pattern) :
    (joinLiteral w p).display = w.escape ++ p.display := by
  unfold joinLiteral
  split
  · simp [display, Text.escape_append]
  · split
    · simp_all [Text.escape]
    · rfl

/-- Joining literals leaves no trace in print. -/
theorem display_joined (p : Pattern) : p.joined.display = p.display := by
  induction p using joined.induct with
  | case1 => rfl
  | case2 w p ih => rw [joined, display_joinLiteral, ih, display, Atom.display_literal]
  | case3 a p ha ih =>
    rw [joined, display, display, ih]
    exact ha
  | case4 i p ihi ihp => rw [joined, display, display, ihi, ihp]

theorem isJoined_joinLiteral (w : Text) {p : Pattern} (hp : p.IsJoined) :
    (joinLiteral w p).IsJoined := by
  unfold joinLiteral
  split
  · exact ⟨by simp [hp.1], hp.2⟩
  next hne =>
    split
    · exact hp
    · exact ⟨‹_›, hne, hp⟩

theorem isJoined_joined (p : Pattern) : p.joined.IsJoined := by
  induction p using joined.induct with
  | case1 => trivial
  | case2 w p ih => exact isJoined_joinLiteral w ih
  | case3 a p ha ih =>
    rw [joined, IsJoined]
    · exact ih
    · exact ha
    · exact ha
  | case4 i p ihi ihp => exact ⟨ihi, ihp⟩

theorem skeleton_joinLiteral (w : Text) (p : Pattern) :
    (joinLiteral w p).skeleton = p.skeleton := by
  unfold joinLiteral
  split
  · rfl
  · split <;> rfl

/-- Joining literals leaves the captures and the other atoms in place. -/
theorem skeleton_joined (p : Pattern) : p.joined.skeleton = p.skeleton := by
  induction p using joined.induct with
  | case1 => rfl
  | case2 w p ih => rw [joined, skeleton_joinLiteral, ih, skeleton]
  | case3 a p ha ih => rw [joined, skeleton, skeleton, ih] <;> exact ha
  | case4 i p ihi ihp => rw [joined, skeleton, skeleton, ihi, ihp]

theorem captureCount_skeleton (p : Pattern) : p.skeleton.captureCount = p.captureCount := by
  induction p using skeleton.induct with
  | case1 => rfl
  | case2 w p ih => exact ih
  | case3 a p ha ih =>
    rw [skeleton, captureCount, captureCount, ih]
    exact ha
  | case4 i p ihi ihp => rw [skeleton, captureCount, captureCount, ihi, ihp]

/-- Patterns that look alike are the same when joined. -/
theorem joined_eq_of_display_eq {p q : Pattern} (h : p.display = q.display) :
    p.joined = q.joined := by
  have hspelled : p.spelled.display ++ [] = q.spelled.display ++ [] := by
    rw [display_spelled, display_spelled, h]
  obtain ⟨heq, -⟩ := display_append_inj p.isSpelled_spelled q.isSpelled_spelled closesCapture_nil
    closesCapture_nil hspelled
  rw [← joined_spelled p, heq, joined_spelled]

/-- Two patterns look alike just if they are the same without empty literals and with literals
side by side joined, at every depth of captures and whatever the literals are. So the printed form
tells how many captures there are, how they are nested, and what stands beside the literals. -/
theorem display_eq_iff_joined :
    (∀ p q : Pattern, p.display = q.display ↔ p.joined = q.joined) ∧
      (∀ p : Pattern, p.joined.IsJoined) ∧
      skeleton.FactorsThrough display ∧ captureCount.FactorsThrough display := by
  have hskeleton : skeleton.FactorsThrough display := fun p q h => by
    rw [← skeleton_joined p, joined_eq_of_display_eq h, skeleton_joined]
  refine ⟨fun p q => ⟨joined_eq_of_display_eq, fun h => ?_⟩, isJoined_joined, hskeleton,
    fun p q h => ?_⟩
  · rw [← display_joined p, h, display_joined]
  · rw [← captureCount_skeleton p, hskeleton h, captureCount_skeleton]

end Pattern

end Texelwise

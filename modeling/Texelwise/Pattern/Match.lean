import Texelwise.Pattern.Basic

/-!
# Matching a pattern at one place

Matching is greedy and never goes back: each atom takes as many tokens as it can, and the next
atom starts where it stopped.

* `Token.role`: what a token means for the bracket depth of a code block.
* `blockRun`: the longest run that a code block may take.
* `Pattern.match?`: what a pattern takes at the front of a token list.
-/

namespace Texelwise

/-! ## Code blocks -/

/-- What a token means inside a code block. -/
inductive BlockRole where
  /-- `(` or `[` -/
  | opener
  /-- `)` or `]` -/
  | closer
  /-- `{` or `}` -/
  | brace
  /-- `;` -/
  | semicolon
  | other
  deriving DecidableEq, Repr

/-- The role of a token by its text. -/
def Token.role (t : Token) : BlockRole :=
  if t.text = ['('] ∨ t.text = ['['] then .opener
  else if t.text = [')'] ∨ t.text = [']'] then .closer
  else if t.text = ['\x7b'] ∨ t.text = ['\x7d'] then .brace
  else if t.text = [';'] then .semicolon
  else .other

/-- The bracket depth after a token, or `none` where a code block has to stop: before a brace,
and at depth zero before a closer or a semicolon. -/
def BlockRole.depthAfter (depth : Nat) : BlockRole → Option Nat
  | .opener => some (depth + 1)
  | .closer => if depth = 0 then none else some (depth - 1)
  | .brace => none
  | .semicolon => if depth = 0 then none else some depth
  | .other => some depth

/-- The longest run of tokens that a code block can take from bracket depth `depth`, with the
tokens after it; `none` if brackets are still open where the run has to stop. -/
def blockRun (depth : Nat) : List Token → Option (List Token × List Token)
  | [] => if depth = 0 then some ([], []) else none
  | t :: ts =>
    match t.role.depthAfter depth with
    | none => if depth = 0 then some ([], t :: ts) else none
    | some next => (blockRun next ts).map fun (run, rest) => (t :: run, rest)

/-! ## Atoms and patterns -/

namespace Atom

/-- Whether an atom that takes exactly one token takes this one. -/
def accepts (t : Token) : Atom → Bool
  | .literal text => t.text = text
  | .alphanumeric => t.kind = .ident || t.kind = .number
  | .numeric => t.kind = .number
  | .spaceOptional | .spaceMandated => t.kind = .space
  | .codeBlock => false

/-- The tokens that an atom takes, and the tokens after them. -/
def split? (a : Atom) (ts : List Token) : Option (List Token × List Token) :=
  match a, ts with
  | .codeBlock, ts => (blockRun 0 ts).filter fun (run, _) => !run.isEmpty
  | .spaceOptional, [] => some ([], [])
  | .spaceOptional, t :: ts =>
    if Atom.spaceOptional.accepts t then some ([t], ts) else some ([], t :: ts)
  | _, [] => none
  | a, t :: ts => if a.accepts t then some ([t], ts) else none

end Atom

/-- What a pattern takes at the front of a token list. -/
structure Match where
  /-- The tokens taken. -/
  taken : List Token
  /-- The captured texts, outer before inner and left before right. -/
  captures : List Text
  /-- The tokens after the ones taken. -/
  rest : List Token
  deriving DecidableEq, Repr

/-- Matches a pattern at the front of a token list, each atom as far as it reaches. -/
def Pattern.match? : Pattern → List Token → Option Match
  | .nil, ts => some ⟨[], [], ts⟩
  | .atom a p, ts => do
    let (run, left) ← a.split? ts
    let m ← p.match? left
    return { m with taken := run ++ m.taken }
  | .capture inner p, ts => do
    let i ← inner.match? ts
    let m ← p.match? i.rest
    return ⟨i.taken ++ m.taken, Token.textOf i.taken :: (i.captures ++ m.captures), m.rest⟩

/-! ## Parts of a match -/

/-- A literal takes one token with its text. -/
theorem Atom.exists_of_split?_literal {w : Text} {ts run left : List Token}
    (h : (Atom.literal w).split? ts = some (run, left)) : ∃ t, run = [t] ∧ t.text = w := by
  cases ts with
  | nil => cases h
  | cons t ts =>
    simp only [Atom.split?, Atom.accepts, decide_eq_true_eq, Option.ite_none_right_eq_some] at h
    obtain ⟨ht, h⟩ := h
    cases h
    exact ⟨t, rfl, ht⟩

/-- A name takes one identifier or number. -/
theorem Atom.exists_of_split?_alphanumeric {ts run left : List Token}
    (h : Atom.alphanumeric.split? ts = some (run, left)) :
    ∃ t, run = [t] ∧ (t.kind = .ident ∨ t.kind = .number) := by
  cases ts with
  | nil => cases h
  | cons t ts =>
    simp only [Atom.split?, Atom.accepts, Bool.or_eq_true, decide_eq_true_eq,
      Option.ite_none_right_eq_some] at h
    obtain ⟨ht, h⟩ := h
    cases h
    exact ⟨t, rfl, ht⟩

/-- A match of an atom and a pattern is one of each. -/
theorem Pattern.exists_of_match?_atom {a : Atom} {p : Pattern} {ts : List Token} {m : Match}
    (h : (Pattern.atom a p).match? ts = some m) :
    ∃ run left n, a.split? ts = some (run, left) ∧ p.match? left = some n ∧
      m = ⟨run ++ n.taken, n.captures, n.rest⟩ := by
  simp only [Pattern.match?, Option.bind_eq_bind, Option.bind_eq_some_iff] at h
  obtain ⟨⟨run, left⟩, ha, n, hn, hm⟩ := h
  cases hm
  exact ⟨run, left, n, ha, hn, rfl⟩

/-- A match of a capture and a pattern is one of what is captured and one of the pattern. -/
theorem Pattern.exists_of_match?_capture {inner p : Pattern} {ts : List Token} {m : Match}
    (h : (Pattern.capture inner p).match? ts = some m) :
    ∃ i n, inner.match? ts = some i ∧ p.match? i.rest = some n ∧
      m = ⟨i.taken ++ n.taken, Token.textOf i.taken :: (i.captures ++ n.captures), n.rest⟩ := by
  simp only [Pattern.match?, Option.bind_eq_bind, Option.bind_eq_some_iff] at h
  obtain ⟨i, hi, n, hn, hm⟩ := h
  cases hm
  exact ⟨i, n, hi, hn, rfl⟩

/-! ## Nothing is lost -/

theorem blockRun_append {depth : Nat} {ts run rest : List Token}
    (h : blockRun depth ts = some (run, rest)) : run ++ rest = ts := by
  induction ts generalizing depth run rest with
  | nil =>
    unfold blockRun at h
    split at h <;> simp_all
  | cons t ts ih =>
    unfold blockRun at h
    split at h
    · split at h <;> simp_all
    · obtain ⟨⟨more, left⟩, hm, heq⟩ := Option.map_eq_some_iff.mp h
      cases heq
      rw [List.cons_append, ih hm]

theorem Atom.split?_append {a : Atom} {ts run rest : List Token}
    (h : a.split? ts = some (run, rest)) : run ++ rest = ts := by
  unfold Atom.split? at h
  split at h
  · obtain ⟨h, -⟩ := Option.filter_eq_some_iff.mp h
    exact blockRun_append h
  all_goals grind

/-- The tokens taken and the tokens left make up the list. -/
theorem Pattern.match?_append {p : Pattern} {ts : List Token} {m : Match}
    (h : p.match? ts = some m) : m.taken ++ m.rest = ts := by
  induction p generalizing ts m with
  | nil => simp_all [Pattern.match?]; subst h; rfl
  | atom a p ih =>
    obtain ⟨run, left, n, ha, hn, rfl⟩ := exists_of_match?_atom h
    rw [List.append_assoc, ih hn, Atom.split?_append ha]
  | capture inner p ihi ihp =>
    obtain ⟨i, n, hi, hn, rfl⟩ := exists_of_match?_capture h
    rw [List.append_assoc, ihp hn, ihi hi]

end Texelwise

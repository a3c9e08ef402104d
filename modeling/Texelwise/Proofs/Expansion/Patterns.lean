import Texelwise.Kernel.ThreadAccess
import Texelwise.Proofs.Expansion.Probes
import Texelwise.Proofs.Pattern.Sweep

/-!
# The patterns of the compiler

Each pattern that the compiler looks for in a body reads what a reader of sites reads.

* `Pattern.read?_bufferRead`, `read?_field`, `read?_output`: sites.
* `Pattern.read?_header`, `read?_header_eq_none_iff`: the header.
-/

namespace Texelwise

open Token

theorem next?_text_eq {ts : List Token} (hp : ∀ u ∈ ts, u.Proper) {c : Char}
    (hc : TokenKind.ofStart c [] = .punct) :
    next? (fun t => t.text = [c]) ts = next? (fun t => t = Token.mark c) ts := by
  cases ts with
  | nil => rfl
  | cons t ts =>
    have hiff : t.text = [c] ↔ t = Token.mark c := by
      refine ⟨fun h => ?_, fun h => by rw [h]; rfl⟩
      have hkind := (hp t List.mem_cons_self).kind_eq h
      rw [hc] at hkind
      obtain ⟨kind, text⟩ := t
      cases hkind
      cases h
      rfl
    simp only [next?, hiff]

namespace Token

/-- A token that is an identifier is a word. -/
theorem Proper.eq_word {t : Token} (h : t.Proper) (ht : isIdentifier t.text = true) :
    t = word t.text := by
  obtain ⟨kind, text⟩ := t
  obtain ⟨c, more, htext, hkind, -⟩ := h
  cases htext
  obtain ⟨hc, -⟩ := isIdentifier_cons.mp ht
  rw [TokenKind.ofStart_of_isAlpha hc] at hkind
  cases hkind
  rfl

theorem Proper.kind_of_text_eq {t : Token} (h : t.Proper) {w : Text} (ht : t.text = w)
    (hw : isIdentifier w = true) : t.kind = .ident := by
  rw [h.eq_word (by rw [ht, hw])]
  rfl

end Token

namespace Pattern

section

variable {ts : List Token} (hp : ∀ u ∈ ts, u.Proper)

include hp

/-! ## Marks and blocks -/

theorem read?_mark {c : Char} (hc : TokenKind.ofStart c [] = .punct) :
    (mark c).read? ts = (next? (· = Token.mark c) ts).map fun (_, rest) => ([], rest) := by
  rw [mark, read?_literal, next?_text_eq hp hc]

theorem read?_spaceOptional_mark {c : Char} (hc : TokenKind.ofStart c [] = .punct) :
    (spaceOptional ++ mark c).read? ts = (afterMark? c ts).map fun rest => ([], rest) := by
  rw [read?_append, read?_spaceOptional, afterMark?, Option.map_map]
  simp only [Option.bind_some, read?_mark (fun u hu => hp u (Rules.mem_skipBlank hu)) hc,
    Option.map_map]
  rfl

/-- A code block between two marks. -/
theorem read?_enclosed {o c : Char} (ho : TokenKind.ofStart o [] = .punct)
    (hc : TokenKind.ofStart c [] = .punct) :
    (spaceOptional ++ mark o ++ group codeBlock ++ mark c).read? ts =
      (enclosed? o c ts).map fun (block, rest) => ([textOf block], rest) := by
  rw [read?_append, read?_append, read?_spaceOptional_mark hp ho, enclosed?]
  cases hin : afterMark? o ts with
  | none => rfl
  | some inside =>
    obtain ⟨gap, -, rfl⟩ := afterMark?_eq_some_iff.mp hin
    simp only [Option.map_some, Option.bind_some, read?_group_codeBlock]
    cases hrun : blockRun 0 inside with
    | none => rfl
    | some p =>
      obtain ⟨block, left⟩ := p
      have happ := Texelwise.blockRun_append hrun
      have hpleft : ∀ u ∈ left, u.Proper := fun u hu => hp u (by simp [← happ, hu])
      simp only [Option.bind_some]
      split
      · rfl
      · simp only [Option.map_some, Option.bind_some, read?_mark hpleft hc, Option.map_map]
        rfl

/-! ## Sites -/

theorem read?_subscripts (n : Nat) :
    (subscripts n).read? ts =
      (subscripts? n ts).map fun (blocks, rest) => (blocks.map textOf, rest) := by
  induction n generalizing ts with
  | zero => rfl
  | succ n ih =>
    have hsub : subscript = spaceOptional ++ mark '[' ++ group codeBlock ++ mark ']' := rfl
    rw [subscripts, read?_append, hsub, read?_enclosed hp (by decide) (by decide), subscripts?]
    cases hs : enclosed? '[' ']' ts with
    | none => rfl
    | some p =>
      obtain ⟨block, left⟩ := p
      obtain ⟨-, -, gap, -, rfl⟩ := (enclosed?_eq_some_iff role_close).mp hs
      have hleft := @ih left fun u hu => hp u (by simp [hu])
      simp only [Option.map_some, Option.bind_some, hleft, Option.map_map]
      rfl

theorem read?_bufferRead (t : Token) (name : Text) (rank : Rank) :
    (bufferRead name rank).read? (t :: ts) =
      if t.text = name then
        (subscripts? rank.toNat ts).map fun (blocks, rest) => (blocks.map textOf, rest)
      else none := by
  rw [bufferRead, read?_append, read?_literal, next?]
  by_cases ht : t.text = name
  · simp only [ht, decide_true, if_true, Option.map_some, Option.bind_some,
      read?_subscripts hp, Option.map_map]
    rfl
  · simp [ht]

theorem read?_field (t : Token) (name f : Text) :
    (field name f).read? (t :: ts) =
      if t.text = name then
        (afterMark? '.' ts).bind fun left =>
          (next? (·.text = f) (skipBlank left)).map fun (_, rest) => ([], rest)
      else none := by
  have hshape : field name f =
      literal name ++ ((spaceOptional ++ mark '.') ++ (spaceOptional ++ literal f)) := rfl
  rw [hshape, read?_append, read?_literal, next?]
  by_cases ht : t.text = name
  · simp only [ht, decide_true, if_true, Option.map_some, Option.bind_some]
    rw [read?_append, read?_spaceOptional_mark hp (by decide)]
    cases afterMark? '.' ts with
    | none => rfl
    | some left =>
      simp only [Option.map_some, Option.bind_some, read?_append, read?_spaceOptional,
        read?_literal, Option.map_map]
      rfl
  · simp [ht]

theorem read?_output (t : Token) :
    output.read? (t :: ts) =
      if t.text = threadWord then (number? ts).map fun (n, rest) => ([n], rest) else none := by
  have hshape : output = literal threadWord ++ ((spaceOptional ++ mark '[') ++
      (spaceOptional ++ (group numeric ++ (spaceOptional ++ mark ']')))) := rfl
  rw [hshape, read?_append, read?_literal, next?]
  by_cases ht : t.text = threadWord
  · simp only [ht, decide_true, if_true, Option.map_some, Option.bind_some, number?]
    rw [read?_append, read?_spaceOptional_mark hp (by decide)]
    cases hin : afterMark? '[' ts with
    | none => rfl
    | some left =>
      obtain ⟨gap, -, rfl⟩ := afterMark?_eq_some_iff.mp hin
      have hpleft : ∀ u ∈ left, u.Proper := fun u hu => hp u (by simp [hu])
      simp only [Option.map_some, Option.bind_some]
      rw [read?_append, read?_spaceOptional]
      simp only [Option.bind_some]
      rw [read?_append, read?_group_numeric]
      cases hn : next? (fun t => decide (t.kind = .number)) (skipBlank left) with
      | none => rfl
      | some p =>
        obtain ⟨n, after⟩ := p
        obtain ⟨-, hafter⟩ := next?_eq_some_iff.mp hn
        have hpafter : ∀ u ∈ after, u.Proper := fun u hu =>
          hpleft u (Rules.mem_skipBlank (by rw [hafter]; exact List.mem_cons_of_mem n hu))
        simp only [Option.map_some, Option.bind_some,
          read?_spaceOptional_mark hpafter (c := ']') (by decide), Option.map_map]
        rfl
  · simp [ht]

/-! ## Headers and declarations -/

omit hp in
theorem read?_mark_of_ne {c : Char} {t : Token} (h : t.text ≠ [c]) (q : Pattern) :
    (mark c ++ q).read? (t :: ts) = none := by
  rw [read?_append, mark, read?_literal]
  simp [next?, h]

omit hp in
theorem read?_literal_of_ne {w : Text} {t : Token} (h : t.text ≠ w) (q : Pattern) :
    (literal w ++ q).read? (t :: ts) = none := by
  rw [read?_append, read?_literal]
  simp [next?, h]

theorem read?_literal_word {w : Text} (hw : isIdentifier w = true) :
    (literal w).read? ts = (next? (· = word w) ts).map fun (_, rest) => ([], rest) := by
  rw [read?_literal]
  cases ts with
  | nil => rfl
  | cons t ts =>
    have hiff : t.text = w ↔ t = word w := by
      refine ⟨fun h => ?_, fun h => by rw [h]; rfl⟩
      subst h
      exact (hp t List.mem_cons_self).eq_word hw
    simp only [next?, hiff]

/-- The outputs and the parameters of a header, and the tokens after it. -/
theorem read?_header : header.read? (Token.mark '[' :: ts) =
    (enclosed? '[' ']' (Token.mark '[' :: ts)).bind fun (outputs, left) =>
      (next? (· = word threadWord) (skipBlank left)).bind fun (_, left) =>
        (enclosed? '(' ')' left).map fun (params, rest) =>
          ([textOf outputs, textOf params], rest) := by
  have hpall : ∀ u ∈ Token.mark '[' :: ts, u.Proper := by
    intro u hu
    rcases List.mem_cons.mp hu with rfl | hu
    · exact proper_mark (by decide)
    · exact hp u hu
  have hskip : skipBlank (Token.mark '[' :: ts) = Token.mark '[' :: ts := rfl
  have hfirst : (mark '[' ++ group codeBlock ++ mark ']').read? (Token.mark '[' :: ts) =
      (enclosed? '[' ']' (Token.mark '[' :: ts)).map
        fun (block, rest) => ([textOf block], rest) := by
    rw [← read?_enclosed hpall (by decide) (by decide), append_assoc spaceOptional,
      append_assoc spaceOptional, read?_append spaceOptional, read?_spaceOptional, hskip]
    simp
  have hshape : header = (mark '[' ++ group codeBlock ++ mark ']') ++
      (spaceOptional ++ (literal threadWord ++
        (spaceOptional ++ mark '(' ++ group codeBlock ++ mark ')'))) := rfl
  rw [hshape, read?_append, hfirst]
  cases hs : enclosed? '[' ']' (Token.mark '[' :: ts) with
  | none => rfl
  | some p =>
    obtain ⟨outputs, left⟩ := p
    obtain ⟨-, -, gap, -, heq⟩ := (enclosed?_eq_some_iff role_close).mp hs
    have hpleft : ∀ u ∈ skipBlank left, u.Proper := fun u hu =>
      hpall u (by rw [heq]; simp [Rules.mem_skipBlank hu])
    simp only [Option.map_some, Option.bind_some]
    rw [read?_append, read?_spaceOptional]
    simp only [Option.bind_some]
    rw [read?_append, read?_literal_word hpleft (by decide)]
    cases hn : next? (· = word threadWord) (skipBlank left) with
    | none => rfl
    | some p =>
      obtain ⟨t, after⟩ := p
      obtain ⟨-, hafter⟩ := next?_eq_some_iff.mp hn
      have hpafter : ∀ u ∈ after, u.Proper := fun u hu =>
        hpleft u (by rw [hafter]; exact List.mem_cons_of_mem t hu)
      simp only [Option.map_some, Option.bind_some,
        read?_enclosed hpafter (o := '(') (c := ')') (by decide) (by decide), Option.map_map]
      rfl

/-- A header is where the probe finds one. -/
theorem read?_header_eq_none_iff (t : Token) (ht : t.Proper) :
    header.read? (t :: ts) = none ↔ headerAt t ts = none := by
  by_cases hmark : t = Token.mark '['
  · subst hmark
    rw [read?_header hp, headerAt, if_pos rfl]
    cases enclosed? '[' ']' (Token.mark '[' :: ts) with
    | none => simp
    | some p =>
      obtain ⟨outputs, left⟩ := p
      simp only [Option.bind_some]
      cases next? (· = word threadWord) (skipBlank left) with
      | none => simp
      | some q => simp
  · have htext : t.text ≠ ['['] := fun h => hmark (ht.eq_mark (by decide) h)
    have hnone : header.read? (t :: ts) = none := read?_mark_of_ne htext _
    simp [hnone, headerAt, hmark]

end

end Pattern

end Texelwise

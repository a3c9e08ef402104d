import Mathlib.Data.List.Chain
import Texelwise.Proofs.Text.Slice
import Texelwise.Proofs.Token.Separation

/-!
# Maximal munch

The lexer takes one token after another, each as long as it can be. This module says which texts a
token of each kind can have without saying how they are read, and that the tokens of a text are the
only ones that are as long as they can be at every place.

* `TokenKind.Starts`: the kind that the first characters of a text ask for.
* `TokenKind.Admits`: the texts of a kind.
* `Token.Munched`: every token is of the kind asked for and takes the longest text of that kind.
* `eq_tokenize_iff`: the tokens of a text are the only ones of this sort.
* `locate_eq_append`: the places of the tokens from one of them on.
* `tokenize_munched`: both together, and what it means for the rest of a text.
-/

namespace Texelwise

open Token Text

namespace TokenKind

/-! ## Kinds and their texts -/

/-- Whether a number starts with `c`: a digit, or a point before a digit. -/
def NumberFront (c : Char) (rest : Text) : Prop :=
  c.isDigit = true ∨ (c = '.' ∧ ∃ d ∈ rest.head?, d.isDigit = true)

/-- Whether a text starts with a token of this kind. Letters and digits are ASCII. -/
def Starts : TokenKind → Text → Prop
  | .space, c :: _ => isBlank c = true
  | .ident, c :: _ => c.isAlpha = true ∨ c = '_'
  | .number, c :: rest => NumberFront c rest
  | .punct, c :: rest =>
    isBlank c = false ∧ ¬(c.isAlpha = true ∨ c = '_') ∧ ¬NumberFront c rest
  | _, [] => False

/-- Whether `c` may stand directly after `b` in a number. -/
def NumberStep (b c : Char) : Prop :=
  isWordChar c = true ∨ c = '.' ∨ ((c = '+' ∨ c = '-') ∧ (b = 'e' ∨ b = 'E'))

/-- The texts that a token of this kind can have. -/
def Admits : TokenKind → Text → Prop
  | .space, t => t ≠ [] ∧ ∀ c ∈ t, isBlank c = true
  | .ident, t => isIdentifier t = true
  | .number, t => TokenKind.number.Starts t ∧ t.IsChain NumberStep
  | .punct, t => t.length = 1

theorem Admits.ne_nil {kind : TokenKind} {t : Text} (h : kind.Admits t) : t ≠ [] := by
  rintro rfl
  cases kind with
  | ident => cases h
  | number => exact h.1
  | space => exact h.1 rfl
  | punct => cases h

theorem numberFront_iff {c : Char} {rest : Text} :
    (c.isDigit || (c = '.' && rest.head?.any Char.isDigit)) = true ↔ NumberFront c rest := by
  cases rest <;> simp [NumberFront]

instance (c : Char) (rest : Text) : Decidable (NumberFront c rest) :=
  decidable_of_iff _ numberFront_iff

/-- A blank is neither a letter nor the start of a number. -/
theorem not_starts_of_isBlank {c : Char} (h : isBlank c = true) (rest : Text) :
    ¬(c.isAlpha = true ∨ c = '_') ∧ ¬NumberFront c rest := by
  have hword : isWordChar c = false := by
    by_contra hword
    rw [isBlank_of_isWordChar (by simpa using hword)] at h
    cases h
  simp only [isWordChar, Char.isAlphanum, Bool.or_eq_false_iff, decide_eq_false_iff_not] at hword
  obtain ⟨⟨halpha, hdigit⟩, hunder⟩ := hword
  refine ⟨by simp [halpha, hunder], ?_⟩
  rintro (hnumber | ⟨rfl, -⟩)
  · rw [hdigit] at hnumber
    cases hnumber
  · exact absurd h (by decide)

/-- A letter is not the start of a number. -/
theorem not_numberFront_of_letter {c : Char} (h : c.isAlpha = true ∨ c = '_') (rest : Text) :
    ¬NumberFront c rest := by
  have hletter : (c.isAlpha || c = '_') = true := by simpa using h
  rintro (hnumber | ⟨rfl, -⟩)
  · rw [isDigit_of_isAlpha hletter] at hnumber
    cases hnumber
  · exact absurd hletter (by decide)

/-- A text starts with a token of just one kind, which is the one that the lexer picks. -/
theorem starts_iff {kind : TokenKind} {c : Char} {rest : Text} :
    kind.Starts (c :: rest) ↔ ofStart c rest = kind := by
  have hletter : (c.isAlpha || c = '_') = true ↔ c.isAlpha = true ∨ c = '_' := by simp
  have hstart : ofStart c rest = if isBlank c = true then .space
      else if c.isAlpha = true ∨ c = '_' then .ident
      else if NumberFront c rest then .number else .punct := by
    simp only [ofStart, hletter, numberFront_iff]
  rw [hstart]
  by_cases hblank : isBlank c = true
  · obtain ⟨hno, hnumber⟩ := not_starts_of_isBlank hblank rest
    cases kind <;> simp [Starts, hblank, hno, hnumber]
  · by_cases hword : c.isAlpha = true ∨ c = '_'
    · have hnumber := not_numberFront_of_letter hword rest
      cases kind <;> simp [Starts, hblank, hword, hnumber]
    · by_cases hnumber : NumberFront c rest
      · cases kind <;> simp [Starts, hblank, hword, hnumber]
      · cases kind <;> simp [Starts, hblank, hword, hnumber]

/-! ## Runs -/

/-- A run takes a whole text if each of its characters goes on after the one before it. -/
theorem run_eq_self_iff {kind : TokenKind} {b : Char} {t : Text} :
    kind.run b t = (t, []) ↔ (b :: t).IsChain fun x y => kind.continues x y = true := by
  induction t generalizing b with
  | nil => simp
  | cons c t ih =>
    rw [List.isChain_cons_cons, ← ih]
    cases h : kind.continues b c with
    | true =>
      rw [run_cons_of_continues h]
      simp [Prod.ext_iff]
    | false =>
      rw [run_cons_of_stops h]
      simp

/-- A run takes every front of a text that goes on without a stop. -/
theorem prefix_run {kind : TokenKind} {b : Char} {t u : Text} (ht : kind.run b t = (t, []))
    (h : t <+: u) : t <+: (kind.run b u).1 := by
  obtain ⟨rest, rfl⟩ := h
  induction t generalizing b with
  | nil => exact List.nil_prefix
  | cons c t ih =>
    obtain ⟨hc, hchain⟩ := List.isChain_cons_cons.mp (run_eq_self_iff.mp ht)
    rw [List.cons_append, run_cons_of_continues hc]
    exact List.cons_prefix_cons.mpr ⟨rfl, ih (run_eq_self_iff.mpr hchain)⟩

theorem continues_number_iff {b c : Char} :
    TokenKind.number.continues b c = true ↔ NumberStep b c := by
  simp [continues, NumberStep, or_assoc]

/-- The lexer takes the whole of a text of a kind. -/
theorem Admits.run_eq {kind : TokenKind} {c : Char} {more : Text} (h : kind.Admits (c :: more)) :
    kind.run c more = (more, []) := by
  cases kind with
  | ident => exact run_of_all (fun _ => List.all_eq_true.mp (isIdentifier_cons.mp h).2) c
  | space =>
    refine run_of_all (fun _ d hd => ?_) c
    exact h.2 d (List.mem_cons_of_mem c hd)
  | number =>
    refine run_eq_self_iff.mpr (h.2.imp fun _ _ hstep => ?_)
    exact continues_number_iff.mpr hstep
  | punct =>
    obtain rfl : more = [] := by simpa [Admits] using h
    rfl

end TokenKind

namespace Token

/-- A token that the lexer reads has a text of its kind. -/
theorem Proper.admits {t : Token} (h : t.Proper) : t.kind.Admits t.text := by
  obtain ⟨c, more, htext, hkind, hrun⟩ := h
  have hstart := TokenKind.starts_iff.mpr hkind
  have hmore := fun d hd => TokenKind.continues_of_run (c := d) hrun hd
  rw [htext]
  cases hk : t.kind with
  | ident =>
    rw [hk] at hstart hmore
    refine isIdentifier_cons.mpr ⟨by simpa [TokenKind.Starts] using hstart,
      List.all_eq_true.mpr fun d hd => ?_⟩
    exact (hmore d hd).choose_spec
  | space =>
    rw [hk] at hstart hmore
    refine ⟨List.cons_ne_nil c more, fun d hd => ?_⟩
    rcases List.mem_cons.mp hd with rfl | hd
    · exact hstart
    · exact (hmore d hd).choose_spec
  | number =>
    rw [hk] at hstart hrun
    refine ⟨hstart, (TokenKind.run_eq_self_iff.mp hrun).imp fun _ _ hstep => ?_⟩
    exact TokenKind.continues_number_iff.mp hstep
  | punct =>
    rw [hk] at hmore
    have hnil : more = [] := List.eq_nil_iff_forall_not_mem.mpr fun d hd => by
      obtain ⟨b, hb⟩ := hmore d hd
      cases hb
    rw [hnil]
    rfl

/-! ## The longest tokens -/

/-- The token at the front of a text is of the kind that the text starts with, and no text of that
kind stands there that is longer. -/
structure Munches (t : Token) (source : Text) : Prop where
  kind : t.kind.Starts source
  front : t.text <+: source
  admits : t.kind.Admits t.text
  longest : ∀ u, u <+: source → t.kind.Admits u → u.length ≤ t.text.length

/-- At one place there is one longest token. -/
theorem Munches.unique {t u : Token} {source : Text} (ht : t.Munches source)
    (hu : u.Munches source) : t = u := by
  have hkind : t.kind = u.kind := by
    cases source with
    | nil => exact absurd (List.prefix_nil.mp ht.front) ht.admits.ne_nil
    | cons c rest =>
      exact (TokenKind.starts_iff.mp ht.kind).symm.trans (TokenKind.starts_iff.mp hu.kind)
  have hle := hu.longest t.text ht.front (hkind ▸ ht.admits)
  have hge := ht.longest u.text hu.front (hkind ▸ hu.admits)
  have hprefix : t.text <+: u.text := List.prefix_of_prefix_length_le ht.front hu.front hle
  have htext : t.text = u.text := hprefix.eq_of_length (Nat.le_antisymm hle hge)
  cases t
  cases u
  simp_all

/-- Every token is the longest one at its place. -/
def Munched (ts : List Token) : Prop :=
  ∀ before t after, ts = before ++ t :: after → t.Munches (textOf (t :: after))

theorem munched_cons {t : Token} {ts : List Token} :
    Munched (t :: ts) ↔ t.Munches (textOf (t :: ts)) ∧ Munched ts := by
  constructor
  · intro h
    exact ⟨h [] t ts rfl, fun before u after heq => h (t :: before) u after (by rw [heq]; rfl)⟩
  · rintro ⟨ht, hts⟩ before u after heq
    cases before with
    | nil =>
      cases heq
      exact ht
    | cons v before =>
      obtain ⟨-, heq⟩ := List.cons_eq_cons.mp heq
      exact hts before u after heq

/-- The first token that the lexer takes is the longest one. -/
theorem munches_run (c : Char) (rest : Text) :
    Munches ⟨TokenKind.ofStart c rest, c :: ((TokenKind.ofStart c rest).run c rest).1⟩
      (c :: rest) := by
  have happ := TokenKind.run_append (TokenKind.ofStart c rest) c rest
  refine ⟨TokenKind.starts_iff.mpr rfl, ?_, ?_, ?_⟩
  · exact List.cons_prefix_cons.mpr ⟨rfl, _, happ⟩
  · refine (proper_tokenize (x := c :: rest) _ ?_).admits
    rw [tokenize]
    exact List.mem_cons_self
  · intro u hu hadmits
    cases u with
    | nil => exact absurd rfl hadmits.ne_nil
    | cons d more =>
      obtain ⟨rfl, hmore⟩ := List.cons_prefix_cons.mp hu
      simpa using (TokenKind.prefix_run hadmits.run_eq hmore).length_le

theorem munched_tokenize (source : Text) : Munched (tokenize source) := by
  fun_induction tokenize source with
  | case1 => exact fun before t after h => absurd h (by simp)
  | case2 c rest kind ih =>
    refine munched_cons.mpr ⟨?_, ih⟩
    rw [textOf_cons, textOf_tokenize, List.cons_append, TokenKind.run_append]
    exact munches_run c rest

/-- The tokens of a text are the only ones with this text that are all the longest. -/
theorem eq_tokenize_iff {source : Text} {ts : List Token} :
    textOf ts = source ∧ Munched ts ↔ ts = tokenize source := by
  constructor
  · rintro ⟨rfl, hts⟩
    induction ts with
    | nil => simp
    | cons t ts ih =>
      obtain ⟨ht, hrest⟩ := munched_cons.mp hts
      obtain ⟨c, more, hmore⟩ := List.exists_cons_of_ne_nil ht.admits.ne_nil
      have htext : textOf (t :: ts) = c :: (more ++ textOf ts) := by
        rw [textOf_cons, hmore, List.cons_append]
      have hfirst := ht.unique (htext ▸ munches_run c (more ++ textOf ts))
      rw [htext, tokenize, ← hfirst]
      have happ := TokenKind.run_append (TokenKind.ofStart c (more ++ textOf ts)) c
        (more ++ textOf ts)
      rw [hfirst, List.cons_eq_cons] at hmore
      rw [hmore.2, List.append_cancel_left_eq] at happ
      rw [happ, ← ih hrest]
  · rintro rfl
    exact ⟨textOf_tokenize source, munched_tokenize source⟩

/-! ## Places -/

/-- The token `n` bytes further on. -/
def Located.moved (n : Nat) (l : Located) : Located := ⟨l.token, n + l.start, n + l.stop⟩

theorem map_token_locate (n : Nat) (ts : List Token) :
    (locate n ts).map Located.token = ts := by
  induction ts generalizing n with
  | nil => rfl
  | cons t ts ih => simp [locate, ih]

/-- Tokens are located after the bytes of the tokens before them. -/
theorem locate_append (n : Nat) (ts us : List Token) :
    locate n (ts ++ us) = locate n ts ++ locate (n + byteLength (textOf ts)) us := by
  induction ts generalizing n with
  | nil => rfl
  | cons t ts ih =>
    simp [locate, ih, Nat.add_assoc]

theorem locate_add (n k : Nat) (ts : List Token) :
    locate (n + k) ts = (locate k ts).map (Located.moved n) := by
  induction ts generalizing k with
  | nil => rfl
  | cons t ts ih => simp [locate, Located.moved, Nat.add_assoc, ih]

/-- From any token on, the places are those of the tokens from there on. -/
theorem locate_eq_append {ts : List Token} {before after : List Located}
    (h : locate 0 ts = before ++ after) :
    ts = before.map Located.token ++ after.map Located.token ∧
      after = locate (byteLength (textOf (before.map Located.token)))
        (after.map Located.token) := by
  have hts : ts = before.map Located.token ++ after.map Located.token := by
    rw [← List.map_append, ← h, map_token_locate]
  refine ⟨hts, ?_⟩
  have hsplit := locate_append 0 (before.map Located.token) (after.map Located.token)
  rw [← hts, h, Nat.zero_add] at hsplit
  refine (List.append_inj hsplit ?_).2
  have hlength := congrArg List.length
    (map_token_locate 0 (before.map Located.token))
  simpa using hlength.symm

/-- The tokens of a text are the only ones with this text that are all the longest at their place,
and none is empty. Each stands after the bytes of those before it, and from its place on the tokens
are those of the rest of the text, moved. -/
theorem tokenize_munched (source : Text) :
    (∀ ts, textOf ts = source ∧ Munched ts ↔ ts = tokenize source) ∧
    (∀ t ∈ tokenize source, t.text ≠ []) ∧
    (locate 0 (tokenize source)).map Located.token = tokenize source ∧
    ∀ before l after, locate 0 (tokenize source) = before ++ l :: after →
      l.start = byteLength (textOf (before.map Located.token)) ∧
      l.stop = l.start + byteLength l.token.text ∧
      ∃ rest, dropBytes? l.start source = some rest ∧
        (locate 0 (tokenize rest)).map (Located.moved l.start) = l :: after := by
  refine ⟨fun ts => eq_tokenize_iff, fun t ht => (proper_tokenize t ht).text_ne_nil,
    map_token_locate 0 _, fun before l after h => ?_⟩
  obtain ⟨hts, hplaces⟩ := locate_eq_append h
  obtain ⟨hl, -⟩ := List.cons_eq_cons.mp hplaces
  have hstart : l.start = byteLength (textOf (before.map Located.token)) := by rw [hl]
  refine ⟨hstart, by rw [hl], textOf ((l :: after).map Located.token), ?_, ?_⟩
  · have htext := textOf_tokenize source
    rw [hts, textOf_append] at htext
    rw [hstart, ← htext, dropBytes?_append]
  · have hrest : tokenize (textOf ((l :: after).map Located.token)) =
        (l :: after).map Located.token := by
      refine (eq_tokenize_iff.mp ⟨rfl, fun pre t post heq => ?_⟩).symm
      refine munched_tokenize source (before.map Located.token ++ pre) t post ?_
      rw [hts, heq, List.append_assoc]
    rw [hrest, ← locate_add, Nat.add_zero, hstart, ← hplaces]

/-- In `é.5e-3f+w` the number goes on after `e-`, and the sign behind it is a token of its own. -/
theorem tokenize_munched_exponent :
    locate 0 (tokenize "é.5e-3f+w".toList) =
      [⟨⟨.punct, ['é']⟩, 0, 2⟩, ⟨⟨.number, ".5e-3f".toList⟩, 2, 8⟩, ⟨mark '+', 8, 9⟩,
        ⟨word ['w'], 9, 10⟩] ∧
    ∃ rest, dropBytes? 8 "é.5e-3f+w".toList = some rest ∧
      (locate 0 (tokenize rest)).map (Located.moved 8) =
        [⟨mark '+', 8, 9⟩, ⟨word ['w'], 9, 10⟩] := by
  have htokens : locate 0 (tokenize "é.5e-3f+w".toList) =
      [⟨⟨.punct, ['é']⟩, 0, 2⟩, ⟨⟨.number, ".5e-3f".toList⟩, 2, 8⟩, ⟨mark '+', 8, 9⟩,
        ⟨word ['w'], 9, 10⟩] := by decide +kernel
  exact ⟨htokens, ((tokenize_munched "é.5e-3f+w".toList).2.2.2
    [⟨⟨.punct, ['é']⟩, 0, 2⟩, ⟨⟨.number, ".5e-3f".toList⟩, 2, 8⟩] _ _ htokens).2.2⟩

end Token

end Texelwise

import Mathlib.Data.List.Basic
import Texelwise.Token.Lexer

/-!
# Separated tokens

When the texts of some tokens are put together, the lexer gives the same tokens back if no token
goes on into the next one. This module states that condition and when it holds.

* `Token.Proper`: a token that the lexer reads from its own text.
* `Token.EndsAt`: the character after a token does not belong to it.
* `Separated`: every token is proper and ends where the next one starts.
* `tokenize_textOf`: separated tokens are read back.
* `separated_tokenize`: the tokens of the lexer are separated.
* `tokenize_append_mark`: a mark that belongs to no other token cuts the text in two.
-/

namespace Texelwise

namespace TokenKind

variable (kind : TokenKind)

@[simp] theorem run_nil (before : Char) : kind.run before [] = ([], []) := rfl

variable {kind}

theorem run_cons_of_continues {before c : Char} (h : kind.continues before c = true) (t : Text) :
    kind.run before (c :: t) = (c :: (kind.run c t).1, (kind.run c t).2) := by
  rw [run, if_pos h]

theorem run_cons_of_stops {before c : Char} (h : kind.continues before c = false) (t : Text) :
    kind.run before (c :: t) = ([], c :: t) := by
  rw [run, if_neg (by simp [h])]

variable (kind)

/-- The part that a run takes is a run of its own. -/
theorem run_fst (before : Char) (t : Text) :
    kind.run before (kind.run before t).1 = ((kind.run before t).1, []) := by
  induction t generalizing before with
  | nil => rfl
  | cons c rest ih =>
    cases h : kind.continues before c with
    | true => rw [run_cons_of_continues h, run_cons_of_continues h, ih c]
    | false => rw [run_cons_of_stops h, run_nil]

/-- A run stops before a character that does not continue it. -/
theorem run_snd_stops (before : Char) (t : Text) {c : Char}
    (hc : c ∈ (kind.run before t).2.head?) :
    kind.continues ((kind.run before t).1.getLastD before) c = false := by
  induction t generalizing before with
  | nil => cases hc
  | cons d rest ih =>
    cases h : kind.continues before d with
    | true =>
      rw [run_cons_of_continues h] at hc ⊢
      rw [List.getLastD_cons]
      exact ih d hc
    | false =>
      rw [run_cons_of_stops h] at hc ⊢
      obtain rfl : d = c := by simpa using hc
      exact h

/-- The characters of a continuation go on after some character. -/
theorem continues_of_run {kind : TokenKind} {before : Char} {t : Text}
    (h : kind.run before t = (t, [])) {c : Char} (hc : c ∈ t) : ∃ b, kind.continues b c = true := by
  induction t generalizing before with
  | nil => cases hc
  | cons d rest ih =>
    cases hd : kind.continues before d with
    | false =>
      rw [run_cons_of_stops hd] at h
      cases h
    | true =>
      rw [run_cons_of_continues hd] at h
      rcases List.mem_cons.mp hc with rfl | hc
      · exact ⟨before, hd⟩
      · simp only [Prod.mk.injEq, List.cons.injEq, true_and] at h
        exact ih (Prod.ext h.1 h.2) hc

/-- A whole run is taken whatever follows, if that does not continue it. -/
theorem run_append_of_stops {before : Char} {t u : Text} (ht : kind.run before t = (t, []))
    (hu : ∀ c ∈ u.head?, kind.continues (t.getLastD before) c = false) :
    kind.run before (t ++ u) = (t, u) := by
  induction t generalizing before with
  | nil =>
    cases u with
    | nil => rfl
    | cons c u => exact run_cons_of_stops (hu c rfl) u
  | cons d rest ih =>
    cases h : kind.continues before d with
    | true =>
      rw [run_cons_of_continues h] at ht
      have hrest : kind.run d rest = (rest, []) := by
        simp only [Prod.mk.injEq, List.cons.injEq, true_and] at ht
        exact Prod.ext ht.1 ht.2
      rw [List.getLastD_cons] at hu
      rw [List.cons_append, run_cons_of_continues h, ih hrest hu]
    | false =>
      rw [run_cons_of_stops h] at ht
      cases ht

/-- The kind at a character depends on the next character only for a point before a digit. -/
theorem ofStart_append (c : Char) {t u : Text}
    (h : c = '.' → t = [] → ∀ d ∈ u.head?, d.isDigit = false) :
    ofStart c (t ++ u) = ofStart c t := by
  cases t with
  | cons d t => rfl
  | nil =>
    by_cases hc : c = '.'
    · cases u with
      | nil => rfl
      | cons d u =>
        have hd : d.isDigit = false := h hc rfl d rfl
        simp [ofStart, hd]
    · simp [ofStart, hc]

end TokenKind

namespace Token

/-- The lexer reads the token from its own text. -/
def Proper (t : Token) : Prop :=
  ∃ c more, t.text = c :: more ∧ TokenKind.ofStart c more = t.kind ∧
    t.kind.run c more = (more, [])

/-- The token ends before the character `c`. -/
def EndsAt (t : Token) (c : Char) : Prop :=
  t.kind.continues (t.text.getLastD c) c = false ∧ (t.text = ['.'] → c.isDigit = false)

theorem Proper.text_ne_nil {t : Token} (h : t.Proper) : t.text ≠ [] := by
  obtain ⟨c, more, ht, -⟩ := h
  simp [ht]

end Token

open Token

/-- A proper token is read off the front of a text that does not continue it. -/
theorem tokenize_token_append {t : Token} {x : Text} (ht : t.Proper)
    (hx : ∀ c ∈ x.head?, t.EndsAt c) : tokenize (t.text ++ x) = t :: tokenize x := by
  obtain ⟨c, more, htext, hkind, hrun⟩ := ht
  have hstart : TokenKind.ofStart c (more ++ x) = t.kind := by
    rw [TokenKind.ofStart_append, hkind]
    intro hc hmore d hd
    exact (hx d hd).2 (by rw [htext, hc, hmore])
  have hstop : t.kind.run c (more ++ x) = (more, x) := by
    apply TokenKind.run_append_of_stops _ hrun
    intro d hd
    have h := (hx d hd).1
    rwa [htext, List.getLastD_cons] at h
  rw [htext, List.cons_append, tokenize]
  simp only [hstart, hstop]
  rw [← htext]

/-! ## Lists of tokens -/

/-- Every token is proper and stands as `R` says to the character after it. -/
def SeparatedBy (R : Token → Char → Prop) : List Token → Prop
  | [] => True
  | t :: ts => t.Proper ∧ (∀ c ∈ (textOf ts).head?, R t c) ∧ SeparatedBy R ts

/-- Every token is proper and ends where the next one starts. -/
abbrev Separated (ts : List Token) : Prop := SeparatedBy EndsAt ts

section

variable {R : Token → Char → Prop}

@[simp] theorem separatedBy_nil : SeparatedBy R [] := trivial

theorem separatedBy_cons {t : Token} {ts : List Token} :
    SeparatedBy R (t :: ts) ↔
      t.Proper ∧ (∀ c ∈ (textOf ts).head?, R t c) ∧ SeparatedBy R ts :=
  Iff.rfl

theorem SeparatedBy.tail {t : Token} {ts : List Token} (h : SeparatedBy R (t :: ts)) :
    SeparatedBy R ts :=
  h.2.2

theorem SeparatedBy.proper {ts : List Token} (h : SeparatedBy R ts) {t : Token} (ht : t ∈ ts) :
    t.Proper := by
  induction ts with
  | nil => cases ht
  | cons u us ih =>
    rcases List.mem_cons.mp ht with rfl | ht
    · exact h.1
    · exact ih h.tail ht

theorem SeparatedBy.mono {S : Token → Char → Prop} (hRS : ∀ t c, R t c → S t c)
    {ts : List Token} (h : SeparatedBy R ts) : SeparatedBy S ts := by
  induction ts with
  | nil => trivial
  | cons t ts ih => exact ⟨h.1, fun c hc => hRS t c (h.2.1 c hc), ih h.tail⟩

/-- Two separated lists may be put together where the first ends before the second. -/
theorem separatedBy_append {xs ys : List Token} :
    SeparatedBy R (xs ++ ys) ↔ SeparatedBy R xs ∧ SeparatedBy R ys ∧
      ∀ t ∈ xs.getLast?, ∀ c ∈ (textOf ys).head?, R t c := by
  induction xs with
  | nil => simp
  | cons t xs ih =>
    rw [List.cons_append, separatedBy_cons, separatedBy_cons, ih]
    cases xs with
    | nil => simp; tauto
    | cons u us =>
      have hhead : SeparatedBy R (u :: us) → ∀ zs, (textOf (u :: us ++ zs)).head? =
          (textOf (u :: us)).head? := by
        intro h zs
        have := h.1.text_ne_nil
        cases hu : u.text with
        | nil => exact absurd hu this
        | cons c more => simp [hu]
      rw [List.getLast?_cons_cons]
      constructor
      · rintro ⟨h1, h2, h3, h4, h5⟩
        exact ⟨⟨h1, by rwa [hhead h3] at h2, h3⟩, h4, h5⟩
      · rintro ⟨⟨h1, h2, h3⟩, h4, h5⟩
        exact ⟨h1, by rwa [hhead h3], h3, h4, h5⟩

end

/-- The lexer reads separated tokens back from their text. -/
theorem tokenize_textOf {ts : List Token} (h : Separated ts) : tokenize (textOf ts) = ts := by
  induction ts with
  | nil => simp
  | cons t ts ih => rw [textOf_cons, tokenize_token_append h.1 h.2.1, ih h.tail]

/-- The tokens of a text are separated. -/
theorem separated_tokenize (x : Text) : Separated (tokenize x) := by
  fun_induction tokenize x with
  | case1 => trivial
  | case2 c rest kind ih =>
    have happ := TokenKind.run_append kind c rest
    have hstart : TokenKind.ofStart c (kind.run c rest).1 = kind := by
      conv => rhs; rw [show kind = TokenKind.ofStart c rest from rfl, ← happ]
      rw [TokenKind.ofStart_append]
      intro hc hnil d hd
      -- A point before a digit would have started a number, and a number goes on with digits.
      by_contra hdigit
      have hrest : d ∈ rest.head? := by rw [← happ, hnil]; exact hd
      have hk : kind = .number := by
        cases rest with
        | nil => cases hrest
        | cons e rest =>
          obtain rfl : e = d := by simpa using hrest
          have he : e.isDigit = true := by simpa using hdigit
          simp [kind, TokenKind.ofStart, hc, he, Text.isBlank, Text.blankRanges]
      have hstop := kind.run_snd_stops c rest hd
      rw [hnil, hk] at hstop
      simp [TokenKind.continues, isWordChar, Char.isAlphanum] at hstop
      simp [hstop] at hdigit
    refine ⟨⟨c, (kind.run c rest).1, rfl, hstart, kind.run_fst c rest⟩, ?_, ih⟩
    intro d hd
    rw [textOf_tokenize] at hd
    refine ⟨?_, fun htext => ?_⟩
    · rw [List.getLastD_cons]
      exact kind.run_snd_stops c rest hd
    · obtain ⟨rfl, hnil⟩ : c = '.' ∧ (kind.run c rest).1 = [] := by simpa using htext
      rw [hnil, List.nil_append] at happ
      rw [happ] at hd
      cases rest with
      | nil => cases hd
      | cons e rest =>
        obtain rfl : e = d := by simpa using hd
        by_contra hdigit
        have he : e.isDigit = true := by simpa using hdigit
        have hk : kind = .number := by
          simp [kind, TokenKind.ofStart, he, Text.isBlank, Text.blankRanges]
        rw [hk] at hnil
        simp [TokenKind.run, TokenKind.continues, isWordChar, Char.isAlphanum, he] at hnil

theorem proper_tokenize {x : Text} : ∀ u ∈ tokenize x, u.Proper :=
  fun _ hu => (separated_tokenize x).proper hu

/-! ## Words, blanks and marks -/

/-- A letter or underscore and then letters, digits and underscores. -/
def isIdentifier : Text → Bool
  | [] => false
  | c :: more => (c.isAlpha || c = '_') && more.all isWordChar

/-- Whether a mark belongs to no token but itself, whatever stands around it. -/
def isCut (c : Char) : Bool :=
  !Text.isBlank c && !isWordChar c && !(c = '.' || c = '+' || c = '-')

namespace Token

/-- The token of an identifier. -/
def word (w : Text) : Token := ⟨.ident, w⟩

/-- The token of a single character. -/
def mark (c : Char) : Token := ⟨.punct, [c]⟩

/-- The token of some blanks. -/
def blank (w : Text) : Token := ⟨.space, w⟩

end Token

theorem isWordChar_of_isAlpha {c : Char} (h : (c.isAlpha || c = '_') = true) :
    isWordChar c = true := by
  simp only [isWordChar, Char.isAlphanum, Bool.or_eq_true] at h ⊢
  tauto

/-- The code points of letters. -/
theorem isAlpha_iff_toNat {c : Char} : c.isAlpha = true ↔
    (0x41 ≤ c.toNat ∧ c.toNat ≤ 0x5A) ∨ (0x61 ≤ c.toNat ∧ c.toNat ≤ 0x7A) := by
  have hupper : c.isUpper = decide (0x41 ≤ c.val ∧ c.val ≤ 0x5A) := rfl
  have hlower : c.isLower = (decide (0x61 ≤ c.val) && decide (c.val ≤ 0x7A)) := rfl
  have halpha : c.isAlpha = (c.isUpper || c.isLower) := rfl
  rw [halpha, hupper, hlower]
  simp only [Bool.or_eq_true, Bool.and_eq_true, decide_eq_true_eq, UInt32.le_iff_toNat_le]
  rfl

/-- The code points of words lie between those of `0` and `z`. -/
theorem toNat_of_isWordChar {c : Char} (h : isWordChar c = true) :
    0x30 ≤ c.toNat ∧ c.toNat ≤ 0x7A := by
  simp only [isWordChar, Char.isAlphanum, Bool.or_eq_true, isAlpha_iff_toNat,
    Char.isDigit_iff_toNat, Char.reduceToNat, decide_eq_true_eq] at h
  rcases h with (h | h) | rfl
  · omega
  · omega
  · decide

/-- No blank belongs to a word. -/
theorem isBlank_of_isWordChar {c : Char} (h : isWordChar c = true) : Text.isBlank c = false := by
  have hc := toNat_of_isWordChar h
  simp only [Text.isBlank, Text.blankRanges, List.any_cons, List.any_nil, Bool.or_false,
    Bool.or_eq_false_iff, Bool.and_eq_false_iff, decide_eq_false_iff_not]
  omega

theorem isIdentifier_cons {c : Char} {more : Text} :
    isIdentifier (c :: more) = true ↔
      (c.isAlpha || c = '_') = true ∧ more.all isWordChar = true := by
  simp [isIdentifier]

namespace TokenKind

theorem ofStart_of_isAlpha {c : Char} (h : (c.isAlpha || c = '_') = true) (rest : Text) :
    ofStart c rest = .ident := by
  simp only [ofStart, isBlank_of_isWordChar (isWordChar_of_isAlpha h), h]
  rfl

theorem ofStart_of_isBlank {c : Char} (h : Text.isBlank c = true) (rest : Text) :
    ofStart c rest = .space := by
  simp [ofStart, h]

theorem ofStart_of_isCut {c : Char} (h : isCut c = true) (rest : Text) :
    ofStart c rest = .punct := by
  simp only [isCut, isWordChar, Char.isAlphanum, Bool.and_eq_true, Bool.not_eq_true',
    Bool.or_eq_false_iff] at h
  simp [ofStart, h]

theorem continues_of_isCut {c : Char} (h : isCut c = true) (kind : TokenKind) (before : Char) :
    kind.continues before c = false := by
  simp only [isCut, Bool.and_eq_true, Bool.not_eq_true', Bool.or_eq_false_iff] at h
  cases kind <;> simp [continues, h]

theorem run_of_all {kind : TokenKind} {t : Text} (h : ∀ before, ∀ c ∈ t, kind.continues before c)
    (before : Char) : kind.run before t = (t, []) := by
  induction t generalizing before with
  | nil => rfl
  | cons c t ih =>
    rw [run_cons_of_continues (h before c List.mem_cons_self),
      ih fun b d hd => h b d (List.mem_cons_of_mem c hd)]

end TokenKind

namespace Token

theorem proper_word {w : Text} (h : isIdentifier w = true) : (word w).Proper := by
  cases w with
  | nil => cases h
  | cons c more =>
    obtain ⟨hc, hmore⟩ := isIdentifier_cons.mp h
    refine ⟨c, more, rfl, TokenKind.ofStart_of_isAlpha hc more, TokenKind.run_of_all ?_ c⟩
    intro _ d hd
    exact List.all_eq_true.mp hmore d hd

theorem isBlank_of_mem_space {c : Char} (h : c ∈ [' ']) : Text.isBlank c = true := by
  rw [List.mem_singleton.mp h]
  decide

theorem proper_blank {w : Text} (hw : w ≠ []) (h : ∀ c ∈ w, Text.isBlank c = true) :
    (blank w).Proper := by
  cases w with
  | nil => exact absurd rfl hw
  | cons c more =>
    refine ⟨c, more, rfl, TokenKind.ofStart_of_isBlank (h c List.mem_cons_self) more,
      TokenKind.run_of_all ?_ c⟩
    intro _ d hd
    exact h d (List.mem_cons_of_mem c hd)

theorem proper_mark {c : Char} (h : isCut c = true) : (mark c).Proper :=
  ⟨c, [], rfl, TokenKind.ofStart_of_isCut h [], rfl⟩

theorem endsAt_of_isCut {c : Char} (h : isCut c = true) (t : Token) : t.EndsAt c := by
  refine ⟨TokenKind.continues_of_isCut h t.kind _, fun _ => ?_⟩
  simp only [isCut, isWordChar, Char.isAlphanum, Bool.and_eq_true, Bool.not_eq_true',
    Bool.or_eq_false_iff] at h
  exact h.1.2.1.2

/-- A mark is in no token but its own. -/
theorem Proper.text_eq_of_mem {t : Token} (ht : t.Proper) {c : Char} (h : isCut c = true)
    (hmem : c ∈ t.text) : t.text = [c] := by
  obtain ⟨d, more, hcons, hkind, hrun⟩ := ht
  rw [hcons] at hmem ⊢
  rcases List.mem_cons.mp hmem with rfl | hmore
  · rw [TokenKind.ofStart_of_isCut h] at hkind
    cases more with
    | nil => rfl
    | cons e more =>
      rw [← hkind, TokenKind.run_cons_of_stops rfl] at hrun
      cases hrun
  · obtain ⟨b, hb⟩ := TokenKind.continues_of_run hrun hmore
    rw [TokenKind.continues_of_isCut h] at hb
    cases hb

theorem mark_endsAt {c : Char} (h : c ≠ '.') (d : Char) : (mark c).EndsAt d :=
  ⟨rfl, fun hc => absurd (by simpa [mark] using hc) h⟩

theorem word_endsAt {w : Text} (hw : isIdentifier w = true) {c : Char} :
    (word w).EndsAt c ↔ isWordChar c = false := by
  refine ⟨fun h => h.1, fun h => ⟨h, fun hdot => ?_⟩⟩
  rw [show w = ['.'] from hdot] at hw
  exact absurd hw (by decide)

theorem blank_endsAt {w : Text} (hw : ∀ c ∈ w, Text.isBlank c = true) {c : Char} :
    (blank w).EndsAt c ↔ Text.isBlank c = false := by
  refine ⟨fun h => h.1, fun h => ⟨h, fun hdot => ?_⟩⟩
  have := hw '.' (by rw [show w = ['.'] from hdot]; exact List.mem_singleton_self _)
  exact absurd this (by decide)

theorem isDigit_of_isAlpha {c : Char} (h : (c.isAlpha || c = '_') = true) :
    c.isDigit = false := by
  by_contra hd
  simp only [Bool.not_eq_false, Char.isDigit_iff_toNat, Char.reduceToNat] at hd
  simp only [Bool.or_eq_true, isAlpha_iff_toNat, decide_eq_true_eq] at h
  rcases h with h | rfl
  · omega
  · exact absurd hd (by decide)

/-- A token that ends before one name ends before every name. -/
theorem EndsAt.of_isAlpha {t : Token} {c c' : Char} (h : t.EndsAt c)
    (hc : (c.isAlpha || c = '_') = true) (hc' : (c'.isAlpha || c' = '_') = true) :
    t.EndsAt c' := by
  have hword := isWordChar_of_isAlpha hc
  have hword' := isWordChar_of_isAlpha hc'
  refine ⟨?_, fun _ => isDigit_of_isAlpha hc'⟩
  have hends := h.1
  cases hkind : t.kind with
  | ident =>
    rw [hkind, TokenKind.continues, hword] at hends
    cases hends
  | number =>
    rw [hkind] at hends
    simp [TokenKind.continues, hword] at hends
  | space => exact isBlank_of_isWordChar hword'
  | punct => rfl

end Token

/-! ## Cutting a text -/

/-- A mark that belongs to no other token cuts the tokens of a text in two. -/
theorem tokenize_append_mark {c : Char} (h : isCut c = true) (x y : Text) :
    tokenize (x ++ c :: y) = tokenize x ++ mark c :: tokenize y := by
  have hdot : c ≠ '.' := by rintro rfl; exact absurd h (by decide)
  have hright : Separated (mark c :: tokenize y) :=
    ⟨proper_mark h, fun d _ => mark_endsAt hdot d, separated_tokenize y⟩
  have hsep : Separated (tokenize x ++ mark c :: tokenize y) := by
    refine separatedBy_append.mpr ⟨separated_tokenize x, hright, fun t _ d hd => ?_⟩
    obtain rfl : c = d := by simpa [mark] using hd
    exact endsAt_of_isCut h t
  have htext : textOf (tokenize x ++ mark c :: tokenize y) = x ++ c :: y := by
    simp [mark]
  rw [← htext, tokenize_textOf hsep]

theorem tokenize_mark {c : Char} (h : isCut c = true) (y : Text) :
    tokenize (c :: y) = mark c :: tokenize y := by
  simpa using tokenize_append_mark h [] y

/-- A text that ends with such a mark keeps its tokens whatever follows. -/
theorem tokenize_append_of_mark {c : Char} (h : isCut c = true) (x y : Text) :
    tokenize (x ++ [c] ++ y) = tokenize (x ++ [c]) ++ tokenize y := by
  rw [List.append_assoc, List.singleton_append, tokenize_append_mark h, tokenize_append_mark h]
  simp

theorem tokenize_word {w : Text} (h : isIdentifier w = true) {x : Text}
    (hx : ∀ c ∈ x.head?, isWordChar c = false) : tokenize (w ++ x) = word w :: tokenize x :=
  tokenize_token_append (proper_word h) fun c hc => (word_endsAt h).mpr (hx c hc)

theorem tokenize_of_isIdentifier {w : Text} (h : isIdentifier w = true) :
    tokenize w = [word w] := by
  have htokens := @tokenize_word w h [] (by simp)
  simpa using htokens

theorem tokenize_blank {w : Text} (hw : w ≠ []) (h : ∀ c ∈ w, Text.isBlank c = true) {x : Text}
    (hx : ∀ c ∈ x.head?, Text.isBlank c = false) : tokenize (w ++ x) = blank w :: tokenize x :=
  tokenize_token_append (proper_blank hw h) fun c hc => (blank_endsAt h).mpr (hx c hc)

end Texelwise

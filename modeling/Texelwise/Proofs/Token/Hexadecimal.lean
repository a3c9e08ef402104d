import Texelwise.Proofs.Token.Munch

/-!
# Signs behind hexadecimal literals

A sign directly after `e` or `E` belongs to a number, as in `1e-3`. In a hexadecimal literal these
two are digits, but the lexer takes a sign after them all the same. Behind any other digit the sign
is a token of its own.

* `IsHexadecimal`: the literals; `EndsInExponent`: those whose last digit is `e` or `E`.
* `tokenize_append_sign`: behind any other literal the sign is a token, and the tokens go on after
  it as if nothing stood before.
* `tokenize_exponent_sign`: behind the rest the sign and what follows it go into the literal.
* `take_tokenize_sign_iff`: both together.
-/

namespace Texelwise

open Token

/-! ## Literals -/

/-- A digit of base 16. -/
def isHexDigit (c : Char) : Bool :=
  c.isDigit || ('a' ≤ c && c ≤ 'f') || ('A' ≤ c && c ≤ 'F')

/-- `0x` and one digit or more. -/
def IsHexadecimal (h : Text) : Prop :=
  ∃ digits, h = '0' :: 'x' :: digits ∧ digits ≠ [] ∧ ∀ c ∈ digits, isHexDigit c = true

/-- The last character is one after which a number goes on with a sign. -/
def EndsInExponent (h : Text) : Prop := h.getLast? = some 'e' ∨ h.getLast? = some 'E'

instance (h : Text) : Decidable (EndsInExponent h) := inferInstanceAs (Decidable (_ ∨ _))

/-- A plus or a minus. -/
def IsSign (s : Char) : Prop := s = '+' ∨ s = '-'

/-- The token of a number. -/
def Token.number (w : Text) : Token := ⟨.number, w⟩

theorem isWordChar_of_isHexDigit {c : Char} (h : isHexDigit c = true) : isWordChar c = true := by
  simp only [isHexDigit, Bool.or_eq_true, Bool.and_eq_true, decide_eq_true_eq, Char.le_def,
    UInt32.le_iff_toNat_le] at h
  have hletter : c.isDigit = true ∨ c.isAlpha = true := by
    rcases h with (hdigit | hlower) | hupper
    · exact .inl hdigit
    · exact .inr (isAlpha_iff_toNat.mpr (.inr ⟨hlower.1, Nat.le_trans hlower.2 (by decide)⟩))
    · exact .inr (isAlpha_iff_toNat.mpr (.inl ⟨hupper.1, Nat.le_trans hupper.2 (by decide)⟩))
  rcases hletter with hdigit | halpha
  · simp [isWordChar, Char.isAlphanum, hdigit]
  · simp [isWordChar, Char.isAlphanum, halpha]

section

variable {h : Text} {s : Char}

/-- The lexer reads a literal as one number, through letters and digits alone. -/
theorem IsHexadecimal.exists_run (hh : IsHexadecimal h) :
    ∃ more, h = '0' :: more ∧ ∀ c ∈ more, isWordChar c = true := by
  obtain ⟨digits, rfl, -, hdigits⟩ := hh
  refine ⟨'x' :: digits, rfl, fun c hc => ?_⟩
  rcases List.mem_cons.mp hc with rfl | hc
  · decide
  · exact isWordChar_of_isHexDigit (hdigits c hc)

theorem run_number_of_word {more : Text} (h : ∀ c ∈ more, isWordChar c = true) (before : Char) :
    TokenKind.number.run before more = (more, []) :=
  TokenKind.run_of_all (fun _ c hc => by simp [TokenKind.continues, h c hc]) before

theorem IsHexadecimal.proper (hh : IsHexadecimal h) : (number h).Proper := by
  obtain ⟨more, rfl, hmore⟩ := hh.exists_run
  exact ⟨'0', more, rfl, rfl, run_number_of_word hmore '0'⟩

theorem IsSign.proper (hs : IsSign s) : (mark s).Proper := by
  rcases hs with rfl | rfl
  · exact ⟨'+', [], rfl, by decide, rfl⟩
  · exact ⟨'-', [], rfl, by decide, rfl⟩

theorem IsSign.ne_point (hs : IsSign s) : s ≠ '.' := by
  rcases hs with rfl | rfl <;> decide

/-- A number goes on with a sign only after `e` or `E`. -/
theorem IsSign.continues_iff (hs : IsSign s) {before : Char} :
    TokenKind.number.continues before s = true ↔ before = 'e' ∨ before = 'E' := by
  have hword : isWordChar s = false := by rcases hs with rfl | rfl <;> decide
  have hpoint := hs.ne_point
  have hsign : s = '+' ∨ s = '-' := hs
  simp [TokenKind.continues, hword, hpoint, hsign]

theorem IsHexadecimal.ne_nil (hh : IsHexadecimal h) : h ≠ [] := by
  obtain ⟨digits, rfl, -⟩ := hh
  exact List.cons_ne_nil _ _

theorem endsInExponent_iff (hne : h ≠ []) (d : Char) :
    EndsInExponent h ↔ h.getLastD d = 'e' ∨ h.getLastD d = 'E' := by
  simp [EndsInExponent, List.getLastD_eq_getLast?, List.getLast?_eq_some_getLast hne]

/-- A literal ends before a sign unless its last digit is `e` or `E`. -/
theorem IsHexadecimal.endsAt_iff (hh : IsHexadecimal h) (hs : IsSign s) :
    (number h).EndsAt s ↔ ¬EndsInExponent h := by
  rw [endsInExponent_iff hh.ne_nil s, ← hs.continues_iff, Bool.not_eq_true]
  refine ⟨fun hends => hends.1, fun hstops => ⟨hstops, fun hpoint => ?_⟩⟩
  obtain ⟨digits, rfl, -⟩ := hh
  cases hpoint

/-! ## Tokens behind a literal -/

/-- Behind a literal that ends before it the sign is a token, and so are what stands before and
after. -/
theorem tokenize_append_sign (hh : IsHexadecimal h) (hs : IsSign s) (hend : ¬EndsInExponent h)
    {x : Text} (hx : tokenize (x ++ h) = tokenize x ++ [number h]) (t : Text) :
    tokenize (x ++ (h ++ s :: t)) = tokenize x ++ number h :: mark s :: tokenize t := by
  have hleft : Separated (tokenize x ++ [number h]) := by
    rw [← hx]
    exact separated_tokenize _
  have hright : Separated (mark s :: tokenize t) :=
    ⟨hs.proper, fun d _ => mark_endsAt hs.ne_point d, separated_tokenize t⟩
  have hsep : Separated ((tokenize x ++ [number h]) ++ mark s :: tokenize t) := by
    refine separatedBy_append.mpr ⟨hleft, hright, fun u hu c hc => ?_⟩
    obtain rfl : number h = u := by simpa using hu
    obtain rfl : s = c := by simpa [mark] using hc
    exact (hh.endsAt_iff hs).mpr hend
  have htext : textOf ((tokenize x ++ [number h]) ++ mark s :: tokenize t) =
      x ++ (h ++ s :: t) := by
    simp [mark, number]
  rw [← htext, tokenize_textOf hsep]
  simp

theorem IsHexadecimal.tokenize_eq (hh : IsHexadecimal h) : tokenize h = [number h] := by
  have hsep : Separated [number h] := ⟨hh.proper, by simp, trivial⟩
  have htokens := tokenize_textOf hsep
  simpa [number] using htokens

/-- A run goes over a part that it takes and then on from its last character. -/
theorem TokenKind.run_append_run {kind : TokenKind} {before : Char} {t : Text}
    (ht : kind.run before t = (t, [])) (u : Text) :
    kind.run before (t ++ u) =
      (t ++ (kind.run (t.getLastD before) u).1, (kind.run (t.getLastD before) u).2) := by
  induction t generalizing before with
  | nil => rfl
  | cons c t ih =>
    obtain ⟨hc, hchain⟩ := List.isChain_cons_cons.mp (run_eq_self_iff.mp ht)
    rw [List.cons_append, run_cons_of_continues hc, ih (run_eq_self_iff.mpr hchain),
      List.getLastD_cons]
    rfl

/-- Behind any other literal the sign goes into its token, and what can follow it there does,
too. -/
theorem tokenize_exponent_sign (hh : IsHexadecimal h) (hs : IsSign s) (hend : EndsInExponent h)
    (t : Text) : tokenize (h ++ s :: t) =
      number (h ++ s :: (TokenKind.number.run s t).1) ::
        tokenize (TokenKind.number.run s t).2 := by
  rw [endsInExponent_iff hh.ne_nil s, ← hs.continues_iff] at hend
  obtain ⟨more, rfl, hmore⟩ := hh.exists_run
  rw [List.getLastD_cons] at hend
  have hkind : TokenKind.ofStart '0' (more ++ s :: t) = .number := rfl
  rw [List.cons_append, tokenize]
  simp only [hkind, TokenKind.run_append_run (run_number_of_word hmore '0'),
    TokenKind.run_cons_of_continues hend]
  rfl

/-- The first two tokens are the literal and the sign exactly behind a literal whose last digit is
neither `e` nor `E`. -/
theorem take_tokenize_sign_iff (hh : IsHexadecimal h) (hs : IsSign s) (t : Text) :
    (tokenize (h ++ s :: t)).take 2 = [number h, mark s] ↔ ¬EndsInExponent h := by
  constructor
  · intro htake hend
    rw [tokenize_exponent_sign hh hs hend, List.take_succ_cons, List.cons_eq_cons] at htake
    have htext := congrArg (List.length ∘ Token.text) htake.1
    simp [number] at htext
  · intro hend
    have htokens := tokenize_append_sign hh hs hend (x := []) (by simpa using hh.tokenize_eq) t
    rw [List.nil_append, tokenize_nil, List.nil_append] at htokens
    rw [htokens]
    rfl

end

end Texelwise

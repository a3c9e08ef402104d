import Texelwise.Proofs.Expansion.Merge

/-!
# Written declarations

A declaration in a program is `uniform <type> <name>;` with blanks between. This module reads such
text with the patterns of the compiler.

* `declarationText`: a declaration with its blanks; `tokenize_declarationText`.
* `Accepts`: what a type pattern makes of a word.
* `Sweep.Turns.declaration`: what a sweep for declarations gives on such text.
-/

namespace Texelwise

open Token

/-- Nothing but blanks. -/
def Blank (w : Text) : Prop := ∀ c ∈ w, Text.isBlank c = true

instance (w : Text) : Decidable (Blank w) :=
  List.decidableBAll (fun c => Text.isBlank c = true) w

/-- The token of some blanks, if there are any. -/
def blanks (w : Text) : List Token := if w = [] then [] else [blank w]

theorem gap_blanks (w : Text) : Gap (blanks w) := by
  unfold blanks
  split
  · exact .none
  · exact .blank rfl

theorem textOf_blanks (w : Text) : textOf (blanks w) = w := by
  unfold blanks
  split
  · subst_vars
    rfl
  · simp [blank]

theorem proper_blanks {w : Text} (hw : Blank w) : ∀ u ∈ blanks w, u.Proper := by
  intro u hu
  unfold blanks at hu
  split at hu
  · cases hu
  · rw [List.mem_singleton.mp hu]
    exact proper_blank ‹_› hw

theorem tokenize_blanks {w : Text} (hw : Blank w) {x : Text}
    (hx : ∀ c ∈ x.head?, Text.isBlank c = false) : tokenize (w ++ x) = blanks w ++ tokenize x := by
  unfold blanks
  split
  · subst_vars
    rfl
  · exact tokenize_blank ‹_› hw hx

theorem head_of_isIdentifier {w : Text} (h : isIdentifier w = true) (x : Text) :
    ∀ c ∈ (w ++ x).head?, Text.isBlank c = false := by
  cases w with
  | nil => cases h
  | cons d more =>
    intro c hc
    obtain rfl : d = c := by simpa using hc
    exact isBlank_of_isWordChar (isWordChar_of_isAlpha (isIdentifier_cons.mp h).1)

theorem isWordChar_head_of_blank {w : Text} (hw : Blank w) (hne : w ≠ []) (x : Text) :
    ∀ c ∈ (w ++ x).head?, isWordChar c = false := by
  cases w with
  | nil => exact absurd rfl hne
  | cons d more =>
    intro c hc
    obtain rfl : d = c := by simpa using hc
    have hd := hw d List.mem_cons_self
    by_contra hword
    rw [isBlank_of_isWordChar (by simpa using hword)] at hd
    cases hd

/-- A word, blanks and a mark. -/
theorem tokenize_word_blanks_mark {n b : Text} {c : Char} (hn : isIdentifier n = true)
    (hb : Blank b) (hc : isCut c = true) (x : Text) :
    tokenize (n ++ (b ++ c :: x)) = word n :: (blanks b ++ mark c :: tokenize x) := by
  have hcut := hc
  simp only [isCut, Bool.and_eq_true, Bool.not_eq_true'] at hcut
  have hhead : ∀ d ∈ (b ++ c :: x).head?, isWordChar d = false := by
    by_cases hne : b = []
    · subst hne
      intro d hd
      obtain rfl : c = d := by simpa using hd
      exact hcut.1.2
    · exact isWordChar_head_of_blank hb hne _
  rw [tokenize_word hn hhead, tokenize_blanks hb, tokenize_mark hc]
  intro d hd
  obtain rfl : c = d := by simpa using hd
  exact hcut.1.1

/-! ## Text of declarations -/

/-- The text `uniform <type> <name>;` with these blanks. -/
def declarationText (type name afterUniform afterType afterName : Text) : Text :=
  uniformWord ++ (afterUniform ++ (type ++ (afterType ++ (name ++ (afterName ++ [';'])))))

/-- Its tokens. -/
def declarationTokens (type name afterUniform afterType afterName : Text) : List Token :=
  word uniformWord :: blank afterUniform :: word type :: blank afterType :: word name ::
    (blanks afterName ++ [mark ';'])

section

variable {type name afterUniform afterType afterName : Text}
  (htype : isIdentifier type = true) (hname : isIdentifier name = true)
  (hu : Blank afterUniform) (hune : afterUniform ≠ []) (ht : Blank afterType)
  (htne : afterType ≠ []) (hn : Blank afterName)

include htype hname hu hune ht htne hn

theorem tokenize_declarationText :
    tokenize (declarationText type name afterUniform afterType afterName) =
      declarationTokens type name afterUniform afterType afterName := by
  unfold declarationText declarationTokens
  rw [tokenize_word (by decide) (isWordChar_head_of_blank hu hune _),
    tokenize_blank hune hu (head_of_isIdentifier htype _),
    tokenize_word htype (isWordChar_head_of_blank ht htne _),
    tokenize_blank htne ht (head_of_isIdentifier hname _),
    tokenize_word_blanks_mark hname hn (by decide), tokenize_nil]

end

/-! ## Reading declarations -/

/-- What a type pattern makes of a word; at a mark it stops. -/
structure Accepts (type : Pattern) (accept : Text → Option (List Text)) : Prop where
  word : ∀ w zs, type.read? (word w :: zs) = (accept w).map fun cs => (cs, zs)
  mark : ∀ c zs, isCut c = true → type.read? (mark c :: zs) = none

theorem accepts_literal {w : Text} (hw : isIdentifier w = true) :
    Accepts (.literal w) fun v => if v = w then some [] else none := by
  refine ⟨fun v zs => ?_, fun c zs hc => ?_⟩
  · rw [Pattern.read?_literal]
    by_cases hv : v = w
    · simp [next?, word, hv]
    · simp [next?, word, hv]
  · have hne : [c] ≠ w := by
      rintro rfl
      have hword := List.all_eq_true.mp (all_of_isIdentifier hw) c (List.mem_singleton_self c)
      simp [isCut, hword] at hc
    rw [Pattern.read?_literal]
    simp [next?, Token.mark, hne]

theorem accepts_alphanumeric :
    Accepts (.group .alphanumeric) fun v => some [v] := by
  refine ⟨fun v zs => ?_, fun c zs _ => ?_⟩
  · rw [Pattern.read?_group_alphanumeric]
    simp [next?, word]
  · rw [Pattern.read?_group_alphanumeric]
    simp [next?, Token.mark]

section

variable {type : Pattern} {accept : Text → Option (List Text)}

theorem declaration_eq (type : Pattern) : Pattern.declaration type =
    .literal uniformWord ++ (.spaceMandated ++ (type ++ (.spaceMandated ++
      (.group .alphanumeric ++ (.spaceOptional ++ .mark ';'))))) := by
  unfold Pattern.declaration
  simp only [Pattern.append_assoc]
  rfl

theorem consumes_declaration (type : Pattern) : (Pattern.declaration type).Consumes = true := by
  rw [declaration_eq]
  rfl

theorem read?_declaration_of_ne {t : Token} (h : t.text ≠ uniformWord) (ts : List Token) :
    (Pattern.declaration type).read? (t :: ts) = none := by
  rw [declaration_eq]
  exact Pattern.read?_literal_of_ne h _

theorem read?_declaration_uniform (ts : List Token) :
    (Pattern.declaration type).read? (word uniformWord :: ts) =
      (Pattern.spaceMandated ++ (type ++ (.spaceMandated ++
        (.group .alphanumeric ++ (.spaceOptional ++ .mark ';'))))).read? ts := by
  rw [declaration_eq, Pattern.read?_append, Pattern.read?_literal]
  simp [next?, word]

theorem read?_spaceMandated_blank (q : Pattern) (w : Text) (ts : List Token) :
    (Pattern.spaceMandated ++ q).read? (blank w :: ts) = q.read? ts := by
  rw [Pattern.read?_append, Pattern.read?_spaceMandated]
  simp [next?, blank]

theorem read?_spaceMandated_mark (q : Pattern) (c : Char) (ts : List Token) :
    (Pattern.spaceMandated ++ q).read? (mark c :: ts) = none := by
  rw [Pattern.read?_append, Pattern.read?_spaceMandated]
  simp [next?, mark]

theorem read?_group_alphanumeric_append (q : Pattern) (w : Text) (ts : List Token) :
    (Pattern.group .alphanumeric ++ q).read? (word w :: ts) =
      (q.read? ts).map fun (cs, rest) => (w :: cs, rest) := by
  rw [Pattern.read?_append, Pattern.read?_group_alphanumeric]
  simp [next?, word]

/-- A declaration is read where its type is accepted. -/
theorem read?_declarationTokens (htype : Accepts type accept) (w name afterUniform afterType : Text)
    {afterName : Text} (hn : Blank afterName) {zs : List Token} (hzs : ∀ u ∈ zs, u.Proper) :
    (Pattern.declaration type).read?
        (declarationTokens w name afterUniform afterType afterName ++ zs) =
      (accept w).map fun cs => (cs ++ [name], zs) := by
  have hproper : ∀ u ∈ blanks afterName ++ mark ';' :: zs, u.Proper := by
    intro u hu
    simp only [List.mem_append, List.mem_cons] at hu
    rcases hu with hu | rfl | hu
    · exact proper_blanks hn u hu
    · exact proper_mark (by decide)
    · exact hzs u hu
  have hend : (Pattern.spaceOptional ++ Pattern.mark ';').read?
      (blanks afterName ++ mark ';' :: zs) = some ([], zs) := by
    rw [Pattern.read?_spaceOptional_mark hproper (by decide),
      afterMark?_eq_some_iff.mpr ⟨_, gap_blanks afterName, rfl⟩]
    rfl
  have htokens : declarationTokens w name afterUniform afterType afterName ++ zs =
      word uniformWord :: blank afterUniform :: word w :: blank afterType :: word name ::
        (blanks afterName ++ mark ';' :: zs) := by simp [declarationTokens]
  rw [htokens, read?_declaration_uniform, read?_spaceMandated_blank, Pattern.read?_append,
    htype.word]
  cases accept w with
  | none => rfl
  | some cs =>
    simp only [Option.map_some, Option.bind_some]
    rw [read?_spaceMandated_blank, read?_group_alphanumeric_append, hend]
    simp

end

/-! ## Sweeps for declarations -/

theorem declarationText_eq (w name afterUniform afterType afterName : Text) :
    declarationText w name afterUniform afterType afterName =
      uniformWord ++ (afterUniform ++ (w ++ (afterType ++ (name ++ afterName)))) ++ [';'] := by
  simp [declarationText]

theorem ne_uniformWord_of_blank {w : Text} (hw : Blank w) : w ≠ uniformWord := by
  rintro rfl
  exact absurd (hw 'u' (by decide)) (by decide)

theorem ne_uniformWord_of_mem_blanks {w : Text} (hw : Blank w) {u : Token} (hu : u ∈ blanks w) :
    u.text ≠ uniformWord := by
  unfold blanks at hu
  split at hu
  · cases hu
  · rw [List.mem_singleton.mp hu]
    exact ne_uniformWord_of_blank hw

theorem ne_uniformWord_of_not_mem {c : Char} (hc : c ∈ uniformWord) {x : Text} (h : c ∉ x)
    {u : Token} (hu : u ∈ tokenize x) : u.text ≠ uniformWord := by
  intro htext
  exact h (mem_of_mem_tokenize hu (by rw [htext]; exact hc))

section

variable {β : Type} {s : Sweep β} {type : Pattern} (hs : s.pattern = .declaration type)

include hs

theorem Sweep.Turns.declaration_blank {w : Text} (hw : Blank w) : s.Turns w (w.flatMap s.keep) := by
  refine Sweep.Turns.blank (fun t ts hp hspace => ?_) hw
  have hne : t.text ∉ askedWords := not_mem_askedWords_of_isSpace (hp t List.mem_cons_self) hspace
  rw [hs]
  refine read?_declaration_of_ne (fun htext => hne ?_) ts
  rw [htext]
  decide

theorem Sweep.along_of_ne_uniformWord {us : List Token} (h : ∀ u ∈ us, u.text ≠ uniformWord)
    (zs : List Token) : s.along (us ++ zs) = (textOf us).flatMap s.keep ++ s.along zs := by
  refine Sweep.along_append zs fun pre t post heq => ?_
  rw [hs]
  exact read?_declaration_of_ne (h t (by rw [heq]; simp)) _

/-- A text without the word `uniform` that ends with a mark is kept. -/
theorem Sweep.Turns.declaration_keep {x : Text} {c : Char} (hc : isCut c = true)
    (h : ∀ u ∈ tokenize (x ++ [c]), u.text ≠ uniformWord) :
    s.Turns (x ++ [c]) ((x ++ [c]).flatMap s.keep) := by
  refine Sweep.Turns.of_tokens hc fun zs _ => ?_
  rw [Sweep.along_of_ne_uniformWord hs h, textOf_tokenize]

section

variable {accept : Text → Option (List Text)} (htype : Accepts type accept)

include htype

/-- At a word with a mark after it no declaration starts, as there is no type. -/
theorem Sweep.along_before_mark (name : Text) {b : Text} (hb : Blank b) {c : Char}
    (hc : isCut c = true) (zs : List Token) :
    s.along (word name :: (blanks b ++ mark c :: zs)) =
      (name ++ (b ++ [c])).flatMap s.keep ++ s.along zs := by
  have hnone : s.pattern.read? (word name :: (blanks b ++ mark c :: zs)) = none := by
    rw [hs]
    by_cases huniform : name = uniformWord
    · rw [huniform, read?_declaration_uniform]
      unfold blanks
      split
      · exact read?_spaceMandated_mark _ c zs
      · rw [List.singleton_append, read?_spaceMandated_blank, Pattern.read?_append,
          htype.mark c _ hc]
        rfl
    · exact read?_declaration_of_ne huniform _
  have hback : ∀ u ∈ blanks b ++ [mark c], u.text ≠ uniformWord := by
    intro u hu
    rcases List.mem_append.mp hu with hu | hu
    · exact ne_uniformWord_of_mem_blanks hb hu
    · rw [List.mem_singleton.mp hu]
      intro heq
      have hlength : 1 = uniformWord.length := congrArg List.length heq
      exact absurd hlength (by decide)
  have hsplit : blanks b ++ mark c :: zs = blanks b ++ [mark c] ++ zs := by simp
  rw [Sweep.along_keep hnone, hsplit, Sweep.along_of_ne_uniformWord hs hback, textOf_append,
    textOf_blanks]
  simp [word, mark]

section

variable {w name afterUniform afterType afterName : Text} (hw : isIdentifier w = true)
  (hname : isIdentifier name = true) (hu : Blank afterUniform) (hune : afterUniform ≠ [])
  (ht : Blank afterType) (htne : afterType ≠ []) (hn : Blank afterName)

include hw hname hu hune ht htne hn

/-- A declaration of a type that is accepted is found. -/
theorem Sweep.Turns.declaration_found {cs : List Text} (haccept : accept w = some cs) :
    s.Turns (declarationText w name afterUniform afterType afterName)
      (s.found ⟨declarationTokens w name afterUniform afterType afterName, cs ++ [name]⟩) := by
  have htokens := tokenize_declarationText hw hname hu hune ht htne hn
  rw [declarationText_eq] at htokens ⊢
  refine Sweep.Turns.of_tokens (by decide) fun zs hzs => ?_
  have hread : s.pattern.read? (declarationTokens w name afterUniform afterType afterName ++ zs) =
      some (cs ++ [name], zs) := by
    rw [hs, read?_declarationTokens htype w name afterUniform afterType hn hzs, haccept,
      Option.map_some]
  obtain ⟨taken, happ, hover⟩ :=
    Sweep.exists_along_found (by rw [hs]; exact consumes_declaration type) hread
  rw [htokens, hover, List.append_cancel_right happ]

/-- A declaration of another type is kept: none starts at a later token of it. -/
theorem Sweep.Turns.declaration_kept (hwne : w ≠ uniformWord) (haccept : accept w = none) :
    s.Turns (declarationText w name afterUniform afterType afterName)
      ((declarationText w name afterUniform afterType afterName).flatMap s.keep) := by
  have htokens := tokenize_declarationText hw hname hu hune ht htne hn
  rw [declarationText_eq] at htokens ⊢
  refine Sweep.Turns.of_tokens (by decide) fun zs hzs => ?_
  have hnone : s.pattern.read?
      (declarationTokens w name afterUniform afterType afterName ++ zs) = none := by
    rw [hs, read?_declarationTokens htype w name afterUniform afterType hn hzs, haccept,
      Option.map_none]
  have hinside : ∀ u ∈ [Token.blank afterUniform, word w, Token.blank afterType],
      u.text ≠ uniformWord := by
    simp only [List.forall_mem_cons, List.not_mem_nil, false_imp_iff, implies_true, and_true]
    exact ⟨ne_uniformWord_of_blank hu, hwne, ne_uniformWord_of_blank ht⟩
  have hsplit : declarationTokens w name afterUniform afterType afterName ++ zs =
      word uniformWord :: ([Token.blank afterUniform, word w, Token.blank afterType] ++
        word name :: (blanks afterName ++ mark ';' :: zs)) := by
    simp [declarationTokens]
  rw [hsplit] at hnone
  rw [htokens, hsplit, Sweep.along_keep hnone, Sweep.along_of_ne_uniformWord hs hinside,
    Sweep.along_before_mark hs htype name hn (by decide)]
  simp [word, Token.blank]

/-- A declaration is found if its type is accepted and kept otherwise. -/
theorem Sweep.Turns.declaration (hwne : w ≠ uniformWord) :
    s.Turns (declarationText w name afterUniform afterType afterName)
      (match accept w with
        | some cs =>
          s.found ⟨declarationTokens w name afterUniform afterType afterName, cs ++ [name]⟩
        | none => (declarationText w name afterUniform afterType afterName).flatMap s.keep) := by
  cases haccept : accept w with
  | some cs => exact declaration_found hs htype hw hname hu hune ht htne hn haccept
  | none => exact declaration_kept hs htype hw hname hu hune ht htne hn hwne haccept

end

end

end

end Texelwise

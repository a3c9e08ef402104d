import Mathlib.Data.List.TakeWhile
import Texelwise.Kernel.BufferAccess
import Texelwise.Proofs.Token.Block

/-!
# The tokens of a sample

A read becomes a call of calls. Here is that text as tokens, built from calls, so that what holds
of a call and its arguments holds of a sample and its indices.

* `Clean`: tokens that are balanced and that the lexer reads.
* `call`: a function with its arguments; `Clean.call`: calls of clean arguments are clean.
* `trimBlanks`: the tokens of a trimmed text.
* `sampleTokens`: the tokens of a sample; `textOf_sampleTokens` says that they are its text, and
  `infix_sampleTokens` that the indices stand in it.
-/

namespace Texelwise

open Token

/-! ## Clean tokens -/

namespace Token

theorem Proper.kind_eq {t : Token} {c : Char} (h : t.Proper) (ht : t.text = [c]) :
    t.kind = TokenKind.ofStart c [] := by
  obtain ⟨d, more, htext, hkind, -⟩ := h
  rw [ht] at htext
  obtain ⟨rfl, rfl⟩ := List.cons.inj htext
  exact hkind.symm

/-- Only marks open, close or end a block. -/
theorem Proper.role_eq {t : Token} (h : t.Proper) (hkind : t.kind ≠ .punct) :
    t.role = .other := by
  have hne : ∀ c, TokenKind.ofStart c [] = .punct → t.text ≠ [c] := by
    intro c hc htext
    exact hkind ((h.kind_eq htext).trans hc)
  simp [role, hne '(' (by decide), hne ')' (by decide), hne '[' (by decide), hne ']' (by decide),
    hne '\x7b' (by decide), hne '\x7d' (by decide), hne ';' (by decide)]

theorem Proper.eq_mark {t : Token} {c : Char} (h : t.Proper) (hc : isCut c = true)
    (ht : t.text = [c]) : t = mark c := by
  obtain ⟨kind, text⟩ := t
  have hkind := h.kind_eq ht
  rw [TokenKind.ofStart_of_isCut hc] at hkind
  cases hkind
  cases ht
  rfl

end Token

/-- Tokens that a code block can be, each as the lexer reads it. -/
structure Clean (ts : List Token) : Prop where
  balanced : Balanced ts
  proper : ∀ t ∈ ts, t.Proper

theorem clean_nil : Clean [] := ⟨balanced_nil, fun _ h => absurd h List.not_mem_nil⟩

theorem Clean.append {xs ys : List Token} (hx : Clean xs) (hy : Clean ys) : Clean (xs ++ ys) := by
  refine ⟨hx.balanced.append hy.balanced, fun t ht => ?_⟩
  rcases List.mem_append.mp ht with ht | ht
  · exact hx.proper t ht
  · exact hy.proper t ht

theorem clean_singleton {t : Token} (h : t.Proper) (hrole : t.role = .other) : Clean [t] := by
  refine ⟨balanced_of_other fun u hu => ?_, fun u hu => ?_⟩
  · rw [List.mem_singleton.mp hu, hrole]
  · rw [List.mem_singleton.mp hu]
    exact h

theorem clean_word {w : Text} (h : isIdentifier w = true) : Clean [word w] :=
  clean_singleton (proper_word h) ((proper_word h).role_eq (by simp [word]))

/-! ## Calls -/

theorem infix_flatMap {α β : Type} {f : α → List β} {l : List α} {a : α} (h : a ∈ l) :
    f a <:+: l.flatMap f := by
  rw [List.flatMap_def]
  exact List.infix_of_mem_flatten (List.mem_map_of_mem h)

/-- Further arguments, each after a comma and a blank. -/
def argumentTail (rest : List (List Token)) : List Token :=
  rest.flatMap fun a => mark ',' :: blank [' '] :: a

/-- A call of `f`. -/
def call (f : Text) (first : List Token) (rest : List (List Token)) : List Token :=
  word f :: mark '(' :: (first ++ (argumentTail rest ++ [mark ')']))

@[simp] theorem argumentTail_nil : argumentTail [] = [] := rfl

theorem argumentTail_cons (a : List Token) (rest : List (List Token)) :
    argumentTail (a :: rest) = mark ',' :: blank [' '] :: (a ++ argumentTail rest) := by
  simp [argumentTail]

theorem argumentList_cons (x y : Text) (rest : List Text) :
    argumentList (x :: y :: rest) = x ++ (", ".toList ++ argumentList (y :: rest)) := by
  simp [argumentList, List.intercalate_cons_cons]

theorem textOf_argumentTail (a : List Token) (rest : List (List Token)) :
    textOf a ++ textOf (argumentTail rest) =
      argumentList (textOf a :: rest.map textOf) := by
  induction rest generalizing a with
  | nil => simp [argumentList, List.intercalate]
  | cons b rest ih =>
    rw [List.map_cons, argumentList_cons, ← ih b, argumentTail_cons]
    simp [mark, blank]

theorem textOf_call (f : Text) (first : List Token) (rest : List (List Token)) :
    textOf (call f first rest) =
      f ++ '(' :: (argumentList (textOf first :: rest.map textOf) ++ [')']) := by
  rw [← textOf_argumentTail]
  simp [call, word, mark]

theorem clean_argumentTail {rest : List (List Token)} (h : ∀ a ∈ rest, Clean a) :
    Clean (argumentTail rest) := by
  induction rest with
  | nil => exact clean_nil
  | cons a rest ih =>
    have hcomma : Clean [mark ',', blank [' ']] :=
      (clean_singleton (proper_mark (by decide)) (by decide)).append
        (clean_singleton (proper_blank (by decide) fun _ => isBlank_of_mem_space) (by decide))
    rw [argumentTail_cons]
    exact hcomma.append ((h a List.mem_cons_self).append
      (ih fun b hb => h b (List.mem_cons_of_mem a hb)))

theorem Clean.call {f : Text} {first : List Token} {rest : List (List Token)}
    (hf : isIdentifier f = true) (hfirst : Clean first) (hrest : ∀ a ∈ rest, Clean a) :
    Clean (call f first rest) := by
  have hargs := hfirst.append (clean_argumentTail hrest)
  have hopen : (mark '(').role = .opener := by decide
  have hclose : (mark ')').role = .closer := by decide
  have hparens : Clean (mark '(' :: (first ++ argumentTail rest) ++ [mark ')']) := by
    refine ⟨hargs.balanced.enclosed hopen hclose, fun t ht => ?_⟩
    simp only [List.cons_append, List.mem_cons, List.mem_append, List.not_mem_nil, or_false] at ht
    rcases ht with rfl | (ht | ht) | rfl
    · exact proper_mark (by decide)
    · exact hfirst.proper t ht
    · exact (clean_argumentTail hrest).proper t ht
    · exact proper_mark (by decide)
  have hcall := (clean_word hf).append hparens
  simpa [Texelwise.call] using hcall

/-- An argument stands in its call. -/
theorem infix_call {f : Text} {first a : List Token} {rest : List (List Token)}
    (h : a = first ∨ a ∈ rest) : a <:+: call f first rest := by
  have hinner : a <:+: first ++ argumentTail rest := by
    rcases h with rfl | ha
    · exact (List.prefix_append _ _).isInfix
    · have htail : mark ',' :: blank [' '] :: a <:+: argumentTail rest :=
        infix_flatMap (f := fun b => mark ',' :: blank [' '] :: b) ha
      have hsuffix : a <:+: mark ',' :: blank [' '] :: a :=
        (List.suffix_append [mark ',', blank [' ']] a).isInfix
      exact (hsuffix.trans htail).trans (List.suffix_append _ _).isInfix
  refine hinner.trans ⟨[word f, mark '('], [mark ')'], ?_⟩
  simp [call]

/-! ## Trimming -/

section Trim

variable {α : Type} {p : α → Bool}

/-- The list without the items at both ends that pass a test. -/
def trimBy (p : α → Bool) (l : List α) : List α :=
  ((l.dropWhile p).reverse.dropWhile p).reverse

theorem dropWhile_of_head {l : List α} (h : ∀ x ∈ l.head?, p x = false) : l.dropWhile p = l := by
  cases l with
  | nil => rfl
  | cons x l => rw [List.dropWhile_cons_of_neg (by simp [h x rfl])]

/-- What stands between items that pass the test, if it does not begin or end with one. -/
theorem trimBy_eq {pre l post : List α} (hpre : ∀ x ∈ pre, p x = true)
    (hpost : ∀ x ∈ post, p x = true) (hhead : ∀ x ∈ l.head?, p x = false)
    (hlast : ∀ x ∈ l.getLast?, p x = false) : trimBy p (pre ++ (l ++ post)) = l := by
  rw [trimBy, List.dropWhile_append_of_pos hpre]
  cases l with
  | nil =>
    rw [List.nil_append, List.dropWhile_eq_nil_iff.mpr hpost]
    rfl
  | cons x l =>
    have hdrop : (x :: l ++ post).dropWhile p = x :: l ++ post := dropWhile_of_head hhead
    rw [hdrop, List.reverse_append,
      List.dropWhile_append_of_pos (by simpa using hpost), dropWhile_of_head,
      List.reverse_reverse]
    rw [List.head?_reverse]
    exact hlast

theorem exists_trimBy (p : α → Bool) (l : List α) :
    ∃ pre post, l = pre ++ (trimBy p l ++ post) ∧ (∀ x ∈ pre, p x = true) ∧
      (∀ x ∈ post, p x = true) ∧ (∀ x ∈ (trimBy p l).head?, p x = false) ∧
      ∀ x ∈ (trimBy p l).getLast?, p x = false := by
  have hmid : trimBy p l ++ ((l.dropWhile p).reverse.takeWhile p).reverse = l.dropWhile p := by
    rw [trimBy, ← List.reverse_append, List.takeWhile_append_dropWhile, List.reverse_reverse]
  have hdrop : ∀ m : List α, ∀ x ∈ (m.dropWhile p).head?, p x = false := by
    intro m x hx
    have := List.head?_dropWhile_not p m
    rw [hx] at this
    simpa using this
  refine ⟨l.takeWhile p, ((l.dropWhile p).reverse.takeWhile p).reverse, ?_, ?_, ?_, ?_, ?_⟩
  · rw [hmid, List.takeWhile_append_dropWhile]
  · intro x hx
    exact List.mem_takeWhile_imp hx
  · intro x hx
    exact List.mem_takeWhile_imp (List.mem_reverse.mp hx)
  · intro x hx
    apply hdrop l x
    rw [← hmid]
    cases h : trimBy p l with
    | nil => rw [h] at hx; cases hx
    | cons y m => rw [h] at hx; exact hx
  · intro x hx
    rw [trimBy, List.getLast?_reverse] at hx
    exact hdrop _ x hx

/-- A part that does not start with what is dropped stays. -/
theorem infix_dropWhile {l m : List α} (h : l <:+: m)
    (hhead : ∀ x ∈ l.head?, p x = false) : l <:+: m.dropWhile p := by
  obtain ⟨pre, post, rfl⟩ := h
  cases l with
  | nil => exact List.nil_infix
  | cons x l =>
    have hx : (x :: l ++ post).dropWhile p = x :: l ++ post := dropWhile_of_head hhead
    rw [List.append_assoc, List.dropWhile_append]
    split
    · rw [hx]
      exact (List.prefix_append _ _).isInfix
    · exact ⟨pre.dropWhile p, post, by rw [List.append_assoc]⟩

/-- A part that neither starts nor ends with what is trimmed stays. -/
theorem infix_trimBy {l m : List α} (h : l <:+: m)
    (hhead : ∀ x ∈ l.head?, p x = false) (hlast : ∀ x ∈ l.getLast?, p x = false) :
    l <:+: trimBy p m := by
  have hfront := List.reverse_infix.mpr (infix_dropWhile h hhead)
  rw [← List.reverse_reverse l]
  refine List.reverse_infix.mpr (infix_dropWhile hfront fun x hx => hlast x ?_)
  rwa [List.head?_reverse] at hx

end Trim

/-- Whether a token is a blank. -/
def Token.isSpace (t : Token) : Bool := t.kind = .space

/-- The tokens without blanks at both ends. -/
def trimBlanks (ts : List Token) : List Token := trimBy Token.isSpace ts

theorem TokenKind.ofStart_eq_space_iff {c : Char} {rest : Text} :
    ofStart c rest = .space ↔ Text.isBlank c = true := by
  unfold ofStart
  split
  · simp [*]
  · rename_i h
    split
    · simp [h]
    · split <;> simp [h]

theorem TokenKind.isBlank_of_continues {kind : TokenKind} {before c : Char}
    (h : kind.continues before c = true) (hkind : kind ≠ .space) : Text.isBlank c = false := by
  have hsign : ∀ d, d = '.' ∨ d = '+' ∨ d = '-' → Text.isBlank d = false := by
    rintro d (rfl | rfl | rfl) <;> decide
  cases kind with
  | space => exact absurd rfl hkind
  | punct => cases h
  | ident => exact isBlank_of_isWordChar h
  | number =>
    simp only [continues, Bool.or_eq_true, Bool.and_eq_true, decide_eq_true_eq] at h
    rcases h with (h | h) | ⟨h, -⟩
    · exact isBlank_of_isWordChar h
    · exact hsign c (.inl h)
    · exact hsign c (.inr h)

/-- The characters of a token are blanks if the token is one, and otherwise none is. -/
theorem Token.Proper.isBlank_eq {t : Token} (h : t.Proper) {c : Char} (hc : c ∈ t.text) :
    Text.isBlank c = t.isSpace := by
  obtain ⟨d, more, htext, hkind, hrun⟩ := h
  rw [htext] at hc
  by_cases hs : t.kind = .space
  · have htrue : t.isSpace = true := decide_eq_true hs
    rw [htrue]
    rcases List.mem_cons.mp hc with rfl | hc
    · exact TokenKind.ofStart_eq_space_iff.mp (hkind.trans hs)
    · obtain ⟨b, hb⟩ := TokenKind.continues_of_run hrun hc
      rwa [hs] at hb
  · have hfalse : t.isSpace = false := decide_eq_false hs
    rw [hfalse]
    rcases List.mem_cons.mp hc with rfl | hc
    · rw [← Bool.not_eq_true]
      exact fun hblank => hs (hkind.symm.trans (TokenKind.ofStart_eq_space_iff.mpr hblank))
    · obtain ⟨b, hb⟩ := TokenKind.continues_of_run hrun hc
      exact TokenKind.isBlank_of_continues hb hs

/-- The spaces of a text are blanks. -/
theorem isAllBlank_of_mem_tokenize {x : Text} :
    ∀ t ∈ tokenize x, t.kind = .space → t.text.isAllBlank = true := by
  intro t ht hkind
  refine List.all_eq_true.mpr fun c hc => ?_
  rw [(proper_tokenize t ht).isBlank_eq hc]
  exact decide_eq_true hkind

/-- Trimming the tokens trims their text. -/
theorem textOf_trimBlanks {ts : List Token} (h : ∀ t ∈ ts, t.Proper) :
    textOf (trimBlanks ts) = Text.trim (textOf ts) := by
  obtain ⟨pre, post, heq, hpre, hpost, hhead, hlast⟩ := exists_trimBy Token.isSpace ts
  have hproper : ∀ u ∈ trimBlanks ts, u.Proper := fun u hu =>
    h u (by rw [heq]; exact List.mem_append_right _ (List.mem_append_left _ hu))
  have hblank : ∀ us : List Token, (∀ u ∈ us, u ∈ ts) → (∀ u ∈ us, u.isSpace = true) →
      ∀ c ∈ textOf us, Text.isBlank c = true := by
    intro us hus hspace c hc
    obtain ⟨u, hu, hc⟩ := List.mem_flatMap.mp hc
    rw [(h u (hus u hu)).isBlank_eq hc, hspace u hu]
  conv => rhs; rw [heq, textOf_append, textOf_append]
  symm
  apply trimBy_eq
  · exact hblank pre (fun u hu => by rw [heq]; exact List.mem_append_left _ hu) hpre
  · exact hblank post (fun u hu => by
      rw [heq]; exact List.mem_append_right _ (List.mem_append_right _ hu)) hpost
  · intro c hc
    change c ∈ (textOf (trimBlanks ts)).head? at hc
    cases hts : trimBlanks ts with
    | nil => rw [hts] at hc; cases hc
    | cons u us =>
      have hu : u.Proper := hproper u (by rw [hts]; exact List.mem_cons_self)
      have hspace : u.isSpace = false := hhead u (by rw [← trimBlanks, hts]; rfl)
      rw [hts, textOf_cons, List.head?_append_of_ne_nil _ hu.text_ne_nil] at hc
      rw [hu.isBlank_eq (List.mem_of_mem_head? hc), hspace]
  · intro c hc
    change c ∈ (textOf (trimBlanks ts)).getLast? at hc
    rcases List.eq_nil_or_concat (trimBlanks ts) with hts | ⟨us, u, hts⟩
    · rw [hts] at hc; cases hc
    · have hu : u.Proper := hproper u (by rw [hts]; simp)
      have hspace : u.isSpace = false := hlast u (by rw [← trimBlanks, hts]; simp)
      rw [hts, List.concat_eq_append, textOf_append, textOf_cons, textOf_nil, List.append_nil,
        List.getLast?_append_of_ne_nil _ hu.text_ne_nil] at hc
      rw [hu.isBlank_eq (List.mem_of_mem_getLast? hc), hspace]

/-! ## Samples -/

/-- The literal `0.0`. -/
def zeroLiteral : Token := ⟨.number, "0.0".toList⟩

/-- The members that go with the buffer `name`, after the first one. -/
def companionTail (kind : BufferKind) : List Text := "textureHeight".toList :: kind.rank.fields

/-- The call that finds texture coordinates. -/
def selectTokens (name : Text) (kind : BufferKind) (indices : List (List Token)) : List Token :=
  call ("nc_select_".toList ++ kind.rank.label)
    [word (bufferMemberName name "textureWidth".toList)]
    ((companionTail kind).map (fun m => [word (bufferMemberName name m)]) ++ indices)

/-- The call that puts the texture and the sampler together. -/
def samplerTokens (name : Text) : List Token :=
  call "sampler2D".toList [word (textureName name)] [[word samplerName]]

/-- The call that reads the texture. -/
def textureTokens (name : Text) (kind : BufferKind) (indices : List (List Token)) : List Token :=
  call "textureLod".toList (samplerTokens name) [selectTokens name kind indices, [zeroLiteral]]

/-- The tokens of the sample that reads the buffer `name` at these indices. -/
def sampleTokens (name : Text) (kind : BufferKind) (indices : List (List Token)) : List Token :=
  match kind.element with
  | .float => call "nc_decode".toList (textureTokens name kind indices) []
  | .color => textureTokens name kind indices

theorem argumentList_singleton (x : Text) : argumentList [x] = x := by
  simp [argumentList, List.intercalate]

theorem textOf_word (w : Text) : textOf [word w] = w := by
  simp [word]

theorem textOf_selectTokens (name : Text) (kind : BufferKind) (indices : List (List Token)) :
    textOf (selectTokens name kind indices) =
      "nc_select_".toList ++ kind.rank.label ++ '(' ::
        (argumentList (kind.companions.map (bufferMemberName name) ++ indices.map textOf) ++
          [')']) := by
  rw [selectTokens, textOf_call, List.map_append, List.map_map]
  simp only [Function.comp_def, textOf_word]
  rfl

theorem textOf_textureTokens (name : Text) (kind : BufferKind) (indices : List (List Token)) :
    textOf (textureTokens name kind indices) =
      "textureLod(sampler2D(".toList ++ textureName name ++ ", ".toList ++ samplerName ++
        "), nc_select_".toList ++ kind.rank.label ++ '(' ::
          argumentList (kind.companions.map (bufferMemberName name) ++ indices.map textOf) ++
        "), 0.0)".toList := by
  simp [textureTokens, samplerTokens, textOf_call, argumentList_cons, argumentList_singleton, word,
    textOf_selectTokens, zeroLiteral]

/-- The tokens of a sample are its text. -/
theorem textOf_sampleTokens (name : Text) (kind : BufferKind) {indices : List (List Token)}
    (h : ∀ i ∈ indices, ∀ t ∈ i, t.Proper) :
    textOf (sampleTokens name kind (indices.map trimBlanks)) =
      sampleText name kind (indices.map textOf) := by
  have htrim : (indices.map trimBlanks).map textOf = (indices.map textOf).map Text.trim := by
    rw [List.map_map, List.map_map]
    exact List.map_congr_left fun i hi => textOf_trimBlanks (h i hi)
  have htexture := textOf_textureTokens name kind (indices.map trimBlanks)
  rw [htrim] at htexture
  simp only [sampleTokens, sampleText]
  cases kind.element with
  | color => exact htexture
  | float =>
    show textOf (call "nc_decode".toList (textureTokens name kind (indices.map trimBlanks)) []) = _
    rw [textOf_call, List.map_nil, argumentList_singleton, htexture]
    rfl

/-! ## Samples are clean -/

theorem isIdentifier_append {v w : Text} (hv : isIdentifier v = true)
    (hw : w.all isWordChar = true) : isIdentifier (v ++ w) = true := by
  cases v with
  | nil => cases hv
  | cons c more =>
    obtain ⟨hc, hmore⟩ := isIdentifier_cons.mp hv
    have hall : (more ++ w).all isWordChar = true := by
      rw [List.all_append, hmore, hw]
      rfl
    exact isIdentifier_cons.mpr ⟨hc, hall⟩

theorem all_of_isIdentifier {w : Text} (h : isIdentifier w = true) :
    w.all isWordChar = true := by
  cases w with
  | nil => rfl
  | cons c more =>
    obtain ⟨hc, hmore⟩ := isIdentifier_cons.mp h
    rw [List.all_cons, hmore, isWordChar_of_isAlpha hc]
    rfl

theorem isIdentifier_bufferMemberName {name member : Text} (h : isIdentifier name = true)
    (hm : member.all isWordChar = true) : isIdentifier (bufferMemberName name member) = true := by
  unfold bufferMemberName
  refine isIdentifier_append (isIdentifier_append (by decide) (all_of_isIdentifier h)) ?_
  rw [List.all_cons, hm]
  rfl

theorem isIdentifier_textureName {name : Text} (h : isIdentifier name = true) :
    isIdentifier (textureName name) = true := isIdentifier_bufferMemberName h (by decide)

theorem all_of_mem_companionTail {kind : BufferKind} {m : Text} (h : m ∈ companionTail kind) :
    m.all isWordChar = true := by
  have hfields : ∀ r : Rank, ∀ f ∈ "textureHeight".toList :: r.fields, f.all isWordChar = true := by
    intro r
    cases r <;> decide
  exact hfields kind.rank m h

theorem isIdentifier_of_mem_extentFields {f : Text} (hf : f ∈ extentFields) :
    isIdentifier f = true := by
  have hall : ∀ f ∈ extentFields, isIdentifier f = true := by decide
  exact hall f hf

theorem isIdentifier_select (kind : BufferKind) :
    isIdentifier ("nc_select_".toList ++ kind.rank.label) = true := by
  cases kind.rank <;> decide

theorem proper_zeroLiteral : zeroLiteral.Proper :=
  ⟨'0', ".0".toList, rfl, by decide, by decide⟩

theorem clean_zeroLiteral : Clean [zeroLiteral] :=
  clean_singleton proper_zeroLiteral (proper_zeroLiteral.role_eq (by decide))

theorem clean_of_mem_samplerArguments {a : List Token} (ha : a ∈ [[word samplerName]]) :
    Clean a := by
  rw [List.mem_singleton.mp ha]
  exact clean_word (by decide)

theorem clean_samplerTokens {name : Text} (hname : isIdentifier name = true) :
    Clean (samplerTokens name) :=
  Clean.call (by decide) (clean_word (isIdentifier_textureName hname))
    fun _ => clean_of_mem_samplerArguments

/-- An index stands in the sample of its read. -/
theorem infix_sampleTokens {name : Text} {kind : BufferKind} {indices : List (List Token)}
    {i : List Token} (hi : i ∈ indices) : i <:+: sampleTokens name kind indices := by
  have hselect : i <:+: selectTokens name kind indices :=
    infix_call (.inr (List.mem_append_right _ hi))
  have htexture : selectTokens name kind indices <:+: textureTokens name kind indices :=
    infix_call (.inr List.mem_cons_self)
  unfold sampleTokens
  cases kind.element with
  | float => exact (hselect.trans htexture).trans (infix_call (.inl rfl))
  | color => exact hselect.trans htexture

section Clean

variable {name : Text} (hname : isIdentifier name = true) (kind : BufferKind)
  {indices : List (List Token)} (h : ∀ i ∈ indices, Clean i)

include hname h

theorem clean_of_mem_selectArguments {a : List Token}
    (ha : a ∈ (companionTail kind).map (fun m => [word (bufferMemberName name m)]) ++ indices) :
    Clean a := by
  rcases List.mem_append.mp ha with ha | ha
  · obtain ⟨m, hm, rfl⟩ := List.mem_map.mp ha
    exact clean_word (isIdentifier_bufferMemberName hname (all_of_mem_companionTail hm))
  · exact h a ha

theorem clean_selectTokens : Clean (selectTokens name kind indices) :=
  Clean.call (isIdentifier_select kind)
    (clean_word (isIdentifier_bufferMemberName hname (by decide)))
    fun _ => clean_of_mem_selectArguments hname kind h

theorem clean_of_mem_textureArguments {a : List Token}
    (ha : a ∈ [selectTokens name kind indices, [zeroLiteral]]) : Clean a := by
  rcases List.mem_cons.mp ha with rfl | ha
  · exact clean_selectTokens hname kind h
  · rw [List.mem_singleton.mp ha]
    exact clean_zeroLiteral

theorem clean_textureTokens : Clean (textureTokens name kind indices) :=
  Clean.call (by decide) (clean_samplerTokens hname)
    fun _ => clean_of_mem_textureArguments hname kind h

/-- A sample with clean indices is clean. -/
theorem clean_sampleTokens : Clean (sampleTokens name kind indices) := by
  unfold sampleTokens
  cases kind.element with
  | float =>
    exact Clean.call (by decide) (clean_textureTokens hname kind h)
      fun a ha => absurd ha List.not_mem_nil
  | color => exact clean_textureTokens hname kind h

end Clean

end Texelwise

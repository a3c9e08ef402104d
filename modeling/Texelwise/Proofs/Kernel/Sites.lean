import Texelwise.Proofs.Expansion.Reading
import Texelwise.Proofs.Expansion.Reserved
import Texelwise.Proofs.Kernel.Totality

/-!
# Names before brackets

A read starts with a name before an opening bracket. Here is where a name stands so, in tokens and
in the sample that is put in for a read: a sample has the brackets of its indices and no others, and
what can be read behind them stays the same.

* `bracketTails`: what follows each token of a name that stands before a bracket; `bracketSites`:
  how many there are.
* `Followed`: a closed part with something after it that no reader goes on into.
* `Carries`: which of these places some tokens have, whatever follows the tokens.
* `Operand`: the same for a text that may be an argument; `exists_sampleText_eq` for samples.
-/

namespace Texelwise

open Token

/-! ## Names before brackets -/

/-- What follows each token `name` that has an opening bracket after it, with at most one blank
before the bracket. -/
def bracketTails (name : Text) : List Token → List (List Token)
  | [] => []
  | t :: ts =>
    if t.text = name ∧ (afterMark? '[' ts).isSome then ts :: bracketTails name ts
    else bracketTails name ts

/-- How often `name` stands before an opening bracket in the text. -/
def bracketSites (name code : Text) : Nat := (bracketTails name (tokenize code)).length

example : bracketSites "a".toList "a[a [0]] + ab[1]".toList = 2 := by decide +kernel

/-- All tokens of one text have the same kind. -/
theorem IsName.kind {w : Text} (h : IsName w) {t : Token} (ht : t.Proper) (htext : t.text = w) :
    t.kind = .ident ∨ t.kind = .number := by
  obtain ⟨u, ⟨c, more, hu, hukind, -⟩, hkind, rfl⟩ := h
  obtain ⟨d, more', ht, htkind, -⟩ := ht
  rw [htext, hu] at ht
  obtain ⟨rfl, rfl⟩ := List.cons.inj ht
  rwa [← htkind, hukind]

theorem IsName.ne_mark {w : Text} (h : IsName w) {c : Char} (hc : isCut c = true) : [c] ≠ w := by
  rintro rfl
  exact h.not_mem hc (List.mem_singleton_self c)

section

variable {q : Text} {t : Token} {ts : List Token}

theorem bracketTails_cons (h : t.text = q) (hts : (afterMark? '[' ts).isSome) :
    bracketTails q (t :: ts) = ts :: bracketTails q ts := if_pos ⟨h, hts⟩

theorem bracketTails_cons_of_ne (h : t.text ≠ q) : bracketTails q (t :: ts) = bracketTails q ts :=
  if_neg fun hq => h hq.1

/-- Tokens with other texts have no such places. -/
theorem bracketTails_append_of_ne {us : List Token} (h : ∀ u ∈ us, u.text ≠ q) :
    bracketTails q (us ++ ts) = bracketTails q ts := by
  induction us with
  | nil => rfl
  | cons u us ih =>
    rw [List.cons_append, bracketTails_cons_of_ne (h u List.mem_cons_self),
      ih fun v hv => h v (List.mem_cons_of_mem u hv)]

/-- What is in front only adds places. -/
theorem bracketTails_sublist (us ts : List Token) :
    (bracketTails q ts).Sublist (bracketTails q (us ++ ts)) := by
  induction us with
  | nil => exact List.Sublist.refl _
  | cons u us ih =>
    rw [List.cons_append, bracketTails]
    split
    · exact ih.cons _
    · exact ih

/-- The places of a part are those of the whole if no bracket is found beyond the part. -/
theorem bracketTails_append {xs zs : List Token}
    (h : ∀ us, afterMark? '[' (us ++ zs) = (afterMark? '[' us).map (· ++ zs)) :
    bracketTails q (xs ++ zs) = (bracketTails q xs).map (· ++ zs) ++ bracketTails q zs := by
  induction xs with
  | nil => rfl
  | cons x xs ih =>
    simp only [List.cons_append, bracketTails, h xs, Option.isSome_map]
    split
    · rw [ih, List.map_cons, List.cons_append]
    · exact ih

theorem bracketTails_append_mark (hq : IsName q) {c : Char} (hc : isCut c = true) (hne : c ≠ '[')
    (xs ys : List Token) : bracketTails q (xs ++ mark c :: ys) =
      (bracketTails q xs).map (· ++ mark c :: ys) ++ bracketTails q ys := by
  have hmark : (mark c).text ≠ q := hq.ne_mark hc
  rw [bracketTails_append fun us => afterMark?_append_mark hne us ys, bracketTails_cons_of_ne hmark]

/-- Without an opening bracket there are no such places. -/
theorem bracketTails_eq_nil (h : mark '[' ∉ ts) : bracketTails q ts = [] := by
  induction ts with
  | nil => rfl
  | cons t ts ih =>
    rw [List.mem_cons, not_or] at h
    have hnone : afterMark? '[' ts = none := by
      refine Option.eq_none_iff_forall_ne_some.mpr fun rest hrest => ?_
      obtain ⟨gap, -, rfl⟩ := afterMark?_eq_some_iff.mp hrest
      exact h.2 (by simp)
    rw [bracketTails, hnone, if_neg (by simp), ih h.2]

/-- A blank is no name. -/
theorem IsName.ne_of_isSpace (hq : IsName q) (ht : t.Proper) (hspace : t.isSpace = true) :
    t.text ≠ q := by
  intro htext
  have hkind : t.kind = .space := of_decide_eq_true hspace
  rcases hq.kind ht htext with h | h <;> cases hkind.symm.trans h

theorem mem_bracketTails_iff {xs : List Token} : xs ∈ bracketTails q ts ↔
    ∃ t, t.text = q ∧ t :: xs <:+ ts ∧ (afterMark? '[' xs).isSome := by
  constructor
  · intro h
    induction ts with
    | nil => cases h
    | cons t ts ih =>
      have hrest : xs ∈ bracketTails q ts →
          ∃ u, u.text = q ∧ u :: xs <:+ t :: ts ∧ (afterMark? '[' xs).isSome := by
        intro hmem
        obtain ⟨u, hu, hsuffix, hxs⟩ := ih hmem
        exact ⟨u, hu, hsuffix.trans (List.suffix_cons t ts), hxs⟩
      rw [bracketTails] at h
      split at h
      · rcases List.mem_cons.mp h with rfl | h
        · exact ⟨t, ‹_ ∧ _›.1, List.suffix_refl _, ‹_ ∧ _›.2⟩
        · exact hrest h
      · exact hrest h
  · rintro ⟨t, ht, ⟨before, rfl⟩, hxs⟩
    refine (bracketTails_sublist before (t :: xs)).subset ?_
    rw [bracketTails_cons ht hxs]
    exact List.mem_cons_self

end

/-! ## Closed parts with more after them -/

/-- The tokens `ys` are the closed part `xs` with something after it that no reader goes on into. -/
structure Followed (xs ys : List Token) : Prop where
  closes : ∃ d, Closes d xs
  proper : ∀ u ∈ xs, u.Proper
  halts : ∃ zs, Halts zs ∧ ys = xs ++ zs

theorem Followed.append {xs ys zs : List Token} (h : Followed xs ys) (hz : Halts zs) :
    Followed xs (ys ++ zs) := by
  obtain ⟨ws, hws, rfl⟩ := h.halts
  exact ⟨h.closes, h.proper, ws ++ zs, hws.append hz, List.append_assoc ..⟩

/-- Subscripts are read in the closed part. -/
theorem Followed.isSome_subscripts? {xs ys : List Token} (h : Followed xs ys) (n : Nat) :
    (subscripts? n ys).isSome = (subscripts? n xs).isSome := by
  obtain ⟨d, hclose⟩ := h.closes
  obtain ⟨zs, hz, rfl⟩ := h.halts
  rw [hclose.subscripts?_append h.proper hz, Option.isSome_map]

theorem forall₂_followed_map {base l : List (List Token)} (h : List.Forall₂ Followed base l)
    {zs : List Token} (hz : Halts zs) : List.Forall₂ Followed base (l.map (· ++ zs)) :=
  List.forall₂_map_right_iff.mpr (h.imp fun _ _ hxs => hxs.append hz)

/-- The places in a clean part. -/
theorem Clean.followed {q : Text} {ts : List Token} (h : Clean ts) :
    List.Forall₂ Followed (bracketTails q ts) (bracketTails q ts) := by
  rw [List.forall₂_same]
  intro xs hxs
  obtain ⟨t, -, ⟨pre, rfl⟩, -⟩ := mem_bracketTails_iff.mp hxs
  have hbal : Closes 0 (pre ++ [t] ++ xs) := by simpa using h.balanced
  exact ⟨hbal.exists_of_append, fun u hu => h.proper u (by simp [hu]), [],
    halts_of_isSpace (by simp), (List.append_nil xs).symm⟩

/-- Trimming keeps the places. -/
theorem followed_trimBlanks {q : Text} (hq : IsName q) {ts : List Token} (h : Clean ts) :
    List.Forall₂ Followed (bracketTails q (trimBlanks ts)) (bracketTails q ts) := by
  obtain ⟨pre, post, heq, hpre, hpost, hclean⟩ := h.exists_trimBlanks
  have hspace : ∀ us : List Token, (∀ u ∈ us, u ∈ ts) → (∀ u ∈ us, u.isSpace = true) →
      ∀ u ∈ us, u.text ≠ q :=
    fun us hus hspace u hu => hq.ne_of_isSpace (h.proper u (hus u hu)) (hspace u hu)
  have hhalts := halts_of_isSpace hpost
  have hpost' : bracketTails q post = [] := by
    rw [← List.append_nil post,
      bracketTails_append_of_ne (hspace post (fun u hu => by rw [heq]; simp [hu]) hpost)]
    rfl
  have htails : bracketTails q ts = (bracketTails q (trimBlanks ts)).map (· ++ post) := by
    conv => lhs; rw [heq]
    rw [bracketTails_append_of_ne (hspace pre (fun u hu => by rw [heq]; simp [hu]) hpre),
      bracketTails_append fun us => afterMark?_append (by decide) us hhalts, hpost',
      List.append_nil]
  rw [htails]
  exact forall₂_followed_map hclean.followed hhalts

/-! ## The places of a part -/

/-- Whatever comes after `xs`, its places before brackets are those of `base`, each with something
after it that no reader goes on into. -/
def Carries (q : Text) (base : List (List Token)) (xs : List Token) : Prop :=
  ∀ zs, ∃ l, bracketTails q (xs ++ zs) = l ++ bracketTails q zs ∧ List.Forall₂ Followed base l

/-- The places of the indices of a read, trimmed. -/
def indexTails (q : Text) (blocks : List (List Token)) : List (List Token) :=
  blocks.flatMap fun b => bracketTails q (trimBlanks b)

/-- Subscripts have the places of their indices. -/
theorem Subscripts.carries {q : Text} (hq : IsName q) {blocks : List (List Token)}
    {tail : List Token} (h : Subscripts blocks tail) (hp : ∀ u ∈ tail, u.Proper) :
    Carries q (indexTails q blocks) tail := by
  intro zs
  induction h with
  | nil => exact ⟨[], rfl, .nil⟩
  | @cons gap block tail blocks hgap hblock _ _ ih =>
    obtain ⟨l, hl, hrest⟩ := ih fun u hu => hp u (by simp [hu])
    have hclean : Clean block := ⟨hblock, fun u hu => hp u (by simp [hu])⟩
    have hfront : ∀ u ∈ gap ++ [mark '['], u.text ≠ q := by
      intro u hu
      rcases List.mem_append.mp hu with hu | hu
      · exact hq.ne_of_isSpace (hp u (by simp [hu])) (decide_eq_true (hgap.kind_eq hu))
      · rw [List.mem_singleton.mp hu]
        exact hq.ne_mark (by decide)
    have hassoc : gap ++ mark '[' :: (block ++ mark ']' :: tail) ++ zs =
        gap ++ [mark '['] ++ (block ++ mark ']' :: (tail ++ zs)) := by simp
    refine ⟨(bracketTails q block).map (· ++ mark ']' :: (tail ++ zs)) ++ l, ?_, ?_⟩
    · rw [hassoc, bracketTails_append_of_ne hfront,
        bracketTails_append_mark hq (by decide) (by decide), hl, List.append_assoc]
    · exact List.rel_append (forall₂_followed_map (followed_trimBlanks hq hclean)
        (halts_mark (.inr (.inr rfl)) _)) hrest

/-! ## Operands -/

/-- The characters that open, close or end a block. -/
def blockChars : List Char := ['(', '[', ')', ']', '\x7b', '\x7d', ';']

/-- The text has none of these characters, and it does not start with a blank. -/
structure Bare (x : Text) : Prop where
  chars : ∀ c ∈ blockChars, c ∉ x
  head : ∀ c ∈ x.head?, Text.isBlank c = false

/-- Whether a text is bare. -/
def isBare (x : Text) : Bool :=
  x.all (fun c => !blockChars.contains c) && !x.head?.any Text.isBlank

theorem bare_of_isBare {x : Text} (h : isBare x = true) : Bare x := by
  rw [isBare, Bool.and_eq_true] at h
  refine ⟨fun c hc hmem => ?_, fun c hc => ?_⟩
  · have hnot := List.all_eq_true.mp h.1 c hmem
    simp [hc] at hnot
  · have hnot := h.2
    rw [Option.mem_def.mp hc] at hnot
    simpa using hnot

theorem Bare.append {x y : Text} (hx : Bare x) (hy : Bare y) : Bare (x ++ y) := by
  refine ⟨fun c hc hmem => ?_, ?_⟩
  · rcases List.mem_append.mp hmem with h | h
    · exact hx.chars c hc h
    · exact hy.chars c hc h
  · cases x with
    | nil => exact hy.head
    | cons d x => exact hx.head

/-- A token that is an identifier or a number. -/
theorem Token.Proper.bare {t : Token} (ht : t.Proper) (hkind : t.kind = .ident ∨ t.kind = .number) :
    Bare t.text := by
  have hcut : blockChars.all isCut = true := by decide
  refine ⟨fun c hc => ht.not_mem_of_kind hkind (List.all_eq_true.mp hcut c hc), fun c hc => ?_⟩
  rw [ht.isBlank_eq (List.mem_of_mem_head? hc)]
  refine decide_eq_false fun hspace => ?_
  rcases hkind with h | h <;> cases hspace.symm.trans h

theorem IsName.bare {w : Text} (h : IsName w) : Bare w := by
  obtain ⟨t, ht, hkind, rfl⟩ := h
  exact ht.bare hkind

/-- The tokens of such a text are no brackets. -/
theorem Bare.role {x : Text} (hx : Bare x) : ∀ t ∈ tokenize x, t.role = .other := by
  intro t ht
  have hne : ∀ c ∈ blockChars, t.text ≠ [c] := by
    rintro c hc htext
    refine hx.chars c hc ?_
    rw [← textOf_tokenize x]
    exact List.mem_flatMap.mpr ⟨t, ht, by rw [htext]; exact List.mem_singleton_self c⟩
  simp [Token.role, hne '(' (by decide), hne '[' (by decide), hne ')' (by decide),
    hne ']' (by decide), hne '\x7b' (by decide), hne '\x7d' (by decide), hne ';' (by decide)]

/-- The first of these tokens is no blank. -/
theorem Bare.exists_tokenize_eq {x : Text} (hx : Bare x) (hne : x ≠ []) :
    ∃ u us, tokenize x = u :: us ∧ u.role = .other ∧ u.kind ≠ .space := by
  cases x with
  | nil => exact absurd rfl hne
  | cons c rest =>
    have hrole := hx.role
    rw [tokenize] at hrole ⊢
    refine ⟨_, _, rfl, hrole _ List.mem_cons_self, fun hspace => ?_⟩
    have hblank := hx.head c rfl
    rw [TokenKind.ofStart_eq_space_iff.mp hspace] at hblank
    cases hblank

/-- A text that may be an argument, with its places before brackets. -/
structure Operand (q : Text) (base : List (List Token)) (x : Text) : Prop where
  head : ∀ c ∈ x.head?, Text.isBlank c = false
  balanced : Balanced (tokenize x)
  tails : List.Forall₂ Followed base (bracketTails q (tokenize x))

section

variable {q : Text}

theorem Bare.bracketTails {x : Text} (hx : Bare x) : bracketTails q (tokenize x) = [] :=
  bracketTails_eq_nil fun hmem => absurd (hx.role _ hmem) (by decide)

theorem Bare.operand {x : Text} (hx : Bare x) : Operand q [] x :=
  ⟨hx.head, balanced_of_other hx.role, by rw [hx.bracketTails]; exact .nil⟩

/-- A trimmed index. -/
theorem operand_trimBlanks {b : List Token} (hb : Clean b) (hs : Separated b) :
    Operand q (bracketTails q (trimBlanks b)) (textOf (trimBlanks b)) := by
  obtain ⟨pre, post, heq, hpre, hpost, hclean⟩ := hb.exists_trimBlanks
  have htokens : tokenize (textOf (trimBlanks b)) = trimBlanks b := by
    rw [heq] at hs
    exact tokenize_textOf (separatedBy_append.mp (separatedBy_append.mp hs).2.1).1
  refine ⟨fun c hc => ?_, by rw [htokens]; exact hclean.balanced, ?_⟩
  · obtain ⟨_, _, _, _, _, hhead, _⟩ := exists_trimBy Text.isBlank (textOf b)
    rw [textOf_trimBlanks hb.proper] at hc
    exact hhead c hc
  · rw [htokens]
    exact hclean.followed

variable (hq : IsName q)

include hq

/-- A list of arguments has the places of all of them. -/
theorem Operand.list {bases : List (List (List Token))} {xs : List Text}
    (h : List.Forall₂ (Operand q) bases xs) : Operand q bases.flatten (argumentList xs) := by
  have hempty : argumentList [] = [] := rfl
  induction h with
  | nil =>
    rw [hempty]
    exact ⟨by simp, by rw [tokenize_nil]; exact balanced_nil, by rw [tokenize_nil]; exact .nil⟩
  | @cons base x bases xs hx hxs ih =>
    cases hxs with
    | nil => simpa [argumentList_singleton] using hx
    | @cons base' y bases xs hy hxs =>
      have hblank : tokenize (' ' :: argumentList (y :: xs)) =
          blank [' '] :: tokenize (argumentList (y :: xs)) :=
        tokenize_blank (w := [' ']) (by simp) (fun _ => isBlank_of_mem_space) ih.head
      have htokens : tokenize (argumentList (x :: y :: xs)) =
          tokenize x ++ mark ',' :: blank [' '] :: tokenize (argumentList (y :: xs)) := by
        rw [argumentList_cons, ← hblank]
        exact tokenize_append_mark (by decide) x _
      have hseparator : Balanced [mark ',', blank [' ']] := balanced_of_other (by decide)
      have hspace : (blank [' ']).text ≠ q :=
        hq.ne_of_isSpace (proper_blank (by simp) fun _ => isBlank_of_mem_space) rfl
      refine ⟨fun c hc => ?_, ?_, ?_⟩
      · cases x with
        | nil =>
          obtain rfl : ',' = c := by simpa [argumentList_cons] using hc
          decide
        | cons d x =>
          refine hx.head c ?_
          simpa [argumentList_cons] using hc
      · rw [htokens]
        exact hx.balanced.append (hseparator.append ih.balanced)
      · rw [htokens, bracketTails_append_mark hq (by decide) (by decide),
          bracketTails_cons_of_ne hspace]
        exact List.rel_append (forall₂_followed_map hx.tails (halts_mark (.inl rfl) _)) ih.tails

section Call

variable {base : List (List Token)} {f x : Text} (hf : Bare f) (hx : Operand q base x)

omit hq in
theorem tokenize_call (f x : Text) : tokenize (f ++ '(' :: (x ++ [')'])) =
    tokenize f ++ mark '(' :: (tokenize x ++ [mark ')']) := by
  rw [tokenize_append_mark (by decide), tokenize_append_mark (by decide), tokenize_nil]

include hf hx

/-- A call has the places of its arguments, whatever follows it. -/
theorem Operand.carries : Carries q base (tokenize (f ++ '(' :: (x ++ [')']))) := by
  intro zs
  have hassoc : tokenize (f ++ '(' :: (x ++ [')'])) ++ zs =
      tokenize f ++ mark '(' :: (tokenize x ++ mark ')' :: zs) := by
    rw [tokenize_call]
    simp
  refine ⟨(bracketTails q (tokenize x)).map (· ++ mark ')' :: zs), ?_,
    forall₂_followed_map hx.tails (halts_mark (.inr (.inl rfl)) zs)⟩
  rw [hassoc, bracketTails_append_mark hq (by decide) (by decide), hf.bracketTails, List.map_nil,
    List.nil_append, bracketTails_append_mark hq (by decide) (by decide)]

omit hq in
theorem Operand.balanced_call : Balanced (tokenize (f ++ '(' :: (x ++ [')']))) := by
  have hparens := hx.balanced.enclosed (o := mark '(') (c := mark ')') (by decide) (by decide)
  rw [tokenize_call]
  simpa using (balanced_of_other hf.role).append hparens

/-- A call is an argument with the places of its own arguments. -/
theorem Operand.call : Operand q base (f ++ '(' :: (x ++ [')'])) := by
  refine ⟨?_, hx.balanced_call hf, ?_⟩
  · cases f with
    | nil =>
      rintro c ⟨⟩
      decide
    | cons d f => exact hf.head
  · obtain ⟨l, hl, hbase⟩ := hx.carries hq hf []
    rw [List.append_nil, bracketTails, List.append_nil] at hl
    rwa [hl]

end Call

/-! ## Samples -/

theorem operand_textOf_call {f : Text} (hf : Bare f) {bases : List (List (List Token))}
    {first : List Token} {rest : List (List Token)}
    (h : List.Forall₂ (fun base a => Operand q base (textOf a)) bases (first :: rest)) :
    Operand q bases.flatten (textOf (call f first rest)) := by
  rw [textOf_call]
  exact (Operand.list hq (List.forall₂_map_right_iff.mpr h)).call hq hf

end

section

variable {q name : Text} (hq : IsName q) (hname : IsName name)

include hname

theorem operand_bufferMemberName {member : Text} (hmember : Bare member) :
    Operand q [] (textOf [word (bufferMemberName name member)]) := by
  have hfront : Bare "nc_uniform_".toList := bare_of_isBare (by decide +kernel)
  have hseparator : Bare ['_'] := bare_of_isBare (by decide)
  rw [textOf_word]
  exact ((hfront.append hname.bare).append (hseparator.append hmember)).operand

include hq

theorem operand_samplerTokens : Operand q [] (textOf (samplerTokens name)) := by
  have hfunction : Bare "sampler2D".toList := bare_of_isBare (by decide +kernel)
  have hmember : Bare "texture".toList := bare_of_isBare (by decide +kernel)
  have hsampler : Bare (textOf [word samplerName]) := bare_of_isBare (by decide +kernel)
  exact operand_textOf_call hq hfunction
    (.cons (operand_bufferMemberName hname hmember) (.cons hsampler.operand .nil))

section

variable (kind : BufferKind) {blocks : List (List Token)}
  (hblocks : ∀ b ∈ blocks, Clean b ∧ Separated b)

include hblocks

theorem operand_selectTokens :
    Operand q (indexTails q blocks) (textOf (selectTokens name kind (blocks.map trimBlanks))) := by
  have hlabel : ∀ r : Rank, Bare ("nc_select_".toList ++ r.label) := by
    intro r
    cases r <;> exact bare_of_isBare (by decide +kernel)
  have hwidth : Bare "textureWidth".toList := bare_of_isBare (by decide +kernel)
  have hmembers : ∀ r : Rank, ("textureHeight".toList :: r.fields).all isBare = true := by
    intro r
    cases r <;> decide +kernel
  have hcompanions : List.Forall₂ (fun base a => Operand q base (textOf a))
      ((companionTail kind).map fun _ => [])
      ((companionTail kind).map fun m => [word (bufferMemberName name m)]) := by
    rw [List.forall₂_map_left_iff, List.forall₂_map_right_iff, List.forall₂_same]
    exact fun m hm => operand_bufferMemberName hname
      (bare_of_isBare (List.all_eq_true.mp (hmembers kind.rank) m hm))
  have hindices : List.Forall₂ (fun base a => Operand q base (textOf a))
      (blocks.map fun b => bracketTails q (trimBlanks b)) (blocks.map trimBlanks) := by
    rw [List.forall₂_map_left_iff, List.forall₂_map_right_iff, List.forall₂_same]
    exact fun b hb => operand_trimBlanks (hblocks b hb).1 (hblocks b hb).2
  have hcall := operand_textOf_call hq (hlabel kind.rank)
    (.cons (operand_bufferMemberName hname hwidth) (List.rel_append hcompanions hindices))
  have hbases : ([] :: ((companionTail kind).map (fun _ => ([] : List (List Token))) ++
      blocks.map fun b => bracketTails q (trimBlanks b))).flatten = indexTails q blocks := by
    simp [indexTails, List.flatMap_def]
  rwa [hbases] at hcall

theorem operand_textureArguments : Operand q (indexTails q blocks)
    (argumentList [textOf (samplerTokens name),
      textOf (selectTokens name kind (blocks.map trimBlanks)), textOf [zeroLiteral]]) := by
  have hzero : Bare (textOf [zeroLiteral]) := bare_of_isBare (by decide +kernel)
  have hlist := Operand.list hq (.cons (operand_samplerTokens hq hname)
    (.cons (operand_selectTokens hq hname kind hblocks) (.cons hzero.operand .nil)))
  simpa using hlist

omit hq in
/-- A sample is a call, and it has the places of its indices. -/
theorem exists_sampleText_eq : ∃ f x,
    sampleText name kind (blocks.map textOf) = f ++ '(' :: (x ++ [')']) ∧
      isIdentifier f = true ∧ Bare f ∧ ∀ q, IsName q → Operand q (indexTails q blocks) x := by
  have hdecode : Bare "nc_decode".toList := bare_of_isBare (by decide +kernel)
  have hlod : Bare "textureLod".toList := bare_of_isBare (by decide +kernel)
  rw [← textOf_sampleTokens name kind fun b hb => (hblocks b hb).1.proper]
  unfold sampleTokens
  cases kind.element with
  | float =>
    refine ⟨"nc_decode".toList, _, textOf_call _ _ _, by decide, hdecode, fun q hq => ?_⟩
    rw [List.map_nil, argumentList_singleton, textureTokens, textOf_call]
    exact (operand_textureArguments hq hname kind hblocks).call hq hlod
  | color =>
    refine ⟨"textureLod".toList, _, textOf_call _ _ _, by decide, hlod, fun q hq => ?_⟩
    exact operand_textureArguments hq hname kind hblocks

end

end

end Texelwise

import Texelwise.Proofs.Kernel.BufferEdits

/-!
# Deleting declarations

The declaration of a scalar is replaced by nothing, and then a blank or a point before it may go
together with what comes after it. But no word goes together with anything, so a write stays what
it is.

* `Piece.exists_kept`: tokens between occurrences are kept one by one.
* `Piece.endBefore_emit`: what ends before a word still does after the pass.
* `mem_hits_replaceDeclarations`: a pass over declarations keeps all writes.
-/

namespace Texelwise

open Token

/-! ## Kept tokens -/

namespace Piece

variable {pieces : List Piece} {w : List Token}

/-- The first tokens are kept if no occurrence starts with one of them. -/
theorem exists_kept_prefix (hfree : ∀ o, .found o ∈ pieces → ∃ u us, o.taken = u :: us ∧ u ∉ w)
    (h : w <+: tokensOf pieces) : ∃ after, pieces = w.map .kept ++ after := by
  induction w generalizing pieces with
  | nil => exact ⟨pieces, rfl⟩
  | cons v w ih =>
    cases pieces with
    | nil => exact absurd (List.prefix_nil.mp h) (List.cons_ne_nil v w)
    | cons piece pieces =>
      cases piece with
      | kept t =>
        obtain ⟨rfl, hw⟩ := List.cons_prefix_cons.mp h
        obtain ⟨after, rfl⟩ := @ih pieces (fun o ho => by
          obtain ⟨u, us, htaken, hu⟩ := hfree o (List.mem_cons_of_mem _ ho)
          exact ⟨u, us, htaken, fun hmem => hu (List.mem_cons_of_mem v hmem)⟩) hw
        exact ⟨after, rfl⟩
      | found o =>
        obtain ⟨u, us, htaken, hu⟩ := hfree o List.mem_cons_self
        have hsplit : tokensOf (.found o :: pieces) = u :: (us ++ tokensOf pieces) := by
          rw [← List.cons_append, ← htaken]
          rfl
        rw [hsplit] at h
        exact absurd (List.mem_cons.mpr (.inl (List.cons_prefix_cons.mp h).1.symm)) hu

/-- A window that starts in no occurrence, and in which none starts, is kept token by token. -/
theorem exists_kept {v : Token} (hfree : ∀ o, .found o ∈ pieces →
      StartsOnly (v :: w) o.taken False ∧ ∃ u us, o.taken = u :: us ∧ u ∉ w)
    (h : v :: w <:+: tokensOf pieces) :
    ∃ before after, pieces = before ++ ((v :: w).map .kept ++ after) := by
  induction pieces with
  | nil => exact absurd (List.infix_nil.mp h) (List.cons_ne_nil v w)
  | cons piece pieces ih =>
    have hrest : v :: w <:+: tokensOf pieces →
        ∃ before after, piece :: pieces = before ++ ((v :: w).map .kept ++ after) := by
      intro hw
      obtain ⟨before, after, rfl⟩ := ih (fun o ho => hfree o (List.mem_cons_of_mem piece ho)) hw
      exact ⟨piece :: before, after, rfl⟩
    rcases @infix_append_cases (v :: w) piece.tokens (tokensOf pieces) h with
      hw | ⟨s, hs, hne, hw⟩
    · exact hrest hw
    · cases piece with
      | kept t =>
        obtain rfl : s = [t] := by
          rcases List.suffix_cons_iff.mp hs with hs | hs
          · exact hs
          · exact absurd (List.suffix_nil.mp hs) hne
        obtain ⟨rfl, htail⟩ := List.cons_prefix_cons.mp hw
        obtain ⟨after, hafter⟩ := exists_kept_prefix
          (fun o ho => (hfree o (List.mem_cons_of_mem _ ho)).2) htail
        exact ⟨[], after, by rw [hafter]; rfl⟩
      | found o => exact ((hfree o List.mem_cons_self).1 s hs hne _ hw).elim

end Piece

/-! ## Joins -/

theorem tokenize_append {x y : Text}
    (h : ∀ t ∈ (tokenize x).getLast?, ∀ c ∈ y.head?, t.EndsAt c) :
    tokenize (x ++ y) = tokenize x ++ tokenize y := by
  have hseparated : Separated (tokenize x ++ tokenize y) :=
    separatedBy_append.mpr ⟨separated_tokenize x, separated_tokenize y, fun t ht c hc => by
      rw [textOf_tokenize] at hc
      exact h t ht c hc⟩
  have htext : textOf (tokenize x ++ tokenize y) = x ++ y := by simp
  rw [← htext, tokenize_textOf hseparated]

/-- The last of the tokens, if there is one, ends before the character. -/
def EndBefore (ts : List Token) (c : Char) : Prop := ∀ t ∈ ts.getLast?, t.EndsAt c

theorem tokenize_text {t : Token} (h : t.Proper) : tokenize t.text = [t] := by
  have htokens := @tokenize_token_append t [] h (by simp)
  simpa using htokens

theorem TokenKind.ofStart_of_isDigit {c : Char} (h : c.isDigit = true) (rest : Text) :
    ofStart c rest = .number := by
  have hword : isWordChar c = true := by simp [isWordChar, Char.isAlphanum, h]
  have hletter : ¬ (c.isAlpha || c = '_') = true := fun hc => by
    rw [isDigit_of_isAlpha hc] at h
    cases h
  rw [ofStart, if_neg (by simp [isBlank_of_isWordChar hword]), if_neg hletter, if_pos (by simp [h])]

namespace Token

/-- What may follow a token may still follow it with more characters in front. -/
theorem EndsAt.of_append {t : Token} {x : Text} {c : Char} (hx : x ≠ []) (ht : t.text ≠ [])
    (h : t.EndsAt c) : (⟨t.kind, x ++ t.text⟩ : Token).EndsAt c := by
  refine ⟨?_, fun hdot => ?_⟩
  · have hlast : (x ++ t.text).getLastD c = t.text.getLastD c := by
      rw [List.getLastD_eq_getLast?, List.getLastD_eq_getLast?,
        List.getLast?_append_of_ne_nil _ ht]
    rw [hlast]
    exact h.1
  · have hlength := congrArg List.length hdot
    have := List.length_pos_of_ne_nil hx
    have := List.length_pos_of_ne_nil ht
    simp only [List.length_append, List.length_cons, List.length_nil] at hlength
    omega

/-- What goes on behind a token that ends before words: blanks, or a number behind its point. -/
theorem Proper.blank_or_point {u : Token} (hu : u.Proper) (hletter : u.EndsAt 'a') {d : Char}
    (hnot : ¬ u.EndsAt d) :
    (u.kind = .space ∧ Text.isBlank d = true) ∨ (u.text = ['.'] ∧ d.isDigit = true) := by
  have hword : isWordChar 'a' = true := by decide
  have hletter' := hletter.1
  cases hkind : u.kind with
  | ident =>
    rw [hkind, TokenKind.continues, hword] at hletter'
    cases hletter'
  | number =>
    rw [hkind] at hletter'
    simp [TokenKind.continues, hword] at hletter'
  | space =>
    refine .inl ⟨rfl, ?_⟩
    by_contra hd
    refine hnot ⟨by rw [hkind]; exact Bool.not_eq_true _ ▸ hd, fun hdot => ?_⟩
    have hpunct := hu.kind_eq hdot
    rw [hkind] at hpunct
    exact absurd hpunct (by decide)
  | punct =>
    refine .inr ?_
    by_contra hboth
    refine hnot ⟨by rw [hkind]; rfl, fun hdot => ?_⟩
    simpa [hdot] using hboth

theorem Proper.append_blank {u t : Token} (hu : u.Proper) (ht : t.Proper) (hu' : u.kind = .space)
    (ht' : t.kind = .space) : (blank (u.text ++ t.text)).Proper := by
  refine proper_blank (fun hnil => ht.text_ne_nil (List.append_eq_nil_iff.mp hnil).2) fun c hc => ?_
  rcases List.mem_append.mp hc with hc | hc
  · rw [hu.isBlank_eq hc]
    exact decide_eq_true hu'
  · rw [ht.isBlank_eq hc]
    exact decide_eq_true ht'

theorem Proper.point_append {t : Token} (ht : t.Proper) {d : Char} {more : Text}
    (htext : t.text = d :: more) (hdigit : d.isDigit = true) :
    t.kind = .number ∧ (⟨.number, '.' :: t.text⟩ : Token).Proper := by
  have hstart := TokenKind.ofStart_of_isDigit hdigit more
  obtain ⟨d', more', htext', hkind, hrun⟩ := id ht
  obtain ⟨rfl, rfl⟩ := List.cons.inj (htext'.symm.trans htext)
  have hnumber : t.kind = .number := hkind.symm.trans hstart
  have hpoint : TokenKind.ofStart '.' (d' :: more') = .number := by
    simp [TokenKind.ofStart, Text.isBlank, Text.blankRanges, hdigit]
  have hcontinues : TokenKind.number.continues '.' d' = true := by
    simp [TokenKind.continues, isWordChar, Char.isAlphanum, hdigit]
  rw [hnumber] at hrun
  refine ⟨hnumber, '.', d' :: more', by rw [htext], hpoint, ?_⟩
  rw [TokenKind.run_cons_of_continues hcontinues, hrun]

/-- A token that ends before words goes together only with a token of a kind that it starts. -/
theorem Proper.join {u t : Token} (hu : u.Proper) (ht : t.Proper) (hletter : u.EndsAt 'a')
    (hjoin : ¬ ∀ c ∈ t.text.head?, u.EndsAt c) : (⟨t.kind, u.text ++ t.text⟩ : Token).Proper := by
  obtain ⟨d, more, htext, hstart, -⟩ := id ht
  have hnot : ¬ u.EndsAt d := fun hd => hjoin fun c hc => by
    rw [htext] at hc
    obtain rfl : d = c := Option.some.inj hc
    exact hd
  rcases hu.blank_or_point hletter hnot with ⟨hspace, hblank⟩ | ⟨hdot, hdigit⟩
  · have ht' : t.kind = .space := hstart.symm.trans (TokenKind.ofStart_of_isBlank hblank more)
    rw [ht']
    exact hu.append_blank ht hspace ht'
  · obtain ⟨hnumber, hproper⟩ := ht.point_append htext hdigit
    rw [hnumber, hdot]
    exact hproper

end Token

theorem EndBefore.letter {ts : List Token} {c c' : Char} (h : EndBefore ts c)
    (hc : (c.isAlpha || c = '_') = true) (hc' : (c'.isAlpha || c' = '_') = true) :
    EndBefore ts c' :=
  fun t ht => (h t ht).of_isAlpha hc hc'

theorem endBefore_concat {ts : List Token} {t : Token} {c : Char} :
    EndBefore (ts ++ [t]) c ↔ t.EndsAt c := by
  simp [EndBefore]

/-- A token after a text that words may follow ends where it ended alone. -/
theorem exists_tokenize_append {x : Text} {t : Token} (ht : t.Proper)
    (hx : EndBefore (tokenize x) 'a') :
    ∃ us v, tokenize (x ++ t.text) = us ++ [v] ∧ ∀ c, t.EndsAt c → v.EndsAt c := by
  by_cases hends : ∀ c ∈ t.text.head?, EndBefore (tokenize x) c
  · refine ⟨tokenize x, t, ?_, fun c hc => hc⟩
    rw [tokenize_append fun u hu c hc => hends c hc u hu, tokenize_text ht]
  rcases List.eq_nil_or_concat (tokenize x) with hnil | ⟨us, u, hu⟩
  · refine absurd (fun c _ t ht => ?_) hends
    rw [hnil] at ht
    cases ht
  rw [List.concat_eq_append] at hu
  have hseparated : Separated (us ++ [u]) := hu ▸ separated_tokenize x
  have hproper : u.Proper := hseparated.proper (by simp)
  rw [hu] at hends hx
  simp only [endBefore_concat] at hends hx
  have hv := hproper.join ht hx hends
  refine ⟨us, _, ?_, fun c hc => hc.of_append hproper.text_ne_nil ht.text_ne_nil⟩
  have hjoined : Separated (us ++ [⟨t.kind, u.text ++ t.text⟩]) := by
    obtain ⟨hus, -, hlast⟩ := separatedBy_append.mp hseparated
    refine separatedBy_append.mpr ⟨hus, ⟨hv, by simp, trivial⟩, fun w hw c hc => hlast w hw c ?_⟩
    simpa [List.head?_append_of_ne_nil _ hproper.text_ne_nil] using hc
  have htext : textOf (us ++ [⟨t.kind, u.text ++ t.text⟩]) = x ++ t.text := by
    rw [← textOf_tokenize x, hu]
    simp
  rw [← htext, tokenize_textOf hjoined]

/-! ## What stands before a word -/

/-- The occurrences start with words, and they are replaced by nothing or by texts that end with a
semicolon. -/
def Piece.Deletes (substitute : Occurrence → Text) (pieces : List Piece) : Prop :=
  ∀ o, .found o ∈ pieces → StartsName (textOf o.taken) ∧
    (substitute o = [] ∨ ∃ more, substitute o = more ++ [';'])

namespace Piece

variable {substitute : Occurrence → Text} {pieces : List Piece}

/-- After the pieces each character may follow that may follow their tokens, or at least words. -/
theorem endBefore_emit_or (h : Deletes substitute pieces) (hs : Separated (tokensOf pieces)) :
    (∀ c, EndBefore (tokensOf pieces) c →
        EndBefore (tokenize (pieces.flatMap (emit substitute))) c) ∨
      EndBefore (tokenize (pieces.flatMap (emit substitute))) 'a' := by
  -- From the end: a kept token ends the text as before, and a deletion leaves what was in front.
  induction pieces using List.reverseRecOn with
  | nil => exact .inl fun c _ t ht => by simp at ht
  | append_singleton pieces piece ih =>
    have hsplit : tokensOf (pieces ++ [piece]) = tokensOf pieces ++ piece.tokens := by
      simp [tokensOf]
    rw [hsplit] at hs ⊢
    obtain ⟨hpieces, hpiece, hlast⟩ := separatedBy_append.mp hs
    have hbefore := ih (fun o ho => h o (List.mem_append_left _ ho)) hpieces
    rw [List.flatMap_append, List.flatMap_singleton]
    cases piece with
    | kept t =>
      have ht : t.Proper := hpiece.proper List.mem_cons_self
      refine .inl fun c hc => ?_
      have hc' : t.EndsAt c := endBefore_concat.mp hc
      rcases hbefore with hall | hletter
      · have htokens : tokenize (pieces.flatMap (emit substitute) ++ t.text) =
            tokenize (pieces.flatMap (emit substitute)) ++ [t] := by
          rw [← tokenize_text ht]
          refine tokenize_append fun u hu d hd => hall d (fun v hv => hlast v hv d ?_) u hu
          simpa [tokens] using hd
        rw [emit, htokens]
        exact endBefore_concat.mpr hc'
      · obtain ⟨us, v, htokens, hends⟩ := exists_tokenize_append ht hletter
        rw [emit, htokens]
        exact endBefore_concat.mpr (hends c hc')
    | found o =>
      obtain ⟨⟨d, more, htext, hd⟩, hsubstitute⟩ := h o (by simp)
      refine .inr ?_
      rw [emit]
      rcases hsubstitute with hnil | ⟨front, hfront⟩
      · rw [hnil, List.append_nil]
        rcases hbefore with hall | hletter
        · have hletter : EndBefore (tokensOf pieces) d := fun t ht => by
            refine hlast t ht d ?_
            rw [show (Piece.found o).tokens = o.taken from rfl, htext]
            rfl
          exact (hall d hletter).letter hd (by decide)
        · exact hletter
      · rw [hfront, ← List.append_assoc, tokenize_append_mark (by decide), tokenize_nil]
        exact endBefore_concat.mpr (mark_endsAt (by decide) 'a')

/-- What may stand before a word may still stand there after the pass. -/
theorem endBefore_emit (h : Deletes substitute pieces) (hs : Separated (tokensOf pieces))
    {c : Char} (hc : (c.isAlpha || c = '_') = true) (hend : EndBefore (tokensOf pieces) c) :
    EndBefore (tokenize (pieces.flatMap (emit substitute))) c := by
  rcases endBefore_emit_or h hs with hall | hletter
  · exact hall c hend
  · exact hletter.letter (by decide) hc

/-- A window that starts with a word, ends with a mark and is kept is still there. -/
theorem infix_tokenize_emit (h : Deletes substitute pieces) (hs : Separated (tokensOf pieces))
    {before after : List Piece} {v : Token} {w : List Token} {c : Char} (hc : isCut c = true)
    (hv : v.kind = .ident)
    (heq : pieces = before ++ ((v :: (w ++ [mark c])).map .kept ++ after)) :
    v :: (w ++ [mark c]) <:+: tokenize (pieces.flatMap (emit substitute)) := by
  have htokens : tokensOf pieces = tokensOf before ++ (v :: w ++ mark c :: tokensOf after) := by
    rw [heq]
    simp [tokensOf, tokens, List.flatMap_map]
  rw [htokens] at hs
  obtain ⟨hbefore, hwindow, hlast⟩ := separatedBy_append.mp hs
  obtain ⟨hfront, -, -⟩ := separatedBy_append.mp hwindow
  -- Nothing goes into the first word of the window, and the mark at its end cuts off the rest.
  obtain ⟨d, more, htext, hd⟩ := hfront.1.isAlpha_of_ident hv
  have hletter : EndBefore (tokensOf before) d := fun t ht => by
    refine hlast t ht d ?_
    simp [htext]
  have hend := endBefore_emit
    (fun o ho => h o (by rw [heq]; exact List.mem_append_left _ ho)) hbefore hd hletter
  have hjoined : tokenize (before.flatMap (emit substitute) ++ textOf (v :: w)) =
      tokenize (before.flatMap (emit substitute)) ++ (v :: w) := by
    rw [tokenize_append fun t ht e he => ?_, tokenize_textOf hfront]
    obtain rfl : d = e := by simpa [htext] using he
    exact hend t ht
  have htext : pieces.flatMap (emit substitute) =
      before.flatMap (emit substitute) ++ textOf (v :: w) ++
        c :: after.flatMap (emit substitute) := by
    have hkept : ∀ us : List Token, (us.map Piece.kept).flatMap (emit substitute) = textOf us :=
      fun us => by simp [List.flatMap_map, emit, textOf]
    rw [heq, List.flatMap_append, List.flatMap_append, hkept]
    simp [mark]
  rw [htext, tokenize_append_mark hc, hjoined]
  exact ⟨tokenize (before.flatMap (emit substitute)), tokenize (after.flatMap (emit substitute)),
    by simp⟩

end Piece

/-! ## Writes -/

/-- No write starts in a declaration. -/
theorem DeclarationOf.startsOnly_write {type name k : Text} {w w' : List Token}
    (h : DeclarationOf type name w) (hw' : Bracketed k w') :
    StartsOnly (word threadWord :: w') w False := by
  obtain ⟨hb, -, -, hb', hn, -, hgap⟩ := h
  rename_i b t b' n gap
  have hspace : ∀ u : Token, u.kind = .space → word threadWord ≠ u := by
    rintro u hu rfl
    cases hu
  have hafter : ∀ us : List Token, w' <+: us → afterMark? '[' us ≠ none := by
    rintro us ⟨zs, rfl⟩ hnone
    have hsome := hw'.isSome_afterMark? zs
    rw [hnone] at hsome
    cases hsome
  -- Only the type and the name could be `thread`, and no bracket follows either.
  refine .cons (fun zs hw => ?_) (.cons (fun zs hw => ?_) (.cons (fun zs hw => ?_)
    (.cons (fun zs hw => ?_) (.cons (fun zs hw => ?_) (.of_not_mem ?_)))))
  · exact absurd (List.cons_prefix_cons.mp hw).1 (by decide)
  · exact hspace b hb (List.cons_prefix_cons.mp hw).1
  · have hne : n ≠ mark '[' := by
      rintro rfl
      rcases hn with hn | hn <;> cases hn
    refine hafter _ (List.cons_prefix_cons.mp hw).2 ?_
    simp [afterMark?, skipBlank, hb', next?, hne]
  · exact hspace b' hb' (List.cons_prefix_cons.mp hw).1
  · have hend : afterMark? ';' (gap ++ [mark ';'] ++ zs) = some zs :=
      afterMark?_eq_some_iff.mpr ⟨gap, hgap, by rw [List.append_assoc]; rfl⟩
    exact hafter _ (List.cons_prefix_cons.mp hw).2 (afterMark?_eq_none_of (by decide) hend)
  · intro hmem
    rcases List.mem_append.mp hmem with hmem | hmem
    · exact hspace _ (hgap.kind_eq hmem) rfl
    · exact absurd (List.mem_singleton.mp hmem) (by decide)

/-- Where declarations are replaced so, all writes stay. -/
theorem Piece.mem_hits_emit {substitute : Occurrence → Text} {pieces : List Piece}
    (h : Deletes substitute pieces) (hs : Separated (tokensOf pieces))
    (hfound : ∀ o, .found o ∈ pieces → ∃ type name, DeclarationOf type name o.taken) {k : Text}
    (hk : k ∈ hits writeAt (tokensOf pieces)) :
    k ∈ hits writeAt (tokenize (pieces.flatMap (emit substitute))) := by
  obtain ⟨w, hw, hwindow⟩ := (mem_hits_writeAt_iff fun u hu => hs.proper hu).mp hk
  obtain ⟨before, after, hsplit⟩ := exists_kept (fun o ho => by
    obtain ⟨type, name, hdeclaration⟩ := hfound o ho
    obtain ⟨us, htaken⟩ := hdeclaration.exists_cons
    exact ⟨hdeclaration.startsOnly_write hw, _, us, htaken, fun hmem => hw.kind_ne hmem rfl⟩)
    hwindow
  obtain ⟨more, rfl⟩ := hw.exists_eq_append
  exact (mem_hits_writeAt_iff proper_tokenize).mpr
    ⟨_, hw, infix_tokenize_emit h hs (by decide) rfl hsplit⟩

/-- Replacing declarations keeps all writes. -/
theorem mem_hits_replaceDeclarations {type : Text} (htype : isIdentifier type = true)
    {table : BindingTable} (htable : ∀ name slot, table.slot? name = some slot →
      slot.texture.isSome → isIdentifier name = true) {x y k : Text}
    (h : replaceDeclarations type table x = .ok y) (hk : k ∈ hits writeAt (tokenize x)) :
    k ∈ hits writeAt (tokenize y) := by
  have hconsumes := consumes_declaration (.literal type)
  have hfound : ∀ o, .found o ∈ (Pattern.declaration (.literal type)).walk (tokenize x) →
      ∃ name, DeclarationOf type name o.taken := by
    intro o ho
    obtain ⟨us, m, hus, hm, rfl⟩ := Pattern.match?_of_mem_walk ho
    obtain ⟨name, hw, -⟩ :=
      match?_declaration_literal htype (fun u hu => proper_tokenize u (hus.subset hu)) hm
    exact ⟨name, hw⟩
  have hdeletes : Piece.Deletes table.replacement
      ((Pattern.declaration (.literal type)).walk (tokenize x)) := by
    intro o ho
    obtain ⟨name, hw⟩ := hfound o ho
    obtain ⟨hstarts, more, hmore⟩ := hw.exists_textOf_eq
    refine ⟨hstarts, ?_⟩
    rcases table.replacement_cases o with hsame | ⟨slot, hs, hnone | ⟨binding, hbinding, htext⟩⟩
    · exact .inr ⟨more, by rw [hsame, ← hmore]; rfl⟩
    · exact .inl hnone.2
    · obtain ⟨front, hfront, -⟩ :=
        exists_textureText_eq (htable _ slot hs (by rw [hbinding]; rfl)) binding
      exact .inr ⟨front, htext.trans hfront⟩
  rw [replaceDeclarations_eq, Pattern.replaceAll_eq_walk hconsumes] at h
  obtain rfl := Except.ok.inj h
  have htokens := Pattern.tokensOf_walk hconsumes (tokenize x)
  refine Piece.mem_hits_emit hdeletes ?_ (fun o ho => ⟨type, hfound o ho⟩) ?_
  · rw [htokens]
    exact separated_tokenize x
  · rwa [htokens]

end Texelwise

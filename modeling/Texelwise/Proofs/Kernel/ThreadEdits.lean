import Texelwise.Proofs.Kernel.BufferEdits

/-!
# The passes for the thread as edits

The passes for extents and for the header put in words and a function header. They bring no write
that was not there, although a name right before a header grows into the first word that is put in.

* `BringsNoWrite.mem_hits`: edits into which no write goes bring none.
* `mem_hits_replaceOutputExtents`: the pass for extents.
* `HeaderEdit`, `edited_replaceHeader`, `mem_hits_replaceHeader`: the pass for the header.
-/

namespace Texelwise

open Token

/-! ## Edits without writes -/

/-- What is put in has writes only where what it stands for has them, and no write goes into it. -/
structure BringsNoWrite (R : List Token → List Token → Prop) : Prop where
  stops : ∀ old new, R old new → ∀ k w, Bracketed k w → Stops w new
  starts : ∀ old new, R old new → ∀ k w, Bracketed k w →
    StartsOnly (word threadWord :: w) new (word threadWord :: w <:+: old)

theorem BringsNoWrite.mem_hits {R : List Token → List Token → Prop} (hR : BringsNoWrite R)
    {ts us : List Token} (h : Edited R ts us) (hts : ∀ u ∈ ts, u.Proper)
    (hus : ∀ u ∈ us, u.Proper) {k : Text} (hk : k ∈ hits writeAt us) : k ∈ hits writeAt ts := by
  obtain ⟨w, hw, hwindow⟩ := (mem_hits_writeAt_iff hus).mp hk
  exact (mem_hits_writeAt_iff hts).mpr ⟨w, hw, h.infix_of_infix
    (fun old new hedit => hR.stops old new hedit k w hw)
    (fun old new hedit => hR.starts old new hedit k w hw) hwindow⟩

/-! ## Extents -/

/-- The member for an extent in the place of tokens. -/
inductive ExtentEdit : List Token → List Token → Prop
  | mk {f : Text} (old : List Token) (hf : f ∈ extentFields) :
      ExtentEdit old [word (threadOutputName f)]

theorem ExtentEdit.bringsNoWrite : BringsNoWrite ExtentEdit := by
  refine ⟨fun old new h k w hw => ?_, fun old new h k w hw => ?_⟩
  · cases h with
    | mk => exact hw.stops rfl []
  · cases h with
    | mk _ hf =>
      refine .of_not_mem fun hmem => ?_
      obtain ⟨-, hgenerated⟩ := generated_threadOutputName hf
      have htext := congrArg Token.text (List.mem_singleton.mp hmem)
      rw [show threadOutputName _ = threadWord from htext.symm] at hgenerated
      exact absurd hgenerated (by decide)

theorem edited_replaceOutputExtent {f : Text} (hf : f ∈ extentFields) {x y : Text}
    (h : (Pattern.field threadWord f).replaceAll (fun _ => threadOutputName f) x = .ok y) :
    Edited ExtentEdit (tokenize x) (tokenize y) := by
  have hthread : isIdentifier threadWord = true := by decide
  have hfield := isIdentifier_of_mem_extentFields hf
  have hname := (generated_threadOutputName hf).1
  refine Pattern.edited_replaceAll rfl (fun us m hus hm => ?_) h
  refine ⟨seamless_field hthread hfield hname
    (fun u hu => proper_tokenize u (hus.subset hu)) hm, .inl ?_⟩
  rw [tokenize_of_isIdentifier hname]
  exact .mk _ hf

/-- The pass for extents brings no write. -/
theorem mem_hits_replaceOutputExtents {x y k : Text} (h : replaceOutputExtents x = .ok y)
    (hk : k ∈ hits writeAt (tokenize y)) : k ∈ hits writeAt (tokenize x) := by
  obtain ⟨y', hy', hmem⟩ := exists_foldlM_ok_of
    (P := fun y => k ∈ hits writeAt (tokenize y) → k ∈ hits writeAt (tokenize x))
    (fun z hz f hf => by
      obtain ⟨next, hnext⟩ := (Pattern.Built.field threadWord f).exists_replaceAll
        (fun _ => threadOutputName f) z
      exact ⟨next, hnext, fun hk => hz (ExtentEdit.bringsNoWrite.mem_hits
        (edited_replaceOutputExtent hf hnext) proper_tokenize proper_tokenize hk)⟩) id
  obtain rfl : y = y' := Except.ok.inj (h.symm.trans hy')
  exact hmem hk

/-! ## Names that grow -/

/-- A continuation goes on through characters that continue it whatever stands before them. -/
theorem TokenKind.run_append_of_continues {kind : TokenKind} {before : Char} {t u : Text}
    (ht : kind.run before t = (t, [])) (hu : ∀ before, ∀ c ∈ u, kind.continues before c = true) :
    kind.run before (t ++ u) = (t ++ u, []) := by
  induction t generalizing before with
  | nil => exact run_of_all hu before
  | cons c t ih =>
    cases hc : kind.continues before c with
    | true =>
      rw [run_cons_of_continues hc, Prod.mk.injEq, List.cons.injEq] at ht
      rw [List.cons_append, run_cons_of_continues hc, ih (Prod.ext ht.1.2 ht.2)]
    | false =>
      rw [run_cons_of_stops hc] at ht
      cases ht

/-- A name goes on through letters, digits and underscores. -/
theorem Token.Proper.append_word {t : Token} (ht : t.Proper)
    (hkind : t.kind = .ident ∨ t.kind = .number) {w : Text} (hw : w.all isWordChar = true) :
    (⟨t.kind, t.text ++ w⟩ : Token).Proper := by
  obtain ⟨c, more, htext, hstart, hrun⟩ := ht
  have hcontinues : ∀ before, ∀ d ∈ w, t.kind.continues before d = true := by
    intro before d hd
    have hword := List.all_eq_true.mp hw d hd
    rcases hkind with hkind | hkind <;> simp [hkind, TokenKind.continues, hword]
  refine ⟨c, more ++ w, by rw [htext]; rfl, ?_, TokenKind.run_append_of_continues hrun hcontinues⟩
  rw [TokenKind.ofStart_append, hstart]
  rintro rfl rfl
  rw [← hstart] at hkind
  rcases hkind with hkind | hkind <;> exact absurd hkind (by decide)

theorem Token.endsAt_blank {t : Token} (hkind : t.kind = .ident ∨ t.kind = .number) :
    t.EndsAt ' ' := by
  have hword : isWordChar ' ' = false := by decide
  refine ⟨?_, fun _ => by decide⟩
  rcases hkind with hkind | hkind <;> simp [hkind, TokenKind.continues, hword]

/-! ## The header -/

/-- A function header in the place of tokens. Its first word may have grown out of a name. -/
inductive HeaderEdit : List Token → List Token → Prop
  | mk {v : Token} {old block : List Token} (hkind : v.kind = .ident ∨ v.kind = .number)
      (hvoid : "void".toList <:+ v.text) (hblock : block <:+: old) :
      HeaderEdit old
        (v :: blank [' '] :: word threadWord :: mark '(' :: (trimBlanks block ++ [mark ')']))

theorem HeaderEdit.bringsNoWrite : BringsNoWrite HeaderEdit := by
  refine ⟨fun old new h k w hw => ?_, fun old new h k w hw => ?_⟩
  · obtain ⟨hkind, -, -⟩ := h
    rename_i v block
    refine .of_stop [v, blank [' ']] (fun hmem => hw.kind_ne hmem rfl) fun t ht => ?_
    obtain ⟨more, rfl⟩ := hw.exists_eq_append
    rw [List.getLast?_concat] at ht
    obtain rfl : mark ']' = t := Option.some.inj ht
    rintro (_ | ⟨_, _ | ⟨_, ⟨⟩⟩⟩)
    rcases hkind with hkind | hkind <;> cases hkind
  · obtain ⟨-, hvoid, hblock⟩ := h
    rename_i v block
    have hclose : mark ')' ∉ word threadWord :: w := by
      rw [List.mem_cons, not_or]
      exact ⟨by decide, hw.mark_not_mem (by decide) (by decide)⟩
    refine .cons (fun zs hwindow => ?_) (.cons (fun zs hwindow => ?_) (.cons (fun zs hwindow => ?_)
      (.cons (fun zs hwindow => ?_) (.of_stop hclose fun hwindow => ?_))))
    · rw [← (List.cons_prefix_cons.mp hwindow).1] at hvoid
      exact absurd hvoid (by decide)
    · exact absurd (List.cons_prefix_cons.mp hwindow).1 (by decide)
    · obtain ⟨rest, hrest⟩ := (List.cons_prefix_cons.mp hwindow).2
      have hsome := hw.isSome_afterMark? rest
      rw [hrest] at hsome
      cases hsome
    · exact absurd (List.cons_prefix_cons.mp hwindow).1 (by decide)
    · exact hwindow.trans ((isInfix_trimBlanks block).trans hblock)

/-- What stands for the header. -/
def functionHeader (o : Occurrence) : Text :=
  "void thread(".toList ++ Text.trim (o.capture 1) ++ [')']

theorem functionHeader_append (o : Occurrence) (y : Text) : functionHeader o ++ y =
    "void".toList ++ (' ' :: threadWord ++ '(' :: (Text.trim (o.capture 1) ++ ')' :: y)) := by
  unfold functionHeader
  generalize Text.trim (o.capture 1) = parameters
  rw [List.append_assoc, List.append_assoc]
  rfl

/-- The tokens of a function header after a name or nothing. -/
theorem tokenize_functionHeader {lead : Option Token}
    (hkind : ∀ t ∈ lead, t.kind = .ident ∨ t.kind = .number) (hp : ∀ t ∈ lead, t.Proper)
    {block : List Token} (hblock : Separated block) {o : Occurrence}
    (ho : o.capture 1 = textOf block) (y : Text) :
    ∃ v : Token, (v.kind = .ident ∨ v.kind = .number) ∧ "void".toList <:+ v.text ∧
      tokenize (textOf lead.toList ++ (functionHeader o ++ y)) =
        v :: blank [' '] :: word threadWord :: mark '(' :: (trimBlanks block ++ [mark ')']) ++
          tokenize y := by
  -- A name right before the header grows by `void`.
  obtain ⟨v, hproper, hv, hvoid, hfront⟩ : ∃ v : Token, v.Proper ∧
      (v.kind = .ident ∨ v.kind = .number) ∧ "void".toList <:+ v.text ∧
        v.text = textOf lead.toList ++ "void".toList := by
    cases lead with
    | none => exact ⟨word "void".toList, proper_word (by decide), .inl rfl, List.suffix_refl _, rfl⟩
    | some t =>
      exact ⟨⟨t.kind, t.text ++ "void".toList⟩, (hp t rfl).append_word (hkind t rfl) (by decide),
        hkind t rfl, List.suffix_append _ _, by simp⟩
  have htrim : tokenize (Text.trim (textOf block)) = trimBlanks block := by
    rw [← textOf_trimBlanks fun u hu => hblock.proper hu]
    exact tokenize_textOf (hblock.of_isInfix (isInfix_trimBlanks block))
  have hthread : tokenize (' ' :: threadWord) = [blank [' '], word threadWord] := by
    rw [← List.singleton_append, tokenize_blank (List.cons_ne_nil _ _)
      (fun c hc => isBlank_of_mem_space hc) (fun c hc => by cases hc; decide),
      tokenize_of_isIdentifier (by decide)]
  have hwords : tokenize (v.text ++ ' ' :: threadWord) =
      [v, blank [' '], word threadWord] := by
    rw [tokenize_token_append hproper fun c hc => ?_, hthread]
    obtain rfl : ' ' = c := Option.some.inj hc
    exact endsAt_blank hv
  have htext : textOf lead.toList ++ (functionHeader o ++ y) =
      (v.text ++ ' ' :: threadWord) ++ '(' :: (Text.trim (textOf block) ++ ')' :: y) := by
    rw [functionHeader_append, hfront, ho]
    simp only [List.append_assoc]
  refine ⟨v, hv, hvoid, ?_⟩
  rw [htext, tokenize_append_mark (c := '(') (by decide), hwords,
    tokenize_append_mark (c := ')') (by decide), htrim]
  simp

/-- What an occurrence captures is the text of some of the tokens that it takes. -/
theorem Pattern.exists_capture_eq {p : Pattern} {ts : List Token} {m : Match}
    (h : p.match? ts = some m) (i : Nat) :
    ∃ us, us <:+: m.taken ∧ (⟨m.taken, m.captures⟩ : Occurrence).capture i = textOf us := by
  rw [Occurrence.capture, List.getD_eq_getElem?_getD]
  cases hi : m.captures[i]? with
  | none => exact ⟨[], List.nil_infix, rfl⟩
  | some c => exact captures_infix h c (List.mem_of_getElem? hi)

/-- Putting in function headers edits the tokens of the pieces. -/
theorem Piece.edited_functionHeader {pieces : List Piece} (hs : Separated (tokensOf pieces))
    (h : ∀ o, .found o ∈ pieces → ∃ block, block <:+: o.taken ∧ o.capture 1 = textOf block) :
    Edited HeaderEdit (tokensOf pieces) (tokenize (pieces.flatMap (emit functionHeader))) := by
  have hstarts : ∀ o, StartsName (functionHeader o) := fun o => ⟨'v', _, rfl, by decide⟩
  revert h
  refine growth_induction ?_ ?_ ?_ pieces hs fun o _ => hstarts o
  · intro _
    simpa [tokensOf] using Edited.nil
  · intro t pieces hs hends ih h
    have hkeep := Edited.keep t (ih fun o ho => h o (List.mem_cons_of_mem _ ho))
    rwa [← tokenize_token_append hs.1 hends] at hkeep
  · -- a name right before the header goes together with `void`
    intro lead o pieces hkind hs ih h
    obtain ⟨block, hblock, ho⟩ := h o (by simp)
    obtain ⟨hlead, hrest, -⟩ := separatedBy_append.mp hs
    have hseparated := (separatedBy_append.mp hrest).1.of_isInfix hblock
    have hp : ∀ t ∈ lead, t.Proper := fun t ht => hlead.proper (Option.mem_toList.mpr ht)
    have htokens : tokensOf (lead.toList.map .kept ++ .found o :: pieces) =
        (lead.toList ++ o.taken) ++ tokensOf pieces := by
      simp [tokensOf, tokens, List.flatMap_map]
    have htext : (lead.toList.map kept ++ found o :: pieces).flatMap (emit functionHeader) =
        textOf lead.toList ++ (functionHeader o ++ pieces.flatMap (emit functionHeader)) := by
      simp [emit, List.flatMap_map, textOf]
    obtain ⟨v, hv, hvoid, htokenize⟩ := tokenize_functionHeader hkind hp hseparated ho
      (pieces.flatMap (emit functionHeader))
    rw [htokens, htext, htokenize]
    exact .edit (.mk hv hvoid (hblock.trans (List.suffix_append _ _).isInfix))
      (ih fun o' ho' => h o' (by simp [ho']))

/-- The pass for the header edits the tokens of a text. -/
theorem edited_replaceHeader {x y : Text} (h : replaceHeader x = .ok y) :
    Edited HeaderEdit (tokenize x) (tokenize y) := by
  have htokens := @Pattern.tokensOf_walk .header rfl (tokenize x)
  have hreplace : Pattern.header.replaceAll functionHeader x = .ok y := h
  rw [Pattern.replaceAll_eq_walk rfl] at hreplace
  obtain rfl := Except.ok.inj hreplace
  have hedited := @Piece.edited_functionHeader (Pattern.header.walk (tokenize x))
    (htokens.symm ▸ separated_tokenize x) fun o ho => by
      obtain ⟨us, m, -, hm, rfl⟩ := Pattern.match?_of_mem_walk ho
      exact Pattern.exists_capture_eq hm 1
  rwa [htokens] at hedited

/-- The pass for the header brings no write. -/
theorem mem_hits_replaceHeader {x y k : Text} (h : replaceHeader x = .ok y)
    (hk : k ∈ hits writeAt (tokenize y)) : k ∈ hits writeAt (tokenize x) :=
  HeaderEdit.bringsNoWrite.mem_hits (edited_replaceHeader h) proper_tokenize proper_tokenize hk

end Texelwise

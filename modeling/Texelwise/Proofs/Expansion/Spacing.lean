import Texelwise.Proofs.Expansion.Compose

/-!
# The spacing of images

The text of an image is split into the tokens of the image again: no replacement goes on into what
follows it. A write ends with a bracket and what stands for it ends with a name, so this needs that
no word follows a closing bracket.

* `Spaced`: separated tokens with no word directly after a closing bracket.
* `Rules.spaced_image`: an image of spaced tokens is spaced.
* `Rules.textOf_image`: the text of an image is the expansion.
-/

namespace Texelwise

open Token

/-! ## Spaced tokens -/

/-- The token ends before the character `c`, which is no word character after a bracket. -/
def Token.ClearOf (t : Token) (c : Char) : Prop :=
  t.EndsAt c ∧ (t = mark ']' → isWordChar c = false)

/-- Separated tokens with no word directly after a closing bracket. -/
abbrev Spaced (ts : List Token) : Prop := SeparatedBy ClearOf ts

theorem Spaced.separated {ts : List Token} (h : Spaced ts) : Separated ts :=
  h.mono fun _ _ hc => hc.1

/-- A token that is neither a word nor a number starts with no character of a word. -/
theorem Token.Proper.isWordChar_of_mem_head? {t : Token} (ht : t.Proper) (hident : t.kind ≠ .ident)
    (hnumber : t.kind ≠ .number) : ∀ c ∈ t.text.head?, isWordChar c = false := by
  obtain ⟨c, more, htext, hstart, -⟩ := ht
  intro d hd
  obtain rfl : c = d := by simpa [htext] using hd
  by_contra hword
  have hword : isWordChar c = true := by simpa using hword
  rw [TokenKind.ofStart, if_neg (by simp [isBlank_of_isWordChar hword])] at hstart
  simp only [isWordChar, Char.isAlphanum, Bool.or_eq_true] at hword
  split at hstart
  · exact hident hstart.symm
  · rename_i halpha
    simp only [Bool.or_eq_true, not_or] at halpha
    have hdigit : c.isDigit = true := by
      rcases hword with (hword | hword) | hword
      · exact absurd hword halpha.1
      · exact hword
      · exact absurd hword halpha.2
    rw [if_pos (by simp [hdigit])] at hstart
    exact hnumber hstart.symm

/-- Separated tokens are spaced when no word or number follows a closing bracket. -/
theorem Separated.spaced {ts : List Token} (hts : Separated ts)
    (hchain : ts.IsChain fun t u => t = mark ']' → u.kind ≠ .ident ∧ u.kind ≠ .number) :
    Spaced ts := by
  induction ts with
  | nil => trivial
  | cons t ts ih =>
    cases ts with
    | nil => exact ⟨hts.1, fun c hc => absurd hc (by simp), trivial⟩
    | cons u us =>
      obtain ⟨hfirst, hrest⟩ := List.isChain_cons_cons.mp hchain
      have hu : u.Proper := hts.2.2.1
      refine ⟨hts.1, fun c hc => ⟨hts.2.1 c hc, fun hmark => ?_⟩, ih hts.2.2 hrest⟩
      obtain ⟨hident, hnumber⟩ := hfirst hmark
      refine hu.isWordChar_of_mem_head? hident hnumber c ?_
      rwa [textOf_cons, List.head?_append_of_ne_nil _ hu.text_ne_nil] at hc

namespace Token

theorem ClearOf.isWordChar_eq {t : Token} {c : Char} (h : t.ClearOf c)
    (ht : t = mark ']' ∨ t.kind = .ident) : isWordChar c = false := by
  rcases ht with ht | ht
  · exact h.2 ht
  · have hends := h.1.1
    rwa [ht] at hends

theorem clearOf_of_kind {t : Token} {c : Char} (hp : t.Proper) (hkind : t.kind = .ident)
    (hc : isWordChar c = false) : t.ClearOf c := by
  refine ⟨⟨by rw [hkind]; exact hc, fun hdot => ?_⟩, fun hmark => ?_⟩
  · have := hp.kind_eq hdot
    rw [hkind] at this
    exact absurd this (by decide)
  · rw [hmark] at hkind
    cases hkind

theorem mark_clearOf {d : Char} (hdot : d ≠ '.') (hclose : d ≠ ']') (c : Char) :
    (mark d).ClearOf c :=
  ⟨mark_endsAt hdot c, fun h => absurd (by simpa [mark] using h) hclose⟩

theorem clearOf_of_isCut {c : Char} (h : isCut c = true) (t : Token) : t.ClearOf c := by
  refine ⟨endsAt_of_isCut h t, fun _ => ?_⟩
  simp only [isCut, Bool.and_eq_true, Bool.not_eq_true'] at h
  exact h.1.2

theorem blank_clearOf {w : Text} (hw : ∀ c ∈ w, Text.isBlank c = true) {c : Char}
    (hc : Text.isBlank c = false) : (blank w).ClearOf c := by
  refine ⟨(blank_endsAt hw).mpr hc, fun h => ?_⟩
  cases h

/-- A name starts with a letter or underscore. -/
theorem Proper.isAlpha_of_ident {t : Token} (h : t.Proper) (hkind : t.kind = .ident) :
    ∃ c more, t.text = c :: more ∧ (c.isAlpha || c = '_') = true := by
  obtain ⟨c, more, htext, hstart, -⟩ := h
  refine ⟨c, more, htext, ?_⟩
  rw [hkind, TokenKind.ofStart] at hstart
  split at hstart
  · cases hstart
  · split at hstart
    · assumption
    · split at hstart <;> cases hstart

/-- What ends before one name ends before every name. -/
theorem ClearOf.of_isAlpha {t : Token} {c c' : Char} (h : t.ClearOf c)
    (hc : (c.isAlpha || c = '_') = true) (hc' : (c'.isAlpha || c' = '_') = true) :
    t.ClearOf c' := by
  refine ⟨h.1.of_isAlpha hc hc', fun hmark => ?_⟩
  have hword := isWordChar_of_isAlpha hc
  rw [h.2 hmark] at hword
  cases hword

end Token

/-! ## Samples are spaced -/

/-- As `R` says, every token ends before a mark, blanks before what is no blank, and marks before
everything, but points and closing brackets need not. -/
structure EndsAtMarks (R : Token → Char → Prop) : Prop where
  cut : ∀ {c}, isCut c = true → ∀ t, R t c
  mark : ∀ {d}, d ≠ '.' → d ≠ ']' → ∀ c, R (mark d) c
  blank : ∀ {w c}, (∀ d ∈ w, Text.isBlank d = true) → Text.isBlank c = false → R (blank w) c

theorem endsAtMarks_clearOf : EndsAtMarks ClearOf :=
  ⟨clearOf_of_isCut, mark_clearOf, fun hw => blank_clearOf hw⟩

theorem endsAtMarks_endsAt : EndsAtMarks EndsAt :=
  ⟨endsAt_of_isCut, fun hdot _ => mark_endsAt hdot, fun hw => (blank_endsAt hw).mpr⟩

/-- An argument: separated tokens that do not begin with a blank. -/
structure Argument (R : Token → Char → Prop) (ts : List Token) : Prop where
  separated : SeparatedBy R ts
  head : ∀ u ∈ ts.head?, u.isSpace = false

section

variable {R : Token → Char → Prop}

theorem argument_word {w : Text} (h : isIdentifier w = true) : Argument R [word w] := by
  refine ⟨⟨proper_word h, by simp, trivial⟩, ?_⟩
  rintro u ⟨⟩
  rfl

/-- Arguments and a closing parenthesis start with a mark that every token ends before. -/
theorem head_argumentTail (rest : List (List Token)) :
    ∃ c more, textOf (argumentTail rest ++ [mark ')']) = c :: more ∧ isCut c = true := by
  cases rest with
  | nil => exact ⟨')', [], rfl, by decide⟩
  | cons a rest =>
    rw [argumentTail_cons]
    exact ⟨',', _, rfl, by decide⟩

theorem argument_trimBlanks {ts : List Token} (h : SeparatedBy R ts) :
    Argument R (trimBlanks ts) := by
  obtain ⟨pre, post, heq, -, -, hhead, -⟩ := exists_trimBy isSpace ts
  rw [heq] at h
  exact ⟨(separatedBy_append.mp (separatedBy_append.mp h).2.1).1, hhead⟩

variable (hR : EndsAtMarks R)

include hR

theorem separatedBy_argumentTail {rest : List (List Token)} (h : ∀ a ∈ rest, Argument R a) :
    SeparatedBy R (argumentTail rest ++ [mark ')']) := by
  induction rest with
  | nil => exact ⟨proper_mark (by decide), by simp, trivial⟩
  | cons a rest ih =>
    obtain ⟨ha, hhead⟩ := h a List.mem_cons_self
    have hrest := ih fun b hb => h b (List.mem_cons_of_mem a hb)
    obtain ⟨d, more, htext, hd⟩ := head_argumentTail rest
    have hblank : ∀ c ∈ [' '], Text.isBlank c = true := fun _ => isBlank_of_mem_space
    rw [argumentTail_cons, List.cons_append, List.cons_append, List.append_assoc]
    refine ⟨proper_mark (by decide), fun c _ => hR.mark (by decide) (by decide) c,
      proper_blank (by decide) hblank, fun c hc => hR.blank hblank ?_, ?_⟩
    · cases a with
      | nil =>
        rw [List.nil_append, htext] at hc
        obtain rfl : d = c := by simpa using hc
        simp only [isCut, Bool.and_eq_true, Bool.not_eq_true'] at hd
        exact hd.1.1
      | cons u us =>
        rw [List.cons_append, textOf_cons, List.head?_append_of_ne_nil _ ha.1.text_ne_nil] at hc
        rw [ha.1.isBlank_eq (List.mem_of_mem_head? hc), hhead u rfl]
    · refine separatedBy_append.mpr ⟨ha, hrest, fun t _ c hc => ?_⟩
      rw [htext] at hc
      obtain rfl : d = c := by simpa using hc
      exact hR.cut hd t

theorem argument_call {f : Text} (hf : isIdentifier f = true) {first : List Token}
    (hfirst : SeparatedBy R first) {rest : List (List Token)}
    (hrest : ∀ a ∈ rest, Argument R a) : Argument R (call f first rest) := by
  obtain ⟨d, more, htext, hd⟩ := head_argumentTail rest
  have hinside : SeparatedBy R (first ++ (argumentTail rest ++ [mark ')'])) := by
    refine separatedBy_append.mpr ⟨hfirst, separatedBy_argumentTail hR hrest, fun t _ c hc => ?_⟩
    rw [htext] at hc
    obtain rfl : d = c := by simpa using hc
    exact hR.cut hd t
  refine ⟨⟨proper_word hf, ?_, proper_mark (by decide),
    fun c _ => hR.mark (by decide) (by decide) c, hinside⟩, ?_⟩
  · rintro c ⟨⟩
    exact hR.cut (by decide) _
  · rintro u ⟨⟩
    rfl

theorem argument_sampleTokens {name : Text} (hname : isIdentifier name = true) (kind : BufferKind)
    {indices : List (List Token)} (h : ∀ i ∈ indices, Argument R i) :
    Argument R (sampleTokens name kind indices) := by
  have hselect : Argument R (selectTokens name kind indices) := by
    refine argument_call hR (isIdentifier_select kind)
      (argument_word (isIdentifier_bufferMemberName hname (by decide))).separated fun a ha => ?_
    rcases List.mem_append.mp ha with ha | ha
    · obtain ⟨m, hm, rfl⟩ := List.mem_map.mp ha
      exact argument_word (isIdentifier_bufferMemberName hname (all_of_mem_companionTail hm))
    · exact h a ha
  have hsampler : Argument R (samplerTokens name) := by
    refine argument_call hR (by decide) (argument_word (isIdentifier_textureName hname)).separated
      fun a ha => ?_
    rw [List.mem_singleton.mp ha]
    exact argument_word (by decide)
  have hzero : Argument R [zeroLiteral] := by
    refine ⟨⟨proper_zeroLiteral, by simp, trivial⟩, ?_⟩
    rintro u ⟨⟩
    rfl
  have htexture : Argument R (textureTokens name kind indices) := by
    refine argument_call hR (by decide) hsampler.separated fun a ha => ?_
    rcases List.mem_cons.mp ha with rfl | ha
    · exact hselect
    · rw [List.mem_singleton.mp ha]
      exact hzero
  unfold sampleTokens
  cases kind.element with
  | float =>
    exact argument_call hR (by decide) htexture.separated
      fun a ha => absurd ha List.not_mem_nil
  | color => exact htexture

end

theorem Replacement.spaced {w : Text} (h : Replacement w) : Spaced (tokenize w) := by
  obtain ⟨name, ⟨hname, -⟩, htok | htok⟩ := h.tokenize_eq
  · rw [htok]
    exact ⟨proper_word hname, by simp, trivial⟩
  · have hpoint : (mark '.').Proper := ⟨'.', [], rfl, by decide, rfl⟩
    rw [htok]
    refine ⟨proper_word hname, ?_, hpoint, ?_, proper_word (by decide), by simp, trivial⟩
    · rintro c ⟨⟩
      exact clearOf_of_kind (proper_word hname) rfl (by decide)
    · rintro c ⟨⟩
      exact ⟨⟨rfl, fun _ => by decide⟩, fun hmark => absurd hmark (by decide)⟩

/-! ## Images are spaced -/

theorem Subscripts.last {blocks : List (List Token)} {tail : List Token}
    (h : Subscripts blocks tail) (hne : blocks ≠ []) : ∃ more, tail = more ++ [mark ']'] := by
  induction h with
  | nil => exact absurd rfl hne
  | @cons gap block tail blocks _ _ _ hrest ih =>
    cases hrest with
    | nil => exact ⟨gap ++ mark '[' :: block, by simp⟩
    | cons =>
      obtain ⟨more, hmore⟩ := ih (List.cons_ne_nil _ _)
      rw [hmore]
      exact ⟨gap ++ mark '[' :: (block ++ mark ']' :: more), by simp⟩

namespace Rules

variable {r : Rules} {g : List Token → List Token}

/-- A site ends with a bracket or a name. -/
theorem Stands.last {t : Token} {s : Site} {tail : List Token} (h : r.Stands t s tail) :
    ∃ more u, tail = more ++ [u] ∧ (u = mark ']' ∨ u.kind = .ident) := by
  cases h with
  | @field gap gap' f _ _ _ hkind =>
    exact ⟨gap ++ mark '.' :: gap', f, by simp, .inr hkind⟩
  | @output gap gap' gap'' n =>
    exact ⟨gap ++ mark '[' :: (gap' ++ n :: gap''), mark ']', by simp, .inl rfl⟩
  | @read kind blocks _ _ _ hlen htail =>
    have hpos : 0 < blocks.length := by
      rw [hlen]
      exact Rank.toNat_pos kind.rank
    obtain ⟨more, hmore⟩ := htail.last (List.ne_nil_of_length_pos hpos)
    exact ⟨more, mark ']', hmore, .inl rfl⟩

/-- What ends before some tokens ends before their image. -/
theorem clearOf_imageWith (hr : r.Sane) (hg : KeepsAll g) {ts : List Token}
    (hp : ∀ u ∈ ts, u.Proper) {t : Token} (h : ∀ c ∈ (textOf ts).head?, t.ClearOf c) :
    ∀ c ∈ (textOf (r.imageWith g ts)).head?, t.ClearOf c := by
  intro c hc
  cases ts with
  | nil => simp at hc
  | cons u us =>
    have hu := hp u List.mem_cons_self
    rw [textOf_cons, List.head?_append_of_ne_nil _ hu.text_ne_nil] at h
    rcases imageWith_cons_cases hr hg hp with hkeep | ⟨hkind, -, -, v, vs, himage, hv, -⟩
    · rw [hkeep, textOf_cons, List.head?_append_of_ne_nil _ hu.text_ne_nil] at hc
      exact h c hc
    · have hpv : v.Proper := proper_imageWith hr hp (hg.keeps _) v (by rw [himage]; simp)
      obtain ⟨a, more, hua, ha⟩ := hu.isAlpha_of_ident hkind
      obtain ⟨b, more', hvb, hb⟩ := hpv.isAlpha_of_ident hv
      rw [himage, textOf_cons, hvb] at hc
      obtain rfl : b = c := by simpa using hc
      exact (h a (by rw [hua]; rfl)).of_isAlpha ha hb

theorem Stands.spaced {t : Token} {s : Site} {tail : List Token} (hr : r.Sane)
    (h : r.Stands t s tail) (hg : ∀ b, b.length < tail.length → Spaced b → Spaced (g b))
    (htail : Spaced tail) : Spaced (emit t g s) := by
  cases h with
  | field _ _ _ _ hw => exact (hr.fields _ (mem_of_lookup hw)).2.replacement.spaced
  | output _ _ _ _ _ hw => exact (hr.outputs _ _ hw).spaced
  | @read kind blocks _ _ hkind _ hsubs =>
    refine (argument_sampleTokens endsAtMarks_clearOf (hr.reads _ (mem_of_lookup hkind)).1 kind
      fun i hi => ?_).separated
    obtain ⟨b, hb, rfl⟩ := List.mem_map.mp hi
    obtain ⟨pre, post, heq⟩ := hsubs.exists_of_mem hb
    refine argument_trimBlanks (hg b (hsubs.length_lt hb) ?_)
    rw [heq] at htail
    exact (separatedBy_append.mp (separatedBy_append.mp htail).2.1).1

/-- An image of spaced tokens is spaced if its indices are. -/
theorem spaced_imageWith (hr : r.Sane) (hg : KeepsAll g) {ts : List Token}
    (hspaced : ∀ b, b.length < ts.length → Spaced b → Spaced (g b)) (h : Spaced ts) :
    Spaced (r.imageWith g ts) := by
  induction ts using r.induction with
  | nil => simp
  | keep t ts hnone ih =>
    rw [imageWith_keep hnone]
    refine ⟨h.1, clearOf_imageWith hr hg (fun u hu => h.tail.proper hu) h.2.1,
      ih ts (Nat.le_refl _) (fun b hb => hspaced b ?_) h.tail⟩
    rw [List.length_cons]
    omega
  | site t s tail rest hkind hs ih =>
    obtain ⟨htail, hrest, hlast⟩ := separatedBy_append.mp h.tail
    have hp : ∀ u ∈ tail, u.Proper := fun u hu => htail.proper hu
    have hfirm := hs.firm hr hp (hg.keeps _)
    have hshort : ∀ b : List Token, b.length ≤ (tail ++ rest).length → Spaced b →
        Spaced (g b) := fun b hb => hspaced b (by rw [List.length_cons]; omega)
    rw [imageWith_site (site?_append hkind hs rest)]
    refine separatedBy_append.mpr ⟨?_, ih rest (by simp) (fun b hb => hshort b ?_) hrest,
      fun u hu c hc => ?_⟩
    · refine hs.spaced hr (fun b hb => hshort b ?_) htail
      rw [List.length_append]
      omega
    · rw [List.length_append]
      omega
    · -- what stands for the site ends with a name only where no word follows
      obtain ⟨more, v, hmore, hv⟩ := hs.last
      have hclear : v.ClearOf c := clearOf_imageWith hr hg (fun u hu => hrest.proper hu)
        (fun d hd => hlast v (by rw [hmore]; simp) d hd) c hc
      obtain ⟨more', u', hemit, hu'⟩ := hfirm.last
      have hpu : u'.Proper := hfirm.clean.proper u' (by rw [hemit]; simp)
      rw [hemit, List.getLast?_concat] at hu
      obtain rfl : u' = u := by simpa using hu
      rcases hu' with rfl | hu'
      · exact mark_clearOf (by decide) (by decide) c
      · exact clearOf_of_kind hpu hu' (hclear.isWordChar_eq hv)

/-- An image of spaced tokens is spaced. -/
theorem spaced_image (hr : r.Sane) {ts : List Token} (h : Spaced ts) : Spaced (r.image ts) := by
  induction hn : ts.length using Nat.strongRecOn generalizing ts with
  | ind n ih =>
    rw [image_eq]
    refine spaced_imageWith hr (fun b hb => clean_image hr hb) (fun b hb hspaced => ?_) h
    exact ih b.length (by omega) hspaced rfl

/-- The text of an image is the expansion. -/
theorem textOf_image (hr : r.Sane) {ts : List Token} (hp : ∀ u ∈ ts, u.Proper) :
    textOf (r.image ts) = r.expand ts := by
  induction ts using r.induction with
  | nil => simp
  | keep t ts hnone ih =>
    rw [image_keep hnone, expand_keep hnone, textOf_cons,
      ih ts (Nat.le_refl _) fun u hu => hp u (List.mem_cons_of_mem t hu)]
  | site t s tail rest hkind hs ih =>
    have hsite := site?_append hkind hs rest
    rw [image_site hsite, textOf_append, ih rest (by simp) fun u hu => hp u (by simp [hu])]
    cases s with
    | word w => rw [expand_word hsite, emit, textOf_tokenize]
    | read kind blocks =>
      have hclean : ∀ b ∈ blocks, Clean b := fun b hb =>
        hs.clean (fun u hu => hp u (by simp [hu])) hb
      have hproper : ∀ i ∈ blocks.map r.image, ∀ u ∈ i, u.Proper := by
        intro i hi
        obtain ⟨b, hb, rfl⟩ := List.mem_map.mp hi
        exact (clean_image hr (hclean b hb)).proper
      have hemit : emit t r.image (.read kind blocks) =
          sampleTokens t.text kind ((blocks.map r.image).map trimBlanks) := by
        rw [emit, List.map_map]
        rfl
      rw [expand_read hsite, hemit, textOf_sampleTokens _ _ hproper, List.map_map]
      congr 2
      refine List.map_congr_left fun b hb => ?_
      have hlen := hs.length_lt hb
      exact ih b (by rw [List.length_append]; omega) (hclean b hb).proper

end Rules

end Texelwise

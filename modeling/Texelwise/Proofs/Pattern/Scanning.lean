import Mathlib.Data.List.Infix
import Texelwise.Proofs.Pattern.Ranges

/-!
# What a scan finds and what replacing keeps

A scan goes over tokens, reports byte ranges, and is used to copy slices. This module says how the
three fit together, for every text and every pattern that takes a token.

* `Pattern.exists_of_mem_locate_walk`: an occurrence is a match at the tokens of its range.
* `Pattern.match?_eq_none_of_outside`: between the ranges there is no match at any token.
* `Piece.emitM_eq`: replacing calls the replacement once for each occurrence, in order, and puts the
  results into the gaps between the ranges.
* `Pattern.Scanned`: all of this for one text; `Pattern.exists_scanned` has it for every text.
-/

namespace Texelwise

open Token Text

theorem Text.byteLength_pos {t : Text} (h : t ≠ []) : 0 < byteLength t := by
  cases t with
  | nil => exact absurd rfl h
  | cons c t => exact Nat.add_pos_left c.utf8Size_pos _

/-- Proper tokens have bytes. -/
theorem Token.byteLength_textOf_pos {ts : List Token} (h : ∀ t ∈ ts, t.Proper) (hne : ts ≠ []) :
    0 < byteLength (textOf ts) := by
  cases ts with
  | nil => exact absurd rfl hne
  | cons t ts =>
    have ht := byteLength_pos (h t List.mem_cons_self).text_ne_nil
    rw [textOf_cons, byteLength_append]
    omega

/-! ## Ranges in order -/

namespace Piece

theorem le_start_of_mem_locate {start : Nat} {pieces : List Piece} {f : Found}
    (h : f ∈ locate start pieces) : start ≤ f.start := by
  induction pieces generalizing start with
  | nil => cases h
  | cons piece pieces ih =>
    cases piece with
    | kept t => exact (Nat.le_add_right _ _).trans (ih h)
    | found o =>
      rcases List.mem_cons.mp h with rfl | h
      · exact Nat.le_refl _
      · exact (Nat.le_add_right _ _).trans (ih h)

/-- Every range ends before the next one starts. -/
theorem pairwise_locate (start : Nat) (pieces : List Piece) :
    (locate start pieces).Pairwise (·.stop ≤ ·.start) := by
  induction pieces generalizing start with
  | nil => exact .nil
  | cons piece pieces ih =>
    cases piece with
    | kept t => exact ih _
    | found o => exact .cons (fun g hg => le_start_of_mem_locate hg) (ih _)

end Piece

/-! ## Where a pattern matches -/

namespace Pattern

variable {p : Pattern}

/-- An occurrence starts and stops at tokens, and the pattern matches there and takes its tokens. -/
theorem exists_of_mem_locate_walk {ts : List Token} {start : Nat} {f : Found}
    (h : f ∈ Piece.locate start (p.walk ts)) :
    ∃ before after, ts = before ++ (f.occurrence.taken ++ after) ∧
      f.start = start + byteLength (textOf before) ∧
      f.stop = f.start + byteLength f.occurrence.text ∧
      p.match? (f.occurrence.taken ++ after) =
        some ⟨f.occurrence.taken, f.occurrence.captures, after⟩ := by
  fun_induction walk p ts generalizing start with
  | case1 => cases h
  | case2 t ts hm ih =>
    obtain ⟨before, after, rfl, hstart, hstop, hmatch⟩ := ih h
    refine ⟨t :: before, after, rfl, ?_, hstop, hmatch⟩
    rw [hstart, textOf_cons, byteLength_append, Nat.add_assoc]
  | case3 t ts m hm hlt ih =>
    have happ := match?_append hm
    rcases List.mem_cons.mp h with rfl | h
    · exact ⟨[], m.rest, happ.symm, rfl, rfl, by rw [happ]; exact hm⟩
    · obtain ⟨before, after, hrest, hstart, hstop, hmatch⟩ := ih h
      refine ⟨m.taken ++ before, after, ?_, ?_, hstop, hmatch⟩
      · rw [List.append_assoc, ← hrest, happ]
      · rw [hstart, textOf_append, byteLength_append, Nat.add_assoc]
        rfl
  | case4 => cases h

/-- Outside the ranges the pattern matches at no token. -/
theorem match?_eq_none_of_outside (hp : p.Consumes = true) (start : Nat)
    {ts before after : List Token} (hproper : ∀ t ∈ ts, t.Proper) (hts : ts = before ++ after)
    (hout : ∀ f ∈ Piece.locate start (p.walk ts),
      start + byteLength (textOf before) < f.start ∨ f.stop ≤ start + byteLength (textOf before)) :
    p.match? after = none := by
  fun_induction walk p ts generalizing start before with
  | case1 =>
    obtain ⟨-, rfl⟩ := List.append_eq_nil_iff.mp hts.symm
    exact match?_nil hp
  | case2 t ts hm ih =>
    cases before with
    | nil =>
      rw [← hts.trans (List.nil_append after)]
      exact hm
    | cons u before =>
      obtain ⟨rfl, hrest⟩ := List.cons_eq_cons.mp hts
      refine ih (start + byteLength t.text) (fun u hu => hproper u (List.mem_cons_of_mem _ hu))
        hrest fun f hf => ?_
      have := hout f hf
      rw [textOf_cons, byteLength_append] at this
      omega
  | case3 t ts m hm hlt ih =>
    have happ := match?_append hm
    -- A place inside the tokens taken is inside their range.
    have hlater : ∀ more, before = m.taken ++ more → m.rest = more ++ after →
        p.match? after = none := by
      rintro more rfl hrest
      refine ih (start + byteLength (textOf m.taken)) (fun u hu => hproper u ?_) hrest
        fun f hf => ?_
      · rw [← happ]
        exact List.mem_append_right _ hu
      · have := hout f (List.mem_cons_of_mem _ hf)
        rwa [textOf_append, byteLength_append, ← Nat.add_assoc] at this
    rcases List.append_eq_append_iff.mp (happ.trans hts) with
      ⟨more, hbefore, hrest⟩ | ⟨more, htaken, hafter⟩
    · exact hlater more hbefore hrest
    · by_cases hmore : more = []
      · rw [hmore, List.append_nil] at htaken
        rw [hmore, List.nil_append] at hafter
        exact hlater [] (by rw [htaken, List.append_nil]) (by rw [hafter, List.nil_append])
      · have hpos := byteLength_textOf_pos (fun u hu => hproper u (by
          rw [← happ, htaken]
          simp [hu])) hmore
        have hstop : byteLength (Occurrence.text ⟨m.taken, m.captures⟩) =
            byteLength (textOf before) + byteLength (textOf more) := by
          rw [Occurrence.text, htaken, textOf_append, byteLength_append]
        have hinside := hout _ List.mem_cons_self
        simp only at hinside
        omega
  | case4 t ts m hm hlt => exact absurd (length_lt_of_match? hp hm) hlt

end Pattern

/-! ## Replacing -/

namespace Piece

/-- Replacing asks once for each occurrence, in order, and puts the answers into the gaps. -/
theorem emitM_eq {m : Type → Type} [Monad m] [LawfulMonad m] (replace : Found → m Text)
    (start : Nat) (pieces : List Piece) :
    emitM replace start pieces = weave (gaps pieces) <$> (locate start pieces).mapM replace := by
  induction pieces generalizing start with
  | nil => simp [emitM, locate, gaps, weave]
  | cons piece pieces ih =>
    cases piece with
    | kept t =>
      have hweave : weave (gaps (.kept t :: pieces)) = (t.text ++ weave (gaps pieces) ·) := by
        funext ts
        exact weave_gaps_kept t pieces ts
      rw [emitM, ih, locate, hweave]
      simp
    | found o => simp [emitM, ih, locate, gaps, weave]

/-- Replacing every occurrence by its own text changes nothing. -/
theorem flatMap_emit_text (pieces : List Piece) :
    pieces.flatMap (emit Occurrence.text) = textOf (tokensOf pieces) := by
  induction pieces with
  | nil => rfl
  | cons piece pieces ih =>
    rw [List.flatMap_cons, ih]
    cases piece with
    | kept t => rfl
    | found o => exact (textOf_append o.taken _).symm

end Piece

/-! ## Scans -/

/-- How scanning a text and replacing in it with one pattern fit together. -/
structure Pattern.Scanned (p : Pattern) (code : Text) (found : List Found) (gaps : List Text) :
    Prop where
  /-- These are the occurrences. -/
  findAll : p.findAll code = .ok found
  /-- Each ends before the next one starts. -/
  ordered : found.Pairwise (·.stop ≤ ·.start)
  /-- Each takes at least one byte. -/
  nonempty : ∀ f ∈ found, f.start < f.stop
  /-- Each starts at a token and stops at a token, and the pattern takes the tokens between. -/
  occurs : ∀ f ∈ found, ∃ before after,
    tokenize code = before ++ (f.occurrence.taken ++ after) ∧
    f.start = byteLength (textOf before) ∧
    f.stop = byteLength (textOf (before ++ f.occurrence.taken)) ∧
    p.match? (f.occurrence.taken ++ after) =
      some ⟨f.occurrence.taken, f.occurrence.captures, after⟩
  /-- The text of each is the slice of its range. -/
  slice : ∀ f ∈ found, code.slice? f.start f.stop = some f.occurrence.text
  /-- Nothing is missed: at a token outside all ranges the pattern does not match. -/
  complete : ∀ before after, tokenize code = before ++ after →
    (∀ f ∈ found, byteLength (textOf before) < f.start ∨ f.stop ≤ byteLength (textOf before)) →
    p.match? after = none
  /-- The gaps are the slices between the ranges. -/
  between : gaps? code 0 found = some gaps
  /-- The texts of the occurrences in the gaps are the whole text. -/
  whole : weave gaps (found.map (·.occurrence.text)) = code
  /-- A replacement is called once for each occurrence, in order, and the results stand in the
  gaps. -/
  replaceAllM : ∀ {m : Type → Type} [Monad m] [LawfulMonad m] (replace : Found → m Text),
    p.replaceAllM replace code = .ok (weave gaps <$> found.mapM replace)
  /-- So it is for a replacement that only looks at the occurrence. -/
  replaceAll : ∀ substitute, p.replaceAll substitute code =
    .ok (weave gaps (found.map fun f => substitute f.occurrence))
  /-- Replacing each occurrence by its own text leaves the text as it is. -/
  same : p.replaceAll Occurrence.text code = .ok code

/-- A pattern that takes a token scans every text without a gap in its account. -/
theorem Pattern.exists_scanned {p : Pattern} (hp : p.Consumes = true) (code : Text) :
    ∃ found gaps, p.Scanned code found gaps := by
  have hscan := pieces_eq_walk hp code
  have htext : textOf (Piece.tokensOf (p.walk (tokenize code))) = code := by
    rw [tokensOf_walk hp, textOf_tokenize]
  have hoccurs : ∀ f ∈ Piece.locate 0 (p.walk (tokenize code)), ∃ before after,
      tokenize code = before ++ (f.occurrence.taken ++ after) ∧
      f.start = byteLength (textOf before) ∧
      f.stop = byteLength (textOf (before ++ f.occurrence.taken)) ∧
      p.match? (f.occurrence.taken ++ after) =
        some ⟨f.occurrence.taken, f.occurrence.captures, after⟩ := by
    intro f hf
    obtain ⟨before, after, hts, hstart, hstop, hmatch⟩ := exists_of_mem_locate_walk hf
    rw [Nat.zero_add] at hstart
    refine ⟨before, after, hts, hstart, ?_, hmatch⟩
    rw [hstop, hstart, textOf_append, byteLength_append]
    rfl
  have hwhole : weave (Piece.gaps (p.walk (tokenize code)))
      ((Piece.locate 0 (p.walk (tokenize code))).map (·.occurrence.text)) = code := by
    rw [← Piece.flatMap_emit_eq Occurrence.text 0, Piece.flatMap_emit_text, htext]
  have heffects : ∀ {m : Type → Type} [Monad m] [LawfulMonad m] (replace : Found → m Text),
      p.replaceAllM replace code = .ok (weave (Piece.gaps (p.walk (tokenize code))) <$>
        (Piece.locate 0 (p.walk (tokenize code))).mapM replace) := by
    intro m _ _ replace
    rw [replaceAllM, hscan, ← Piece.emitM_eq]
    rfl
  refine ⟨Piece.locate 0 (p.walk (tokenize code)), Piece.gaps (p.walk (tokenize code)),
    ⟨by rw [findAll, hscan]; rfl, Piece.pairwise_locate 0 _, ?_, hoccurs, ?_, ?_, ?_, hwhole,
      heffects, ?_, ?_⟩⟩
  · intro f hf
    obtain ⟨before, after, hts, -, hstop, hmatch⟩ := exists_of_mem_locate_walk hf
    have htaken : f.occurrence.taken ≠ [] := by
      intro hnil
      have hlt := length_lt_of_match? hp hmatch
      simp [hnil] at hlt
    have hpos := byteLength_textOf_pos
      (fun t ht => proper_tokenize t (by rw [hts]; simp [ht])) htaken
    rw [hstop, Occurrence.text]
    omega
  · intro f hf
    have hslice := @Piece.slice?_of_mem_locate [] _ _ hf
    rwa [htext] at hslice
  · intro before after hts hout
    refine match?_eq_none_of_outside hp 0 proper_tokenize hts fun f hf => ?_
    rw [Nat.zero_add]
    exact hout f hf
  · have hgaps := @Piece.gaps?_locate code [] [] _ htext.symm
    rw [byteLength_nil, Nat.add_zero] at hgaps
    rw [hgaps]
    cases Piece.gaps (p.walk (tokenize code)) <;> rfl
  · -- A replacement without effects is one with the effects of the identity.
    intro substitute
    have hpure := replaceAllM_pure (m := Id) p substitute code
    rw [heffects, List.mapM_pure] at hpure
    cases hall : p.replaceAll substitute code with
    | error e =>
      rw [hall] at hpure
      cases hpure
    | ok out =>
      rw [hall] at hpure
      exact congrArg Except.ok (Except.ok.inj hpure).symm
  · rw [Pattern.replaceAll, hscan]
    exact congrArg Except.ok ((Piece.flatMap_emit_text _).trans htext)

/-- In `é u.w→v.h` a word, a point and a word are found at bytes 3 and 9. -/
theorem Pattern.exists_scanned_member :
    ∃ gaps, (Pattern.group (.alphanumeric ++ .mark '.' ++ .group .alphanumeric)).Scanned
      "é u.w→v.h".toList
      [⟨⟨tokenize "u.w".toList, ["u.w".toList, ['w']]⟩, 3, 6⟩,
        ⟨⟨tokenize "v.h".toList, ["v.h".toList, ['h']]⟩, 9, 12⟩] gaps ∧
      gaps = ["é ".toList, ['→'], []] := by
  obtain ⟨found, gaps, h⟩ := Pattern.exists_scanned
    (p := .group (.alphanumeric ++ .mark '.' ++ .group .alphanumeric)) (by decide)
    "é u.w→v.h".toList
  have hfound : (Pattern.group (.alphanumeric ++ .mark '.' ++ .group .alphanumeric)).findAll
      "é u.w→v.h".toList =
      .ok [⟨⟨tokenize "u.w".toList, ["u.w".toList, ['w']]⟩, 3, 6⟩,
        ⟨⟨tokenize "v.h".toList, ["v.h".toList, ['h']]⟩, 9, 12⟩] := by decide +kernel
  obtain rfl : found = _ := Except.ok.inj (h.findAll.symm.trans hfound)
  refine ⟨gaps, h, Option.some.inj (h.between.symm.trans ?_)⟩
  decide +kernel

end Texelwise

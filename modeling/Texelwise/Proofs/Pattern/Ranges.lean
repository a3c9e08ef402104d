import Mathlib.Data.List.Infix
import Texelwise.Proofs.Pattern.Sweep
import Texelwise.Proofs.Text.Slice

/-!
# Captures and byte ranges of occurrences

An occurrence has all captures of its pattern, and its byte range is a slice of the text. So texts
can be changed by copying the slices between the ranges.

* `Pattern.length_captures`: the number of captures of a match.
* `Pattern.match?_eq_none_of_walk`, `walk_eq_nil_of_match?`: no occurrence is no match anywhere.
* `Piece.slice?_of_mem_locate`: the range of an occurrence is a slice of the text.
* `gaps?`: the slices between the ranges; `weave` puts texts into them.
* `splice?`: replacing by ranges; `splice?_locate` says that it does what replacing by tokens does.
* `Pattern.Safe`: all of this for every text.
-/

namespace Texelwise

open Token Text

/-! ## Matches -/

namespace Pattern

/-- A match has one captured text for each capture of the pattern. -/
theorem length_captures {p : Pattern} {ts : List Token} {m : Match} (h : p.match? ts = some m) :
    m.captures.length = p.captureCount := by
  induction p generalizing ts m with
  | nil =>
    cases h
    rfl
  | atom a p ih =>
    obtain ⟨run, left, n, -, hn, rfl⟩ := exists_of_match?_atom h
    exact @ih left n hn
  | capture inner p ihi ihp =>
    obtain ⟨i, n, hi, hn, rfl⟩ := exists_of_match?_capture h
    rw [List.length_cons, List.length_append, ihi hi, ihp hn, captureCount]
    omega

/-- Every occurrence of a scan is a match somewhere in the token list. -/
theorem match?_of_mem_walk {p : Pattern} {ts : List Token} {o : Occurrence}
    (h : .found o ∈ p.walk ts) :
    ∃ us m, us <:+ ts ∧ p.match? us = some m ∧ o = ⟨m.taken, m.captures⟩ := by
  fun_induction walk p ts with
  | case1 => cases h
  | case2 t ts hm ih =>
    rcases List.mem_cons.mp h with h | h
    · cases h
    · obtain ⟨us, m, hus, hmatch⟩ := ih h
      exact ⟨us, m, hus.trans (List.suffix_cons t ts), hmatch⟩
  | case3 t ts m hm hlt ih =>
    rcases List.mem_cons.mp h with h | h
    · cases h
      exact ⟨t :: ts, m, List.suffix_refl _, hm, rfl⟩
    · obtain ⟨us, n, hus, hmatch⟩ := ih h
      refine ⟨us, n, hus.trans ?_, hmatch⟩
      rw [← match?_append hm]
      exact List.suffix_append _ _
  | case4 => cases h

/-! ## Where a pattern matches -/

section

variable {p : Pattern} (hp : p.Consumes = true) {ts : List Token}

include hp

theorem occurrences_eq_walk (code : Text) : p.occurrences code =
    .ok ((p.walk (tokenize code)).filterMap Piece.occurrence?) := by
  rw [occurrences, pieces_eq_walk hp]
  rfl

theorem match?_nil : p.match? [] = none := by
  cases h : p.match? [] with
  | none => rfl
  | some m => exact absurd (length_lt_of_match? hp h) (Nat.not_lt_zero _)

/-- A pattern without an occurrence matches nowhere. -/
theorem match?_eq_none_of_walk (h : (p.walk ts).filterMap Piece.occurrence? = [])
    {us : List Token} (hus : us <:+ ts) : p.match? us = none := by
  induction ts with
  | nil => rw [List.suffix_nil.mp hus, match?_nil hp]
  | cons t ts ih =>
    cases hm : p.match? (t :: ts) with
    | some m =>
      rw [walk_found hp hm] at h
      cases h
    | none =>
      rw [walk_keep hm] at h
      rcases List.suffix_cons_iff.mp hus with rfl | hus
      · exact hm
      · exact ih h hus

omit hp in
/-- A pattern that matches nowhere has no occurrence. -/
theorem walk_eq_nil_of_match? (h : ∀ us, us <:+ ts → p.match? us = none) :
    (p.walk ts).filterMap Piece.occurrence? = [] := by
  induction ts with
  | nil => simp
  | cons t ts ih =>
    rw [walk_keep (h _ (List.suffix_refl _))]
    exact ih fun us hus => h us (hus.trans (List.suffix_cons t ts))

/-- A pattern with one occurrence matches there, and nowhere before or after it. -/
theorem exists_of_walk_singleton {o : Occurrence}
    (h : (p.walk ts).filterMap Piece.occurrence? = [o]) :
    ∃ before us m, ts = before ++ us ∧ p.match? us = some m ∧ o = ⟨m.taken, m.captures⟩ ∧
      (∀ vs, vs <:+ ts → us.length < vs.length → p.match? vs = none) ∧
      ∀ vs, vs <:+ m.rest → p.match? vs = none := by
  induction ts with
  | nil =>
    rw [walk_nil] at h
    cases h
  | cons t ts ih =>
    cases hm : p.match? (t :: ts) with
    | some m =>
      rw [walk_found hp hm] at h
      obtain ⟨rfl, hrest⟩ := List.cons_eq_cons.mp h
      refine ⟨[], t :: ts, m, rfl, hm, rfl, fun vs hvs hlt => ?_, fun vs hvs =>
        match?_eq_none_of_walk hp hrest hvs⟩
      exact absurd hvs.length_le (Nat.not_le_of_gt hlt)
    | none =>
      rw [walk_keep hm] at h
      obtain ⟨before, us, m, rfl, hus, ho, hbefore, hafter⟩ := ih h
      refine ⟨t :: before, us, m, rfl, hus, ho, fun vs hvs hlt => ?_, hafter⟩
      rcases List.suffix_cons_iff.mp hvs with rfl | hvs
      · exact hm
      · exact hbefore vs hvs hlt

end

end Pattern

/-! ## Ranges -/

/-- Texts in the gaps between other texts: the first gap, the first text, the second gap and so
on. -/
def weave : List Text → List Text → Text
  | gap :: gaps, t :: ts => gap ++ (t ++ weave gaps ts)
  | gaps, _ => gaps.flatten

/-- More text before everything is more text in the first gap. -/
theorem weave_modifyHead {gaps : List Text} (h : gaps ≠ []) (x : Text) (ts : List Text) :
    weave (gaps.modifyHead (x ++ ·)) ts = x ++ weave gaps ts := by
  cases gaps with
  | nil => exact absurd rfl h
  | cons gap gaps => cases ts <;> simp [weave]

/-- The slices of a text between the ranges and after the last one, from byte `cursor` on; none if
a slice does not exist. -/
def gaps? (code : Text) (cursor : Nat) : List Found → Option (List Text)
  | [] => (code.slice? cursor code.byteLength).map ([·])
  | f :: fs => do
    let gap ← code.slice? cursor f.start
    let gaps ← gaps? code f.stop fs
    return gap :: gaps

/-- The text with occurrences replaced by their byte ranges: the slices between them are copied,
from byte `cursor` on; none if a slice does not exist. -/
def splice? (code : Text) (substitute : Occurrence → Text) (cursor : Nat) :
    List Found → Option Text
  | [] => code.slice? cursor code.byteLength
  | f :: fs => do
    let before ← code.slice? cursor f.start
    let after ← splice? code substitute f.stop fs
    return before ++ substitute f.occurrence ++ after

/-- Replacing by ranges puts the new texts into the gaps. -/
theorem splice?_eq (code : Text) (substitute : Occurrence → Text) (cursor : Nat)
    (fs : List Found) : splice? code substitute cursor fs =
      (gaps? code cursor fs).map (weave · (fs.map fun f => substitute f.occurrence)) := by
  induction fs generalizing cursor with
  | nil => cases h : code.slice? cursor code.byteLength <;> simp [splice?, gaps?, weave, h]
  | cons f fs ih =>
    simp only [splice?, gaps?, ih]
    cases code.slice? cursor f.start with
    | none => rfl
    | some gap => cases gaps? code f.stop fs <;> simp [weave]

namespace Piece

theorem mem_of_mem_locate {start : Nat} {pieces : List Piece} {f : Found}
    (h : f ∈ locate start pieces) : .found f.occurrence ∈ pieces := by
  induction pieces generalizing start with
  | nil => cases h
  | cons piece pieces ih =>
    cases piece with
    | kept t => exact List.mem_cons_of_mem _ (ih h)
    | found o =>
      rcases List.mem_cons.mp h with rfl | h
      · exact List.mem_cons_self
      · exact List.mem_cons_of_mem _ (ih h)

/-- The range of an occurrence is a slice of the text. -/
theorem slice?_of_mem_locate {pre : Text} {pieces : List Piece} {f : Found}
    (h : f ∈ locate (byteLength pre) pieces) :
    (pre ++ textOf (tokensOf pieces)).slice? f.start f.stop = some f.occurrence.text := by
  induction pieces generalizing pre with
  | nil => cases h
  | cons piece pieces ih =>
    cases piece with
    | kept t =>
      rw [locate, ← byteLength_append] at h
      have hslice := ih h
      rwa [List.append_assoc] at hslice
    | found o =>
      have htext : textOf (tokensOf (.found o :: pieces)) = o.text ++ textOf (tokensOf pieces) :=
        textOf_append o.taken _
      rw [htext]
      rcases List.mem_cons.mp h with rfl | h
      · exact slice?_append pre o.text _
      · rw [← byteLength_append] at h
        have hslice := ih h
        rwa [List.append_assoc] at hslice

/-- The texts of the tokens between the occurrences. -/
def gaps : List Piece → List Text
  | [] => [[]]
  | .kept t :: rest => (gaps rest).modifyHead (t.text ++ ·)
  | .found _ :: rest => [] :: gaps rest

theorem gaps_ne_nil (pieces : List Piece) : gaps pieces ≠ [] := by
  induction pieces with
  | nil => simp [gaps]
  | cons piece pieces ih => cases piece <;> simp [gaps, ih]

theorem weave_gaps_kept (t : Token) (pieces : List Piece) (ts : List Text) :
    weave (gaps (.kept t :: pieces)) ts = t.text ++ weave (gaps pieces) ts :=
  weave_modifyHead (gaps_ne_nil pieces) t.text ts

/-- Replacing by tokens puts the new texts into the gaps. -/
theorem flatMap_emit_eq (substitute : Occurrence → Text) (start : Nat) (pieces : List Piece) :
    pieces.flatMap (emit substitute) =
      weave (gaps pieces) ((locate start pieces).map fun f => substitute f.occurrence) := by
  induction pieces generalizing start with
  | nil => rfl
  | cons piece pieces ih =>
    cases piece with
    | kept t => rw [List.flatMap_cons, locate, weave_gaps_kept, ← ih, emit]
    | found o => simp [locate, gaps, weave, emit, ← ih]

/-- The gaps between the ranges are slices of the text. After the part `pre` that is done, `gap` has
been passed over. -/
theorem gaps?_locate {code pre gap : Text} {pieces : List Piece}
    (hcode : code = pre ++ (gap ++ textOf (tokensOf pieces))) :
    gaps? code (byteLength pre) (locate (byteLength pre + byteLength gap) pieces) =
      some ((gaps pieces).modifyHead (gap ++ ·)) := by
  induction pieces generalizing pre gap with
  | nil =>
    have hslice := slice?_append pre gap []
    rw [locate, gaps?, hcode, byteLength_append, byteLength_append]
    simpa [tokensOf, gaps] using hslice
  | cons piece pieces ih =>
    cases piece with
    | kept t =>
      have hnext := @ih pre (gap ++ t.text) (by
        rw [hcode, List.append_assoc]
        rfl)
      rw [byteLength_append, ← Nat.add_assoc] at hnext
      rw [locate, hnext, gaps, List.modifyHead_modifyHead]
      simp [Function.comp_def]
    | found o =>
      have htext : textOf (tokensOf (.found o :: pieces)) = o.text ++ textOf (tokensOf pieces) :=
        textOf_append o.taken _
      have hgap : code.slice? (byteLength pre) (byteLength pre + byteLength gap) = some gap := by
        rw [hcode]
        exact slice?_append pre gap _
      have hnext := @ih (pre ++ gap ++ o.text) [] (by
        rw [hcode, htext]
        simp only [List.append_assoc, List.nil_append])
      rw [byteLength_append, byteLength_append, byteLength_nil, Nat.add_zero] at hnext
      rw [locate, gaps?, hgap]
      simp only [Option.bind_eq_bind, Option.bind_some, hnext]
      cases hgaps : gaps pieces with
      | nil => exact absurd hgaps (gaps_ne_nil pieces)
      | cons g gs => simp [gaps, hgaps]

/-- Replacing by ranges finds all its slices and does what replacing by tokens does. -/
theorem splice?_locate {code : Text} {pieces : List Piece} (substitute : Occurrence → Text)
    (hcode : code = textOf (tokensOf pieces)) :
    splice? code substitute 0 (locate 0 pieces) = some (pieces.flatMap (emit substitute)) := by
  have hgaps := @gaps?_locate code [] [] pieces hcode
  rw [byteLength_nil, Nat.add_zero] at hgaps
  rw [splice?_eq, hgaps, Option.map_some, weave_modifyHead (gaps_ne_nil pieces), List.nil_append,
    flatMap_emit_eq substitute 0]

end Piece

/-- Every token of a text is a slice of it. -/
theorem Token.slice?_of_mem_locate {pre : Text} {ts : List Token} {l : Located}
    (h : l ∈ Token.locate (byteLength pre) ts) :
    (pre ++ textOf ts).slice? l.start l.stop = some l.token.text := by
  induction ts generalizing pre with
  | nil => cases h
  | cons t ts ih =>
    rw [textOf_cons]
    rcases List.mem_cons.mp h with rfl | h
    · exact slice?_append pre t.text _
    · rw [← byteLength_append] at h
      have hslice := ih h
      rwa [List.append_assoc] at hslice

/-! ## Scans -/

/-- On this text scanning with the pattern goes without a failure: every occurrence has so many
captures and its range is a slice of the text, and replacing finds every slice that it copies. -/
structure Pattern.Safe (p : Pattern) (captures : Nat) (code : Text) (found : List Found) :
    Prop where
  findAll : p.findAll code = .ok found
  captures : ∀ f ∈ found, f.occurrence.captures.length = captures
  slice : ∀ f ∈ found, code.slice? f.start f.stop = some f.occurrence.text
  replaceAll : ∀ substitute, ∃ out,
    p.replaceAll substitute code = .ok out ∧ splice? code substitute 0 found = some out

/-- A pattern that takes a token is safe on every text. -/
theorem Pattern.exists_safe {p : Pattern} (hp : p.Consumes = true) (code : Text) :
    ∃ found, p.Safe p.captureCount code found := by
  have hscan := pieces_eq_walk hp code
  have htext : textOf (Piece.tokensOf (p.walk (tokenize code))) = code := by
    rw [tokensOf_walk hp, textOf_tokenize]
  refine ⟨Piece.locate 0 (p.walk (tokenize code)), by rw [findAll, hscan]; rfl, ?_, ?_, ?_⟩
  · intro f hf
    obtain ⟨us, m, -, hm, ho⟩ := match?_of_mem_walk (Piece.mem_of_mem_locate hf)
    rw [ho]
    exact length_captures hm
  · intro f hf
    have hslice := @Piece.slice?_of_mem_locate [] _ _ hf
    rwa [htext] at hslice
  · intro substitute
    refine ⟨_, by rw [replaceAll, hscan]; rfl, ?_⟩
    exact Piece.splice?_locate substitute htext.symm

end Texelwise

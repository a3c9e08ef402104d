import Texelwise.Proofs.Expansion.Merge
import Texelwise.Proofs.Expansion.Words
import Texelwise.Proofs.Kernel.SampleLoop
import Texelwise.Proofs.Pattern.Splice
import Texelwise.Proofs.Result

/-!
# Reserved words

A declaration starts with the word `uniform`, and headers and writes have the word `thread`. A
text without these words gets none of them by the passes for buffers, whatever the buffers are
called: what a pass puts in does not have them, and it forms no new token with its neighbours.

* `Unreserved`: no token of the text is a reserved word.
* `unreserved_sampleText`: texture samples have no reserved words but those of their indices.
* `unreserved_sampleRound`, `unreserved_replaceField`: single passes.
* `UnreservedAfter.sampleRounds`, `UnreservedAfter.replaceField`: passes over a text that ends with
  such a text.
-/

namespace Texelwise

open Token

/-- The words that declarations, headers and writes are found by. -/
def reservedWords : List Text := [uniformWord, threadWord]

/-- No token of the text is a reserved word. -/
def Unreserved (x : Text) : Prop := ∀ u ∈ tokenize x, u.text ∉ reservedWords

instance (x : Text) : Decidable (Unreserved x) :=
  inferInstanceAs (Decidable (∀ u ∈ tokenize x, u.text ∉ reservedWords))

/-! ## Texts without reserved words -/

theorem singleton_not_mem_reservedWords (c : Char) : [c] ∉ reservedWords := by
  have hall : ∀ w ∈ reservedWords, 1 < w.length := by decide
  intro hmem
  have hlength := hall [c] hmem
  simp at hlength

theorem not_mem_reservedWords_of_isSpace {u : Token} (hu : u.Proper) (hspace : u.kind = .space) :
    u.text ∉ reservedWords := by
  have hasked : ∀ w ∈ reservedWords, w ∈ askedWords := by decide
  exact fun hmem => not_mem_askedWords_of_isSpace hu hspace (hasked u.text hmem)

theorem not_mem_reservedWords_of_generated {w : Text} (h : "nc_".toList <+: w) :
    w ∉ reservedWords := by
  have hasked : ∀ w ∈ reservedWords, w ∈ askedWords := by decide
  exact fun hmem => not_mem_askedWords_of_generated h (hasked w hmem)

theorem lenient_reservedWords : Lenient (· ∉ reservedWords) :=
  ⟨singleton_not_mem_reservedWords, fun _ => not_mem_reservedWords_of_isSpace⟩

/-- A text that does not even spell a reserved word has none. -/
theorem unreserved_of_not_infix {x : Text} (h : ∀ w ∈ reservedWords, ¬ w <:+: x) :
    Unreserved x := by
  intro u hu hmem
  have hinfix : u.text <:+: textOf (tokenize x) := infix_flatMap hu
  rw [textOf_tokenize] at hinfix
  exact h u.text hmem hinfix

theorem unreserved_nil : Unreserved [] := only_nil (P := (· ∉ reservedWords))

theorem unreserved_textOf {ts : List Token} (hts : Separated ts)
    (h : ∀ u ∈ ts, u.text ∉ reservedWords) : Unreserved (textOf ts) :=
  only_textOf (P := (· ∉ reservedWords)) hts h

theorem unreserved_word {w : Text} (hw : isIdentifier w = true) (h : w ∉ reservedWords) :
    Unreserved w :=
  only_word (P := (· ∉ reservedWords)) hw h

theorem unreserved_append_mark {x y : Text} {c : Char} (hc : isCut c = true) (hx : Unreserved x)
    (hy : Unreserved y) : Unreserved (x ++ c :: y) :=
  (only_append_mark lenient_reservedWords hc).mpr ⟨hx, hy⟩

/-- A part of a text has no reserved words if its tokens are tokens of the text. -/
theorem Unreserved.of_isInfix {x : Text} (hx : Unreserved x) {us : List Token}
    (hus : us <:+: tokenize x) : Unreserved (textOf us) :=
  Only.of_isInfix (P := (· ∉ reservedWords)) hx hus

theorem Unreserved.trim {x : Text} (hx : Unreserved x) : Unreserved (Text.trim x) :=
  Only.trim (P := (· ∉ reservedWords)) hx

/-- Blanks in front bring no reserved words, also where they join blanks. -/
theorem unreserved_blank_append {w x : Text} (hw : ∀ c ∈ w, Text.isBlank c = true)
    (hx : Unreserved x) : Unreserved (w ++ x) :=
  only_blank_append lenient_reservedWords hw hx

/-! ## Samples -/

theorem unreserved_argumentList {arguments : List Text} (h : ∀ a ∈ arguments, Unreserved a) :
    Unreserved (argumentList arguments) := by
  induction arguments with
  | nil => exact unreserved_nil
  | cons a arguments ih =>
    have ha := h a List.mem_cons_self
    cases arguments with
    | nil => rwa [argumentList_singleton]
    | cons b arguments =>
      have hrest := ih fun e he => h e (List.mem_cons_of_mem a he)
      rw [argumentList_cons]
      exact unreserved_append_mark (c := ',') (by decide) ha
        (unreserved_blank_append (fun _ => isBlank_of_mem_space) hrest)

theorem unreserved_call {f : Text} (hf : isIdentifier f = true) (hne : f ∉ reservedWords)
    {first : List Token} (hfirst : Unreserved (textOf first)) {rest : List (List Token)}
    (hrest : ∀ a ∈ rest, Unreserved (textOf a)) : Unreserved (textOf (call f first rest)) := by
  rw [textOf_call]
  refine unreserved_append_mark (by decide) (unreserved_word hf hne)
    (unreserved_append_mark (by decide) (unreserved_argumentList fun a ha => ?_) unreserved_nil)
  rcases List.mem_cons.mp ha with rfl | ha
  · exact hfirst
  · obtain ⟨b, hb, rfl⟩ := List.mem_map.mp ha
    exact hrest b hb

theorem unreserved_bufferMemberName {name member : Text} (hname : isIdentifier name = true)
    (hmember : member.all isWordChar = true) : Unreserved (bufferMemberName name member) :=
  unreserved_word (isIdentifier_bufferMemberName hname hmember)
    (not_mem_reservedWords_of_generated (generated_bufferMemberName name member))

/-- The tokens of a sample are a call. -/
theorem exists_sampleTokens_eq (name : Text) (kind : BufferKind) (indices : List (List Token)) :
    ∃ f first rest, isIdentifier f = true ∧ sampleTokens name kind indices = call f first rest := by
  unfold sampleTokens
  cases kind.element with
  | float => exact ⟨_, _, _, by decide, rfl⟩
  | color => exact ⟨_, _, _, by decide, rfl⟩

theorem unreserved_sampleTokens {name : Text} (hname : isIdentifier name = true)
    (kind : BufferKind) {indices : List (List Token)} (h : ∀ i ∈ indices, Unreserved (textOf i)) :
    Unreserved (textOf (sampleTokens name kind indices)) := by
  have hselect : Unreserved (textOf (selectTokens name kind indices)) := by
    refine unreserved_call (isIdentifier_select kind)
      (not_mem_reservedWords_of_generated ?_) ?_ fun a ha => ?_
    · exact (List.prefix_append "nc_".toList "select_".toList).trans (List.prefix_append _ _)
    · rw [textOf_word]
      exact unreserved_bufferMemberName hname (by decide)
    · rcases List.mem_append.mp ha with ha | ha
      · obtain ⟨m, hm, rfl⟩ := List.mem_map.mp ha
        rw [textOf_word]
        exact unreserved_bufferMemberName hname (all_of_mem_companionTail hm)
      · exact h a ha
  have hsampler : Unreserved (textOf (samplerTokens name)) := by
    refine unreserved_call (by decide) (by decide) ?_ fun a ha => ?_
    · rw [textOf_word]
      exact unreserved_bufferMemberName hname (by decide)
    · rw [List.mem_singleton.mp ha, textOf_word]
      exact unreserved_word (by decide) (by decide)
  have hzero : Unreserved (textOf [zeroLiteral]) := unreserved_of_not_infix (by decide)
  have htexture : Unreserved (textOf (textureTokens name kind indices)) := by
    refine unreserved_call (by decide) (by decide) hsampler fun a ha => ?_
    rcases List.mem_cons.mp ha with rfl | ha
    · exact hselect
    · rw [List.mem_singleton.mp ha]
      exact hzero
  unfold sampleTokens
  cases kind.element with
  | float =>
    exact unreserved_call (by decide) (by decide) htexture fun a ha => absurd ha List.not_mem_nil
  | color => exact htexture

theorem sampleText_eq (name : Text) (kind : BufferKind) (captures : List Text) :
    sampleText name kind captures =
      textOf (sampleTokens name kind ((captures.map tokenize).map trimBlanks)) := by
  rw [textOf_sampleTokens, List.map_map]
  · congr 1
    exact (List.map_id captures).symm.trans
      (List.map_congr_left fun c _ => (textOf_tokenize c).symm)
  · intro i hi
    obtain ⟨c, -, rfl⟩ := List.mem_map.mp hi
    exact proper_tokenize

/-- A texture sample has no reserved words but those of its indices. -/
theorem unreserved_sampleText {name : Text} (hname : isIdentifier name = true) (kind : BufferKind)
    {captures : List Text} (h : ∀ c ∈ captures, Unreserved c) :
    Unreserved (sampleText name kind captures) := by
  rw [sampleText_eq]
  refine unreserved_sampleTokens hname kind fun i hi => ?_
  rw [List.map_map] at hi
  obtain ⟨c, hc, rfl⟩ := List.mem_map.mp hi
  rw [Function.comp_apply, textOf_trimBlanks proper_tokenize, textOf_tokenize]
  exact (h c hc).trim

/-- A sample is a call. -/
theorem exists_sampleText_call (name : Text) (kind : BufferKind) (captures : List Text) :
    ∃ f arguments, sampleText name kind captures = f ++ '(' :: arguments ++ [')'] ∧
      isIdentifier f = true := by
  obtain ⟨f, first, rest, hf, hcall⟩ :=
    exists_sampleTokens_eq name kind ((captures.map tokenize).map trimBlanks)
  refine ⟨f, argumentList (textOf first :: rest.map textOf), ?_, hf⟩
  rw [sampleText_eq, hcall, textOf_call]
  simp

theorem startsName_sampleText (name : Text) (kind : BufferKind) (captures : List Text) :
    StartsName (sampleText name kind captures) := by
  obtain ⟨f, arguments, htext, hf⟩ := exists_sampleText_call name kind captures
  rw [htext, List.append_assoc]
  exact startsName_of_isIdentifier hf _

theorem seamless_sampleText {taken : List Token} (htaken : StartsName (textOf taken)) (name : Text)
    (kind : BufferKind) (captures : List Text) :
    Seamless taken (sampleText name kind captures) := by
  have hstarts := startsName_sampleText name kind captures
  obtain ⟨f, arguments, htext, -⟩ := exists_sampleText_call name kind captures
  rw [htext] at hstarts ⊢
  exact Seamless.of_mark htaken (by decide) hstarts

/-! ## Passes -/

/-- A pass brings no reserved words if what it puts in has none but those captured. -/
theorem Unreserved.replace {p : Pattern} (hp : p.Consumes = true) {substitute : Occurrence → Text}
    (h : ∀ us m, (∀ u ∈ us, u.Proper) → p.match? us = some m → (∀ c ∈ m.captures, Unreserved c) →
      Seamless m.taken (substitute ⟨m.taken, m.captures⟩) ∧
        Unreserved (substitute ⟨m.taken, m.captures⟩))
    {x : Text} (hx : Unreserved x) : Unreserved ((Sweep.replace p substitute).of x) := by
  have hall : ∀ us m, us <:+ tokenize x → p.match? us = some m →
      Seamless m.taken (substitute ⟨m.taken, m.captures⟩) ∧
        Unreserved (substitute ⟨m.taken, m.captures⟩) := by
    intro us m hus hm
    refine h us m (fun u hu => proper_tokenize u (hus.subset hu)) hm fun c hc => ?_
    obtain ⟨vs, hvs, rfl⟩ := Pattern.captures_infix hm c hc
    have htaken : m.taken <+: us := ⟨m.rest, Pattern.match?_append hm⟩
    exact hx.of_isInfix (hvs.trans (htaken.isInfix.trans hus.isInfix))
  intro u hu
  rcases Pattern.mem_tokenize_replace hp (fun us m hus hm => (hall us m hus hm).1) hu with
    hu | ⟨us, m, hus, hm, hu⟩
  · exact hx u hu
  · exact (hall us m hus hm).2 u hu

theorem startsName_taken {w : Text} (hw : isIdentifier w = true) {p : Pattern} {ts : List Token}
    {m : Match} (h : (Pattern.literal w ++ p).match? ts = some m) :
    StartsName (textOf m.taken) := by
  obtain ⟨run, left, n, hrun, -, rfl⟩ := Pattern.exists_of_match?_atom h
  obtain ⟨t, rfl, rfl⟩ := Atom.exists_of_split?_literal hrun
  exact startsName_of_isIdentifier hw _

/-- A match of a field takes its name, the point and the field. -/
theorem match?_field_eq_some {name f : Text} (hname : isIdentifier name = true)
    (hf : isIdentifier f = true) {us : List Token} (hp : ∀ u ∈ us, u.Proper) {m : Match}
    (h : (Pattern.field name f).match? us = some m) :
    ∃ gap gap', Gap gap ∧ Gap gap' ∧
      m.taken = word name :: (gap ++ mark '.' :: (gap' ++ [word f])) := by
  have happ := Pattern.match?_append h
  have hread : (Pattern.field name f).read? us = some (m.captures, m.rest) := by
    rw [Pattern.read?, h, Option.map_some]
  cases us with
  | nil => cases (Pattern.match?_nil (p := Pattern.field name f) rfl).symm.trans h
  | cons t ts =>
    rw [Pattern.read?_field fun u hu => hp u (List.mem_cons_of_mem t hu)] at hread
    obtain ⟨htext, hafter⟩ := Option.ite_none_right_eq_some.mp hread
    obtain ⟨left, hleft, hfield⟩ := Option.bind_eq_some_iff.mp hafter
    obtain ⟨gap, hgap, rfl⟩ := afterMark?_eq_some_iff.mp hleft
    obtain ⟨⟨u, rest⟩, hnext, heq⟩ := Option.map_eq_some_iff.mp hfield
    obtain ⟨-, rfl⟩ := Prod.mk.inj heq
    obtain ⟨hu, hskip⟩ := next?_eq_some_iff.mp hnext
    have hmem : u ∈ left := Rules.mem_skipBlank (by rw [hskip]; exact List.mem_cons_self)
    have hu' : u = word f := by
      have hutext : u.text = f := of_decide_eq_true hu
      rw [← hutext]
      exact (hp u (by simp [hmem])).eq_word (by rw [hutext, hf])
    have ht' : t = word name := by
      rw [← htext]
      exact (hp t List.mem_cons_self).eq_word (by rw [htext, hname])
    have hspace : ∀ v : Token, v.kind = .space → decide (v = word f) = false := by
      rintro v hv
      exact decide_eq_false fun heq => by rw [heq] at hv; cases hv
    obtain ⟨-, gap', hgap', rfl⟩ := (next?_skipBlank_eq_some_iff hspace).mp
      (next?_eq_some_iff.mpr ⟨decide_eq_true hu', hskip⟩)
    refine ⟨gap, gap', hgap, hgap', List.append_cancel_right (happ.trans ?_)⟩
    rw [ht', hu']
    simp

/-- A name may stand for a field. -/
theorem seamless_field {name f w : Text} (hname : isIdentifier name = true)
    (hf : isIdentifier f = true) (hw : isIdentifier w = true) {us : List Token}
    (hp : ∀ u ∈ us, u.Proper) {m : Match} (h : (Pattern.field name f).match? us = some m) :
    Seamless m.taken w := by
  obtain ⟨gap, gap', -, -, htaken⟩ := match?_field_eq_some hname hf hp h
  have hlast : m.taken = (word name :: (gap ++ mark '.' :: gap')) ++ [word f] := by
    rw [htaken]
    simp
  exact Seamless.of_isIdentifier (startsName_taken hname h) hlast hf hw

section

variable {name : Text} (hname : isIdentifier name = true) {x : Text} (hx : Unreserved x)

include hname hx

theorem unreserved_sampleRound (kind : BufferKind) :
    Unreserved ((Sweep.replace (Pattern.bufferRead name kind.rank)
      fun o => sampleText name kind o.captures).of x) :=
  Unreserved.replace rfl (fun _ m _ hm hcaptures =>
    ⟨seamless_sampleText (startsName_taken hname hm) name kind m.captures,
      unreserved_sampleText hname kind hcaptures⟩) hx

theorem unreserved_replaceField {f w : Text} (hf : isIdentifier f = true)
    (hw : isIdentifier w = true) (hne : w ∉ reservedWords) :
    Unreserved ((Sweep.replace (Pattern.field name f) fun _ => w).of x) := by
  exact Unreserved.replace rfl (fun _ _ hp hm _ =>
    ⟨seamless_field hname hf hw hp hm, unreserved_word hw hne⟩) hx

end

/-! ## Passes over a text that ends without reserved words -/

/-- After `x` the text has no reserved words. -/
def UnreservedAfter (x code : Text) : Prop := ∃ rest, code = x ++ rest ∧ Unreserved rest

section

variable {x : Text} (hx : Inert x)

include hx

theorem UnreservedAfter.replaceAll {p : Pattern} (hp : p.Consumes = true) {f : Occurrence → Text}
    (hselects : (Sweep.replace p f).Selects)
    (h : ∀ rest, Unreserved rest → Unreserved ((Sweep.replace p f).of rest)) {code : Text}
    (hcode : UnreservedAfter x code) :
    ∃ out, p.replaceAll f code = .ok out ∧ UnreservedAfter x out := by
  obtain ⟨rest, rfl, hrest⟩ := hcode
  refine ⟨_, Pattern.replaceAll_eq hp f _, (Sweep.replace p f).of rest, ?_, h rest hrest⟩
  rw [hx _ _ hselects]
  congr 1
  simp [Sweep.replace]

/-- The rounds for a buffer bring no reserved words. -/
theorem UnreservedAfter.sampleRounds {name : Text} (hname : isIdentifier name = true)
    {kind : BufferKind} {code out : Text} (hrounds : SampleRounds name kind code out)
    (hcode : UnreservedAfter x code) : UnreservedAfter x out := by
  induction hrounds with
  | done => exact hcode
  | round _ hnext _ _ ih =>
    obtain ⟨next, hok, hafter⟩ := hcode.replaceAll hx rfl
      (selects_bufferRead name kind hname fun o => sampleText name kind o.captures)
      fun _ hrest => unreserved_sampleRound hname hrest kind
    rw [hnext] at hok
    cases hok
    exact ih hafter

theorem UnreservedAfter.replaceField {name f : Text} (hname : isIdentifier name = true)
    (hf : f ∈ extentFields) {code : Text} (hcode : UnreservedAfter x code) :
    ∃ out, Texelwise.replaceField name f code = .ok out ∧ UnreservedAfter x out := by
  have hfield := isIdentifier_of_mem_extentFields hf
  have hmember := isIdentifier_bufferMemberName hname (all_of_isIdentifier hfield)
  exact hcode.replaceAll hx rfl (selects_field name f hname _) fun _ hrest =>
    unreserved_replaceField hname hrest hfield hmember
      (not_mem_reservedWords_of_generated (generated_bufferMemberName name f))

end

end Texelwise

import Texelwise.Proofs.Expansion.Image

/-!
# The words of a text

What holds of every token of a text holds of every token of a text that is put together from it,
as long as blanks and marks are no exceptions.

* `Only`: a property holds of the text of every token; `Lenient`: it holds of marks and blanks.
* `only_append_mark`, `only_blank_append`: texts put together.
* `Only.of_isInfix`, `Only.trim`: parts of a text.
* `forall_mem_sampleTokens`: the words of a sample are those of its indices and `sampleWords`.
* `Rules.forall_mem_image`: the words of an image are those of the tokens and of what is put in.
-/

namespace Texelwise

open Token

/-- Every token of the text has the property. -/
def Only (P : Text → Prop) (x : Text) : Prop := ∀ u ∈ tokenize x, P u.text

/-- Marks and blanks have the property. -/
structure Lenient (P : Text → Prop) : Prop where
  mark : ∀ c, P [c]
  space : ∀ u : Token, u.Proper → u.kind = .space → P u.text

variable {P : Text → Prop}

/-! ## Texts -/

/-- Blanks in front of a text, and those that it starts with, are at most one token. -/
theorem exists_tokenize_blank_append {b : Text} (hb : ∀ c ∈ b, Text.isBlank c = true) (x : Text) :
    ∃ gap : List Token, (∀ u ∈ gap, u.Proper ∧ u.kind = .space) ∧
      tokenize (b ++ x) = gap ++ tokenize (x.dropWhile Text.isBlank) := by
  have hhead : ∀ c ∈ (x.dropWhile Text.isBlank).head?, Text.isBlank c = false := by
    intro c hc
    have hnot := List.head?_dropWhile_not Text.isBlank x
    rw [hc] at hnot
    simpa using hnot
  have hfront : ∀ c ∈ b ++ x.takeWhile Text.isBlank, Text.isBlank c = true := by
    intro c hc
    rcases List.mem_append.mp hc with hc | hc
    · exact hb c hc
    · exact List.mem_takeWhile_imp hc
  have happ : b ++ x = b ++ x.takeWhile Text.isBlank ++ x.dropWhile Text.isBlank := by
    rw [List.append_assoc, List.takeWhile_append_dropWhile]
  rw [happ]
  by_cases hne : b ++ x.takeWhile Text.isBlank = []
  · exact ⟨[], fun u hu => absurd hu List.not_mem_nil, by rw [hne]; rfl⟩
  · refine ⟨[blank _], fun u hu => ?_, tokenize_blank hne hfront hhead⟩
    rw [List.mem_singleton.mp hu]
    exact ⟨proper_blank hne hfront, rfl⟩

theorem only_nil : Only P [] := by
  intro u hu
  rw [tokenize_nil] at hu
  cases hu

theorem only_textOf {ts : List Token} (hts : Separated ts) (h : ∀ u ∈ ts, P u.text) :
    Only P (textOf ts) := by
  unfold Only
  rwa [tokenize_textOf hts]

theorem only_word {w : Text} (hw : isIdentifier w = true) (h : P w) : Only P w := by
  have hword : Only P (textOf [word w]) :=
    only_textOf ⟨proper_word hw, by simp, trivial⟩ fun u hu => by
      rw [List.mem_singleton.mp hu]
      exact h
  rwa [textOf_word] at hword

theorem only_word_append {w x : Text} (hw : isIdentifier w = true)
    (hx : ∀ c ∈ x.head?, isWordChar c = false) (h : P w) (h' : Only P x) : Only P (w ++ x) := by
  unfold Only
  rw [tokenize_word hw hx, List.forall_mem_cons]
  exact ⟨h, h'⟩

theorem Only.mono {P' : Text → Prop} {x : Text} (hx : Only P x) (h : ∀ w, P w → P' w) :
    Only P' x :=
  fun u hu => h u.text (hx u hu)

/-- A part of a text has what the text has if its tokens are tokens of the text. -/
theorem Only.of_isInfix {x : Text} (hx : Only P x) {us : List Token} (hus : us <:+: tokenize x) :
    Only P (textOf us) := by
  obtain ⟨pre, post, happ⟩ := hus
  have hseparated := separated_tokenize x
  rw [← happ, List.append_assoc] at hseparated
  refine only_textOf (separatedBy_append.mp (separatedBy_append.mp hseparated).2.1).1
    fun u hu => hx u ?_
  rw [← happ]
  simp [hu]

theorem mem_of_mem_trimBlanks {ts : List Token} {u : Token} (h : u ∈ trimBlanks ts) : u ∈ ts := by
  obtain ⟨pre, post, happ, -⟩ := exists_trimBy isSpace ts
  rw [happ]
  exact List.mem_append_right _ (List.mem_append_left _ h)

theorem Only.trim {x : Text} (hx : Only P x) : Only P (Text.trim x) := by
  obtain ⟨pre, post, happ, -⟩ := exists_trimBy isSpace (tokenize x)
  have hinfix : trimBlanks (tokenize x) <:+: tokenize x :=
    ⟨pre, post, by rw [List.append_assoc]; exact happ.symm⟩
  have htrim := hx.of_isInfix hinfix
  rwa [textOf_trimBlanks proper_tokenize, textOf_tokenize] at htrim

section

variable (hP : Lenient P)

include hP

theorem only_append_mark {x y : Text} {c : Char} (hc : isCut c = true) :
    Only P (x ++ c :: y) ↔ Only P x ∧ Only P y := by
  unfold Only
  rw [tokenize_append_mark hc, List.forall_mem_append, List.forall_mem_cons]
  exact ⟨fun ⟨hx, _, hy⟩ => ⟨hx, hy⟩, fun ⟨hx, hy⟩ => ⟨hx, hP.mark c, hy⟩⟩

/-- Blanks in front make no difference, also where they join blanks. -/
theorem only_blank_append {w x : Text} (hw : ∀ c ∈ w, Text.isBlank c = true) (hx : Only P x) :
    Only P (w ++ x) := by
  obtain ⟨gap, hgap, hjoined⟩ := exists_tokenize_blank_append hw x
  obtain ⟨gap', -, halone⟩ := @exists_tokenize_blank_append [] (by simp) x
  intro u hu
  rw [hjoined] at hu
  rcases List.mem_append.mp hu with hu | hu
  · exact hP.space u (hgap u hu).1 (hgap u hu).2
  · refine hx u ?_
    rw [← List.nil_append x, halone]
    exact List.mem_append_right _ hu

/-! ## Samples -/

theorem forall_mem_call {f : Text} (hf : P f) {first : List Token}
    (hfirst : ∀ u ∈ first, P u.text) {rest : List (List Token)}
    (hrest : ∀ a ∈ rest, ∀ u ∈ a, P u.text) : ∀ u ∈ call f first rest, P u.text := by
  have hcomma : P (mark ',').text := hP.mark ','
  have hspace : P (blank [' ']).text := hP.mark ' '
  intro u hu
  simp only [call, argumentTail, List.mem_cons, List.mem_append, List.mem_flatMap,
    List.not_mem_nil, or_false] at hu
  rcases hu with rfl | rfl | hu | ⟨a, ha, rfl | rfl | hu⟩ | rfl
  · exact hf
  · exact hP.mark '('
  · exact hfirst u hu
  · exact hcomma
  · exact hspace
  · exact hrest a ha u hu
  · exact hP.mark ')'

/-- The words of a sample besides those of its indices. -/
def sampleWords (name : Text) (kind : BufferKind) : List Text :=
  ["nc_decode".toList, "textureLod".toList, "sampler2D".toList, textureName name, samplerName,
    "nc_select_".toList ++ kind.rank.label, "0.0".toList] ++
  kind.companions.map (bufferMemberName name)

theorem forall_mem_sampleTokens {name : Text} {kind : BufferKind}
    (hwords : ∀ w ∈ sampleWords name kind, P w) {indices : List (List Token)}
    (h : ∀ i ∈ indices, ∀ u ∈ i, P u.text) :
    ∀ u ∈ sampleTokens name kind indices, P u.text := by
  have hfixed : ∀ w ∈ _, P w := (List.forall_mem_append.mp hwords).1
  have hmembers : ∀ m ∈ kind.companions, P (bufferMemberName name m) := fun m hm =>
    (List.forall_mem_append.mp hwords).2 _ (List.mem_map_of_mem hm)
  simp only [List.forall_mem_cons, List.not_mem_nil, false_imp_iff, implies_true, and_true]
    at hfixed
  obtain ⟨hdecode, hlod, hsampler2D, htexture, hsampler, hselect, hzero⟩ := hfixed
  have hone : ∀ {w : Text}, P w → ∀ u ∈ [word w], P u.text := fun hw u hu => by
    rw [List.mem_singleton.mp hu]
    exact hw
  have hselectTokens : ∀ u ∈ selectTokens name kind indices, P u.text := by
    refine forall_mem_call hP hselect (hone (hmembers _ List.mem_cons_self)) fun a ha => ?_
    rcases List.mem_append.mp ha with ha | ha
    · obtain ⟨m, hm, rfl⟩ := List.mem_map.mp ha
      exact hone (hmembers m (List.mem_cons_of_mem _ hm))
    · exact h a ha
  have hsamplerTokens : ∀ u ∈ samplerTokens name, P u.text := by
    refine forall_mem_call hP hsampler2D (hone htexture) fun a ha => ?_
    rw [List.mem_singleton.mp ha]
    exact hone hsampler
  have htextureTokens : ∀ u ∈ textureTokens name kind indices, P u.text := by
    refine forall_mem_call hP hlod hsamplerTokens fun a ha => ?_
    simp only [List.mem_cons, List.not_mem_nil, or_false] at ha
    rcases ha with rfl | rfl
    · exact hselectTokens
    · intro u hu
      rw [List.mem_singleton.mp hu]
      exact hzero
  unfold sampleTokens
  cases kind.element with
  | float => exact forall_mem_call hP hdecode htextureTokens fun a ha => absurd ha List.not_mem_nil
  | color => exact htextureTokens

/-! ## Images -/

/-- What the rules put in has words with the property only. -/
structure Rules.Offers (r : Rules) (P : Text → Prop) : Prop where
  reads : ∀ e ∈ r.reads, ∀ w ∈ sampleWords e.1 e.2, P w
  fields : ∀ e ∈ r.fields, Only P e.2
  outputs : ∀ n w, r.output? n = some w → Only P w

namespace Rules

variable {r : Rules} (hr : r.Offers P)

include hr

theorem Offers.emit {t : Token} {s : Site} {tail : List Token} (hs : r.Stands t s tail)
    {g : List Token → List Token}
    (hg : ∀ b, b.length < tail.length → b ⊆ tail → ∀ u ∈ g b, P u.text) :
    ∀ u ∈ emit t g s, P u.text := by
  cases hs with
  | field _ _ _ _ hw => exact hr.fields _ (mem_of_lookup hw)
  | output _ _ _ _ _ hw => exact hr.outputs _ _ hw
  | @read kind blocks _ _ hkind _ hsubs =>
    refine forall_mem_sampleTokens hP (hr.reads _ (mem_of_lookup hkind)) fun i hi u hu => ?_
    obtain ⟨b, hb, rfl⟩ := List.mem_map.mp hi
    obtain ⟨pre, post, heq⟩ := hsubs.exists_of_mem hb
    refine hg b (hsubs.length_lt hb) (fun v hv => ?_) u (mem_of_mem_trimBlanks hu)
    rw [heq]
    exact List.mem_append_right _ (List.mem_append_left _ hv)

/-- The words of an image are words of the tokens or of what the rules put in. -/
theorem forall_mem_image {ts : List Token} (hts : ∀ u ∈ ts, P u.text) :
    ∀ u ∈ r.image ts, P u.text := by
  induction ts using r.induction with
  | nil => simp
  | keep t ts hnone ih =>
    rw [image_keep hnone, List.forall_mem_cons]
    exact ⟨hts t List.mem_cons_self,
      ih ts (Nat.le_refl _) fun u hu => hts u (List.mem_cons_of_mem t hu)⟩
  | site t s tail rest hkind hs ih =>
    have htail : ∀ u ∈ tail, P u.text := fun u hu => hts u (by simp [hu])
    rw [image_site (site?_append hkind hs rest), List.forall_mem_append]
    refine ⟨Offers.emit hP hr hs fun b hb hsub => ih b ?_ fun u hu => htail u (hsub hu),
      ih rest (by simp) fun u hu => hts u (by simp [hu])⟩
    rw [List.length_append]
    omega

end Rules

end

end Texelwise

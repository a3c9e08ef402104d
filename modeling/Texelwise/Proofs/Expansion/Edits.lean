import Texelwise.Proofs.Expansion.Probes
import Texelwise.Proofs.Pattern.Splice

/-!
# Tokens that are edited

A pass replaces runs of tokens and keeps the tokens between them. So a window of tokens is in the
text after the pass just if it was there before it, unless what is put in contains the window or
goes together with a part of it.

* `Edited`: the tokens before and after some runs of them are replaced.
* `Edited.exists_prefix`, `Edited.infix_of_infix`: windows after the edits were there before them.
* `StartsOnly`: what follows wherever a window starts in some tokens; `startsOnly_sampleTokens`.
* `Pattern.edited_replaceAll`: a pass edits the tokens of a text.
-/

namespace Texelwise

open Token

/-- Tokens before and after runs of them are replaced, each as `R` says. -/
inductive Edited (R : List Token → List Token → Prop) : List Token → List Token → Prop
  | nil : Edited R [] []
  | keep {ts us : List Token} (t : Token) (h : Edited R ts us) : Edited R (t :: ts) (t :: us)
  | edit {ts us old new : List Token} (hedit : R old new) (h : Edited R ts us) :
      Edited R (old ++ ts) (new ++ us)

/-! ## Where a window starts -/

/-- Wherever the window starts in these tokens, whatever follows them, `P` holds. -/
def StartsOnly (w xs : List Token) (P : Prop) : Prop :=
  ∀ s, s <:+ xs → s ≠ [] → ∀ zs, w <+: s ++ zs → P

/-- No end of the window goes on into these tokens, whatever follows them. -/
def Stops (w xs : List Token) : Prop := ∀ s, s <:+ w → s ≠ [] → ∀ zs, ¬ s <+: xs ++ zs

/-- A window in two parts is in the second, or it starts in the first. -/
theorem infix_append_cases {w xs ys : List Token} (h : w <:+: xs ++ ys) :
    w <:+: ys ∨ ∃ s, s <:+ xs ∧ s ≠ [] ∧ w <+: s ++ ys := by
  induction xs with
  | nil => exact .inl h
  | cons x xs ih =>
    rcases List.infix_cons_iff.mp h with h | h
    · exact .inr ⟨x :: xs, List.suffix_refl _, List.cons_ne_nil x xs, h⟩
    · rcases ih h with h | ⟨s, hs, hne, hw⟩
      · exact .inl h
      · exact .inr ⟨s, hs.trans (List.suffix_cons x xs), hne, hw⟩

/-- What a list starts with before a token that it does not have. -/
theorem prefix_of_not_mem {m : Token} {w xs ys : List Token} (hm : m ∉ w)
    (h : w <+: xs ++ m :: ys) : w <+: xs := by
  rcases List.prefix_or_prefix_of_prefix h (List.prefix_append xs (m :: ys)) with h' | ⟨more, rfl⟩
  · exact h'
  · rw [List.prefix_append_right_inj] at h
    cases more with
    | nil => simp
    | cons u more =>
      obtain rfl : u = m := (List.cons_prefix_cons.mp h).1
      exact absurd (by simp) hm

namespace StartsOnly

variable {v : Token} {w xs ys : List Token} {P : Prop}

theorem cons (hx : ∀ zs, w <+: v :: (xs ++ zs) → P) (h : StartsOnly w xs P) :
    StartsOnly w (v :: xs) P := by
  intro s hs hne zs hw
  rcases List.suffix_cons_iff.mp hs with rfl | hs
  · exact hx zs hw
  · exact h s hs hne zs hw

theorem append (hx : StartsOnly w xs P) (hy : StartsOnly w ys P) : StartsOnly w (xs ++ ys) P := by
  induction xs with
  | nil => exact hy
  | cons x xs ih =>
    refine cons (fun zs hw => hx _ (List.suffix_refl _) (List.cons_ne_nil x xs) (ys ++ zs) ?_)
      (ih fun s hs => hx s (hs.trans (List.suffix_cons x xs)))
    simpa using hw

theorem of_not_mem (h : v ∉ xs) : StartsOnly (v :: w) xs P := by
  intro s hs hne zs hw
  obtain ⟨u, us, rfl⟩ := List.exists_cons_of_ne_nil hne
  obtain rfl : v = u := (List.cons_prefix_cons.mp hw).1
  exact absurd (hs.subset List.mem_cons_self) h

/-- A window does not go beyond a token that it does not have. -/
theorem of_stop {m : Token} (hm : m ∉ v :: w) (hv : v :: w <:+: xs → P) :
    StartsOnly (v :: w) (xs ++ [m]) P := by
  intro s hs hne zs hw
  rcases List.suffix_concat_iff.mp hs with rfl | ⟨r, rfl, hr⟩
  · exact absurd rfl hne
  rw [List.append_assoc] at hw
  exact hv ((prefix_of_not_mem hm hw).isInfix.trans hr.isInfix)

end StartsOnly

namespace Stops

variable {u v : Token} {w xs : List Token}

theorem of_not_mem (h : u ∉ w) : Stops w (u :: xs) := by
  intro s hs hne zs hw
  obtain ⟨v, vs, rfl⟩ := List.exists_cons_of_ne_nil hne
  obtain rfl : v = u := (List.cons_prefix_cons.mp hw).1
  exact h (hs.subset List.mem_cons_self)

/-- No end of the window goes beyond a token that it does not have, and none of them ends before
it if the window does not end with one of the tokens before it. -/
theorem of_stop (before : List Token) (h : u ∉ w) (hlast : ∀ t ∈ w.getLast?, t ∉ before) :
    Stops w (before ++ u :: xs) := by
  rintro s ⟨front, rfl⟩ hne zs hs
  rw [List.append_assoc] at hs
  have hbefore := prefix_of_not_mem (fun hu => h (List.mem_append_right front hu)) hs
  obtain ⟨t, ht⟩ :=
    Option.ne_none_iff_exists'.mp fun hnone => hne (List.getLast?_eq_none_iff.mp hnone)
  refine hlast t ?_ (hbefore.subset (List.mem_of_mem_getLast? ht))
  rwa [List.getLast?_append_of_ne_nil front hne]

end Stops

/-! ## Windows before and after -/

namespace Edited

variable {R : List Token → List Token → Prop} {ts us : List Token}

theorem flip (h : Edited R ts us) : Edited (fun old new => R new old) us ts := by
  induction h with
  | nil => exact .nil
  | keep t _ ih => exact .keep t ih
  | edit hedit _ ih => exact .edit hedit ih

theorem keeps (xs : List Token) (h : Edited R ts us) : Edited R (xs ++ ts) (xs ++ us) := by
  induction xs with
  | nil => exact h
  | cons x xs ih => exact .keep x ih

/-- What the tokens after the edits start with they started with before. -/
theorem exists_prefix (h : Edited R ts us) {w rest : List Token}
    (hw : ∀ old new, R old new → Stops w new) (hus : us = w ++ rest) :
    ∃ rest', ts = w ++ rest' ∧ Edited R rest' rest := by
  induction w generalizing ts us with
  | nil => exact ⟨ts, rfl, by rwa [hus] at h⟩
  | cons v w ih =>
    have hw' : ∀ old new, R old new → Stops w new := fun old new hR s hs =>
      hw old new hR s (hs.trans (List.suffix_cons v w))
    cases h with
    | nil => cases hus
    | keep t h =>
      obtain ⟨rfl, hrest⟩ := List.cons_eq_cons.mp hus
      obtain ⟨rest', rfl, hrest'⟩ := ih h hw' hrest
      exact ⟨rest', rfl, hrest'⟩
    | @edit ts us old new hedit h =>
      -- No part of the window is at the start of what is put in.
      exact absurd ⟨rest, hus.symm⟩
        (hw old new hedit (v :: w) (List.suffix_refl _) (List.cons_ne_nil v w) us)

/-- A window of the tokens after the edits is one of those before them, if it was there wherever it
starts in what is put in. -/
theorem infix_of_infix (h : Edited R ts us) {v : Token} {w : List Token}
    (hstops : ∀ old new, R old new → Stops w new)
    (hstarts : ∀ old new, R old new → StartsOnly (v :: w) new (v :: w <:+: old))
    (hw : v :: w <:+: us) : v :: w <:+: ts := by
  induction h with
  | nil => exact absurd (List.infix_nil.mp hw) (List.cons_ne_nil v w)
  | @keep ts us t h ih =>
    rcases List.infix_cons_iff.mp hw with hw | hw
    · obtain ⟨rfl, rest, hrest⟩ := List.cons_prefix_cons.mp hw
      obtain ⟨rest', rfl, -⟩ := h.exists_prefix hstops hrest.symm
      exact (List.prefix_append (v :: w) rest').isInfix
    · exact (ih hw).trans (List.suffix_cons t ts).isInfix
  | @edit ts us old new hedit h ih =>
    rcases infix_append_cases hw with hw | ⟨s, hs, hne, hw⟩
    · exact (ih hw).trans (List.suffix_append old ts).isInfix
    · exact (hstarts old new hedit s hs hne us hw).trans (List.prefix_append old ts).isInfix

end Edited

/-! ## Windows in samples -/

section

variable {v : Token} {w : List Token} {P : Prop}

/-- A window without commas and closing parentheses is in one of the arguments. -/
theorem startsOnly_arguments (hcomma : mark ',' ∉ v :: w) (hclose : mark ')' ∉ v :: w)
    (hblank : v ≠ blank [' ']) {first : List Token} {rest : List (List Token)}
    (h : ∀ a ∈ first :: rest, v :: w <:+: a → P) :
    StartsOnly (v :: w) (first ++ (argumentTail rest ++ [mark ')'])) P := by
  induction rest generalizing first with
  | nil => exact .of_stop hclose (h first List.mem_cons_self)
  | cons a rest ih =>
    have hassoc : first ++ (argumentTail (a :: rest) ++ [mark ')']) =
        first ++ [mark ','] ++ ([blank [' ']] ++ (a ++ (argumentTail rest ++ [mark ')']))) := by
      rw [argumentTail_cons]
      simp
    rw [hassoc]
    exact .append (.of_stop hcomma (h first List.mem_cons_self))
      (.append (.of_not_mem (by simpa using hblank))
        (ih fun b hb => h b (List.mem_cons_of_mem first hb)))

theorem startsOnly_call (hcomma : mark ',' ∉ v :: w) (hclose : mark ')' ∉ v :: w)
    (hv : v.kind = .ident) {f : Text} (hf : v ≠ word f) {first : List Token}
    {rest : List (List Token)} (h : ∀ a ∈ first :: rest, v :: w <:+: a → P) :
    StartsOnly (v :: w) (call f first rest) P := by
  have hne : ∀ u : Token, u.kind ≠ .ident → v ≠ u := by
    rintro u hu rfl
    exact hu hv
  have hfront : v ∉ [word f, mark '('] := by
    simpa using ⟨hf, hne (mark '(') (by decide)⟩
  exact .append (.of_not_mem hfront)
    (startsOnly_arguments hcomma hclose (hne _ (by decide)) h)

theorem StartsOnly.of_isInfix {xs : List Token} (h : StartsOnly (v :: w) xs P)
    (hw : v :: w <:+: xs) : P := by
  rw [← List.append_nil xs] at hw
  rcases infix_append_cases hw with hw | ⟨s, hs, hne, hw⟩
  · exact absurd (List.infix_nil.mp hw) (List.cons_ne_nil v w)
  · exact h s hs hne [] hw

/-- A word that no generated word starts is none of the arguments that are generated. -/
theorem not_infix_generated (hgenerated : ¬ "nc_".toList <+: v.text) {f : Text}
    (hf : "nc_".toList <+: f) : ¬ v :: w <:+: [word f] := by
  intro hw
  obtain rfl := List.mem_singleton.mp (hw.subset List.mem_cons_self)
  exact hgenerated hf

section

variable (hcomma : mark ',' ∉ v :: w) (hclose : mark ')' ∉ v :: w) (hv : v.kind = .ident)
  (hgenerated : ¬ "nc_".toList <+: v.text)

include hcomma hclose hv hgenerated

/-- A window in what chooses the texture coordinate is in an index. -/
theorem startsOnly_selectTokens {name : Text} (kind : BufferKind) {indices : List (List Token)}
    (h : ∀ i ∈ indices, v :: w <:+: i → P) :
    StartsOnly (v :: w) (selectTokens name kind indices) P := by
  have hf : v ≠ word ("nc_select_".toList ++ kind.rank.label) := by
    rintro rfl
    exact hgenerated ⟨"select_".toList ++ kind.rank.label, by simp [word]⟩
  refine startsOnly_call hcomma hclose hv hf fun a ha => ?_
  simp only [List.mem_cons, List.mem_append, List.mem_map] at ha
  rcases ha with rfl | ⟨m, -, rfl⟩ | ha
  · exact (absurd · (not_infix_generated hgenerated (generated_bufferMemberName name _)))
  · exact (absurd · (not_infix_generated hgenerated (generated_bufferMemberName name m)))
  · exact h a ha

/-- No window that starts with a word of the language is in the sampler. -/
theorem startsOnly_samplerTokens (hsampler : v.text ≠ "sampler2D".toList) (name : Text) :
    StartsOnly (v :: w) (samplerTokens name) P := by
  have hf : v ≠ word "sampler2D".toList := fun heq => hsampler (by rw [heq]; rfl)
  refine startsOnly_call hcomma hclose hv hf fun a ha => ?_
  simp only [List.mem_cons, List.not_mem_nil, or_false] at ha
  rcases ha with rfl | rfl
  · exact (absurd · (not_infix_generated hgenerated (generated_bufferMemberName name _)))
  · exact (absurd · (not_infix_generated hgenerated ⟨"sampler".toList, rfl⟩))

/-- A window that starts with a word of the language is in an index. -/
theorem startsOnly_textureTokens
    (hlanguage : v.text ∉ ["textureLod".toList, "sampler2D".toList]) {name : Text}
    (kind : BufferKind) {indices : List (List Token)} (h : ∀ i ∈ indices, v :: w <:+: i → P) :
    StartsOnly (v :: w) (textureTokens name kind indices) P := by
  simp only [List.mem_cons, List.not_mem_nil, or_false, not_or] at hlanguage
  have hf : v ≠ word "textureLod".toList := fun heq => hlanguage.1 (by rw [heq]; rfl)
  refine startsOnly_call hcomma hclose hv hf fun a ha => ?_
  simp only [List.mem_cons, List.not_mem_nil, or_false] at ha
  rcases ha with rfl | rfl | rfl
  · exact (startsOnly_samplerTokens hcomma hclose hv hgenerated hlanguage.2 name).of_isInfix
  · exact (startsOnly_selectTokens hcomma hclose hv hgenerated kind h).of_isInfix
  · intro hw
    rw [List.mem_singleton.mp (hw.subset List.mem_cons_self)] at hv
    cases hv

/-- So it is in the whole text of a read. -/
theorem startsOnly_sampleTokens
    (hlanguage : v.text ∉ ["textureLod".toList, "sampler2D".toList]) {name : Text}
    (kind : BufferKind) {indices : List (List Token)} (h : ∀ i ∈ indices, v :: w <:+: i → P) :
    StartsOnly (v :: w) (sampleTokens name kind indices) P := by
  have htexture : StartsOnly (v :: w) (textureTokens name kind indices) P :=
    startsOnly_textureTokens hcomma hclose hv hgenerated hlanguage kind h
  unfold sampleTokens
  cases kind.element with
  | float =>
    have hf : v ≠ word "nc_decode".toList := by
      rintro rfl
      exact hgenerated ⟨"decode".toList, rfl⟩
    refine startsOnly_call hcomma hclose hv hf fun a ha => ?_
    rw [List.mem_singleton.mp ha]
    exact htexture.of_isInfix
  | color => exact htexture

end

end

/-! ## Passes -/

/-- Putting in texts that go together with no neighbour edits the tokens of the pieces. -/
theorem Piece.edited_splice {R : List Token → List Token → Prop} {substitute : Occurrence → Text}
    {pieces : List Piece} (h : ∀ o, .found o ∈ pieces →
      R o.taken (tokenize (substitute o)) ∨ tokenize (substitute o) = o.taken) :
    Edited R (tokensOf pieces) (pieces.flatMap (splice substitute)) := by
  induction pieces with
  | nil => exact .nil
  | cons piece pieces ih =>
    have hrest := ih fun o ho => h o (List.mem_cons_of_mem piece ho)
    cases piece with
    | kept t => exact .keep t hrest
    | found o =>
      show Edited R (o.taken ++ tokensOf pieces) (tokenize (substitute o) ++ _)
      rcases h o List.mem_cons_self with hedit | hsame
      · exact .edit hedit hrest
      · rw [hsame]
        exact hrest.keeps o.taken

/-- A pass edits the tokens of a text. -/
theorem Pattern.edited_replaceAll {R : List Token → List Token → Prop} {p : Pattern}
    (hp : p.Consumes = true) {substitute : Occurrence → Text} {x y : Text}
    (h : ∀ us m, us <:+ tokenize x → p.match? us = some m →
      Seamless m.taken (substitute ⟨m.taken, m.captures⟩) ∧
        (R m.taken (tokenize (substitute ⟨m.taken, m.captures⟩)) ∨
          tokenize (substitute ⟨m.taken, m.captures⟩) = m.taken))
    (hy : p.replaceAll substitute x = .ok y) : Edited R (tokenize x) (tokenize y) := by
  have hedits : ∀ o, .found o ∈ p.walk (tokenize x) →
      R o.taken (tokenize (substitute o)) ∨ tokenize (substitute o) = o.taken := by
    intro o ho
    obtain ⟨us, m, hus, hm, rfl⟩ := match?_of_mem_walk ho
    exact (h us m hus hm).2
  rw [replaceAll_eq_walk hp] at hy
  obtain rfl := Except.ok.inj hy
  rw [tokenize_emit_walk hp fun us m hus hm => (h us m hus hm).1]
  have hedited := Piece.edited_splice hedits
  rwa [tokensOf_walk hp] at hedited

end Texelwise

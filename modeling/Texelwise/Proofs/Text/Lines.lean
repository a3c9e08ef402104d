import Mathlib.Data.List.Infix
import Texelwise.Text.Comment

/-!
# Line breaks

Removing comments leaves a text without comments as it is, up to its line breaks.

* `unifyBreaks`: every line break written as one `'\n'`; `dropBreak`: no break at the end.
* `stripComments_eq`: what removing comments makes of a text without comments.
-/

namespace Texelwise.Text

/-- The text with `'\n'` for each `'\r'` and `'\n'`. -/
def unifyBreaks : Text → Text
  | [] => []
  | c :: rest =>
    if c = '\r' ∧ rest.head? = some '\n' then unifyBreaks rest else c :: unifyBreaks rest

/-- The text without one `'\n'` at its end. -/
def dropBreak (t : Text) : Text := if t.getLast? = some '\n' then t.dropLast else t

/-! ## One form of line breaks -/

@[simp] theorem unifyBreaks_nil : unifyBreaks [] = [] := rfl

theorem unifyBreaks_cons_of_ne {c : Char} (h : c ≠ '\r') (rest : Text) :
    unifyBreaks (c :: rest) = c :: unifyBreaks rest := by
  rw [unifyBreaks, if_neg fun hc => h hc.1]

theorem unifyBreaks_cons_of_head {c : Char} {rest : Text} (h : rest.head? ≠ some '\n') :
    unifyBreaks (c :: rest) = c :: unifyBreaks rest := by
  rw [unifyBreaks, if_neg fun hc => h hc.2]

/-- Where no break is cut in two, the parts are treated apart. -/
theorem unifyBreaks_append (x : Text) {y : Text} (hy : y.head? ≠ some '\n') :
    unifyBreaks (x ++ y) = unifyBreaks x ++ unifyBreaks y := by
  induction x with
  | nil => rfl
  | cons c x ih =>
    have hhead : (x ++ y).head? = some '\n' ↔ x.head? = some '\n' := by
      cases x with
      | nil => simp [hy]
      | cons d x => simp
    rw [List.cons_append, unifyBreaks, unifyBreaks, ih]
    simp only [hhead]
    split <;> rfl

theorem unifyBreaks_append_of_not_mem {x : Text} (h : '\r' ∉ x) (y : Text) :
    unifyBreaks (x ++ y) = x ++ unifyBreaks y := by
  induction x with
  | nil => rfl
  | cons c x ih =>
    rw [List.mem_cons, not_or] at h
    rw [List.cons_append, unifyBreaks_cons_of_ne (Ne.symm h.1), ih h.2, List.cons_append]

/-- In front stands what stood there, or a break in its one form. -/
theorem head?_unifyBreaks (x : Text) : (unifyBreaks x).head? = x.head? ∨
    (unifyBreaks x).head? = some '\n' ∧ x.head? = some '\r' := by
  cases x with
  | nil => exact .inl rfl
  | cons c rest =>
    rw [unifyBreaks]
    split
    · rename_i h
      obtain ⟨rfl, hhead⟩ := h
      cases rest with
      | nil => cases hhead
      | cons d rest =>
        obtain rfl : d = '\n' := by simpa using hhead
        exact .inr ⟨by rw [unifyBreaks_cons_of_ne (by decide)]; rfl, rfl⟩
    · exact .inl rfl

theorem mem_of_mem_unifyBreaks {x : Text} {c : Char} (h : c ∈ unifyBreaks x) : c ∈ x := by
  induction x with
  | nil => exact h
  | cons d x ih =>
    rw [unifyBreaks] at h
    split at h
    · exact List.mem_cons_of_mem d (ih h)
    · rcases List.mem_cons.mp h with rfl | h
      · exact List.mem_cons_self
      · exact List.mem_cons_of_mem d (ih h)

theorem unifyBreaks_eq_nil_iff {x : Text} : unifyBreaks x = [] ↔ x = [] := by
  induction x with
  | nil => simp
  | cons c x ih =>
    rw [unifyBreaks]
    split
    · rename_i h
      have hx : x ≠ [] := by
        rintro rfl
        cases h.2
      simp [ih, hx]
    · simp

/-! ## Lines -/

/-- The lines that the parts between `'\n'` make up. -/
def linesOf (parts : List Text) : List Text :=
  parts.dropLast.map dropReturn ++
    if (parts.getLast?.getD []).isEmpty then [] else [parts.getLast?.getD []]

theorem lines_eq (t : Text) : lines t = linesOf (cut '\n' t) := rfl

theorem not_mem_of_mem_cut {separator : Char} {t p : Text} (h : p ∈ cut separator t) :
    separator ∉ p := by
  induction t generalizing p with
  | nil =>
    rw [List.mem_singleton.mp h]
    exact List.not_mem_nil
  | cons c t ih =>
    rw [cut] at h
    split at h
    · rcases List.mem_cons.mp h with rfl | h
      · exact List.not_mem_nil
      · exact ih h
    · rename_i hc
      obtain ⟨q, qs, hcut⟩ := List.exists_cons_of_ne_nil (cut_ne_nil separator t)
      rw [hcut, List.modifyHead_cons] at h
      rcases List.mem_cons.mp h with rfl | h
      · rw [List.mem_cons, not_or]
        exact ⟨Ne.symm hc, ih (by rw [hcut]; exact List.mem_cons_self)⟩
      · exact ih (by rw [hcut]; exact List.mem_cons_of_mem q h)

/-- A part with the break after it. -/
theorem unifyBreaks_part {p : Text} (hp : '\n' ∉ p) (rest : Text) :
    unifyBreaks (p ++ '\n' :: rest) = dropReturn p ++ '\n' :: unifyBreaks rest := by
  induction p with
  | nil => exact unifyBreaks_cons_of_ne (by decide) rest
  | cons c p ih =>
    rw [List.mem_cons, not_or] at hp
    have hrest := ih hp.2
    cases p with
    | nil =>
      rw [List.nil_append] at hrest
      rw [List.cons_append, List.nil_append, unifyBreaks, hrest]
      by_cases hc : c = '\r'
      · simp [hc, dropReturn]
      · simp [hc, dropReturn]
    | cons d p =>
      have hd : (d :: p ++ '\n' :: rest).head? ≠ some '\n' := by
        have hne : '\n' ≠ d := fun h => hp.2 (by rw [h]; exact List.mem_cons_self)
        simpa using Ne.symm hne
      have hdrop : dropReturn (c :: d :: p) = c :: dropReturn (d :: p) := by
        unfold dropReturn
        rw [List.getLast?_cons_cons, List.dropLast_cons_cons]
        split <;> rfl
      rw [List.cons_append, unifyBreaks_cons_of_head hd, hrest, hdrop, List.cons_append]

theorem unifyBreaks_of_not_mem {p : Text} (hp : '\n' ∉ p) : unifyBreaks p = p := by
  induction p with
  | nil => rfl
  | cons c p ih =>
    rw [List.mem_cons, not_or] at hp
    have hhead : p.head? ≠ some '\n' := fun h => hp.2 (List.mem_of_mem_head? h)
    rw [unifyBreaks_cons_of_head hhead, ih hp.2]

theorem dropBreak_of_not_mem {t : Text} (h : '\n' ∉ t) : dropBreak t = t :=
  if_neg fun hlast => h (List.mem_of_mem_getLast? hlast)

theorem dropBreak_prefix (t : Text) : dropBreak t <+: t := by
  unfold dropBreak
  split
  · exact List.dropLast_prefix t
  · exact List.prefix_refl t

theorem dropBreak_append (x : Text) {y : Text} (hy : y ≠ []) :
    dropBreak (x ++ y) = x ++ dropBreak y := by
  unfold dropBreak
  rw [List.getLast?_append_of_ne_nil x hy, List.dropLast_append_of_ne_nil hy]
  split <;> rfl

theorem dropBreak_cons_of_ne {c : Char} (hc : c ≠ '\n') (t : Text) :
    dropBreak (c :: t) = c :: dropBreak t := by
  cases t with
  | nil => simp [dropBreak, hc]
  | cons d t => exact dropBreak_append [c] (List.cons_ne_nil d t)

theorem linesOf_singleton (p : Text) : linesOf [p] = if p = [] then [] else [p] := by
  cases p <;> simp [linesOf]

theorem linesOf_cons_cons (p q : Text) (parts : List Text) :
    linesOf (p :: q :: parts) = dropReturn p :: linesOf (q :: parts) := by
  simp [linesOf]

/-- Only one empty part makes up no line. -/
theorem linesOf_eq_nil_iff {parts : List Text} (hne : parts ≠ []) :
    linesOf parts = [] ↔ parts = [[]] := by
  match parts, hne with
  | [p], _ => simp [linesOf_singleton]
  | p :: q :: parts, _ => simp [linesOf_cons_cons]

theorem intercalate_eq_nil_iff {parts : List Text} (hne : parts ≠ []) :
    ['\n'].intercalate parts = [] ↔ parts = [[]] := by
  match parts, hne with
  | [p], _ => simp
  | p :: q :: parts, _ => simp [List.intercalate_cons_cons]

/-- The lines of some parts, put together, are the parts with unified breaks. -/
theorem intercalate_linesOf {parts : List Text} (hne : parts ≠ []) (h : ∀ p ∈ parts, '\n' ∉ p) :
    ['\n'].intercalate (linesOf parts) =
      dropBreak (unifyBreaks (['\n'].intercalate parts)) := by
  induction parts with
  | nil => exact absurd rfl hne
  | cons p parts ih =>
    have hp := h p List.mem_cons_self
    cases parts with
    | nil =>
      have hsame : ['\n'].intercalate (linesOf [p]) = p := by
        rw [linesOf_singleton]
        split
        · exact Eq.symm ‹p = []›
        · exact List.intercalate_singleton
      rw [hsame, List.intercalate_singleton, unifyBreaks_of_not_mem hp, dropBreak_of_not_mem hp]
    | cons q parts =>
      have hcons := List.cons_ne_nil q parts
      have hrest := ih hcons fun r hr => h r (List.mem_cons_of_mem p hr)
      rw [List.intercalate_cons_cons, List.append_assoc, List.singleton_append,
        unifyBreaks_part hp, linesOf_cons_cons]
      -- Only an empty last part is no line, and then the break before it is dropped.
      cases hmore : linesOf (q :: parts) with
      | nil =>
        have hdrop : dropBreak (dropReturn p ++ ['\n']) = dropReturn p := by
          rw [dropBreak_append _ (List.cons_ne_nil _ _)]
          exact List.append_nil _
        rw [(linesOf_eq_nil_iff hcons).mp hmore, List.intercalate_singleton,
          List.intercalate_singleton, unifyBreaks_nil, hdrop]
      | cons l ls =>
        have htext : unifyBreaks (['\n'].intercalate (q :: parts)) ≠ [] := by
          rw [ne_eq, unifyBreaks_eq_nil_iff, intercalate_eq_nil_iff hcons,
            ← linesOf_eq_nil_iff hcons, hmore]
          exact List.cons_ne_nil l ls
        have hbreak : dropReturn p ++ '\n' :: unifyBreaks (['\n'].intercalate (q :: parts)) =
            dropReturn p ++ ['\n'] ++ unifyBreaks (['\n'].intercalate (q :: parts)) := by simp
        rw [List.intercalate_cons_cons, ← hmore, hrest, hbreak, dropBreak_append _ htext]

/-! ## Texts without comments -/

theorem beforeComment_prefix (t : Text) : ∃ comment, t = beforeComment t ++ comment := by
  fun_induction beforeComment t with
  | case1 rest => exact ⟨_, rfl⟩
  | case2 c rest _ ih =>
    obtain ⟨comment, h⟩ := ih
    exact ⟨comment, congrArg (c :: ·) h⟩
  | case3 => exact ⟨[], rfl⟩

theorem beforeComment_eq_self {t : Text} (h : ¬ ['/', '/'] <:+: t) : beforeComment t = t := by
  fun_induction beforeComment t with
  | case1 rest => exact absurd ⟨[], rest, rfl⟩ h
  | case2 c rest _ ih => rw [ih fun hrest => h (hrest.trans (List.suffix_cons c rest).isInfix)]
  | case3 => rfl

/-- A comment does not start in a text without slashes. -/
theorem not_infix_append {x y : Text} (hx : '/' ∉ x) (hy : ¬ ['/', '/'] <:+: y) :
    ¬ ['/', '/'] <:+: x ++ y := by
  induction x with
  | nil => exact hy
  | cons c x ih =>
    rw [List.mem_cons, not_or] at hx
    rw [List.cons_append, List.infix_cons_iff, not_or]
    refine ⟨fun hshort => hx.1 ?_, ih hx.2⟩
    obtain ⟨more, hmore⟩ := hshort
    exact (List.cons.inj hmore).1

theorem infix_intercalate {separator p : Text} {parts : List Text} (h : p ∈ parts) :
    p <:+: separator.intercalate parts := by
  induction parts with
  | nil => cases h
  | cons q parts ih =>
    cases parts with
    | nil =>
      rw [List.intercalate_singleton, List.mem_singleton.mp h]
    | cons r parts =>
      rw [List.intercalate_cons_cons]
      rcases List.mem_cons.mp h with rfl | h
      · exact ⟨[], separator ++ separator.intercalate (r :: parts), by simp⟩
      · exact (ih h).trans (List.suffix_append _ _).isInfix

theorem infix_of_mem_lines {t l : Text} (h : l ∈ lines t) : l <:+: t := by
  have hcut : ∀ p ∈ cut '\n' t, p <:+: t := fun p hp => by
    have hinfix := @infix_intercalate ['\n'] p _ hp
    rwa [intercalate_cut] at hinfix
  rw [lines_eq, linesOf] at h
  rcases List.mem_append.mp h with h | h
  · obtain ⟨p, hp, rfl⟩ := List.mem_map.mp h
    refine List.IsInfix.trans ?_ (hcut p (List.mem_of_mem_dropLast hp))
    unfold dropReturn
    split
    · exact (List.dropLast_prefix p).isInfix
    · exact List.infix_refl p
  · obtain ⟨p, ps, hparts⟩ := List.exists_cons_of_ne_nil (cut_ne_nil '\n' t)
    split at h
    · cases h
    · rw [List.mem_singleton.mp h]
      refine hcut _ ?_
      rw [hparts, List.getLast?_eq_getLast_of_ne_nil (List.cons_ne_nil p ps), Option.getD_some]
      exact List.getLast_mem _

/-- A text without comments is left as it is, up to its line breaks. -/
theorem stripComments_eq {t : Text} (h : ¬ ['/', '/'] <:+: t) :
    stripComments t = dropBreak (unifyBreaks t) := by
  have hlines : (lines t).map beforeComment = lines t :=
    (List.map_congr_left fun l hl => beforeComment_eq_self fun hcomment =>
      h (hcomment.trans (infix_of_mem_lines hl))).trans (List.map_id _)
  rw [stripComments, hlines, lines_eq, intercalate_linesOf (cut_ne_nil '\n' t)
    fun p hp => not_mem_of_mem_cut hp, intercalate_cut]

end Texelwise.Text

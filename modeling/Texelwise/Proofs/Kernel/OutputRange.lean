import Texelwise.Proofs.Expansion.Tidy
import Texelwise.Proofs.Kernel.Writes

/-!
# The range check of outputs

The pass for outputs looks at every write. A number that an output has becomes its register, one
that is an index but of no output is an error, and one that is no index stays. Decimal digits are
an index just if their value fits into 64 bits.

* `Decimal`: a text of decimal digits and its value; `Decimal.readIndex?_eq`: when it is an index.
* `exists_outputIndexOutOfRange`: a write to an output that the thread does not have is an error.
* `readIndex?_eq_none_of_mem_hits`: the writes that the pass leaves in a tidy text have no index.
-/

namespace Texelwise

open Token

/-! ## Decimal numbers -/

/-- The text has decimal digits only, at least one, and this value. -/
structure Decimal (k : Text) (n : Nat) : Prop where
  ne_nil : k ≠ []
  digits : k.all Char.isDigit = true
  value : Nat.ofDigitChars 10 k 0 = n

instance (k : Text) (n : Nat) : Decidable (Decimal k n) :=
  decidable_of_iff (k ≠ [] ∧ k.all Char.isDigit = true ∧ Nat.ofDigitChars 10 k 0 = n)
    ⟨fun ⟨h, h', h''⟩ => ⟨h, h', h''⟩, fun ⟨h, h', h''⟩ => ⟨h, h', h''⟩⟩

theorem Decimal.readIndex?_eq {k : Text} {n : Nat} (h : Decimal k n) :
    readIndex? k = if n < UInt64.size then some n else none := by
  obtain ⟨hne, hdigits, rfl⟩ := h
  unfold readIndex?
  rw [if_neg (by simpa [hne] using hdigits)]

/-! ## The error -/

/-- The pass is an error for the first write that is out of range, and else replaces the writes. -/
theorem replaceOutputs_eq (thread : ThreadSignature) (code : Text) :
    replaceOutputs thread code =
      match thread.strayOutput? (tokenize code) with
      | some index => .error (.outputIndexOutOfRange index thread.outputs.length)
      | none => (Pattern.output.replaceAll (outputText thread) code).mapError .pattern := by
  have hfound : Pattern.output.occurrences code =
      .ok ((Sweep.list Pattern.output).along (tokenize code)) := by
    rw [Pattern.occurrences_eq rfl, Sweep.of]
  have hstray : ((Sweep.list Pattern.output).along (tokenize code)).findSome?
      (outOfRange? thread) = thread.strayOutput? (tokenize code) := by
    rw [ThreadSignature.strayOutput?, ← map_capture_along_output proper_tokenize,
      List.findSome?_map]
    rfl
  unfold replaceOutputs
  rw [hfound]
  show (match ((Sweep.list Pattern.output).along (tokenize code)).findSome?
      (outOfRange? thread) with
    | some index => _
    | none => _) = _
  rw [hstray]
  cases thread.strayOutput? (tokenize code) <;> rfl

theorem length_le_of_strayOutput? {thread : ThreadSignature} {ts : List Token} {index : Nat}
    (h : thread.strayOutput? ts = some index) : thread.outputs.length ≤ index := by
  obtain ⟨k, -, hk⟩ := List.exists_of_findSome?_eq_some h
  exact of_decide_eq_true (Option.filter_eq_some_iff.mp hk).2

/-- A write to an output that the thread does not have is an error. -/
theorem exists_outputIndexOutOfRange {thread : ThreadSignature} {code k : Text} {n : Nat}
    (hk : k ∈ hits writeAt (tokenize code)) (hn : readIndex? k = some n)
    (hrange : thread.outputs.length ≤ n) :
    ∃ index, thread.outputs.length ≤ index ∧
      replaceOutputs thread code =
        .error (.outputIndexOutOfRange index thread.outputs.length) := by
  rw [replaceOutputs_eq]
  cases hstray : thread.strayOutput? (tokenize code) with
  | some index => exact ⟨index, length_le_of_strayOutput? hstray, rfl⟩
  | none =>
    have hnone := List.findSome?_eq_none_iff.mp hstray k hk
    rw [hn, Option.filter_some, if_pos (decide_eq_true hrange)] at hnone
    cases hnone

/-! ## Writes that stay -/

/-- The writes that are left where a rule replaces some are those that it does not replace. -/
theorem of_mem_hits_image {output? : Text → Option Text} (hsane : (outputRule output?).Sane)
    {ts : List Token} (hp : ∀ u ∈ ts, u.Proper) {k : Text}
    (hk : k ∈ hits writeAt ((outputRule output?).image ts)) :
    k ∈ hits writeAt ts ∧ output? k = none := by
  induction ts using (outputRule output?).induction with
  | nil => simp at hk
  | keep t ts hnone ih =>
    have hpts : ∀ u ∈ ts, u.Proper := fun u hu => hp u (List.mem_cons_of_mem t hu)
    have himage : writeAt t ((outputRule output?).image ts) = writeAt t ts := by
      rw [Rules.image_eq]
      exact probe_writeAt.image _ _ hsane (fun b hb => Rules.clean_image hsane hb) t ts hpts
    rw [Rules.image_keep hnone, hits, himage] at hk
    rw [hits]
    rcases List.mem_append.mp hk with hk | hk
    · refine ⟨List.mem_append_left _ hk, ?_⟩
      rw [Option.mem_toList, writeAt, Option.ite_none_right_eq_some] at hk
      obtain ⟨htext, hk⟩ := hk
      obtain ⟨⟨n, rest⟩, hnumber, rfl⟩ := Option.map_eq_some_iff.mp hk
      rw [site?_outputRule (hp t List.mem_cons_self), if_pos htext, hnumber, Option.bind_some,
        Option.map_eq_none_iff] at hnone
      exact hnone
    · obtain ⟨hmem, hout⟩ := ih ts (Nat.le_refl _) hpts hk
      exact ⟨List.mem_append_right _ hmem, hout⟩
  | site t s tail rest hkind hs ih =>
    have hprest : ∀ u ∈ rest, u.Proper := fun u hu => hp u (by simp [hu])
    rw [Rules.image_site (Rules.site?_append hkind hs rest)] at hk
    -- Writes are the only sites of the rule, and what stands for one is no write.
    have hword : ∃ w, s = .word w ∧ Replacement w := by
      cases hs with
      | field _ _ _ _ hw => cases hw
      | output _ _ _ _ _ hw => exact ⟨_, rfl, hsane.outputs _ _ hw⟩
      | read _ hread => cases hread
    obtain ⟨w, rfl, hw⟩ := hword
    rw [Rules.emit, probe_writeAt.hits_replacement hw] at hk
    obtain ⟨hmem, hout⟩ := ih rest (by simp) hprest hk
    obtain ⟨u, us, hus, hu⟩ := mem_hits_iff.mp hmem
    exact ⟨mem_hits_iff.mpr ⟨u, us, hus.trans ⟨t :: tail, rfl⟩, hu⟩, hout⟩

/-- What the pass leaves in a tidy text: writes that were there before and have no index. -/
theorem readIndex?_eq_none_of_mem_hits {thread : ThreadSignature} {x y : Text} (hx : Tidy x)
    (h : replaceOutputs thread x = .ok y) {k : Text} (hk : k ∈ hits writeAt (tokenize y)) :
    k ∈ hits writeAt (tokenize x) ∧ readIndex? k = none := by
  have hspaced := spaced_tokenize hx
  have hsane := sane_outputRule thread
  rw [replaceOutputs_eq] at h
  cases hstray : thread.strayOutput? (tokenize x) with
  | some index => rw [hstray] at h; cases h
  | none =>
    have hreplaced := replaceAll_eq_image rfl (follows_outputRule thread) (selects_output _ _) rfl
      inert_nil hspaced
    rw [List.nil_append, List.nil_append, textOf_tokenize] at hreplaced
    rw [hstray, hreplaced] at h
    obtain rfl := Except.ok.inj h
    rw [tokenize_textOf (Rules.spaced_image hsane hspaced).separated] at hk
    obtain ⟨hmem, hout⟩ := of_mem_hits_image hsane proper_tokenize hk
    refine ⟨hmem, ?_⟩
    have hnone := List.findSome?_eq_none_iff.mp hstray k hmem
    cases hindex : readIndex? k with
    | none => rfl
    | some index =>
      -- An index within the range has a register, and one beyond it is out of range.
      rw [ThreadSignature.outputName?, hindex, Option.bind_some, Option.map_eq_none_iff,
        List.getElem?_eq_none_iff] at hout
      rw [hindex, Option.filter_some, if_pos (decide_eq_true hout)] at hnone
      cases hnone

end Texelwise

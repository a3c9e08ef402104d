import Texelwise.Proofs.Source.Stages

/-!
# The thread in regular programs

The last passes replace the writes, the extents and the header.

* `ThreadSignature.strayOutput?`: the first write to an output that the thread does not have.
* `replaceOutputs_image`: the writes are replaced if there is no such write.
* `replaceOutputExtents_image`: the extents are replaced.
* `WrittenProgram.replaceHeader_front`: the header is replaced.
-/

namespace Texelwise

open Token

/-! ## Writes -/

theorem writeAt_of_kind {t : Token} (ht : t.Proper) (h : t.kind ≠ .ident) (ts : List Token) :
    writeAt t ts = none :=
  if_neg fun htext => h (ht.kind_of_text_eq htext (by decide))

theorem hits_writeAt_append {us : List Token} (hp : ∀ u ∈ us, u.Proper)
    (h : ∀ u ∈ us, u.kind ≠ .ident) (zs : List Token) :
    hits writeAt (us ++ zs) = hits writeAt zs := by
  induction us with
  | nil => rfl
  | cons u us ih =>
    rw [List.cons_append,
      hits_cons_of_none (writeAt_of_kind (hp u List.mem_cons_self) (h u List.mem_cons_self) _)]
    exact ih (fun v hv => hp v (List.mem_cons_of_mem u hv))
      fun v hv => h v (List.mem_cons_of_mem u hv)

/-- The pass lists the numbers of all writes. -/
theorem map_capture_along_output {ts : List Token} (hp : ∀ u ∈ ts, u.Proper) :
    ((Sweep.list Pattern.output).along ts).map (fun o => o.capture 0) = hits writeAt ts := by
  induction hn : ts.length using Nat.strongRecOn generalizing ts with
  | ind n ih =>
    cases ts with
    | nil => simp
    | cons t ts =>
      have hpts : ∀ u ∈ ts, u.Proper := fun u hu => hp u (List.mem_cons_of_mem t hu)
      have hread : (Sweep.list Pattern.output).pattern.read? (t :: ts) =
          (writeAt t ts).bind fun _ => (number? ts).map fun m => ([m.1], m.2) := by
        have hshape := Pattern.read?_output hpts t
        unfold writeAt
        split at hshape
        · rename_i htext
          rw [if_pos htext]
          refine hshape.trans ?_
          cases number? ts <;> rfl
        · rename_i htext
          rw [if_neg htext]
          exact hshape
      rw [List.length_cons] at hn
      cases hw : writeAt t ts with
      | none =>
        rw [hw, Option.bind_none] at hread
        rw [Sweep.along_keep hread, hits_cons_of_none hw, List.map_append,
          ih ts.length (by omega) hpts rfl]
        simp [Sweep.list]
      | some m =>
        have hnumber : ∃ rest, number? ts = some (m, rest) := by
          unfold writeAt at hw
          split at hw
          · obtain ⟨⟨m', rest⟩, hm, rfl⟩ := Option.map_eq_some_iff.mp hw
            exact ⟨rest, hm⟩
          · cases hw
        obtain ⟨rest, hrest⟩ := hnumber
        -- The tokens that a write takes have no further write.
        obtain ⟨tail, hkinds, rfl⟩ := exists_tail_of_number? hrest
        rw [hw, hrest] at hread
        obtain ⟨taken, -, hover⟩ := Sweep.exists_along_found rfl hread
        rw [List.length_append] at hn
        rw [hover, List.map_append, ih rest.length (by omega)
          (fun u hu => hpts u (List.mem_append_right _ hu)) rfl, hits, hw,
          hits_writeAt_append (fun u hu => hpts u (List.mem_append_left _ hu)) hkinds]
        rfl

/-- The first number among the writes that is an index but not of an output. -/
def ThreadSignature.strayOutput? (thread : ThreadSignature) (ts : List Token) : Option Nat :=
  (hits writeAt ts).findSome? fun n =>
    (readIndex? n).filter fun index => thread.outputs.length ≤ index

/-! ## Rules for outputs -/

/-- The rules with what stands for the writes of a thread. -/
def Rules.withOutputs (σ : Rules) (thread : ThreadSignature) : Rules :=
  ⟨σ.reads, σ.fields, thread.outputName?⟩

theorem Rules.merge_outputRule {σ : Rules} (h : ∀ n, σ.output? n = none)
    (thread : ThreadSignature) :
    σ.merge (outputRule thread.outputName?) = σ.withOutputs thread := by
  simp [merge, outputRule, withOutputs, h]

theorem generated_outputRegister (index : Nat) : Generated (outputRegister index) := by
  refine ⟨isIdentifier_append (by decide) (List.all_eq_true.mpr fun c hc => ?_),
    ⟨"thread_output_".toList ++ Text.ofNat index, rfl⟩⟩
  simp [isWordChar, Char.isAlphanum, isDigit_of_mem_ofNat hc]

theorem sane_outputRule (thread : ThreadSignature) : (outputRule thread.outputName?).Sane := by
  refine ⟨fun e he => absurd he List.not_mem_nil, fun e he => absurd he List.not_mem_nil,
    fun n w h => ?_⟩
  obtain ⟨index, -, hw⟩ := Option.bind_eq_some_iff.mp h
  obtain ⟨e, -, rfl⟩ := Option.map_eq_some_iff.mp hw
  cases e with
  | float => exact ⟨_, generated_outputRegister index, .inr rfl⟩
  | color => exact ⟨_, generated_outputRegister index, .inl rfl⟩

theorem Rules.Sane.withOutputs {σ : Rules} (hσ : σ.Sane) (thread : ThreadSignature) :
    (σ.withOutputs thread).Sane :=
  ⟨hσ.reads, hσ.fields, (sane_outputRule thread).outputs⟩

theorem foreign_outputRule (thread : ThreadSignature) :
    (outputRule thread.outputName?).Foreign := by
  intro w hw
  refine ⟨fun hthread => ?_, rfl, fun _ => rfl⟩
  exact not_mem_of_generated hw (by rw [hthread]; exact List.mem_cons_self)

/-- What stands for the extents of the outputs. -/
def threadEntries : List ((Text × Text) × Text) :=
  extentFields.map fun f => ((threadWord, f), threadOutputName f)

theorem generated_threadOutputName {f : Text} (hf : f ∈ extentFields) :
    Generated (threadOutputName f) := by
  have hall : ∀ f ∈ extentFields, f.all isWordChar = true := by decide
  exact ⟨isIdentifier_append (by decide) (hall f hf), ⟨"thread_output_".toList ++ f, rfl⟩⟩

theorem Rules.Sane.withThread {σ : Rules} (hσ : σ.Sane) : (σ.withFields threadEntries).Sane := by
  refine ⟨hσ.reads, fun e he => ?_, hσ.outputs⟩
  rcases List.mem_append.mp he with he | he
  · exact hσ.fields e he
  · obtain ⟨f, hf, rfl⟩ := List.mem_map.mp he
    have hthread : threadWord ∉ extentFields := by decide
    exact ⟨hthread, generated_threadOutputName hf⟩

/-! ## Outputs and extents -/

section

variable {x : Text} {ts : List Token} {σ : Rules} (hx : Inert x) (hts : Spaced ts) (hσ : σ.Sane)

include hx hts hσ

/-- The writes are replaced, or the first stray one is an error. -/
theorem replaceOutputs_image (thread : ThreadSignature) (hout : ∀ n, σ.output? n = none)
    (hhead : ∀ t s tail, σ.Stands t s tail → t.text ≠ threadWord) :
    replaceOutputs thread (x ++ textOf (σ.image ts)) =
      match thread.strayOutput? ts with
      | some index => .error (.outputIndexOutOfRange index thread.outputs.length)
      | none => .ok (x ++ textOf ((σ.withOutputs thread).image ts)) := by
  have hspaced := Rules.spaced_image hσ hts
  have hfound : Pattern.output.occurrences (x ++ textOf (σ.image ts)) =
      .ok ((Sweep.list Pattern.output).along (σ.image ts)) := by
    have hselects : (Sweep.list Pattern.output).Selects := selects_output _ _
    rw [Pattern.occurrences_eq rfl, hx _ _ hselects, Sweep.of_textOf _ hspaced.separated]
    simp [Sweep.list]
  have hhits : hits writeAt (σ.image ts) = hits writeAt ts :=
    probe_writeAt.hits_image hσ (fun t s tail _ _ hs => if_neg (hhead t s tail hs))
      (fun u hu => hts.proper hu) fun _ _ _ => if_neg (by decide)
  have hstray : ((Sweep.list Pattern.output).along (σ.image ts)).findSome? (outOfRange? thread) =
      thread.strayOutput? ts := by
    rw [ThreadSignature.strayOutput?, ← hhits,
      ← map_capture_along_output fun u hu => hspaced.proper hu, List.findSome?_map]
    rfl
  have hreplaced : Pattern.output.replaceAll (outputText thread) (x ++ textOf (σ.image ts)) =
      .ok (x ++ textOf ((σ.withOutputs thread).image ts)) := by
    rw [replaceAll_eq_image rfl (follows_outputRule thread) (selects_output _ _) rfl hx hspaced,
      Rules.image_merge hσ (sane_outputRule thread) (fun _ => .inr rfl)
        (foreign_outputRule thread) (.inl hout) fun u hu => hts.proper hu,
      Rules.merge_outputRule hout]
  unfold replaceOutputs
  rw [hfound, hreplaced]
  show (match ((Sweep.list Pattern.output).along (σ.image ts)).findSome? (outOfRange? thread) with
    | some index => _
    | none => _) = _
  rw [hstray]
  cases thread.strayOutput? ts <;> rfl

theorem replaceOutputExtents_image :
    replaceOutputExtents (x ++ textOf (σ.image ts)) =
      .ok (x ++ textOf ((σ.withFields threadEntries).image ts)) := by
  have hfields : ∀ f ∈ extentFields, f ∈ extentFields ∧ Generated (threadOutputName f) :=
    fun f hf => ⟨hf, generated_threadOutputName hf⟩
  exact foldlM_field (by decide) (by decide) (by decide) threadOutputName hfields hσ
    (.inr (by decide)) hx hts

end

/-! ## The header -/

theorem hits_eq_nil_iff {α : Type} {q : Token → List Token → Option α} {ts : List Token} :
    hits q ts = [] ↔ ∀ pre t post, ts = pre ++ t :: post → q t post = none := by
  induction ts with
  | nil => simp
  | cons u us ih =>
    rw [hits, List.append_eq_nil_iff, ih, Option.toList_eq_nil_iff]
    constructor
    · rintro ⟨hu, hus⟩ pre t post heq
      cases pre with
      | nil =>
        cases heq
        exact hu
      | cons v pre =>
        cases heq
        exact hus pre t post rfl
    · intro h
      exact ⟨h [] u us rfl, fun pre t post heq => h (u :: pre) t post (by rw [heq]; rfl)⟩

/-- Where a sweep lists no header, the probe finds none. -/
theorem hits_headerAt_of_along {ts : List Token} (hp : ∀ u ∈ ts, u.Proper)
    (h : (Sweep.list Pattern.header).along ts = []) : hits headerAt ts = [] := by
  induction ts with
  | nil => rfl
  | cons t ts ih =>
    have hpts : ∀ u ∈ ts, u.Proper := fun u hu => hp u (List.mem_cons_of_mem t hu)
    cases hread : (Sweep.list Pattern.header).pattern.read? (t :: ts) with
    | none =>
      rw [Sweep.along_keep hread] at h
      have hnone := (Pattern.read?_header_eq_none_iff hpts t (hp t List.mem_cons_self)).mp hread
      rw [hits_cons_of_none hnone]
      exact ih hpts (List.append_eq_nil_iff.mp h).2
    | some r =>
      obtain ⟨taken, -, hover⟩ := Sweep.exists_along_found rfl hread
      rw [hover] at h
      cases h

/-- Where the probe finds no header, a sweep for headers keeps the tokens. -/
theorem along_header_of_hits {β : Type} {s : Sweep β} (hs : s.pattern = .header) {ts : List Token}
    (hp : ∀ u ∈ ts, u.Proper) (h : hits headerAt ts = []) :
    s.along ts = (textOf ts).flatMap s.keep := by
  have hover := @Sweep.along_append β s ts [] fun pre t post heq => by
    have hproper : ∀ u ∈ t :: post, u.Proper := fun u hu =>
      hp u (by rw [heq]; exact List.mem_append_right _ hu)
    rw [hs, List.append_nil, Pattern.read?_header_eq_none_iff
      (fun u hu => hproper u (List.mem_cons_of_mem t hu)) t (hproper t List.mem_cons_self)]
    exact hits_eq_nil_iff.mp h pre t post heq
  rwa [List.append_nil, Sweep.along_nil, List.append_nil] at hover

namespace WrittenProgram

variable {p : WrittenProgram} (hp : p.Regular) {σ : Rules}

include hp

/-- No header starts in an image of the body. -/
theorem hits_headerAt_image (hσ : σ.Sane) : hits headerAt (σ.image (tokenize p.body)) = [] := by
  have hbody : hits headerAt (tokenize p.body) = [] := by
    have hnone := hp.no_header
    rw [Pattern.occurrences_eq (p := .header) rfl] at hnone
    exact hits_headerAt_of_along proper_tokenize (Except.ok.inj hnone)
  have hhead : ∀ t s tail rest, t.kind = .ident → σ.Stands t s tail →
      headerAt t (tail ++ rest) = none := by
    intro t s tail rest hkind _
    refine if_neg fun hmark => ?_
    rw [hmark] at hkind
    cases hkind
  rw [probe_headerAt.hits_image hσ hhead proper_tokenize fun pre us heq =>
    hits_eq_nil_iff.mp hbody pre _ us heq, hbody]

/-- The header is replaced. -/
theorem replaceHeader_front {table : BindingTable} {done : List UniformType} (hσ : σ.Sane) :
    replaceHeader (p.front table done ++ textOf (σ.image (tokenize p.body))) =
      .ok (p.declarationsText table done ++ (p.gap ++ (p.header.functionText ++
        textOf (σ.image (tokenize p.body))))) := by
  have hspaced := Rules.spaced_image hσ (spaced_body hp)
  unfold replaceHeader
  rw [Pattern.replaceAll_eq rfl]
  congr 1
  rw [turns_header hp.framed rfl, Sweep.of_textOf _ hspaced.separated,
    along_header_of_hits rfl (fun u hu => hspaced.proper hu) (hits_headerAt_image hp hσ)]
  show (p.declarationsText table done ++ p.gap).flatMap (fun c => [c]) ++ p.header.functionText ++
    (textOf (σ.image (tokenize p.body))).flatMap (fun c => [c]) = _
  rw [flatMap_singleton_eq, flatMap_singleton_eq, List.append_assoc, List.append_assoc]

end WrittenProgram

end Texelwise

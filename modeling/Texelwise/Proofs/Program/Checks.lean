import Mathlib.Data.List.Nodup
import Texelwise.Proofs.Program.Creation
import Texelwise.Proofs.Program.Validation

/-!
# Every failing check is reported once

Validation is a number of checks, each of which passes or fails in one way. The list of violations
has one violation for each check that fails, and no other ones.

* `Check`: the checks; `Check.Fails`: when a check fails, and with which violation.
* `Reports`: a list has what the failing items of a family give, each once; `Reports.append` and
  `Reports.indexed` put such lists together.
* `reports_violations`: this is so for the whole list of violations.
* `violations_sound_and_complete`: no violation means that the run is accepted, and otherwise every
  failing check is in the list once.
-/

namespace Texelwise

/-! ## Checks -/

/-- One check of a run. Outputs go by their index and values by the position of the declaration. -/
inductive Check where
  | count
  | rank (index : Nat)
  | element (index : Nat)
  /-- An output is none of the outputs before it. -/
  | distinct (index : Nat)
  | size (index : Nat)
  | type (position : Nat)
  /-- A value is none of the outputs. -/
  | apart (position : Nat)
  deriving DecidableEq, Repr

/-- Output `i` is the first one that is the buffer `id`. -/
structure FirstAt (outputs : List BufferDesc) (id : BufferId) (i : Nat) : Prop where
  found : ∃ o, outputs[i]? = some o ∧ o.id = id
  before : ∀ j < i, ∀ o, outputs[j]? = some o → o.id ≠ id

/-- When a check of a run fails, and the violation that it is reported as. -/
inductive Check.Fails (script : Script) (outputs : List BufferDesc) (uniforms : Uniforms) :
    Check → Violation → Prop
  | count (h : outputs.length ≠ script.thread.outputs.length) :
      Fails script outputs uniforms .count
        (.outputCount script.thread.outputs.length outputs.length)
  | rank {i : Nat} {desc : BufferDesc} {e : ElementKind} (ho : outputs[i]? = some desc)
      (he : script.thread.outputs[i]? = some e) (h : desc.kind.rank ≠ script.thread.rank) :
      Fails script outputs uniforms (.rank i) (.outputIndexing i script.thread.rank desc.kind)
  | element {i : Nat} {desc : BufferDesc} {e : ElementKind} (ho : outputs[i]? = some desc)
      (he : script.thread.outputs[i]? = some e) (h : desc.kind.element ≠ e) :
      Fails script outputs uniforms (.element i) (.outputElement i e desc.kind)
  | distinct {i j : Nat} {desc : BufferDesc} (ho : outputs[j]? = some desc) (hij : i < j)
      (hfirst : FirstAt outputs desc.id i) :
      Fails script outputs uniforms (.distinct j) (.duplicateOutput j i)
  | size {i : Nat} {first desc : BufferDesc} (hfirst : outputs[0]? = some first)
      (ho : outputs[i]? = some desc) (h : desc.textureSize ≠ first.textureSize) :
      Fails script outputs uniforms (.size i)
        (.outputDimensions i first.textureSize desc.textureSize)
  | type {k : Nat} {d : UniformDeclaration} {value : UniformValue}
      (hd : script.uniforms[k]? = some d) (hvalue : uniforms.get? d.name = some value)
      (h : d.type.accepts value = false) :
      Fails script outputs uniforms (.type k) (.uniformKind d.name d.type value.kindWord)
  | apart {k i : Nat} {d : UniformDeclaration} {desc : BufferDesc}
      (hd : script.uniforms[k]? = some d) (hvalue : uniforms.get? d.name = some (.buffer desc))
      (hfirst : FirstAt outputs desc.id i) :
      Fails script outputs uniforms (.apart k) (.aliased d.name i)

theorem findIdx?_eq_some_iff_firstAt {outputs : List BufferDesc} {id : BufferId} {i : Nat} :
    outputs.findIdx? (fun o => o.id = id) = some i ↔ FirstAt outputs id i := by
  rw [List.findIdx?_eq_some_iff_getElem]
  constructor
  · rintro ⟨hi, hid, hbefore⟩
    refine ⟨⟨outputs[i], List.getElem?_eq_getElem hi, of_decide_eq_true hid⟩, fun j hj o ho => ?_⟩
    obtain ⟨hlt, rfl⟩ := List.getElem?_eq_some_iff.mp ho
    simpa using hbefore j hj
  · rintro ⟨⟨o, ho, hid⟩, hbefore⟩
    obtain ⟨hi, rfl⟩ := List.getElem?_eq_some_iff.mp ho
    refine ⟨hi, decide_eq_true hid, fun j hj => ?_⟩
    have hne := hbefore j hj _ (List.getElem?_eq_getElem (by omega))
    simpa using hne

/-- Among the outputs before `j`, the first one that is a buffer is the first one of all. -/
theorem firstAt_take_iff {outputs : List BufferDesc} {id : BufferId} {i j : Nat} :
    FirstAt (outputs.take j) id i ↔ i < j ∧ FirstAt outputs id i := by
  have htake : ∀ n < j, (outputs.take j)[n]? = outputs[n]? := fun n hn => by
    rw [List.getElem?_take, if_pos hn]
  constructor
  · rintro ⟨⟨o, ho, hid⟩, hbefore⟩
    have hij : i < j := by
      by_contra hge
      rw [List.getElem?_take, if_neg hge] at ho
      cases ho
    refine ⟨hij, ⟨o, htake i hij ▸ ho, hid⟩, fun n hn o ho => ?_⟩
    exact hbefore n hn o ((htake n (by omega)).trans ho)
  · rintro ⟨hij, ⟨o, ho, hid⟩, hbefore⟩
    refine ⟨⟨o, (htake i hij).trans ho, hid⟩, fun n hn o ho => ?_⟩
    exact hbefore n hn o (htake n (by omega) ▸ ho)

/-! ## Lists of outcomes -/

/-- The list has the outcomes of those items in `S` that have one, for each item one of them. -/
def Reports {κ β : Type} (F : κ → β → Prop) (S : κ → Prop) (bs : List β) : Prop :=
  ∃ cs : List κ, cs.Nodup ∧ (∀ c, c ∈ cs ↔ S c ∧ ∃ b, F c b) ∧ List.Forall₂ F cs bs

namespace Reports

variable {κ α β : Type} {F : κ → β → Prop} {S T : κ → Prop} {bs ds : List β}

theorem none (h : ∀ c, ¬ S c) : Reports F S [] :=
  ⟨[], List.nodup_nil, fun c => by simp [h c], .nil⟩

/-- One item with what it gives. -/
theorem optional {c : κ} {o : Option β} (h : ∀ b, F c b ↔ o = some b) :
    Reports F (· = c) o.toList := by
  cases o with
  | none =>
    refine ⟨[], List.nodup_nil, fun c' => ?_, .nil⟩
    simp only [List.not_mem_nil, false_iff, not_and]
    rintro rfl ⟨b, hb⟩
    cases (h b).mp hb
  | some b =>
    have hb : F c b := (h b).mpr rfl
    refine ⟨[c], List.nodup_singleton c, fun c' => ?_, .cons hb .nil⟩
    rw [List.mem_singleton]
    exact ⟨fun hc => ⟨hc, b, hc ▸ hb⟩, fun hc => hc.1⟩

/-- One item that is a test. -/
theorem test {c : κ} {p : Prop} [Decidable p] {b : β} (h : ∀ b', F c b' ↔ ¬ p ∧ b' = b) :
    Reports F (· = c) (if p then [] else [b]) := by
  by_cases hp : p
  · rw [if_pos hp]
    exact optional (o := Option.none) fun b' => by simp [h, hp]
  · rw [if_neg hp]
    exact optional (o := some b) fun b' => by simp [h, hp, eq_comm]

theorem append (hS : Reports F S bs) (hT : Reports F T ds) (hdisjoint : ∀ c, S c → ¬ T c) :
    Reports F (fun c => S c ∨ T c) (bs ++ ds) := by
  obtain ⟨cs, hcs, hmem, hall⟩ := hS
  obtain ⟨cs', hcs', hmem', hall'⟩ := hT
  refine ⟨cs ++ cs', hcs.append hcs' ?_, fun c => ?_, List.rel_append hall hall'⟩
  · intro c hc hc'
    exact hdisjoint c ((hmem c).mp hc).1 ((hmem' c).mp hc').1
  · rw [List.mem_append, hmem, hmem', or_and_right]

/-- Items without an outcome may be added or left out. -/
theorem congr (h : Reports F S bs) (hST : ∀ c b, F c b → (S c ↔ T c)) : Reports F T bs := by
  obtain ⟨cs, hcs, hmem, hall⟩ := h
  refine ⟨cs, hcs, fun c => (hmem c).trans ?_, hall⟩
  constructor
  · rintro ⟨hc, b, hb⟩
    exact ⟨(hST c b hb).mp hc, b, hb⟩
  · rintro ⟨hc, b, hb⟩
    exact ⟨(hST c b hb).mpr hc, b, hb⟩

/-- A family of items for each index of a list. -/
theorem zipIdx {S : Nat → κ → Prop} (hdisjoint : ∀ i j c, S i c → S j c → i = j) {l : List α}
    {g : α → Nat → List β} {k : Nat}
    (h : ∀ i a, l[i]? = some a → Reports F (S (k + i)) (g a (k + i))) :
    Reports F (fun c => ∃ i, k ≤ i ∧ i < k + l.length ∧ S i c)
      ((l.zipIdx k).flatMap fun x => g x.1 x.2) := by
  induction l generalizing k with
  | nil => exact none fun c ⟨i, hle, hlt, _⟩ => by simp at hlt; omega
  | cons a l ih =>
    have hrest := @ih (k + 1) fun i b hb => by
      rw [Nat.add_right_comm, Nat.add_assoc]
      exact h (i + 1) b hb
    rw [List.zipIdx_cons, List.flatMap_cons]
    refine ((h 0 a rfl).append hrest ?_).congr fun c _ _ => ?_
    · rintro c hc ⟨i, hle, -, hi⟩
      have := hdisjoint _ _ c hc hi
      omega
    · rw [List.length_cons]
      constructor
      · rintro (hc | ⟨i, hle, hlt, hi⟩)
        · exact ⟨k, by omega, by omega, hc⟩
        · exact ⟨i, by omega, by omega, hi⟩
      · rintro ⟨i, hle, hlt, hi⟩
        rcases Nat.eq_or_lt_of_le hle with rfl | hlt'
        · exact .inl hi
        · exact .inr ⟨i, hlt', by omega, hi⟩

/-- A family of items for each index, with outcomes only at the indices of a list. -/
theorem indexed {S : Nat → κ → Prop} (hdisjoint : ∀ i j c, S i c → S j c → i = j) {l : List α}
    {g : α → Nat → List β} (hrange : ∀ i c b, S i c → F c b → i < l.length)
    (h : ∀ i a, l[i]? = some a → Reports F (S i) (g a i)) :
    Reports F (fun c => ∃ i, S i c) (l.zipIdx.flatMap fun x => g x.1 x.2) := by
  have hall := zipIdx (k := 0) hdisjoint fun i a ha => by
    rw [Nat.zero_add]
    exact h i a ha
  refine hall.congr fun c b hb => ⟨fun ⟨i, _, _, hi⟩ => ⟨i, hi⟩, fun ⟨i, hi⟩ => ?_⟩
  exact ⟨i, Nat.zero_le i, by rw [Nat.zero_add]; exact hrange i c b hi hb, hi⟩

/-- One item with at most one outcome for each index. -/
theorem indexed_optional {S : Nat → κ} (hS : ∀ i j, S i = S j → i = j) {l : List α}
    {g : α → Nat → Option β} (h : ∀ i b, F (S i) b ↔ ∃ a, l[i]? = some a ∧ g a i = some b) :
    Reports F (fun c => ∃ i, c = S i) (l.zipIdx.filterMap fun x => g x.1 x.2) := by
  rw [List.filterMap_eq_flatMap_toList]
  refine indexed (g := fun a i => (g a i).toList)
    (fun i j c hi hj => hS i j (hi.symm.trans hj)) ?_ fun i a ha => optional fun b => ?_
  · rintro i c b rfl hb
    obtain ⟨a, ha, -⟩ := (h i b).mp hb
    exact (List.getElem?_eq_some_iff.mp ha).1
  · rw [h i b, ha]
    simp

/-- Items that never have the same outcome give no outcome twice. -/
theorem nodup (h : Reports F S bs) (hF : ∀ c c' b, F c b → F c' b → c = c') : bs.Nodup := by
  obtain ⟨cs, hcs, -, hall⟩ := h
  induction hall with
  | nil => exact List.nodup_nil
  | @cons c b cs bs hb hrest ih =>
    obtain ⟨hc, hcs⟩ := List.nodup_cons.mp hcs
    refine List.nodup_cons.mpr ⟨fun hmem => ?_, ih hcs⟩
    obtain ⟨c', hc', hb'⟩ := exists_of_forall₂ hrest hmem
    rw [hF c c' b hb hb'] at hc
    exact hc hc'

end Reports

/-! ## Violations -/

section

variable {script : Script} {outputs : List BufferDesc} {uniforms : Uniforms}

theorem reports_countViolations :
    Reports (Check.Fails script outputs uniforms) (· = .count)
      (countViolations script.thread outputs) := by
  refine Reports.test fun v => ⟨fun h => ?_, ?_⟩
  · cases h with
    | count h => exact ⟨h, rfl⟩
  · rintro ⟨h, rfl⟩
    exact .count h

/-- An output by its kind has two checks. -/
theorem reports_kindViolations {i : Nat} {desc : BufferDesc} {e : ElementKind}
    (ho : outputs[i]? = some desc) (he : script.thread.outputs[i]? = some e) :
    Reports (Check.Fails script outputs uniforms) (fun c => c = .rank i ∨ c = .element i)
      (kindViolations script.thread.rank i desc e) := by
  refine Reports.append (Reports.test fun v => ⟨fun h => ?_, ?_⟩)
    (Reports.test fun v => ⟨fun h => ?_, ?_⟩) ?_
  · cases h with
    | rank ho' he' h =>
      cases ho.symm.trans ho'
      exact ⟨h, rfl⟩
  · rintro ⟨h, rfl⟩
    exact .rank ho he h
  · cases h with
    | element ho' he' h =>
      cases ho.symm.trans ho'
      cases he.symm.trans he'
      exact ⟨h, rfl⟩
  · rintro ⟨h, rfl⟩
    exact .element ho he h
  · rintro c rfl ⟨⟩

theorem duplicateViolation?_eq_some_iff {j : Nat} {desc : BufferDesc} {v : Violation} :
    duplicateViolation? outputs j desc = some v ↔
      ∃ i < j, FirstAt outputs desc.id i ∧ v = .duplicateOutput j i := by
  rw [duplicateViolation?, Option.map_eq_some_iff]
  constructor
  · rintro ⟨i, hi, rfl⟩
    obtain ⟨hij, hfirst⟩ := firstAt_take_iff.mp (findIdx?_eq_some_iff_firstAt.mp hi)
    exact ⟨i, hij, hfirst, rfl⟩
  · rintro ⟨i, hij, hfirst, rfl⟩
    exact ⟨i, findIdx?_eq_some_iff_firstAt.mpr (firstAt_take_iff.mpr ⟨hij, hfirst⟩), rfl⟩

theorem reports_duplicateViolations :
    Reports (Check.Fails script outputs uniforms) (fun c => ∃ j, c = .distinct j)
      (outputs.zipIdx.filterMap fun x => duplicateViolation? outputs x.2 x.1) := by
  refine Reports.indexed_optional (g := fun desc j => duplicateViolation? outputs j desc)
    (fun i j h => Check.distinct.inj h) fun j v => ?_
  simp only [duplicateViolation?_eq_some_iff]
  constructor
  · intro h
    cases h with
    | distinct ho hij hfirst => exact ⟨_, ho, _, hij, hfirst, rfl⟩
  · rintro ⟨desc, ho, i, hij, hfirst, rfl⟩
    exact .distinct ho hij hfirst

theorem reports_sizeViolations :
    Reports (Check.Fails script outputs uniforms) (fun c => ∃ i, c = .size i)
      (match outputs with
        | [] => []
        | first :: _ => outputs.zipIdx.filterMap fun (desc, index) =>
          sizeViolation? first index desc) := by
  cases outputs with
  | nil =>
    refine (Reports.none fun c h => h).congr fun c v h => ⟨False.elim, ?_⟩
    rintro ⟨i, rfl⟩
    cases h with
    | size hfirst => cases hfirst
  | cons first rest =>
    refine Reports.indexed_optional (g := fun desc i => sizeViolation? first i desc)
      (fun i j h => Check.size.inj h) fun i v => ⟨fun h => ?_, ?_⟩
    · cases h with
      | size hfirst ho h =>
        cases hfirst
        exact ⟨_, ho, if_neg h⟩
    · rintro ⟨desc, ho, h⟩
      unfold sizeViolation? at h
      split at h
      · cases h
      · cases h
        exact .size rfl ho ‹_›

/-- Only the positions that both lists have are checked by kind. -/
theorem reports_signatureViolations :
    Reports (Check.Fails script outputs uniforms) (fun c => ∃ i, c = .rank i ∨ c = .element i)
      ((outputs.zip script.thread.outputs).zipIdx.flatMap fun ((desc, element), index) =>
        kindViolations script.thread.rank index desc element) := by
  refine Reports.indexed (l := outputs.zip script.thread.outputs)
    (g := fun x i => kindViolations script.thread.rank i x.1 x.2) ?_ ?_ fun i x hx => ?_
  · rintro i j c (rfl | rfl) (h | h) <;> cases h <;> rfl
  · intro i c v hc h
    rw [List.length_zip, Nat.lt_min]
    cases h with
    | rank ho he | element ho he =>
      obtain rfl : _ = i := by simpa using hc
      exact ⟨(List.getElem?_eq_some_iff.mp ho).1, (List.getElem?_eq_some_iff.mp he).1⟩
    | count | distinct | size | type | apart => simp at hc
  · obtain ⟨ho, he⟩ := List.getElem?_zip_eq_some.mp hx
    exact reports_kindViolations ho he

/-- A value for a declared uniform has two checks. -/
theorem reports_valueViolations {k : Nat} {d : UniformDeclaration} {value : UniformValue}
    (hd : script.uniforms[k]? = some d) (hvalue : uniforms.get? d.name = some value) :
    Reports (Check.Fails script outputs uniforms) (fun c => c = .type k ∨ c = .apart k)
      (valueViolations outputs d value) := by
  refine Reports.append (Reports.test fun v => ⟨fun h => ?_, ?_⟩) ?_ (by rintro c rfl ⟨⟩)
  · cases h with
    | type hd' hvalue' h =>
      cases hd.symm.trans hd'
      cases hvalue.symm.trans hvalue'
      exact ⟨by rw [h]; exact Bool.false_ne_true, rfl⟩
  · rintro ⟨h, rfl⟩
    exact .type hd hvalue (Bool.eq_false_iff.mpr h)
  · have hother : (∀ desc, value ≠ .buffer desc) →
        Reports (Check.Fails script outputs uniforms) (· = .apart k) [] := fun hne => by
      refine Reports.optional (o := none) fun v => ⟨fun h => ?_, fun h => by cases h⟩
      cases h with
      | apart hd' hvalue' hfirst =>
        cases hd.symm.trans hd'
        exact absurd (Option.some.inj (hvalue.symm.trans hvalue')) (hne _)
    cases value with
    | int x | float x => exact hother fun desc => by simp
    | buffer desc =>
      refine Reports.optional fun v => ⟨fun h => ?_, fun h => ?_⟩
      · cases h with
        | apart hd' hvalue' hfirst =>
          cases hd.symm.trans hd'
          cases hvalue.symm.trans hvalue'
          rw [findIdx?_eq_some_iff_firstAt.mpr hfirst, Option.map_some]
      · obtain ⟨i, hi, rfl⟩ := Option.map_eq_some_iff.mp h
        exact .apart hd hvalue (findIdx?_eq_some_iff_firstAt.mp hi)

theorem reports_uniformViolations :
    Reports (Check.Fails script outputs uniforms) (fun c => ∃ k, c = .type k ∨ c = .apart k)
      (script.uniforms.flatMap (uniformViolations outputs uniforms)) := by
  rw [← List.zipIdx_map_fst 0 script.uniforms, List.flatMap_map]
  refine Reports.indexed (g := fun d _ => uniformViolations outputs uniforms d) ?_ ?_
    fun k d hd => ?_
  · rintro i j c (rfl | rfl) (h | h) <;> cases h <;> rfl
  · intro k c v hc h
    cases h with
    | type hd | apart hd =>
      obtain rfl : _ = k := by simpa using hc
      exact (List.getElem?_eq_some_iff.mp hd).1
    | count | rank | element | distinct | size => simp at hc
  · unfold uniformViolations
    cases hvalue : uniforms.get? d.name with
    | some value => exact reports_valueViolations hd hvalue
    | none =>
      refine (Reports.none fun c h => h).congr fun c v h => ⟨False.elim, fun hc => ?_⟩
      cases h with
      | type hd' hvalue' | apart hd' hvalue' =>
        obtain rfl : _ = k := by simpa using hc
        cases hd.symm.trans hd'
        cases hvalue.symm.trans hvalue'
      | count | rank | element | distinct | size => simp at hc

/-- The list of violations has one violation for each check that fails, and no other ones. -/
theorem reports_violations :
    Reports (Check.Fails script outputs uniforms) (fun _ => True)
      (violations script outputs uniforms) := by
  have hsignature := reports_countViolations.append
    (@reports_signatureViolations script outputs uniforms)
    (by rintro c rfl ⟨i, h | h⟩ <;> cases h)
  have houtputs := (hsignature.append reports_duplicateViolations
    (by rintro c (rfl | ⟨i, rfl | rfl⟩) ⟨j, h⟩ <;> cases h)).append reports_sizeViolations
    (by rintro c ((rfl | ⟨i, rfl | rfl⟩) | ⟨j, rfl⟩) ⟨j, h⟩ <;> cases h)
  have hall := houtputs.append reports_uniformViolations
    (by rintro c (((rfl | ⟨i, rfl | rfl⟩) | ⟨j, rfl⟩) | ⟨j, rfl⟩) ⟨k, h | h⟩ <;> cases h)
  refine hall.congr fun c v _ => iff_true_intro ?_
  cases c <;> simp

/-- The check that a violation is about, if every name is declared once. -/
def Violation.check (declarations : List UniformDeclaration) : Violation → Check
  | .outputCount _ _ => .count
  | .outputIndexing i _ _ => .rank i
  | .outputElement i _ _ => .element i
  | .duplicateOutput j _ => .distinct j
  | .outputDimensions i _ _ => .size i
  | .uniformKind name _ _ => .type ((declarations.map (·.name)).idxOf name)
  | .aliased name _ => .apart ((declarations.map (·.name)).idxOf name)

theorem Check.Fails.check_eq (hnames : (script.uniforms.map (·.name)).Nodup) {c : Check}
    {v : Violation} (h : c.Fails script outputs uniforms v) : v.check script.uniforms = c := by
  have hposition : ∀ {k : Nat} {d : UniformDeclaration}, script.uniforms[k]? = some d →
      (script.uniforms.map (·.name)).idxOf d.name = k := by
    intro k d hd
    obtain ⟨hlt, rfl⟩ := List.getElem?_eq_some_iff.mp hd
    have hk := hnames.idxOf_getElem k (by rwa [List.length_map])
    rwa [List.getElem_map] at hk
  cases h with
  | count | rank | element | distinct | size => rfl
  | type hd | apart hd => rw [Violation.check, hposition hd]

/-- Validation finds nothing exactly in a run as its program needs it. It reports every check that
fails, each once, and nothing else; no violation is in its list twice then, if the script is a
compiled one. -/
theorem violations_sound_and_complete (script : Script) (outputs : List BufferDesc)
    (uniforms : Uniforms) :
    (violations script outputs uniforms = [] ↔ Accepted script outputs uniforms) ∧
    (∃ checks : List Check, checks.Nodup ∧
      (∀ c, c ∈ checks ↔ ∃ v, c.Fails script outputs uniforms v) ∧
      List.Forall₂ (Check.Fails script outputs uniforms) checks
        (violations script outputs uniforms)) ∧
    ((∃ source, compile source = .ok script) → (violations script outputs uniforms).Nodup) := by
  obtain ⟨checks, hnodup, hmem, hall⟩ := @reports_violations script outputs uniforms
  refine ⟨violations_eq_nil_iff, ⟨checks, hnodup, fun c => ?_, hall⟩, fun ⟨source, h⟩ => ?_⟩
  · rw [hmem, true_and]
  · have hnames := nodup_names_of_compile h
    exact reports_violations.nodup fun c c' v hc hc' =>
      (hc.check_eq hnames).symm.trans (hc'.check_eq hnames)

end

/-- A buffer that stands three times among the outputs is named twice as the one at index 0. -/
example :
    let desc : BufferDesc := ⟨⟨0⟩, ⟨.float, .two⟩, ⟨2, 3, 1⟩, ⟨2, 3⟩⟩
    outputViolations ⟨.two, [.float, .color]⟩ [desc, desc, desc] =
      [.outputCount 2 3, .outputElement 1 .color desc.kind, .duplicateOutput 1 0,
        .duplicateOutput 2 0] := by
  decide

end Texelwise

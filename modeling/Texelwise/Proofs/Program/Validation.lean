import Mathlib.Data.List.Basic
import Texelwise.Program.Validation

/-!
# What validation accepts

The list of violations of a run is empty exactly if the run is as its program needs it.

* `Accepted`: what a run has to satisfy, condition by condition.
* `outputViolations_eq_nil_iff`, `uniformViolations_eq_nil_iff`: the two halves of the check.
* `violations_eq_nil_iff`: the whole check.
-/

namespace Texelwise

/-- Every value for a declared uniform has the declared type. -/
def Fits (ds : List UniformDeclaration) (uniforms : Uniforms) : Prop :=
  ∀ d ∈ ds, ∀ value, uniforms.get? d.name = some value → d.type.accepts value = true

/-- No buffer for a declared uniform is an output. -/
def Apart (ds : List UniformDeclaration) (outputs : List BufferDesc) (uniforms : Uniforms) :
    Prop :=
  ∀ d ∈ ds, ∀ desc, uniforms.get? d.name = some (.buffer desc) → ∀ o ∈ outputs, o.id ≠ desc.id

/-- A run as its program needs it. -/
structure Accepted (script : Script) (outputs : List BufferDesc) (uniforms : Uniforms) :
    Prop where
  /-- The outputs have the rank of the thread and the elements that it writes. -/
  kinds : outputs.map (·.kind) = script.thread.outputs.map fun e => ⟨e, script.thread.rank⟩
  distinct : (outputs.map (·.id)).Nodup
  /-- All textures have the size of the first one. -/
  sizes : ∀ first ∈ outputs.head?, ∀ o ∈ outputs, o.textureSize = first.textureSize
  types : Fits script.uniforms uniforms
  apart : Apart script.uniforms outputs uniforms

/-! ## Outputs -/

theorem kindViolations_eq_nil_iff {rank : Rank} {index : Nat} {desc : BufferDesc}
    {element : ElementKind} :
    kindViolations rank index desc element = [] ↔ desc.kind = ⟨element, rank⟩ := by
  obtain ⟨id, ⟨e, r⟩, extents, size⟩ := desc
  simp only [kindViolations, List.append_eq_nil_iff, ite_eq_left_iff,
    imp_false, Decidable.not_not, BufferKind.mk.injEq, List.cons_ne_nil]
  exact And.comm

/-- What holds of every item with its index, if it does not depend on the index. -/
theorem forall_mem_zipIdx {α : Type} {l : List α} {p : α → Prop} :
    (∀ x ∈ l.zipIdx, p x.1) ↔ ∀ a ∈ l, p a := by
  constructor
  · intro h a ha
    obtain ⟨i, hi⟩ := List.mem_iff_getElem?.mp ha
    exact h (a, i) (List.mem_zipIdx_iff_getElem?.mpr hi)
  · intro h x hx
    exact h x.1 (List.mem_iff_getElem?.mpr ⟨x.2, List.mem_zipIdx_iff_getElem?.mp hx⟩)

theorem kinds_eq_iff {rank : Rank} {outputs : List BufferDesc} {elements : List ElementKind}
    (h : outputs.length = elements.length) :
    (∀ p ∈ outputs.zip elements, p.1.kind = ⟨p.2, rank⟩) ↔
      outputs.map (·.kind) = elements.map fun e => ⟨e, rank⟩ := by
  induction outputs generalizing elements with
  | nil =>
    obtain rfl : elements = [] := List.length_eq_zero_iff.mp h.symm
    simp
  | cons o outputs ih =>
    cases elements with
    | nil => cases h
    | cons e elements =>
      rw [List.zip_cons_cons, List.forall_mem_cons, ih (Nat.succ.inj h), List.map_cons,
        List.map_cons, List.cons.injEq]

theorem countViolations_eq_nil_iff {thread : ThreadSignature} {outputs : List BufferDesc} :
    countViolations thread outputs = [] ↔ outputs.length = thread.outputs.length := by
  simp [countViolations]

/-- Validation by count and by kind is a comparison of the lists of kinds. -/
theorem signatureViolations_eq_nil_iff {thread : ThreadSignature} {outputs : List BufferDesc} :
    countViolations thread outputs = [] ∧
        ((outputs.zip thread.outputs).zipIdx.flatMap fun ((desc, element), index) =>
          kindViolations thread.rank index desc element) = [] ↔
      outputs.map (·.kind) = thread.outputs.map fun e => ⟨e, thread.rank⟩ := by
  have hkinds : ((outputs.zip thread.outputs).zipIdx.flatMap fun ((desc, element), index) =>
      kindViolations thread.rank index desc element) = [] ↔
      ∀ p ∈ outputs.zip thread.outputs, p.1.kind = ⟨p.2, thread.rank⟩ := by
    rw [List.flatMap_eq_nil_iff,
      ← @forall_mem_zipIdx _ (outputs.zip thread.outputs) fun p => p.1.kind = ⟨p.2, thread.rank⟩]
    exact forall₂_congr fun x _ => kindViolations_eq_nil_iff
  rw [countViolations_eq_nil_iff, hkinds]
  constructor
  · rintro ⟨hlen, h⟩
    exact (kinds_eq_iff hlen).mp h
  · intro h
    have hlen : outputs.length = thread.outputs.length := by simpa using congrArg List.length h
    exact ⟨hlen, (kinds_eq_iff hlen).mpr h⟩

theorem duplicateViolation?_eq_none_iff {outputs : List BufferDesc} {index : Nat}
    {desc : BufferDesc} :
    duplicateViolation? outputs index desc = none ↔
      ∀ o ∈ outputs.take index, o.id ≠ desc.id := by
  rw [duplicateViolation?, Option.map_eq_none_iff, List.findIdx?_eq_none_iff]
  simp only [decide_eq_false_iff_not, ne_eq]

theorem duplicateViolations_eq_nil_iff {outputs : List BufferDesc} :
    (outputs.zipIdx.filterMap fun (desc, index) => duplicateViolation? outputs index desc) = [] ↔
      (outputs.map (·.id)).Nodup := by
  rw [List.filterMap_eq_nil_iff, List.Nodup, List.pairwise_map, List.pairwise_iff_getElem]
  constructor
  · intro h i j hi hj hij
    have hj' := h (outputs[j], j) (List.mem_zipIdx_iff_getElem?.mpr (List.getElem?_eq_getElem hj))
    have htake : outputs[i] ∈ outputs.take j :=
      List.mem_take_iff_getElem.mpr ⟨i, by omega, rfl⟩
    exact duplicateViolation?_eq_none_iff.mp hj' _ htake
  · rintro h ⟨desc, j⟩ hx
    have hj : outputs[j]? = some desc := List.mem_zipIdx_iff_getElem?.mp hx
    obtain ⟨hlt, rfl⟩ := List.getElem?_eq_some_iff.mp hj
    refine duplicateViolation?_eq_none_iff.mpr fun o ho => ?_
    obtain ⟨i, hi, rfl⟩ := List.mem_take_iff_getElem.mp ho
    exact h i j (by omega) hlt (by omega)

theorem sizeViolations_eq_nil_iff {first : BufferDesc} {outputs : List BufferDesc} :
    (outputs.zipIdx.filterMap fun (desc, index) => sizeViolation? first index desc) = [] ↔
      ∀ o ∈ outputs, o.textureSize = first.textureSize := by
  rw [List.filterMap_eq_nil_iff,
    ← @forall_mem_zipIdx _ outputs fun o => o.textureSize = first.textureSize]
  refine forall₂_congr fun x _ => ?_
  simp [sizeViolation?]

theorem outputViolations_eq_nil_iff {thread : ThreadSignature} {outputs : List BufferDesc} :
    outputViolations thread outputs = [] ↔
      outputs.map (·.kind) = thread.outputs.map (fun e => ⟨e, thread.rank⟩) ∧
      (outputs.map (·.id)).Nodup ∧
      ∀ first ∈ outputs.head?, ∀ o ∈ outputs, o.textureSize = first.textureSize := by
  unfold outputViolations
  rw [List.append_eq_nil_iff, List.append_eq_nil_iff, List.append_eq_nil_iff,
    signatureViolations_eq_nil_iff, duplicateViolations_eq_nil_iff, and_assoc]
  cases outputs with
  | nil => simp
  | cons first rest =>
    simp only [sizeViolations_eq_nil_iff, List.head?_cons, Option.mem_def, Option.some.injEq,
      forall_eq']

/-! ## Uniforms -/

theorem uniformViolations_eq_nil_iff {outputs : List BufferDesc} {uniforms : Uniforms}
    {d : UniformDeclaration} :
    uniformViolations outputs uniforms d = [] ↔
      (∀ value, uniforms.get? d.name = some value → d.type.accepts value = true) ∧
      ∀ desc, uniforms.get? d.name = some (.buffer desc) → ∀ o ∈ outputs, o.id ≠ desc.id := by
  unfold uniformViolations
  cases uniforms.get? d.name with
  | none => simp
  | some value =>
    cases value with
    | int v | float v => simp [valueViolations]
    | buffer desc =>
      simp [valueViolations, List.findIdx?_eq_none_iff, Option.toList_eq_nil_iff]

/-! ## Both -/

/-- Validation finds nothing exactly in a run as its program needs it. -/
theorem violations_eq_nil_iff {script : Script} {outputs : List BufferDesc}
    {uniforms : Uniforms} :
    violations script outputs uniforms = [] ↔ Accepted script outputs uniforms := by
  rw [violations, List.append_eq_nil_iff, outputViolations_eq_nil_iff, List.flatMap_eq_nil_iff]
  constructor
  · rintro ⟨⟨hkinds, hdistinct, hsizes⟩, huniforms⟩
    exact ⟨hkinds, hdistinct, hsizes,
      fun d hd => (uniformViolations_eq_nil_iff.mp (huniforms d hd)).1,
      fun d hd => (uniformViolations_eq_nil_iff.mp (huniforms d hd)).2⟩
  · rintro ⟨hkinds, hdistinct, hsizes, htypes, hapart⟩
    exact ⟨⟨hkinds, hdistinct, hsizes⟩,
      fun d hd => uniformViolations_eq_nil_iff.mpr ⟨htypes d hd, hapart d hd⟩⟩

end Texelwise

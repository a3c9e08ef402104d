import Mathlib.Data.List.Basic
import Mathlib.Data.List.Induction
import Texelwise.Proofs.Program.Creation

/-!
# Only the last value of a name counts

A caller sets values one after another, in an order of its own, some of them more than once and
some under names that the program does not declare. A run looks at the values in three places, and
each time it asks for declared names only.

* `Named.last?`: the value that settings leave a name with; `Named.get?_ofList`.
* `Uniforms.AgreeOn`: two collections of values that have the same values for some declarations.
* `violations_congr`, `blockBytes_congr`, `boundTextures_congr`: the three places.
* `Program.run_ofList_eq`: settings that leave every declared name with the same value give the
  same run.
-/

namespace Texelwise

/-! ## Settings -/

namespace Named

variable {κ α : Type} [DecidableEq κ]

/-- The value that settings leave a name with: the last one that is set for it. -/
def last? (settings : List (κ × α)) (name : κ) : Option α :=
  ((settings.filter fun e => e.1 = name).getLast?).map (·.2)

theorem last?_concat (settings : List (κ × α)) (name other : κ) (value : α) :
    last? (settings ++ [(name, value)]) other =
      if other = name then some value else last? settings other := by
  rw [last?, List.filter_append]
  by_cases h : name = other
  · simp [h]
  · simp [h, Ne.symm h, last?]

/-- Settings, one after another, leave a name with the last value that is set for it. -/
theorem get?_ofList (settings : List (κ × α)) (name : κ) :
    (ofList settings).get? name = last? settings name := by
  induction settings using List.reverseRecOn with
  | nil => rfl
  | append_singleton settings e ih =>
    have hstep : ofList (settings ++ [e]) = (ofList settings).set e.1 e.2 := by
      rw [ofList, List.foldl_append]
      rfl
    rw [hstep, get?_set, last?_concat, ih]

end Named

/-! ## Where values are looked at -/

/-- The values are the same for the names of these declarations. -/
def Uniforms.AgreeOn (ds : List UniformDeclaration) (u v : Uniforms) : Prop :=
  ∀ d ∈ ds, Named.get? u d.name = Named.get? v d.name

section

variable {ds : List UniformDeclaration} {u v : Uniforms} (h : u.AgreeOn ds v)

include h

theorem get?_slot_congr {slot : UniformSlot} (hs : slot ∈ (BindingTable.ofDeclarations ds).slots) :
    Named.get? u slot.name = Named.get? v slot.name :=
  h slot.declaration (BindingTable.mem_uniforms_of_mem_slots hs)

/-- Validation asks for the values of declarations. -/
theorem violations_congr {script : Script} (hds : script.uniforms = ds)
    (outputs : List BufferDesc) : violations script outputs u = violations script outputs v := by
  have hvalues : ∀ d ∈ ds, uniformViolations outputs u d = uniformViolations outputs v d := by
    intro d hd
    rw [uniformViolations, uniformViolations, h d hd]
  rw [violations, violations, hds, List.flatMap_congr hvalues]

/-- The uniform block is filled from the values of slots. -/
theorem blockBytes_congr (first : BufferDesc) :
    blockBytes (.ofDeclarations ds) first u = blockBytes (.ofDeclarations ds) first v := by
  have hslots : ∀ block, ∀ slot ∈ (BindingTable.ofDeclarations ds).slots,
      putSlot u block slot = putSlot v block slot := by
    intro block slot hslot
    rw [putSlot, putSlot, get?_slot_congr h hslot]
  rw [blockBytes_eq_bind, blockBytes_eq_bind]
  exact congrArg _ (funext (foldlM_congr_of_mem hslots))

/-- Textures are bound for the values of slots. -/
theorem boundTextures_congr : Program.boundTextures (.ofDeclarations ds) u =
    Program.boundTextures (.ofDeclarations ds) v := by
  refine List.filterMap_congr fun slot hslot => ?_
  have hbound : Program.boundTexture u slot = Program.boundTexture v slot := by
    rw [Program.boundTexture, Program.boundTexture, get?_slot_congr h hslot]
  rw [hbound]

end

/-! ## Runs -/

namespace Program

/-- Values that agree on the declared names give the same run. -/
theorem run_congr {p : Program} (hp : p.script.bindings = .ofDeclarations p.script.uniforms)
    {u v : Uniforms} (h : u.AgreeOn p.script.uniforms v) (limits : Limits)
    (outputs : List BufferDesc) : p.run limits outputs u = p.run limits outputs v := by
  have hcalls : ∀ first, p.runCalls first outputs u = p.runCalls first outputs v := by
    intro first
    funext block
    rw [runCalls, runCalls, hp, boundTextures_congr h]
  have hblock : ∀ first,
      blockBytes p.script.bindings first u = blockBytes p.script.bindings first v := by
    intro first
    rw [hp, blockBytes_congr h]
  unfold run
  simp only [violations_congr h rfl outputs, hcalls, hblock]

/-- Two sequences of settings that leave every declared name with the same value, or both without
one, give the same run: the same violations in the same order, the same failure of an output, or
the same calls, with the same bytes in the uniform block and the same textures bound. -/
theorem run_ofList_eq {device : Device} {source : Text} {p : Program}
    (hp : Program.create device source = .ok p) {xs ys : List (Text × UniformValue)}
    (h : ∀ d ∈ p.script.uniforms, Named.last? xs d.name = Named.last? ys d.name)
    (limits : Limits) (outputs : List BufferDesc) :
    p.run limits outputs (.ofList xs) = p.run limits outputs (.ofList ys) := by
  refine run_congr (bindings_of_compile (create_eq_ok hp).1) (fun d hd => ?_) limits outputs
  rw [Named.get?_ofList, Named.get?_ofList, h d hd]

/-- A declared value that is set again, one that is set after a value of another type, and a name
that the program does not declare. -/
theorem run_ofList_eq_reset :
    let source : Text :=
      "uniform int n; uniform Float1D src; [float] thread (int x) \x7b\x7d".toList
    let written : BufferDesc := ⟨⟨1⟩, ⟨.float, .one⟩, ⟨5, 1, 1⟩, ⟨4, 4⟩⟩
    let read : BufferDesc := ⟨⟨2⟩, ⟨.float, .one⟩, ⟨3, 1, 1⟩, ⟨4, 4⟩⟩
    let xs : List (Text × UniformValue) := [("n".toList, .int 1), ("extra".toList, .float 5),
      ("src".toList, .buffer read), ("n".toList, .int 7)]
    let ys : List (Text × UniformValue) := [("src".toList, .float 9), ("n".toList, .int 7),
      ("src".toList, .buffer read)]
    ∃ p, Program.create (.plain {}) source = .ok p ∧
      (∀ d ∈ p.script.uniforms, Named.last? xs d.name = Named.last? ys d.name) ∧
      p.run {} [written] (.ofList xs) = p.run {} [written] (.ofList ys) ∧
      (p.run {} [written] (.ofList ys)).toOption.isSome = true := by
  intro source written read xs ys
  have hmade : (Program.create (.plain {}) source).toOption.map
      (fun p => (p.script.uniforms, (p.run {} [written] (.ofList ys)).toOption.isSome)) =
      some ([⟨"n".toList, .int⟩, ⟨"src".toList, .buffer ⟨.float, .one⟩⟩], true) := by
    decide +kernel
  cases hp : Program.create (.plain {}) source with
  | error e => rw [hp] at hmade; cases hmade
  | ok p =>
    rw [hp] at hmade
    obtain ⟨huniforms, hok⟩ := Prod.mk.inj (Option.some.inj hmade)
    have hlast : ∀ d ∈ p.script.uniforms, Named.last? xs d.name = Named.last? ys d.name := by
      rw [huniforms]
      decide
    exact ⟨p, rfl, hlast, run_ofList_eq hp hlast {} [written], hok⟩

end Program

end Texelwise

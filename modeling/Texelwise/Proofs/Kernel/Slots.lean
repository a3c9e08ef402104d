import Mathlib.Algebra.Group.Nat.Defs
import Texelwise.Kernel.Compile

/-!
# Slots of a list of declarations

Slots are bound one after another, so what a table holds is read off the list of declarations.

* `BlockMember.place_append`, `BlockMember.getElem?_place`: members lie back to back.
* `UniformSlot.declaration_bind`: there is one slot per declaration, in the same order.
* `UniformSlot.members_bind`: the members of all slots, as if placed at once.
* `UniformSlot.texture_bind`: exactly the buffers have a texture.
* `bindings_of_compile`: a compiled script has the table of its uniforms.
-/

namespace Texelwise

/-! ## Members -/

namespace BlockMember

@[simp] theorem after_zero (offset : UInt32) : after offset 0 = offset := by
  simp [after]

theorem after_add (offset : UInt32) (m n : Nat) :
    after offset (m + n) = after (after offset m) n := by
  rw [after, after, after, UInt32.ofNat_add, UInt32.add_mul, UInt32.add_assoc]

/-- Offsets are exact as long as they are numbers of 32 bits. -/
theorem toNat_after {offset : UInt32} {members : Nat}
    (h : offset.toNat + 4 * members < 2 ^ 32) :
    (after offset members).toNat = offset.toNat + 4 * members := by
  have hsize : memberSize.toNat = 4 := rfl
  rw [after, UInt32.toNat_add, UInt32.toNat_mul, UInt32.toNat_ofNat', hsize]
  omega

theorem place_append (offset : UInt32) (xs ys : List (Text × ScalarType)) :
    place offset (xs ++ ys) = place offset xs ++ place (after offset xs.length) ys := by
  induction xs generalizing offset with
  | nil => simp [place]
  | cons x xs ih =>
    have hnext : after (offset + memberSize) xs.length = after offset (x :: xs).length := by
      rw [List.length_cons, Nat.add_comm, after_add]
      rfl
    rw [List.cons_append, place, ih, hnext]
    rfl

theorem getElem?_place (offset : UInt32) (i : Nat) (ms : List (Text × ScalarType)) :
    (place offset ms)[i]? = ms[i]?.map fun m => ⟨m.1, m.2, after offset i⟩ := by
  induction ms generalizing offset i with
  | nil => simp [place]
  | cons m ms ih =>
    cases i with
    | zero => simp [place]
    | succ i =>
      rw [place, List.getElem?_cons_succ, List.getElem?_cons_succ, ih, Nat.add_comm, after_add]
      rfl

theorem map_place (offset : UInt32) (ms : List (Text × ScalarType)) :
    (place offset ms).map (fun m => (m.name, m.type)) = ms := by
  induction ms generalizing offset with
  | nil => rfl
  | cons m ms ih => rw [place, List.map_cons, ih]

theorem exists_mem_place (offset : UInt32) {ms : List (Text × ScalarType)} {n : Text}
    {type : ScalarType} (h : (n, type) ∈ ms) : ∃ m ∈ place offset ms, m.name = n := by
  rw [← map_place offset ms] at h
  obtain ⟨m, hm, heq⟩ := List.mem_map.mp h
  exact ⟨m, hm, congrArg Prod.fst heq⟩

end BlockMember

/-! ## Slots -/

namespace UniformSlot

/-- A slot of a list of declarations, and the slots of the declarations after it. -/
theorem bind_cons (offset : UInt32) (texture : Nat) (d : UniformDeclaration)
    (ds : List UniformDeclaration) :
    ∃ t next, bind offset texture (d :: ds) =
        ⟨d, t, BlockMember.place offset d.memberTypes⟩ ::
          bind (BlockMember.after offset d.memberTypes.length) next ds ∧
      (t.isSome ↔ ∃ k, d.type = .buffer k) := by
  rw [bind]
  cases d.type with
  | int => exact ⟨none, texture, by simp, by simp⟩
  | float => exact ⟨none, texture, by simp, by simp⟩
  | buffer k => exact ⟨some texture, texture + 1, by simp, by simp⟩

theorem declaration_bind (offset : UInt32) (texture : Nat) (ds : List UniformDeclaration) :
    (bind offset texture ds).map (·.declaration) = ds := by
  induction ds generalizing offset texture with
  | nil => rfl
  | cons d ds ih =>
    obtain ⟨t, next, hb, -⟩ := bind_cons offset texture d ds
    rw [hb, List.map_cons, ih]

theorem members_bind (offset : UInt32) (texture : Nat) (ds : List UniformDeclaration) :
    (bind offset texture ds).flatMap (·.members) =
      BlockMember.place offset (ds.flatMap UniformDeclaration.memberTypes) := by
  induction ds generalizing offset texture with
  | nil => rfl
  | cons d ds ih =>
    obtain ⟨t, next, hb, -⟩ := bind_cons offset texture d ds
    rw [hb, List.flatMap_cons, ih, List.flatMap_cons, BlockMember.place_append]

theorem texture_bind {offset : UInt32} {texture : Nat} {ds : List UniformDeclaration}
    {s : UniformSlot} (h : s ∈ bind offset texture ds) :
    s.texture.isSome ↔ ∃ k, s.declaration.type = .buffer k := by
  induction ds generalizing offset texture with
  | nil => cases h
  | cons d ds ih =>
    obtain ⟨t, next, hb, ht⟩ := bind_cons offset texture d ds
    rw [hb] at h
    rcases List.mem_cons.mp h with rfl | h
    · exact ht
    · exact ih h

/-- A slot has the members of its declaration. -/
theorem exists_members_eq {offset : UInt32} {texture : Nat} {ds : List UniformDeclaration}
    {s : UniformSlot} (h : s ∈ bind offset texture ds) :
    ∃ o, s.members = BlockMember.place o s.declaration.memberTypes := by
  induction ds generalizing offset texture with
  | nil => cases h
  | cons d ds ih =>
    obtain ⟨t, next, hb, -⟩ := bind_cons offset texture d ds
    rw [hb] at h
    rcases List.mem_cons.mp h with rfl | h
    · exact ⟨offset, rfl⟩
    · exact ih h

end UniformSlot

/-! ## The table -/

namespace BindingTable

/-- The names and types of all members of the block. -/
def memberTypes (ds : List UniformDeclaration) : List (Text × ScalarType) :=
  builtinNames.map (fun n => (n, .int)) ++ ds.flatMap UniformDeclaration.memberTypes

theorem members_ofDeclarations (ds : List UniformDeclaration) :
    (ofDeclarations ds).members = BlockMember.place 0 (memberTypes ds) := by
  simp [members, ofDeclarations, memberTypes, UniformSlot.members_bind, BlockMember.place_append]

theorem declaration_slots (ds : List UniformDeclaration) :
    (ofDeclarations ds).slots.map (·.declaration) = ds :=
  UniformSlot.declaration_bind _ _ ds

theorem mem_uniforms_of_mem_slots {ds : List UniformDeclaration} {s : UniformSlot}
    (h : s ∈ (ofDeclarations ds).slots) : s.declaration ∈ ds := by
  have := List.mem_map_of_mem (f := UniformSlot.declaration) h
  rwa [declaration_slots] at this

end BindingTable

/-! ## Compiled scripts -/

theorem finishScript_eq_ok {i : Interface} {table : BindingTable}
    {code : Except PatternError Text} {script : Script}
    (h : finishScript i table code = .ok script) :
    script.thread = i.thread ∧ script.uniforms = i.uniforms ∧ script.bindings = table ∧
      script.vertex = Shader.vertex := by
  cases code with
  | error e => cases h
  | ok code =>
    have hfin : finishScript i table (.ok code) = (replaceThread i.thread table code).map fun c =>
        ⟨i.thread, i.uniforms, table, Shader.vertex, fragmentText i.thread table c⟩ := rfl
    rw [hfin] at h
    cases hc : replaceThread i.thread table code with
    | error e => rw [hc] at h; cases h
    | ok c => rw [hc] at h; cases h; exact ⟨rfl, rfl, rfl, rfl⟩

theorem bindings_of_compile {source : Text} {script : Script} (h : compile source = .ok script) :
    script.bindings = .ofDeclarations script.uniforms := by
  obtain ⟨i, hi⟩ := exists_interface_of_compile h
  rw [compile_of_interface hi] at h
  obtain ⟨-, hu, hb, -⟩ := finishScript_eq_ok h
  rw [hb, hu]

end Texelwise

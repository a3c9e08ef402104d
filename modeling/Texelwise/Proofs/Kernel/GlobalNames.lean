import Mathlib.Data.List.Nodup
import Mathlib.Data.List.Perm.Basic
import Texelwise.Proofs.Kernel.Slots

/-!
# The global names of a program

The table of a program brings names into the shader: members of the uniform block, textures, the
sampler and the block itself. Scalars keep the name under which they are declared; all others are
generated. A generated name says which buffer and which member it is for, whatever the buffers are
called, since members have no underscore.

* `BindingTable.globalNames`: the names of a table; `globalNames_perm` has them by declaration.
* `bufferMemberName_inj`: a generated name has one buffer and one member.
* `nodup_generated`: the names that are not scalars are all different.
* `not_nodup_globalNames_iff`: so only the name of a scalar can be there twice.
-/

namespace Texelwise

namespace BindingTable

/-- The names of the textures. -/
def textureNames (t : BindingTable) : List Text :=
  (t.slots.filter (·.texture.isSome)).map fun s => textureName s.name

/-- The global names that the table brings into the shader. -/
def globalNames (t : BindingTable) : List Text :=
  t.members.map (·.name) ++ t.textureNames ++ [samplerName, blockName]

end BindingTable

/-- The names that do not depend on declarations. -/
def fixedNames : List Text := builtinNames ++ [samplerName, blockName]

/-- What stands behind the name of a buffer in the names that are generated for it: the companions
of its kind and the texture. -/
def BufferKind.suffixes (k : BufferKind) : List Text := k.companions ++ ["texture".toList]

namespace UniformDeclaration

/-- The name of a scalar. -/
def scalarNames (d : UniformDeclaration) : List Text :=
  match d.type with
  | .int | .float => [d.name]
  | .buffer _ => []

/-- The names that are generated for a buffer: its companions and its texture. -/
def generatedNames (d : UniformDeclaration) : List Text :=
  match d.type with
  | .int | .float => []
  | .buffer k => k.suffixes.map (bufferMemberName d.name)

/-- The name of the texture of a buffer. -/
def textureNames (d : UniformDeclaration) : List Text :=
  match d.type with
  | .int | .float => []
  | .buffer _ => [textureName d.name]

theorem memberTypes_append_textureNames (d : UniformDeclaration) :
    d.memberTypes.map Prod.fst ++ d.textureNames = d.scalarNames ++ d.generatedNames := by
  obtain ⟨name, type⟩ := d
  cases type with
  | int => rfl
  | float => rfl
  | buffer k =>
    simp [memberTypes, textureNames, scalarNames, generatedNames, BufferKind.suffixes, textureName]

end UniformDeclaration

/-! ## Names by declaration -/

open UniformDeclaration

theorem textureNames_bind (offset : UInt32) (texture : Nat) (ds : List UniformDeclaration) :
    ((UniformSlot.bind offset texture ds).filter (·.texture.isSome)).map
      (fun s => textureName s.name) = ds.flatMap UniformDeclaration.textureNames := by
  induction ds generalizing offset texture with
  | nil => rfl
  | cons d ds ih =>
    obtain ⟨name, type⟩ := d
    cases type with
    | int => exact ih _ _
    | float => exact ih _ _
    | buffer k => exact congrArg (textureName name :: ·) (ih _ _)

/-- The names of a table are those of scalars, the fixed ones and the generated ones. -/
theorem globalNames_perm (ds : List UniformDeclaration) :
    (BindingTable.ofDeclarations ds).globalNames.Perm
      (ds.flatMap scalarNames ++ (fixedNames ++ ds.flatMap generatedNames)) := by
  have hmembers : (BindingTable.ofDeclarations ds).members.map (·.name) =
      builtinNames ++ ds.flatMap fun d => d.memberTypes.map Prod.fst := by
    have hfst : ∀ ms : List (Text × ScalarType),
        (BlockMember.place 0 ms).map (·.name) = ms.map Prod.fst := by
      intro ms
      conv => rhs; rw [← BlockMember.map_place 0 ms, List.map_map]
      rfl
    rw [BindingTable.members_ofDeclarations, hfst, BindingTable.memberTypes, List.map_append,
      List.map_map, List.map_flatMap]
    exact congrArg (· ++ _) (List.map_id builtinNames)
  have htextures : (BindingTable.ofDeclarations ds).textureNames =
      ds.flatMap UniformDeclaration.textureNames := textureNames_bind _ _ ds
  -- The members and the texture of a declaration are its scalar or its generated names.
  have hown : (ds.flatMap (fun d => d.memberTypes.map Prod.fst) ++
      ds.flatMap UniformDeclaration.textureNames).Perm
        (ds.flatMap scalarNames ++ ds.flatMap generatedNames) := by
    refine (List.flatMap_append_perm ds _ _).trans ?_
    simp only [memberTypes_append_textureNames]
    exact (List.flatMap_append_perm ds _ _).symm
  rw [BindingTable.globalNames, hmembers, htextures, fixedNames, List.perm_iff_count]
  intro name
  have hcount := hown.count_eq name
  simp only [List.count_append] at hcount ⊢
  omega

/-! ## Generated names -/

theorem not_mem_of_mem_suffixes {k : BufferKind} {m : Text} (hm : m ∈ k.suffixes) : '_' ∉ m := by
  have hall : ∀ r : Rank, ∀ m ∈ ["textureWidth".toList, "textureHeight".toList] ++ r.fields ++
      ["texture".toList], '_' ∉ m := by
    intro r
    cases r <;> decide
  exact hall k.rank m hm

theorem nodup_suffixes (k : BufferKind) : k.suffixes.Nodup := by
  have hall : ∀ r : Rank, (["textureWidth".toList, "textureHeight".toList] ++ r.fields ++
      ["texture".toList]).Nodup := by
    intro r
    cases r <;> decide
  exact hall k.rank

/-- A name with a member behind its last underscore has one member and one start. -/
theorem append_underscore_inj {n n' m m' : Text} (hm : '_' ∉ m) (hm' : '_' ∉ m')
    (h : n ++ '_' :: m = n' ++ '_' :: m') : n = n' ∧ m = m' := by
  rcases List.append_eq_append_iff.mp h with ⟨more, rfl, hrest⟩ | ⟨more, rfl, hrest⟩
  · cases more with
    | nil => exact ⟨by simp, (List.cons.inj hrest).2⟩
    | cons c more =>
      -- The second underscore would stand in the first member.
      obtain ⟨-, hrest⟩ := List.cons.inj hrest
      exact absurd (by rw [hrest]; simp) hm
  · cases more with
    | nil => exact ⟨by simp, (List.cons.inj hrest).2.symm⟩
    | cons c more =>
      obtain ⟨-, hrest⟩ := List.cons.inj hrest
      exact absurd (by rw [hrest]; simp) hm'

/-- A generated name has one buffer and one member, whatever the buffer is called. -/
theorem bufferMemberName_inj {n n' m m' : Text} (hm : '_' ∉ m) (hm' : '_' ∉ m')
    (h : bufferMemberName n m = bufferMemberName n' m') : n = n' ∧ m = m' := by
  unfold bufferMemberName at h
  rw [List.append_assoc, List.append_assoc] at h
  generalize "nc_uniform_".toList = start at h
  exact append_underscore_inj hm hm' (List.append_cancel_left h)

/-- The fixed name that starts like a generated one has no underscore behind the start. -/
theorem bufferMemberName_ne_blockName (n m : Text) : bufferMemberName n m ≠ blockName := by
  intro h
  have hsplit : blockName = "nc_uniform_".toList ++ "block".toList := rfl
  rw [hsplit] at h
  unfold bufferMemberName at h
  rw [List.append_assoc] at h
  generalize "nc_uniform_".toList = start at h
  have hunderscore : '_' ∈ "block".toList := by
    rw [← List.append_cancel_left h]
    simp
  exact absurd hunderscore (by decide)

/-- No fixed name is generated for a buffer. -/
theorem bufferMemberName_not_mem_fixedNames (n m : Text) : bufferMemberName n m ∉ fixedNames := by
  intro hmem
  have hprefix : "nc_uniform_".toList <+: bufferMemberName n m := by
    unfold bufferMemberName
    rw [List.append_assoc]
    exact List.prefix_append _ _
  have hstart : ∀ w ∈ fixedNames, "nc_uniform_".toList <+: w → w = blockName := by
    decide +kernel
  exact bufferMemberName_ne_blockName n m (hstart _ hmem hprefix)

namespace UniformDeclaration

theorem mem_generatedNames {d : UniformDeclaration} {x : Text} :
    x ∈ d.generatedNames ↔
      ∃ k, d.type = .buffer k ∧ ∃ m ∈ k.suffixes, x = bufferMemberName d.name m := by
  obtain ⟨name, type⟩ := d
  cases type <;> simp [generatedNames, eq_comm]

theorem mem_scalarNames {d : UniformDeclaration} {x : Text} :
    x ∈ d.scalarNames ↔ d.type.bufferKind? = none ∧ x = d.name := by
  obtain ⟨name, type⟩ := d
  cases type <;> simp [scalarNames, UniformType.bufferKind?]

theorem nodup_generatedNames (d : UniformDeclaration) : d.generatedNames.Nodup := by
  obtain ⟨name, type⟩ := d
  cases type with
  | int => exact List.nodup_nil
  | float => exact List.nodup_nil
  | buffer k =>
    refine List.Nodup.map_on (fun m hm m' hm' h => ?_) (nodup_suffixes k)
    exact (bufferMemberName_inj (not_mem_of_mem_suffixes hm) (not_mem_of_mem_suffixes hm') h).2

/-- Buffers with different names share no generated name. -/
theorem disjoint_generatedNames {b c : UniformDeclaration} (h : b.name ≠ c.name) :
    b.generatedNames.Disjoint c.generatedNames := by
  intro x hb hc
  obtain ⟨k, -, m, hm, rfl⟩ := mem_generatedNames.mp hb
  obtain ⟨k', -, m', hm', heq⟩ := mem_generatedNames.mp hc
  exact h (bufferMemberName_inj (not_mem_of_mem_suffixes hm) (not_mem_of_mem_suffixes hm') heq).1

end UniformDeclaration

section

variable {ds : List UniformDeclaration} (hnames : (ds.map (·.name)).Nodup)

include hnames

theorem pairwise_name_ne : ds.Pairwise fun b c => b.name ≠ c.name := List.pairwise_map.mp hnames

theorem nodup_scalarNames : (ds.flatMap scalarNames).Nodup := by
  refine List.nodup_flatMap.mpr ⟨fun d _ => ?_, (pairwise_name_ne hnames).imp fun hne x hb hc => ?_⟩
  · obtain ⟨name, type⟩ := d
    cases type <;> simp [scalarNames]
  · exact hne ((mem_scalarNames.mp hb).2.symm.trans (mem_scalarNames.mp hc).2)

/-- The names that are not scalars are all different. -/
theorem nodup_generated : (fixedNames ++ ds.flatMap generatedNames).Nodup := by
  refine List.nodup_append'.mpr ⟨by decide, ?_, fun x hfixed hgenerated => ?_⟩
  · exact List.nodup_flatMap.mpr ⟨fun d _ => nodup_generatedNames d,
      (pairwise_name_ne hnames).imp fun hne => disjoint_generatedNames hne⟩
  · obtain ⟨d, -, hd⟩ := List.mem_flatMap.mp hgenerated
    obtain ⟨k, -, m, -, rfl⟩ := mem_generatedNames.mp hd
    exact bufferMemberName_not_mem_fixedNames d.name m hfixed

/-- So a name is there twice only if a scalar has one of them. -/
theorem nodup_globalNames_iff_disjoint : (BindingTable.ofDeclarations ds).globalNames.Nodup ↔
    (ds.flatMap scalarNames).Disjoint (fixedNames ++ ds.flatMap generatedNames) := by
  rw [(globalNames_perm ds).nodup_iff, List.nodup_append']
  exact ⟨fun h => h.2.2, fun h => ⟨nodup_scalarNames hnames, nodup_generated hnames, h⟩⟩

end

/-! ## Repeated names -/

/-- The names that are not scalars, one by one. -/
theorem mem_generated_iff {ds : List UniformDeclaration} {x : Text} :
    x ∈ fixedNames ++ ds.flatMap generatedNames ↔
      x ∈ builtinNames ∨
        (∃ b ∈ ds, ∃ k, b.type = .buffer k ∧
          ((∃ m ∈ k.companions, x = bufferMemberName b.name m) ∨ x = textureName b.name)) ∨
        x = samplerName ∨ x = blockName := by
  have hbuffers : x ∈ ds.flatMap generatedNames ↔ ∃ b ∈ ds, ∃ k, b.type = .buffer k ∧
      ((∃ m ∈ k.companions, x = bufferMemberName b.name m) ∨ x = textureName b.name) := by
    simp only [List.mem_flatMap, mem_generatedNames, BufferKind.suffixes, List.mem_append,
      List.mem_singleton, or_and_right, exists_or, exists_eq_left, textureName]
  rw [List.mem_append, hbuffers, fixedNames, List.mem_append, List.mem_cons, List.mem_singleton,
    or_assoc]
  exact or_congr_right or_comm

/-- Declarations with different names, whatever these are, lead to a name that is there twice just
if a scalar has the name of a built-in member, of a companion or the texture of a declared buffer,
of the sampler or of the block; two buffers never share a generated name. -/
theorem BindingTable.not_nodup_globalNames_iff {ds : List UniformDeclaration}
    (hnames : (ds.map (·.name)).Nodup) :
    (¬ (ofDeclarations ds).globalNames.Nodup ↔
      ∃ d ∈ ds, d.type.bufferKind? = none ∧
        (d.name ∈ builtinNames ∨
          (∃ b ∈ ds, ∃ k, b.type = .buffer k ∧
            ((∃ m ∈ k.companions, d.name = bufferMemberName b.name m) ∨
              d.name = textureName b.name)) ∨
          d.name = samplerName ∨ d.name = blockName)) ∧
      ∀ b ∈ ds, ∀ c ∈ ds, b ≠ c → b.generatedNames.Disjoint c.generatedNames := by
  refine ⟨?_, fun b hb c hc hne => ?_⟩
  · have htwice : ¬ (ofDeclarations ds).globalNames.Nodup ↔
        ∃ x ∈ ds.flatMap scalarNames, x ∈ fixedNames ++ ds.flatMap generatedNames := by
      rw [nodup_globalNames_iff_disjoint hnames, List.Disjoint]
      push Not
      exact ⟨fun ⟨x, hscalar, htaken, _⟩ => ⟨x, hscalar, htaken⟩,
        fun ⟨x, hscalar, htaken⟩ => ⟨x, hscalar, htaken, trivial⟩⟩
    rw [htwice]
    constructor
    · rintro ⟨x, hscalar, htaken⟩
      obtain ⟨d, hd, hx⟩ := List.mem_flatMap.mp hscalar
      obtain ⟨hkind, rfl⟩ := mem_scalarNames.mp hx
      exact ⟨d, hd, hkind, mem_generated_iff.mp htaken⟩
    · rintro ⟨d, hd, hkind, htaken⟩
      exact ⟨d.name, List.mem_flatMap.mpr ⟨d, hd, mem_scalarNames.mpr ⟨hkind, rfl⟩⟩,
        mem_generated_iff.mpr htaken⟩
  · exact disjoint_generatedNames fun h => hne (List.inj_on_of_nodup_map hnames hb hc h)

/-- Two buffers whose names end like members, and a scalar with the name of a companion of one of
them. -/
theorem BindingTable.not_nodup_globalNames_iff_companion :
    let a : UniformDeclaration := ⟨"a".toList, .buffer ⟨.float, .three⟩⟩
    let b : UniformDeclaration := ⟨"a_texture".toList, .buffer ⟨.color, .one⟩⟩
    let n : UniformDeclaration := ⟨"nc_uniform_a_texture_width".toList, .int⟩
    ([a, b, n].map (·.name)).Nodup ∧ ¬ (ofDeclarations [a, b, n]).globalNames.Nodup ∧
      a.generatedNames.Disjoint b.generatedNames := by
  intro a b n
  have hnames : ([a, b, n].map (·.name)).Nodup := by decide
  obtain ⟨htwice, hshared⟩ := not_nodup_globalNames_iff hnames
  refine ⟨hnames, htwice.mpr ⟨n, by simp, rfl, .inr (.inl ⟨b, by simp, _, rfl, .inl ?_⟩)⟩,
    hshared a (by simp) b (by simp) (by decide)⟩
  exact ⟨"width".toList, by decide, rfl⟩

end Texelwise

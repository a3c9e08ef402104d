import Mathlib.Order.Bounds.Basic
import Texelwise.Proofs.Program.Block
import Texelwise.Proofs.Session.Aliasing

/-!
# The layout of bindings

Offsets and texture bindings are handed on from declaration to declaration, and the block text, the
list of bindings and the binding group each go through the slots on their own. All of them agree
with what the position of a declaration says.

* `UniformSlot.getElem?_bind`: the slot of a declaration by its position.
* `textures_ofDeclarations`, `isLeast_blockSize`: texture bindings and the size of the block.
* `Layout`: everything that the shader text and the device calls rely on.
* `BindingTable.layout_ofDeclarations`: every list of declarations is laid out so.
-/

namespace Texelwise

/-! ## Slots by position -/

/-- The number of buffers among declarations. -/
def bufferCount (ds : List UniformDeclaration) : Nat :=
  ds.countP fun d => d.type.bufferKind?.isSome

/-- The texture binding of a declaration behind others: the textures of buffers are numbered from
`texture` on. -/
def textureAfter (texture : Nat) (before : List UniformDeclaration) (d : UniformDeclaration) :
    Option Nat :=
  d.type.bufferKind?.map fun _ => texture + bufferCount before

theorem bufferCount_cons (d : UniformDeclaration) (ds : List UniformDeclaration) :
    bufferCount (d :: ds) = bufferCount [d] + bufferCount ds := by
  rw [bufferCount, ← List.singleton_append, List.countP_append]
  rfl

theorem textureAfter_cons (texture : Nat) (c : UniformDeclaration)
    (before : List UniformDeclaration) (d : UniformDeclaration) :
    textureAfter texture (c :: before) d = textureAfter (texture + bufferCount [c]) before d := by
  rw [textureAfter, textureAfter, bufferCount_cons c before, Nat.add_assoc]

namespace UniformSlot

/-- The first slot, and the numbers from which the others go on. -/
theorem bind_cons_eq (offset : UInt32) (texture : Nat) (d : UniformDeclaration)
    (ds : List UniformDeclaration) :
    bind offset texture (d :: ds) =
      ⟨d, textureAfter texture [] d, BlockMember.place offset d.memberTypes⟩ ::
        bind (BlockMember.after offset d.memberTypes.length) (texture + bufferCount [d]) ds := by
  obtain ⟨name, type⟩ := d
  cases type <;>
    simp [bind, textureAfter, bufferCount, UniformType.bufferKind?]

/-- The slot of a declaration: its texture comes after those of the buffers before it, and its
members come after all members before it. -/
theorem getElem?_bind (offset : UInt32) (texture i : Nat) (ds : List UniformDeclaration) :
    (bind offset texture ds)[i]? = ds[i]?.map fun d =>
      ⟨d, textureAfter texture (ds.take i) d, BlockMember.place
        (BlockMember.after offset
          ((ds.take i).flatMap UniformDeclaration.memberTypes).length) d.memberTypes⟩ := by
  induction ds generalizing offset texture i with
  | nil => rfl
  | cons d ds ih =>
    rw [bind_cons_eq]
    cases i with
    | zero => simp
    | succ i =>
      rw [List.getElem?_cons_succ, List.getElem?_cons_succ, ih, List.take_succ_cons,
        List.flatMap_cons, List.length_append]
      simp only [textureAfter_cons, BlockMember.after_add]

/-- The textures of all slots are numbered without a gap. -/
theorem textures_bind (offset : UInt32) (texture : Nat) (ds : List UniformDeclaration) :
    (bind offset texture ds).filterMap (·.texture) = List.range' texture (bufferCount ds) := by
  induction ds generalizing offset texture with
  | nil => rfl
  | cons d ds ih =>
    have hfirst : (textureAfter texture [] d).toList = List.range' texture (bufferCount [d]) := by
      obtain ⟨name, type⟩ := d
      cases type <;> rfl
    rw [bind_cons_eq, bufferCount_cons d ds, ← List.range'_append_1, ← hfirst, ← ih]
    cases textureAfter texture [] d <;> rfl

end UniformSlot

/-! ## The table -/

namespace BindingTable

theorem textures_ofDeclarations (ds : List UniformDeclaration) :
    (ofDeclarations ds).textures = List.range' firstTextureBinding (bufferCount ds) :=
  UniformSlot.textures_bind _ _ ds

/-- The bindings are numbered from 0 without a gap. -/
theorem bindings_ofDeclarations (ds : List UniformDeclaration) :
    (ofDeclarations ds).bindings = List.range (bufferCount ds + 2) := by
  rw [bindings, textures_ofDeclarations, List.range_eq_range']
  rfl

theorem length_members_ofDeclarations (ds : List UniformDeclaration) :
    (ofDeclarations ds).members.length = (memberTypes ds).length := by
  rw [members_ofDeclarations, BlockMember.length_place]

/-- Members lie back to back, four bytes each, as long as the last one ends at a number of 32
bits. -/
theorem offsets_place {ms : List (Text × ScalarType)} (h : 4 * ms.length < 2 ^ 32) :
    (BlockMember.place 0 ms).map (·.offset.toNat) = (List.range ms.length).map (4 * ·) := by
  apply List.ext_getElem?
  intro i
  rw [List.getElem?_map, BlockMember.getElem?_place, List.getElem?_map]
  by_cases hi : i < ms.length
  · have hzero : (0 : UInt32).toNat = 0 := rfl
    have hafter : (BlockMember.after 0 i).toNat = 4 * i := by
      rw [BlockMember.toNat_after (by omega), hzero, Nat.zero_add]
    rw [List.getElem?_eq_getElem hi, List.getElem?_range hi]
    exact congrArg some hafter
  · rw [List.getElem?_eq_none (by omega),
      List.getElem?_eq_none (by rw [List.length_range]; omega)]
    rfl

end BindingTable

/-! ## The size of a block -/

/-- The size of a block with a member is the least multiple of 16 that has room for its members, as
long as it is a 32-bit number. -/
theorem isLeast_blockSize {n : Nat} (hpos : 0 < n) (h : n ≤ maxMembers) :
    IsLeast {size | 16 ∣ size ∧ 4 * n ≤ size} (blockSize n).toNat := by
  rw [toNat_blockSize hpos h]
  refine ⟨⟨Nat.dvd_mul_left 16 _, by omega⟩, ?_⟩
  rintro size ⟨⟨k, rfl⟩, hroom⟩
  omega

/-! ## The binding group -/

/-- The texture that values give for a name: that of the buffer among them, or else the
placeholder. -/
def Supplied (uniforms : Uniforms) (name : Text) (texture : BoundTexture) : Prop :=
  (∃ desc, uniforms.get? name = some (.buffer desc) ∧ texture = .buffer desc.id desc.textureSize) ∨
    (∀ desc, uniforms.get? name ≠ some (.buffer desc)) ∧ texture = .placeholder

theorem supplied_boundTexture (uniforms : Uniforms) (slot : UniformSlot) :
    Supplied uniforms slot.name (Program.boundTexture uniforms slot) := by
  unfold Program.boundTexture
  split
  · rename_i desc hdesc
    exact .inl ⟨desc, hdesc, rfl⟩
  · rename_i hnone
    exact .inr ⟨hnone, rfl⟩

/-- The binding group has an entry for each slot with a texture, in the order of the slots. -/
theorem boundTextures_forall₂ (table : BindingTable) (uniforms : Uniforms) :
    List.Forall₂ (fun slot entry => slot.texture = some entry.1 ∧
        Supplied uniforms slot.name entry.2)
      (table.slots.filter (·.texture.isSome)) (Program.boundTextures table uniforms) := by
  unfold Program.boundTextures
  induction table.slots with
  | nil => exact .nil
  | cons slot slots ih =>
    cases ht : slot.texture with
    | none =>
      rw [List.filter_cons_of_neg (by simp [ht]), List.filterMap_cons_none (by simp [ht])]
      exact ih
    | some binding =>
      rw [List.filter_cons_of_pos (by simp [ht]),
        List.filterMap_cons_some (b := (binding, Program.boundTexture uniforms slot))
          (by simp [ht])]
      exact .cons ⟨ht, supplied_boundTexture uniforms slot⟩ ih

theorem map_fst_boundTextures (table : BindingTable) (uniforms : Uniforms) :
    (Program.boundTextures table uniforms).map (·.1) = table.textures := by
  rw [Program.boundTextures, BindingTable.textures, List.map_filterMap]
  congr 1
  funext slot
  cases slot.texture <;> rfl

/-! ## The layout -/

/-- What the shader text, the pipeline and the device calls rely on in the table of some
declarations. -/
structure Layout (ds : List UniformDeclaration) (t : BindingTable) : Prop where
  /-- There is one slot per declaration, in their order. -/
  declarations : t.slots.map (·.declaration) = ds
  /-- Just the slots of buffers have a texture, numbered from 2 on in the order of declarations. -/
  texture : ∀ (i : Nat) slot, t.slots[i]? = some slot → slot.texture =
    slot.declaration.type.bufferKind?.map fun _ => 2 + bufferCount (ds.take i)
  textures : t.textures = List.range' 2 (bufferCount ds)
  /-- The members are the built-in ones and then those of each declaration. -/
  members : t.members.map (fun m => (m.name, m.type)) =
    builtinNames.map (fun n => (n, .int)) ++ ds.flatMap UniformDeclaration.memberTypes
  /-- They lie back to back. -/
  offsets : t.members.map (·.offset.toNat) = (List.range t.members.length).map (4 * ·)
  /-- The shader text has one line per member, in their order. -/
  printed : t.uniformText =
    blockOpening ++ t.members.flatMap (fun m => lineText (m.name, m.type)) ++ blockClosing
  /-- The block is the smallest one in whole groups. -/
  size : IsLeast {size | 16 ∣ size ∧ 4 * t.members.length ≤ size} t.blockSize.toNat
  /-- The pipeline has all bindings in order. -/
  bindings : t.bindings = List.range (bufferCount ds + 2)
  /-- So has the binding group for any values, each texture being the supplied one. -/
  group : ∀ uniforms : Uniforms,
    blockBinding :: samplerBinding :: (Program.boundTextures t uniforms).map (·.1) =
        List.range (bufferCount ds + 2) ∧
      List.Forall₂ (fun slot entry => slot.texture = some entry.1 ∧
          Supplied uniforms slot.name entry.2)
        (t.slots.filter (·.texture.isSome)) (Program.boundTextures t uniforms)
  /-- This is the group that every run of a program with this table binds. -/
  bound : ∀ p : Program, p.script.bindings = t → ∀ limits outputs uniforms calls,
    p.run limits outputs uniforms = .ok calls →
      calls.head? = some (.bind blockBinding samplerBinding (Program.boundTextures t uniforms))

/-- Every list of declarations is laid out so, whatever their names, as long as the offsets have
room in 32 bits. -/
theorem BindingTable.layout_ofDeclarations {ds : List UniformDeclaration}
    (h : builtinNames.length + (ds.flatMap UniformDeclaration.memberTypes).length ≤ 2 ^ 30 - 4) :
    Layout ds (ofDeclarations ds) := by
  have hlength : (ofDeclarations ds).members.length =
      builtinNames.length + (ds.flatMap UniformDeclaration.memberTypes).length := by
    rw [length_members_ofDeclarations, memberTypes, List.length_append, List.length_map]
  have hpos : 0 < (ofDeclarations ds).members.length := by
    rw [hlength]
    exact Nat.add_pos_left (by decide) _
  refine
    { declarations := UniformSlot.declaration_bind _ _ ds
      texture := ?_
      textures := textures_ofDeclarations ds
      members := ?_
      offsets := ?_
      printed := ?_
      size := isLeast_blockSize hpos (hlength ▸ h)
      bindings := bindings_ofDeclarations ds
      group := ?_
      bound := ?_ }
  · intro i slot hslot
    rw [ofDeclarations, UniformSlot.getElem?_bind] at hslot
    obtain ⟨d, -, rfl⟩ := Option.map_eq_some_iff.mp hslot
    rfl
  · rw [members_ofDeclarations, BlockMember.map_place]
    rfl
  · rw [length_members_ofDeclarations] at hlength ⊢
    rw [members_ofDeclarations, offsets_place (by omega)]
  · have hlines : memberText = fun m => lineText (m.name, m.type) := funext memberText_eq
    unfold uniformText blockOpening blockClosing
    simp only [hlines, List.append_assoc]
  · intro uniforms
    refine ⟨?_, boundTextures_forall₂ _ uniforms⟩
    rw [map_fst_boundTextures]
    exact bindings_ofDeclarations ds
  · rintro p hp limits outputs uniforms calls hrun
    obtain ⟨-, first, rest, bytes, -, -, rfl⟩ := Program.run_eq_ok hrun
    rw [Program.runCalls, hp]
    rfl

/-- A name that is declared for two buffers, with a scalar between them. -/
theorem BindingTable.layout_ofDeclarations_repeated :
    let ds : List UniformDeclaration :=
      [⟨"a".toList, .buffer ⟨.float, .three⟩⟩, ⟨"n".toList, .int⟩,
        ⟨"a".toList, .buffer ⟨.color, .one⟩⟩]
    builtinNames.length + (ds.flatMap UniformDeclaration.memberTypes).length ≤ 2 ^ 30 - 4 ∧
      Layout ds (ofDeclarations ds) ∧ (ofDeclarations ds).textures = [2, 3] ∧
      (ofDeclarations ds).blockSize = 64 := by
  intro ds
  have hcount : builtinNames.length + (ds.flatMap UniformDeclaration.memberTypes).length ≤
      2 ^ 30 - 4 := by decide
  exact ⟨hcount, layout_ofDeclarations hcount, by decide +kernel, by decide +kernel⟩

end Texelwise

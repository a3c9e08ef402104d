import Mathlib.Algebra.Group.Nat.Defs
import Mathlib.Data.List.Basic
import Texelwise.Program.Block
import Texelwise.Proofs.Bytes
import Texelwise.Proofs.Kernel.Slots
import Texelwise.Proofs.Program.Validation

/-!
# How the uniform block is filled

The block is written through offsets, while the shader reads it through the order of its lines.
Here both are read off one list, the lines of a run with their words.

* `blockLines`: the lines of the block with the words that a run supplies, in declaration order.
* `uniformText_eq`: the shader text has one line for each of them.
* `toNat_blockSize`: up to `maxMembers` members the size of a block is exact.
* `blockBytes_eq`: the writes stay inside such a block and leave in it the words of the lines and
  then zeros.
-/

namespace Texelwise

/-! ## Lines and words -/

/-- The words of a size and extents, as many of the latter as the rank has. -/
def BufferKind.words (k : BufferKind) (desc : BufferDesc) : List UInt32 :=
  [desc.textureSize.width, desc.textureSize.height].map UInt32.ofNat ++
    ([desc.extents.width, desc.extents.height, desc.extents.depth].take k.rank.toNat).map
      UInt32.ofNat

/-- The words that a run supplies for a declaration, one for each of its members: the two's
complement of an integer, the bit pattern of a float, the sides and extents of a buffer, and zeros
if there is no value. -/
def UniformDeclaration.words (uniforms : Uniforms) (d : UniformDeclaration) : List UInt32 :=
  match d.type, uniforms.get? d.name with
  | .int, some (.int v) => [UInt32.ofInt v.toInt]
  | .float, some (.float bits) => [bits]
  | .buffer k, some (.buffer desc) => k.words desc
  | _, _ => List.replicate d.memberTypes.length 0

/-- The lines of the block, each with its word. -/
def blockLines (ds : List UniformDeclaration) (first : BufferDesc) (uniforms : Uniforms) :
    List ((Text × ScalarType) × UInt32) :=
  (builtinNames.map fun n => (n, .int)).zip
      ([first.textureSize.width, first.textureSize.height, first.extents.width,
        first.extents.height, first.extents.depth].map UInt32.ofNat) ++
    ds.flatMap fun d => d.memberTypes.zip (d.words uniforms)

/-- The shader line of a member by its name and type. -/
def lineText (line : Text × ScalarType) : Text :=
  "  ".toList ++ line.2.word ++ ' ' :: line.1 ++ ";\n".toList

/-- The shader text before the lines. -/
def blockOpening : Text :=
  "layout(set = 0, binding = ".toList ++ Text.ofNat blockBinding ++ ") uniform ".toList ++
    blockName ++ " \x7b\n".toList

/-- The shader text after the lines. -/
def blockClosing : Text :=
  "\x7d;\n".toList ++ "layout(set = 0, binding = ".toList ++ Text.ofNat samplerBinding ++
    ") uniform sampler ".toList ++ samplerName ++ ";\n".toList

/-- The bytes of words, the lowest byte of each first. -/
def wordBytes (ws : List UInt32) : List UInt8 := ws.flatMap fun w => (Texel.ofBits w).bytes

/-- The `i`-th word of some bytes, lowest byte first. -/
def wordAt (bytes : List UInt8) (i : Nat) : UInt32 :=
  (Texel.mk (bytes.getD (4 * i) 0) (bytes.getD (4 * i + 1) 0) (bytes.getD (4 * i + 2) 0)
    (bytes.getD (4 * i + 3) 0)).bits

/-! ## Members and words of one declaration -/

theorem length_companions (k : BufferKind) : k.companions.length = 2 + k.rank.toNat := by
  obtain ⟨e, r⟩ := k
  cases r <;> rfl

theorem length_memberTypes_of_buffer {d : UniformDeclaration} {k : BufferKind}
    (h : d.type = .buffer k) : d.memberTypes.length = 2 + k.rank.toNat := by
  rw [UniformDeclaration.memberTypes, h, List.length_map, length_companions]

theorem BufferKind.words_eq_take (k : BufferKind) (desc : BufferDesc) :
    k.words desc = (companionWords desc).take (2 + k.rank.toNat) := by
  obtain ⟨e, r⟩ := k
  cases r <;> rfl

theorem length_companionWords (desc : BufferDesc) : (companionWords desc).length = 5 := rfl

theorem Int32.ofInt_toInt_eq_toUInt32 (v : Int32) : UInt32.ofInt v.toInt = v.toUInt32 := by
  apply UInt32.toNat_inj.mp
  have hv : v.toInt = v.toUInt32.toBitVec.toInt := rfl
  rw [hv, UInt32.ofInt, UInt32.toNat_ofNat', BitVec.toInt_eq_toNat_cond]
  have := v.toUInt32.toNat_lt
  have hnat : v.toUInt32.toBitVec.toNat = v.toUInt32.toNat := rfl
  split <;> omega

/-- A value of the declared type has a word for each member, and these are the first ones. -/
theorem UniformDeclaration.words_of_accepts {d : UniformDeclaration} {uniforms : Uniforms}
    {value : UniformValue} (hv : uniforms.get? d.name = some value)
    (h : d.type.accepts value = true) :
    d.memberTypes.length ≤ value.words.length ∧
      d.words uniforms = value.words.take d.memberTypes.length := by
  cases ht : d.type with
  | int =>
    cases value with
    | int v =>
      simp [UniformDeclaration.words, memberTypes, ht, hv, UniformValue.words,
        Int32.ofInt_toInt_eq_toUInt32]
    | float _ | buffer _ => rw [ht] at h; cases h
  | float =>
    cases value with
    | float bits => simp [UniformDeclaration.words, memberTypes, ht, hv, UniformValue.words]
    | int _ | buffer _ => rw [ht] at h; cases h
  | buffer k =>
    cases value with
    | buffer desc =>
      have hlen := length_memberTypes_of_buffer ht
      have hwords : d.words uniforms = k.words desc := by simp [UniformDeclaration.words, ht, hv]
      rw [hwords, hlen, k.words_eq_take]
      refine ⟨?_, rfl⟩
      rw [show (UniformValue.buffer desc).words = companionWords desc from rfl,
        length_companionWords]
      cases k.rank <;> decide
    | int _ | float _ => rw [ht] at h; cases h

theorem UniformDeclaration.words_of_none {d : UniformDeclaration} {uniforms : Uniforms}
    (hv : uniforms.get? d.name = none) :
    d.words uniforms = List.replicate d.memberTypes.length 0 := by
  simp [UniformDeclaration.words, hv]

theorem UniformDeclaration.length_words {d : UniformDeclaration} {ds : List UniformDeclaration}
    {uniforms : Uniforms} (h : Fits ds uniforms) (hd : d ∈ ds) :
    (d.words uniforms).length = d.memberTypes.length := by
  cases hv : uniforms.get? d.name with
  | none => rw [words_of_none hv, List.length_replicate]
  | some value =>
    obtain ⟨hle, hwords⟩ := words_of_accepts hv (h d hd value hv)
    rw [hwords, List.length_take, Nat.min_eq_left hle]

/-! ## Bytes of words -/

theorem length_wordBytes (ws : List UInt32) : (wordBytes ws).length = 4 * ws.length := by
  induction ws with
  | nil => rfl
  | cons w ws ih =>
    rw [wordBytes, List.flatMap_cons, List.length_append, List.length_cons, Nat.mul_succ,
      Nat.add_comm]
    exact congrArg (· + 4) ih

theorem wordBytes_append (ws vs : List UInt32) :
    wordBytes (ws ++ vs) = wordBytes ws ++ wordBytes vs :=
  List.flatMap_append

theorem wordBytes_zeros (n : Nat) : wordBytes (List.replicate n 0) = List.replicate (4 * n) 0 := by
  induction n with
  | zero => rfl
  | succ n ih =>
    rw [List.replicate_succ, ← List.singleton_append, wordBytes_append, ih, Nat.mul_succ,
      Nat.add_comm, ← List.replicate_append_replicate]
    rfl

/-- The words are read back from their bytes. -/
theorem wordAt_wordBytes (ws : List UInt32) (i : Nat) : wordAt (wordBytes ws) i = ws.getD i 0 := by
  induction ws generalizing i with
  | nil => simp [wordBytes, wordAt, Texel.bits]
  | cons w ws ih =>
    cases i with
    | zero => exact Texel.bits_ofBits w
    | succ i =>
      rw [List.getD_cons_succ, ← ih i, wordBytes, List.flatMap_cons]
      simp only [wordAt, wordBytes, Texel.bytes, Nat.mul_succ, List.cons_append, List.nil_append,
        List.getD_cons_succ]

/-! ## Writing the block -/

/-- Words put at members that lie back to back take the place of as many words. -/
theorem putWords_place {ms : List (Text × ScalarType)} {before old after ws : List UInt32}
    (hold : old.length = ms.length) (hws : ms.length ≤ ws.length)
    (hsize : 4 * (before.length + ms.length) < 2 ^ 32) :
    putWords (wordBytes (before ++ old ++ after))
        (BlockMember.place (BlockMember.after 0 before.length) ms) ws =
      .ok (wordBytes (before ++ ws.take ms.length ++ after)) := by
  -- With each member one word goes over from `old` to `before`.
  induction ms generalizing before old ws with
  | nil =>
    obtain rfl : old = [] := List.length_eq_zero_iff.mp hold
    simp [BlockMember.place, putWords]
  | cons m ms ih =>
    cases old with
    | nil => cases hold
    | cons o old =>
      cases ws with
      | nil => cases hws
      | cons w ws =>
        have hold : old.length = ms.length := Nat.succ.inj hold
        have hws : ms.length ≤ ws.length := Nat.le_of_succ_le_succ hws
        rw [List.length_cons] at hsize
        have hplace : (BlockMember.after 0 before.length).toNat = (wordBytes before).length := by
          have hzero : (0 : UInt32).toNat = 0 := rfl
          rw [BlockMember.toNat_after (by omega), length_wordBytes]
          omega
        have hwrite : writeRange (wordBytes (before ++ o :: old ++ after))
            (BlockMember.after 0 before.length).toNat (Texel.ofBits w).bytes =
              .ok (wordBytes (before ++ [w] ++ old ++ after)) := by
          have hone : (wordBytes [w]).length = (wordBytes [o]).length := rfl
          have hput := @writeRange_append (wordBytes before) (wordBytes [o]) (wordBytes [w])
            (wordBytes (old ++ after)) hone
          rw [hplace, List.append_cons before o old,
            show (Texel.ofBits w).bytes = wordBytes [w] from rfl]
          simpa only [← wordBytes_append, ← List.append_assoc] using hput
        have hnext : BlockMember.after 0 before.length + memberSize =
            BlockMember.after 0 (before ++ [w]).length := by
          rw [List.length_append, BlockMember.after_add]
          rfl
        rw [BlockMember.place, putWords, hwrite, hnext]
        refine (ih hold hws ?_).trans ?_
        · rw [List.length_append, List.length_singleton]
          omega
        · simp

/-- A slot puts the words of its declaration where zeros were. -/
theorem putSlot_zeros {ds : List UniformDeclaration} {uniforms : Uniforms} (h : Fits ds uniforms)
    {d : UniformDeclaration} (hd : d ∈ ds) (t : Option Nat) {before : List UInt32}
    (after : List UInt32) (hsize : 4 * (before.length + d.memberTypes.length) < 2 ^ 32) :
    putSlot uniforms (wordBytes (before ++ List.replicate d.memberTypes.length 0 ++ after))
        ⟨d, t, BlockMember.place (BlockMember.after 0 before.length) d.memberTypes⟩ =
      .ok (wordBytes (before ++ d.words uniforms ++ after)) := by
  cases hv : uniforms.get? d.name with
  | none => simp only [putSlot, UniformSlot.name, hv, UniformDeclaration.words_of_none hv]
  | some value =>
    obtain ⟨hle, hwords⟩ := UniformDeclaration.words_of_accepts hv (h d hd value hv)
    simp only [putSlot, UniformSlot.name, hv]
    rw [putWords_place List.length_replicate hle hsize, hwords]

theorem foldlM_putSlot {ds : List UniformDeclaration} {uniforms : Uniforms}
    (h : Fits ds uniforms) (texture n : Nat) (before : List UInt32)
    (hsize : 4 * (before.length + (ds.flatMap UniformDeclaration.memberTypes).length) < 2 ^ 32) :
    (UniformSlot.bind (BlockMember.after 0 before.length) texture ds).foldlM (putSlot uniforms)
        (wordBytes (before ++
          List.replicate ((ds.flatMap UniformDeclaration.memberTypes).length + n) 0)) =
      .ok (wordBytes
        (before ++ ds.flatMap (UniformDeclaration.words uniforms) ++ List.replicate n 0)) := by
  induction ds generalizing texture before with
  | nil =>
    rw [List.flatMap_nil, List.flatMap_nil, List.length_nil, Nat.zero_add, List.append_nil]
    rfl
  | cons d ds ih =>
    obtain ⟨t, next, hbind, -⟩ :=
      UniformSlot.bind_cons (BlockMember.after 0 before.length) texture d ds
    have hzeros : List.replicate
        (((d :: ds).flatMap UniformDeclaration.memberTypes).length + n) (0 : UInt32) =
        List.replicate d.memberTypes.length 0 ++
          List.replicate ((ds.flatMap UniformDeclaration.memberTypes).length + n) 0 := by
      rw [List.replicate_append_replicate, List.flatMap_cons, List.length_append, Nat.add_assoc]
    have hwords := UniformDeclaration.length_words h (List.mem_cons_self (a := d) (l := ds))
    have hnext : BlockMember.after (BlockMember.after 0 before.length)
        d.memberTypes.length = BlockMember.after 0 (before ++ d.words uniforms).length := by
      rw [List.length_append, hwords, BlockMember.after_add]
    rw [List.flatMap_cons, List.length_append] at hsize
    rw [hbind, List.foldlM_cons, hzeros, ← List.append_assoc,
      putSlot_zeros h List.mem_cons_self t _ (by omega), hnext]
    refine (ih (fun d hd => h d (List.mem_cons_of_mem _ hd)) next _ ?_).trans ?_
    · rw [List.length_append, hwords]
      omega
    · simp

/-! ## Lines -/

theorem blockLines_fst {ds : List UniformDeclaration} {uniforms : Uniforms}
    (h : Fits ds uniforms) (first : BufferDesc) :
    (blockLines ds first uniforms).map (·.1) = BindingTable.memberTypes ds := by
  have hds : ∀ d ∈ ds, (d.memberTypes.zip (d.words uniforms)).map Prod.fst = d.memberTypes := by
    intro d hd
    exact List.map_fst_zip (Nat.le_of_eq (UniformDeclaration.length_words h hd).symm)
  rw [blockLines, List.map_append, List.map_flatMap, BindingTable.memberTypes]
  congr 1
  exact List.flatMap_congr hds

theorem blockLines_snd {ds : List UniformDeclaration} {uniforms : Uniforms}
    (h : Fits ds uniforms) (first : BufferDesc) :
    (blockLines ds first uniforms).map (·.2) =
      companionWords first ++ ds.flatMap (UniformDeclaration.words uniforms) := by
  have hds : ∀ d ∈ ds,
      (d.memberTypes.zip (d.words uniforms)).map Prod.snd = d.words uniforms := by
    intro d hd
    exact List.map_snd_zip (Nat.le_of_eq (UniformDeclaration.length_words h hd))
  rw [blockLines, List.map_append, List.map_flatMap]
  congr 1
  exact List.flatMap_congr hds

theorem length_blockLines {ds : List UniformDeclaration} {uniforms : Uniforms}
    (h : Fits ds uniforms) (first : BufferDesc) :
    (blockLines ds first uniforms).length = (BindingTable.memberTypes ds).length := by
  rw [← blockLines_fst h first, List.length_map]

theorem memberText_eq (m : BlockMember) : BindingTable.memberText m = lineText (m.name, m.type) :=
  rfl

/-- The shader text of the block has one line for each line of a run, in the same order. -/
theorem uniformText_eq {ds : List UniformDeclaration} {uniforms : Uniforms}
    (h : Fits ds uniforms) (first : BufferDesc) :
    (BindingTable.ofDeclarations ds).uniformText =
      blockOpening ++ (blockLines ds first uniforms).flatMap (fun l => lineText l.1) ++
        blockClosing := by
  have hmembers : (BindingTable.ofDeclarations ds).members.flatMap BindingTable.memberText =
      (blockLines ds first uniforms).flatMap fun l => lineText l.1 := by
    have hmap : (BindingTable.ofDeclarations ds).members.map (fun m => (m.name, m.type)) =
        (blockLines ds first uniforms).map (·.1) := by
      rw [BindingTable.members_ofDeclarations, BlockMember.map_place, blockLines_fst h]
    have hlines := congrArg (fun ls => List.flatMap lineText ls) hmap
    simpa only [List.flatMap_map, ← memberText_eq] using hlines
  have hassoc : ∀ x a b c d e f : Text,
      x ++ a ++ b ++ c ++ d ++ e ++ f = x ++ (a ++ b ++ c ++ d ++ e ++ f) :=
    fun x a b c d e f => by simp only [List.append_assoc]
  unfold BindingTable.uniformText blockOpening blockClosing
  rw [hmembers]
  exact hassoc _ _ _ _ _ _ _

/-! ## Sizes -/

/-- The most members that a block can have, the built-in ones included. -/
def maxMembers : Nat := 2 ^ 30 - 4

/-- The size of a block is exact as long as it is a number of 32 bits. -/
theorem toNat_blockSize {n : Nat} (hpos : 0 < n) (h : n ≤ maxMembers) :
    (blockSize n).toNat = (4 * n + 15) / 16 * 16 := by
  have hmax : maxMembers = 2 ^ 30 - 4 := rfl
  have hraw : (UInt32.ofNat n * memberSize).toNat = 4 * n := by
    rw [UInt32.toNat_mul, UInt32.toNat_ofNat', show memberSize.toNat = 4 from rfl]
    omega
  have hgroups : (divCeil (UInt32.ofNat n * memberSize) blockAlignment).toNat =
      (4 * n + 15) / 16 := by
    rw [toNat_divCeil _ (by decide), hraw]
    rfl
  have hone : max (divCeil (UInt32.ofNat n * memberSize) blockAlignment) 1 =
      divCeil (UInt32.ofNat n * memberSize) blockAlignment := by
    refine ite_eq_right_iff.mpr fun hle => UInt32.le_antisymm ?_ hle
    rw [UInt32.le_iff_toNat_le, hgroups, show (1 : UInt32).toNat = 1 from rfl]
    omega
  rw [blockSize]
  simp only [hone]
  rw [UInt32.toNat_mul, hgroups, show blockAlignment.toNat = 16 from rfl]
  omega

/-! ## The block -/

theorem length_memberTypes_eq (ds : List UniformDeclaration) :
    (BindingTable.memberTypes ds).length =
      builtinNames.length + (ds.flatMap UniformDeclaration.memberTypes).length := by
  rw [BindingTable.memberTypes, List.length_append, List.length_map]

theorem toNat_blockSize_ofDeclarations {ds : List UniformDeclaration}
    (hcount : (BindingTable.memberTypes ds).length ≤ maxMembers) :
    (BindingTable.ofDeclarations ds).blockSize.toNat =
      (4 * (BindingTable.memberTypes ds).length + 15) / 16 * 16 := by
  have hpos : 0 < (BindingTable.memberTypes ds).length := by
    rw [length_memberTypes_eq]
    exact Nat.add_pos_left (by decide) _
  rw [BindingTable.blockSize, BindingTable.members_ofDeclarations, BlockMember.length_place,
    toNat_blockSize hpos hcount]

/-- The writes stay inside the block, which holds the words of its lines and then zeros. -/
theorem blockBytes_eq {ds : List UniformDeclaration} {uniforms : Uniforms} (h : Fits ds uniforms)
    (hcount : (BindingTable.memberTypes ds).length ≤ maxMembers) (first : BufferDesc) :
    ∃ n, 4 * ((blockLines ds first uniforms).length + n) =
        (BindingTable.ofDeclarations ds).blockSize.toNat ∧
      blockBytes (.ofDeclarations ds) first uniforms =
        .ok (wordBytes ((blockLines ds first uniforms).map (·.2) ++ List.replicate n 0)) := by
  have hmax : maxMembers = 2 ^ 30 - 4 := rfl
  have hfive : builtinNames.length = 5 := rfl
  have hsize := toNat_blockSize_ofDeclarations hcount
  have hlen := length_memberTypes_eq ds
  -- The block ends with `n` words of padding.
  obtain ⟨n, hn⟩ : ∃ n, 4 * ((BindingTable.memberTypes ds).length + n) =
      (BindingTable.ofDeclarations ds).blockSize.toNat :=
    ⟨(BindingTable.ofDeclarations ds).blockSize.toNat / 4 - (BindingTable.memberTypes ds).length,
      by omega⟩
  refine ⟨n, by rw [length_blockLines h]; exact hn, ?_⟩
  have hzeros : List.replicate (BindingTable.ofDeclarations ds).blockSize.toNat (0 : UInt8) =
      wordBytes ([] ++ List.replicate builtinNames.length 0 ++
        List.replicate ((ds.flatMap UniformDeclaration.memberTypes).length + n) 0) := by
    rw [List.nil_append, List.replicate_append_replicate, wordBytes_zeros, ← Nat.add_assoc, ← hlen,
      hn]
  have hput := @putWords_place (builtinNames.map fun n => (n, .int)) []
    (List.replicate builtinNames.length 0)
    (List.replicate ((ds.flatMap UniformDeclaration.memberTypes).length + n) 0)
    (companionWords first) (by simp) (by simp [builtinNames, length_companionWords]) (by decide)
  have htake : (companionWords first).take (builtinNames.map fun n => (n, ScalarType.int)).length =
      companionWords first :=
    List.take_of_length_le (by simp [builtinNames, length_companionWords])
  have hslots : (BindingTable.ofDeclarations ds).slots = UniformSlot.bind
      (BlockMember.after 0 (companionWords first).length) firstTextureBinding ds := by
    rw [length_companionWords, BindingTable.ofDeclarations, BlockMember.length_place,
      List.length_map, hfive]
  have hput : putWords (List.replicate (BindingTable.ofDeclarations ds).blockSize.toNat 0)
      (BindingTable.ofDeclarations ds).builtins (companionWords first) =
        .ok (wordBytes (companionWords first ++
          List.replicate ((ds.flatMap UniformDeclaration.memberTypes).length + n) 0)) := by
    rw [hzeros]
    rwa [htake, List.nil_append, List.length_nil, BlockMember.after_zero] at hput
  rw [blockBytes_eq_bind, hput]
  show List.foldlM (putSlot uniforms) _ (BindingTable.ofDeclarations ds).slots = _
  rw [hslots, foldlM_putSlot h _ _ _ (by rw [length_companionWords]; omega), blockLines_snd h]

end Texelwise

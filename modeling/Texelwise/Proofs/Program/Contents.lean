import Texelwise.Proofs.Program.Block
import Texelwise.Proofs.Source.Inspection

/-!
# What the uniform block holds

Every accepted run of a compiled script fills its block, as long as the script has no more members
than a block can have. With `2 ^ 32` members the size of the block is that of none, so that filling
it stops.

* `manyIntegers`: a program with any number of integers, which compiles whatever their number is.
* `blockBytes_of_compile`: the block of a run, read in the order of the lines of the shader text.
* `stopped_of_manyIntegers`: a program whose runs all stop at the fifth built-in member.
-/

namespace Texelwise

/-! ## Programs with any number of integers -/

theorem Text.ofNat_injective : Function.Injective Text.ofNat := by
  intro m n h
  have hdigits := congrArg (fun digits => Nat.ofDigitChars 10 digits 0) h
  simpa [Text.ofNat] using hdigits

/-- The declaration of integer `i` of many. -/
def integerDeclaration (i : Nat) : WrittenDeclaration :=
  ⟨[], .int, 'u' :: Text.ofNat i, [' '], [' '], []⟩

/-- The header `[float] thread (int x)`. -/
def lineHeader : WrittenHeader := ⟨[⟨[], .float, []⟩], [' '], [' '], [⟨[], [' '], ['x'], []⟩]⟩

/-- A program with so many integers. -/
def manyIntegers (count : Nat) : WrittenProgram :=
  ⟨(List.range count).map integerDeclaration, [], lineHeader, "\x7b\x7d".toList⟩

theorem framed_manyIntegers (count : Nat) : (manyIntegers count).Framed := by
  have hheader : lineHeader.WellFormed := by decide
  refine ⟨fun d hd => ?_, fun _ h => absurd h List.not_mem_nil, hheader⟩
  obtain ⟨i, -, rfl⟩ := List.mem_map.mp hd
  have hname : isIdentifier ('u' :: Text.ofNat i) = true := by
    refine isIdentifier_cons.mpr ⟨by decide, List.all_eq_true.mpr fun c hc => ?_⟩
    simp [isWordChar, Char.isAlphanum, isDigit_of_mem_ofNat hc]
  have hspace : Blank [' '] := by decide
  exact ⟨fun _ h => absurd h List.not_mem_nil, hname, hspace, List.cons_ne_nil _ _, hspace,
    List.cons_ne_nil _ _, fun _ h => absurd h List.not_mem_nil⟩

theorem nodup_names_manyIntegers (count : Nat) :
    ((manyIntegers count).declarations.map WrittenDeclaration.name).Nodup := by
  have hinj : Function.Injective fun i => (integerDeclaration i).name :=
    fun i j h => Text.ofNat_injective (List.cons.inj h).2
  rw [show (manyIntegers count).declarations.map WrittenDeclaration.name =
    (List.range count).map fun i => (integerDeclaration i).name from List.map_map]
  exact List.nodup_range.map hinj

theorem length_memberTypes_manyIntegers (count : Nat) :
    (BindingTable.memberTypes (manyIntegers count).uniforms).length = 5 + count := by
  have hone : ∀ i ∈ List.range count,
      ((integerDeclaration i).declaration.memberTypes.length : Nat) = 1 := fun _ _ => rfl
  have huniforms : (manyIntegers count).uniforms =
      (List.range count).map fun i => (integerDeclaration i).declaration := List.map_map
  rw [length_memberTypes_eq, huniforms, List.flatMap_map, List.length_flatMap,
    List.map_congr_left hone, List.map_const', List.sum_replicate_nat, List.length_range]
  exact congrArg _ (Nat.mul_one count)

/-- The text of such a program compiles, and the script has its declarations. -/
theorem exists_compile_manyIntegers (count : Nat) :
    ∃ script, compile (manyIntegers count).text = .ok script ∧
      script.thread = lineHeader.signature ∧ script.uniforms = (manyIntegers count).uniforms ∧
      script.bindings = (manyIntegers count).table := by
  have hbody : Unreserved "\x7b\x7d".toList := unreserved_of_not_infix (by decide)
  have hcomment : ¬ ['/', '/'] <:+: "\x7b\x7d".toList := by decide
  exact WrittenProgram.exists_compile_text (framed_manyIntegers count)
    (nodup_names_manyIntegers count) hbody hcomment

/-- An output of five elements. -/
def fiveElements : BufferDesc := ⟨⟨1⟩, ⟨.float, .one⟩, ⟨5, 1, 1⟩, ⟨4, 4⟩⟩

/-- A run with one output is accepted, if the values are integers. -/
theorem accepted_manyIntegers {count : Nat} {script : Script} {uniforms : Uniforms}
    (hthread : script.thread = lineHeader.signature)
    (huniforms : script.uniforms = (manyIntegers count).uniforms)
    (hvalues : ∀ name value, uniforms.get? name = some value → ∃ n, value = .int n) :
    Accepted script [fiveElements] uniforms := by
  refine ⟨?_, List.nodup_singleton _, ?_, fun d hd value hvalue => ?_, fun d _ desc hdesc => ?_⟩
  · rw [hthread]
    rfl
  · simp
  · have htype : d.type = .int := by
      rw [huniforms, WrittenProgram.uniforms, manyIntegers, List.map_map] at hd
      obtain ⟨i, -, rfl⟩ := List.mem_map.mp hd
      rfl
    obtain ⟨n, rfl⟩ := hvalues _ _ hvalue
    rw [htype]
    rfl
  · obtain ⟨n, hn⟩ := hvalues _ _ hdesc
    cases hn

/-! ## Runs of a compiled script -/

/-- An accepted run of a compiled script fills its block without a write past it, if the built-in
members and those of the declarations are not more than a block can have. The block has the size
that the pipeline gives it, its words are those of the lines that the shader reads, in their order,
and the bytes after the last line are zero. -/
theorem blockBytes_of_compile {source : Text} {script : Script} {first : BufferDesc}
    {rest : List BufferDesc} {uniforms : Uniforms} (h : compile source = .ok script)
    (hcount : script.bindings.members.length ≤ maxMembers)
    (hv : violations script (first :: rest) uniforms = []) :
    let lines := blockLines script.uniforms first uniforms
    ∃ bytes, blockBytes script.bindings first uniforms = .ok bytes ∧
      bytes.length = script.bindings.blockSize.toNat ∧
      4 * script.bindings.members.length ≤ script.bindings.blockSize.toNat ∧
      script.bindings.uniformText =
        blockOpening ++ lines.flatMap (fun l => lineText l.1) ++ blockClosing ∧
      (∀ i line, lines[i]? = some line → wordAt bytes i = line.2) ∧
      ∀ b ∈ bytes.drop (4 * lines.length), b = 0 := by
  intro lines
  have hfits := (violations_eq_nil_iff.mp hv).types
  rw [bindings_of_compile h] at hcount ⊢
  rw [BindingTable.members_ofDeclarations, BlockMember.length_place] at hcount ⊢
  have hlength : lines.length = (BindingTable.memberTypes script.uniforms).length :=
    length_blockLines hfits first
  obtain ⟨n, hn, hbytes⟩ := blockBytes_eq hfits hcount first
  refine ⟨_, hbytes, ?_, ?_, uniformText_eq hfits first, fun i line hline => ?_, fun b hb => ?_⟩
  · rw [length_wordBytes, List.length_append, List.length_map, List.length_replicate]
    exact hn
  · rw [← hn, ← hlength]
    exact Nat.mul_le_mul_left 4 (Nat.le_add_right _ n)
  · have hword : (lines.map (·.2))[i]? = some line.2 := by
      rw [List.getElem?_map, hline, Option.map_some]
    rw [wordAt_wordBytes, List.getD_eq_getElem?_getD,
      List.getElem?_append_left (List.getElem?_eq_some_iff.mp hword).1, hword, Option.getD_some]
  · rw [wordBytes_append, List.drop_left' (by rw [length_wordBytes, List.length_map]),
      wordBytes_zeros] at hb
    exact List.eq_of_mem_replicate hb

/-- A run with a negative integer: the word after the built-in ones is its two's complement. -/
theorem blockBytes_of_compile_negative :
    let source : Text := "uniform int u0;[float] thread (int x)\x7b\x7d".toList
    let uniforms : Uniforms := .ofList [("u0".toList, .int (-1))]
    ∃ script, compile source = .ok script ∧ script.bindings.members.length ≤ maxMembers ∧
      violations script [fiveElements] uniforms = [] ∧
      ∃ bytes, blockBytes script.bindings fiveElements uniforms = .ok bytes ∧ bytes.length = 32 ∧
        wordAt bytes 5 = 4294967295 := by
  intro source uniforms
  obtain ⟨script, hscript, hthread, huniforms, hbindings⟩ := exists_compile_manyIntegers 1
  have htext : (manyIntegers 1).text = source := rfl
  rw [htext] at hscript
  have hvalues : ∀ name value, uniforms.get? name = some value → ∃ n, value = .int n := by
    intro name value h
    rw [show uniforms = Named.empty.set "u0".toList (.int (-1)) from rfl, Named.get?_set] at h
    split at h
    · exact ⟨-1, (Option.some.inj h).symm⟩
    · cases h
  have hmembers : script.bindings.members.length ≤ maxMembers := by
    rw [hbindings]
    decide
  have hv := violations_eq_nil_iff.mpr (accepted_manyIntegers hthread huniforms hvalues)
  obtain ⟨bytes, hbytes, hlength, -, -, hwords, -⟩ := blockBytes_of_compile hscript hmembers hv
  refine ⟨script, hscript, hmembers, hv, bytes, hbytes, ?_, ?_⟩
  · rw [hlength, hbindings]
    rfl
  · exact hwords 5 (("u0".toList, .int), 4294967295) (by rw [huniforms]; rfl)

/-- With `2 ^ 32` members the block has the size of one group. No value is supplied and there is no
violation, but the fifth of the built-in members already ends past the block. -/
theorem stopped_of_manyIntegers :
    ∃ script, compile (manyIntegers (2 ^ 32 - 5)).text = .ok script ∧
      script.bindings.members.length = 2 ^ 32 ∧ script.bindings.blockSize = 16 ∧
      violations script [fiveElements] .empty = [] ∧
      blockBytes script.bindings fiveElements .empty = .error ⟨20, 16⟩ := by
  obtain ⟨script, hscript, hthread, huniforms, hbindings⟩ :=
    exists_compile_manyIntegers (2 ^ 32 - 5)
  have hmembers : script.bindings.members.length = 2 ^ 32 := by
    rw [hbindings, WrittenProgram.table, BindingTable.members_ofDeclarations,
      BlockMember.length_place, length_memberTypes_manyIntegers,
      Nat.add_sub_cancel' (by decide)]
  have hsize : script.bindings.blockSize = 16 := by
    rw [BindingTable.blockSize, hmembers]
    rfl
  have hbuiltins : script.bindings.builtins =
      BlockMember.place 0 (builtinNames.map fun n => (n, .int)) := by
    rw [hbindings]
    rfl
  have haccepted : Accepted script [fiveElements] .empty :=
    accepted_manyIntegers hthread huniforms fun _ _ h => by cases h
  refine ⟨script, hscript, hmembers, hsize, violations_eq_nil_iff.mpr haccepted, ?_⟩
  have hput : putWords (List.replicate 16 0)
      (BlockMember.place 0 (builtinNames.map fun n => (n, .int))) (companionWords fiveElements) =
        .error ⟨20, 16⟩ := rfl
  rw [blockBytes_eq_bind, hsize, hbuiltins, show (16 : UInt32).toNat = 16 from rfl, hput]
  rfl

end Texelwise

import Texelwise.Proofs.Kernel.FragmentWrites
import Texelwise.Proofs.Kernel.Intact
import Texelwise.Proofs.Kernel.OutputRange

/-!
# Writes are checked

A write of a program goes through the passes for buffers and scalars as it is, the pass for outputs
checks its number, and the passes after that bring no write again.

* `Intact.exists_scalars`: the passes for scalars keep the writes.
* `readIndex?_eq_none_of_mem_fragment`: what the last passes leave.
* `writes_checked`: for every program with well-formed names, a decimal index that no output has is
  an error, and no decimal index is left in the fragment shader, as long as 64 bits hold its value.
-/

namespace Texelwise

open Token

/-! ## Stages -/

/-- Compiling after the interface is read and the passes for buffers are done. -/
theorem compile_eq_finishScript {source code : Text} {i : Interface}
    (hi : Interface.ofText (Text.stripComments source) = .ok i)
    (hcode : (replaceAllBuffers (.ofDeclarations i.uniforms) BufferKind.all
      (Text.stripComments source)).2 = .ok code) :
    compile source = finishScript i (.ofDeclarations i.uniforms) (.ok code) := by
  rw [compile_of_interface hi, hcode]

/-- The declarations of scalars go, and the writes stay. -/
theorem Intact.exists_scalars {i : Interface} (hnamed : i.WellNamed) {code x : Text}
    (h : Intact i code x) :
    ∃ ints floats,
      Texelwise.replaceDeclarations UniformType.int.word (.ofDeclarations i.uniforms) x =
        .ok ints ∧
      Texelwise.replaceDeclarations UniformType.float.word (.ofDeclarations i.uniforms) ints =
        .ok floats ∧
      (∀ k ∈ hits writeAt (tokenize code), k ∈ hits writeAt (tokenize floats)) ∧
      (Tidy code → Tidy floats) := by
  have hword := UniformType.isIdentifier_word
  have htable : ∀ name slot, (BindingTable.ofDeclarations i.uniforms).slot? name = some slot →
      slot.texture.isSome → isIdentifier name = true := fun _ _ => hnamed.isIdentifier_of_texture
  obtain ⟨ints, hints⟩ := replaceDeclarations_total UniformType.int.word
    (.ofDeclarations i.uniforms) x
  obtain ⟨floats, hfloats⟩ := replaceDeclarations_total UniformType.float.word
    (.ofDeclarations i.uniforms) ints
  refine ⟨ints, floats, hints, hfloats, fun k hk => ?_, fun hcode => ?_⟩
  · exact mem_hits_replaceDeclarations (hword .float) htable hfloats
      (mem_hits_replaceDeclarations (hword .int) htable hints (h.writes k hk))
  · exact tidy_replaceDeclarations (hword .float) htable
      (tidy_replaceDeclarations (hword .int) htable (h.tidy hcode) hints) hfloats

/-- What the last passes leave of the writes in a tidy text: those without an index. -/
theorem readIndex?_eq_none_of_mem_fragment {i : Interface} {ints floats code : Text}
    {script : Script} (hnames : ∀ d ∈ i.uniforms, IsName d.name)
    (hints : replaceDeclarations UniformType.int.word (.ofDeclarations i.uniforms) code = .ok ints)
    (hfloats : replaceDeclarations UniformType.float.word (.ofDeclarations i.uniforms) ints =
      .ok floats)
    (htidy : Tidy floats)
    (h : finishScript i (.ofDeclarations i.uniforms) (.ok code) = .ok script) {k : Text}
    (hk : k ∈ hits writeAt (tokenize script.fragment)) : readIndex? k = none := by
  rw [finishScript_eq_bind i hints hfloats] at h
  obtain ⟨outputs, houtputs, h⟩ := ok_of_bind h
  obtain ⟨extents, hextents, h⟩ := ok_of_bind h
  obtain ⟨final, hfinal, h⟩ := ok_of_bind h
  cases h
  have hbrackets : ∀ d ∈ i.uniforms, ']' ∉ d.name := fun d hd => (hnames d hd).not_mem (by decide)
  have hfragment := mem_hits_fragmentText hbrackets hk
  have hheader := mem_hits_replaceHeader (ok_of_mapError hfinal) hfragment
  have hleft := mem_hits_replaceOutputExtents (ok_of_mapError hextents) hheader
  exact (readIndex?_eq_none_of_mem_hits htidy houtputs hleft).2

/-! ## Programs -/

/-- For every source whose inspection succeeds and in which no uniform is called `thread`, as long
as buffers have identifiers for names and scalars no generated names: a write in the text without
comments, to a number that 64 bits hold but no output has, makes compiling an error for an index
out of range. And if the program compiles, and no word follows a closing bracket directly, the
decimal numbers of the writes that are left in the fragment shader do not fit into 64 bits. -/
theorem writes_checked {source : Text} {i : Interface}
    (hi : Interface.ofText (Text.stripComments source) = .ok i)
    (hthread : ∀ d ∈ i.uniforms, d.name ≠ threadWord)
    (hbuffers : ∀ d ∈ i.uniforms, d.type.bufferKind?.isSome → isIdentifier d.name = true)
    (hscalars : ∀ d ∈ i.uniforms, d.type.bufferKind? = none → ¬ "nc_".toList <+: d.name) :
    (∀ k n, Writes (Text.stripComments source) k → Decimal k n → i.thread.outputs.length ≤ n →
      n < UInt64.size → ∃ index, i.thread.outputs.length ≤ index ∧
        compile source = .error (.outputIndexOutOfRange index i.thread.outputs.length)) ∧
    (Tidy (Text.stripComments source) → ∀ script, compile source = .ok script →
      ∀ k n, Writes script.fragment k → Decimal k n → UInt64.size ≤ n) := by
  have hnamed : i.WellNamed := ⟨hbuffers, hthread, hscalars⟩
  -- The passes for buffers and scalars keep all writes, and keep a tidy text tidy.
  obtain ⟨code, hcode, hintact⟩ :=
    (intact_self hi hnamed).replaceAllBuffers hnamed BufferKind.all
  obtain ⟨ints, floats, hints, hfloats, hwrites, htidy⟩ := hintact.exists_scalars hnamed
  rw [compile_eq_finishScript hi hcode]
  refine ⟨fun k n hk hn hrange hlt => ?_, fun hsource script hscript k n hk hn => ?_⟩
  · have hindex : readIndex? k = some n := by rw [hn.readIndex?_eq, if_pos hlt]
    obtain ⟨index, hindex, herror⟩ :=
      exists_outputIndexOutOfRange (hwrites k (writes_iff.mp hk)) hindex hrange
    refine ⟨index, hindex, ?_⟩
    rw [finishScript_eq_bind i hints hfloats, herror]
    rfl
  · have hnone := readIndex?_eq_none_of_mem_fragment (fun d hd => Interface.isName_of_mem hi hd)
      hints hfloats (htidy hsource) hscript (writes_iff.mp hk)
    rw [hn.readIndex?_eq] at hnone
    by_contra hlt
    rw [if_pos (Nat.lt_of_not_le hlt)] at hnone
    cases hnone

/-- A program of which a write stands in the fragment shader after the last passes. -/
theorem exists_writes_fragment {source code x y z k : Text} {i : Interface} {c : Char}
    (hi : Interface.ofText (Text.stripComments source) = .ok i)
    (hcode : (replaceAllBuffers (.ofDeclarations i.uniforms) BufferKind.all
      (Text.stripComments source)).2 = .ok code)
    (hthread : replaceThread i.thread (.ofDeclarations i.uniforms) code =
      .ok (x ++ c :: (y ++ ']' :: z)))
    (hc : isCut c = true) (h : Writes (y ++ [']']) k) :
    ∃ script, compile source = .ok script ∧ Writes script.fragment k := by
  refine ⟨⟨i.thread, i.uniforms, .ofDeclarations i.uniforms, Shader.vertex,
    fragmentText i.thread (.ofDeclarations i.uniforms) (x ++ c :: (y ++ ']' :: z))⟩, ?_,
    writes_fragmentText hc h⟩
  rw [compile_eq_finishScript hi hcode]
  show (replaceThread i.thread (.ofDeclarations i.uniforms) code >>= fun code => _) = _
  rw [hthread]
  rfl

/-- A program with a write to a number that 64 bits do not hold. -/
def largeIndex : Text :=
  "[float] thread (int x) \x7b thread[18446744073709551616] = 1.0; \x7d".toList

/-- The write goes into the fragment shader as it is. -/
theorem compile_largeIndex :
    Interface.ofText (Text.stripComments largeIndex) = .ok ⟨⟨.one, [.float]⟩, []⟩ ∧
      ∃ script, compile largeIndex = .ok script ∧
        Writes script.fragment "18446744073709551616".toList := by
  have hi : (Interface.ofText (Text.stripComments largeIndex)).toOption =
      some ⟨⟨.one, [.float]⟩, []⟩ := by decide +kernel
  have hcode : (replaceAllBuffers (.ofDeclarations []) BufferKind.all
      (Text.stripComments largeIndex)).2.toOption = some largeIndex := by decide +kernel
  have hthread : (replaceThread ⟨.one, [.float]⟩ (.ofDeclarations []) largeIndex).toOption =
      some ("void thread(int x) ".toList ++ '\x7b' ::
        (" thread[18446744073709551616".toList ++ ']' :: " = 1.0; \x7d".toList)) := by
    decide +kernel
  refine ⟨ok_of_toOption hi, exists_writes_fragment (ok_of_toOption hi) (ok_of_toOption hcode)
    (ok_of_toOption hthread) (by decide) (writes_iff.mpr ?_)⟩
  decide +kernel

/-- A write with blanks in an index of a read, to an output that the thread does not have, and a
program that keeps a write to a number that 64 bits do not hold. -/
theorem writes_checked_nested :
    let stray := ["uniform Float1D a;\n[float, color] thread (int x) \x7b\n",
      "  thread[0] = a[thread [ 007 ]]; // thread[9]\n\x7d"].flatMap String.toList
    (∃ index, 2 ≤ index ∧ compile stray = .error (.outputIndexOutOfRange index 2)) ∧
      ∃ script, compile largeIndex = .ok script ∧
        Writes script.fragment "18446744073709551616".toList ∧ UInt64.size ≤ 2 ^ 64 := by
  intro stray
  have hi : (Interface.ofText (Text.stripComments stray)).toOption = some
      ⟨⟨.one, [.float, .color]⟩, [⟨"a".toList, .buffer ⟨.float, .one⟩⟩]⟩ := by decide +kernel
  have hwrite : "007".toList ∈ hits writeAt (tokenize (Text.stripComments stray)) := by
    decide +kernel
  have htidy : Tidy (Text.stripComments largeIndex) := by decide +kernel
  obtain ⟨hlarge, script, hscript, hleft⟩ := compile_largeIndex
  refine ⟨?_, script, hscript, hleft, ?_⟩
  · exact (writes_checked (ok_of_toOption hi) (by decide) (by decide) (by decide)).1 "007".toList 7
      (writes_iff.mpr hwrite) (by decide) (by decide) (by decide)
  · exact (writes_checked hlarge (by decide) (by decide) (by decide)).2 htidy script
      hscript "18446744073709551616".toList _ hleft (by decide +kernel)

/-- The program compiles although it writes to an output, of a decimal number, that it does not
have, and no uniform in it is called `thread`. -/
def Unchecked (source k : Text) (n : Nat) : Prop :=
  Writes (Text.stripComments source) k ∧ Decimal k n ∧ ∃ script, compile source = .ok script ∧
    script.thread.outputs.length ≤ n ∧ ∀ d ∈ script.uniforms, d.name ≠ threadWord

theorem unchecked_of_any {source k : Text} {n : Nat}
    (hk : k ∈ hits writeAt (tokenize (Text.stripComments source))) (hn : Decimal k n)
    (h : (compile source).toOption.any (fun script => script.thread.outputs.length ≤ n &&
      script.uniforms.all (·.name ≠ threadWord)) = true) : Unchecked source k n := by
  obtain ⟨script, hscript, h⟩ := exists_ok_of_any h
  simp only [Bool.and_eq_true, decide_eq_true_eq, List.all_eq_true] at h
  exact ⟨writes_iff.mpr hk, hn, script, hscript, h⟩

/-- Writes that are not checked: to a number that 64 bits do not hold, behind a buffer with a
number for its name, and where a scalar has the name that is generated for a field. And behind a
write that goes together with the number after it, a number turns into a write. -/
theorem unchecked_writes :
    let numbered := "uniform Float1D .5;[float]thread(int x)\x7b.5 .width.thread[7];\x7d".toList
    let generated := ["uniform int nc_uniform_a_width;uniform Float1D a;uniform ",
      "uniform Float1D a.width; Float2D thread;[float]thread(int x)\x7bthread[7][1];\x7d"].flatMap
        String.toList
    let joined := "[color]thread(int x)\x7bthread[0]5.thread[7];\x7d".toList
    Unchecked largeIndex "18446744073709551616".toList (2 ^ 64) ∧
      Unchecked numbered "7".toList 7 ∧ Unchecked generated "7".toList 7 ∧
      (∃ script, compile largeIndex = .ok script ∧
        Writes script.fragment "18446744073709551616".toList) ∧
      ∃ script, compile joined = .ok script ∧ Writes script.fragment "7".toList := by
  intro numbered generated joined
  have hi : (Interface.ofText (Text.stripComments joined)).toOption =
      some ⟨⟨.one, [.color]⟩, []⟩ := by decide +kernel
  have hcode : (replaceAllBuffers (.ofDeclarations []) BufferKind.all
      (Text.stripComments joined)).2.toOption = some joined := by decide +kernel
  have hthread : (replaceThread ⟨.one, [.color]⟩ (.ofDeclarations []) joined).toOption =
      some ("void thread(int x)".toList ++ '\x7b' ::
        ("nc_thread_output_05.thread[7".toList ++ ']' :: ";\x7d".toList)) := by
    decide +kernel
  refine ⟨unchecked_of_any (by decide +kernel) (by decide +kernel) (by decide +kernel),
    unchecked_of_any (by decide +kernel) (by decide) (by decide +kernel),
    unchecked_of_any (by decide +kernel) (by decide) (by decide +kernel),
    compile_largeIndex.2, ?_⟩
  exact exists_writes_fragment (ok_of_toOption hi) (ok_of_toOption hcode) (ok_of_toOption hthread)
    (by decide) (writes_iff.mpr (by decide +kernel))

end Texelwise

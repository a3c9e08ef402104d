import Texelwise.Proofs.Kernel.Totality
import Texelwise.Proofs.Source.Compile
import Texelwise.Proofs.Source.Stripping

/-!
# What a printed program offers

The names and blanks of a program are free: whatever buffers and scalars are called, the reserved
words stay out of the text after the header, so no pass finds a write there, and the program
compiles. What the script offers is what was printed.

* `Pattern.exists_of_match?_output`, `exists_of_match?_header`: writes and headers have `thread`.
* `WrittenProgram.replaceBuffers_after`, `replaceThread_after`: passes over the text of a program.
* `WrittenProgram.compile_text`: the text of a program compiles to a script with its interface.
-/

namespace Texelwise

open Token

/-! ## Patterns with a reserved word -/

namespace Pattern

theorem exists_of_match?_output {ts : List Token} {m : Match} (h : output.match? ts = some m) :
    ∃ t ∈ ts, t.text = threadWord := by
  have happ := match?_append h
  obtain ⟨run, left, n, hrun, -, rfl⟩ := exists_of_match?_atom h
  obtain ⟨t, rfl, ht⟩ := Atom.exists_of_split?_literal hrun
  exact ⟨t, by rw [← happ]; simp, ht⟩

theorem exists_of_match?_header {ts : List Token} {m : Match} (h : header.match? ts = some m) :
    ∃ t ∈ ts, t.text = threadWord := by
  have happ := match?_append h
  obtain ⟨opening, ts₁, m₁, -, h₁, rfl⟩ := exists_of_match?_atom h
  obtain ⟨outputs, m₂, -, h₂, rfl⟩ := exists_of_match?_capture h₁
  obtain ⟨closing, ts₃, m₃, -, h₃, rfl⟩ := exists_of_match?_atom h₂
  obtain ⟨gap, ts₄, m₄, -, h₄, rfl⟩ := exists_of_match?_atom h₃
  obtain ⟨run, ts₅, m₅, hrun, -, rfl⟩ := exists_of_match?_atom h₄
  obtain ⟨t, rfl, ht⟩ := Atom.exists_of_split?_literal hrun
  exact ⟨t, by rw [← happ]; simp, ht⟩

/-- A pattern that only matches where `thread` is has no place in a text without reserved words. -/
theorem list_of_unreserved {p : Pattern}
    (h : ∀ ts m, p.match? ts = some m → ∃ t ∈ ts, t.text = threadWord) {x : Text}
    (hx : Unreserved x) : (Sweep.list p).of x = [] := by
  refine List.flatMap_eq_nil_iff.mpr fun piece hpiece => ?_
  cases piece with
  | kept t => exact List.flatMap_eq_nil_iff.mpr fun _ _ => rfl
  | found o =>
    obtain ⟨us, m, hus, hm, -⟩ := match?_of_mem_walk hpiece
    obtain ⟨t, ht, htext⟩ := h us m hm
    have hreserved : t.text ∈ reservedWords := by
      rw [htext]
      decide
    exact absurd hreserved (hx t (hus.subset ht))

end Pattern

theorem Unreserved.ne_uniformWord {x : Text} (hx : Unreserved x) :
    ∀ u ∈ tokenize x, u.text ≠ uniformWord := by
  intro u hu htext
  refine hx u hu ?_
  rw [htext]
  decide

/-! ## Passes over the text of a program -/

namespace WrittenProgram

variable {p : WrittenProgram}

section

variable (hp : p.Framed) {table : BindingTable} {done : List UniformType} {code : Text}

include hp

theorem isIdentifier_of_mem_names {t : UniformType} {n : Text} (h : n ∈ p.names t) :
    isIdentifier n = true := by
  obtain ⟨d, hd, rfl⟩ := List.mem_map.mp h
  exact (hp.declarations d (List.mem_of_mem_filter hd)).name

theorem declaredNames_after {t : UniformType} (ht : t ∉ done)
    (hcode : UnreservedAfter (p.front table done) code) :
    declaredNames t.word code = .ok (p.names t) := by
  obtain ⟨rest, rfl, hrest⟩ := hcode
  have hnames : declaredNames t.word (p.front table done ++ textOf (tokenize rest)) =
      .ok (p.names t) :=
    declaredNames_front hp (separated_tokenize rest) hrest.ne_uniformWord ht
  rwa [textOf_tokenize] at hnames

theorem replaceDeclarations_after (t : UniformType)
    (htable : ∀ d ∈ p.declarations, (table.slot? d.name).isSome)
    (hcode : UnreservedAfter (p.front table done) code) :
    ∃ out, replaceDeclarations t.word table code = .ok out ∧
      UnreservedAfter (p.front table (t :: done)) out := by
  obtain ⟨rest, rfl, hrest⟩ := hcode
  have hreplaced : replaceDeclarations t.word table
      (p.front table done ++ textOf (tokenize rest)) =
        .ok (p.front table (t :: done) ++ textOf (tokenize rest)) :=
    replaceDeclarations_front hp (separated_tokenize rest) hrest.ne_uniformWord t htable
  rw [textOf_tokenize] at hreplaced
  exact ⟨_, hreplaced, rest, rfl, hrest⟩

section

variable (htable : ∀ d ∈ p.declarations, (table.slot? d.name).isSome)

include htable

/-- The passes for one kind bring no reserved words. -/
theorem replaceBuffers_after {kind : BufferKind} (hkind : .buffer kind ∉ done)
    (hcode : UnreservedAfter (p.front table done) code) :
    ∃ out, replaceBuffers table kind code = .ok out ∧
      UnreservedAfter (p.front table (.buffer kind :: done)) out := by
  have hinert : Inert (p.front table done) := inert_front hp
  obtain ⟨sampled, hsampled, hafter⟩ : ∃ out, sampleAllReads kind code = .ok out ∧
      UnreservedAfter (p.front table done) out := by
    have hnames := declaredNames_after hp hkind hcode
    rw [show (UniformType.buffer kind).word = kind.word from rfl] at hnames
    obtain ⟨out, hout, hrounds⟩ := sampleAllReads_rounds hnames
    exact ⟨out, hout, hrounds.keeps (fun name hname _ _ hrounds hcode =>
      hcode.sampleRounds hinert (isIdentifier_of_mem_names hp hname) hrounds) hcode⟩
  obtain ⟨fielded, hfielded, hafter⟩ : ∃ out, replaceFields kind sampled = .ok out ∧
      UnreservedAfter (p.front table done) out := by
    have hnames := declaredNames_after hp hkind hafter
    unfold replaceFields
    rw [show kind.word = (UniformType.buffer kind).word from rfl, hnames]
    refine exists_foldlM_ok_of (fun code hcode name hname => ?_) hafter
    exact exists_foldlM_ok_of (fun code hcode f hf => hcode.replaceField hinert
      (isIdentifier_of_mem_names hp hname) (Rank.mem_extentFields hf)) hcode
  obtain ⟨out, hout, hafter⟩ := replaceDeclarations_after hp (.buffer kind) htable hafter
  refine ⟨out, ?_, hafter⟩
  rw [replaceBuffers, hsampled]
  show (replaceFields kind sampled >>= _) = _
  rw [hfielded]
  exact hout

/-- The passes for several kinds bring no reserved words. -/
theorem replaceAllBuffers_after {kinds : List BufferKind} (hnodup : kinds.Nodup)
    (hkinds : ∀ k ∈ kinds, .buffer k ∉ done) (hcode : UnreservedAfter (p.front table done) code) :
    ∃ done' out, (replaceAllBuffers table kinds code).2 = .ok out ∧
      UnreservedAfter (p.front table done') out := by
  induction kinds generalizing done code with
  | nil => exact ⟨done, code, rfl, hcode⟩
  | cons k kinds ih =>
    obtain ⟨hk, hrest⟩ := List.nodup_cons.mp hnodup
    have hfresh := buffer_not_mem_of_nodup hk hkinds
    obtain ⟨next, hnext, hafter⟩ :=
      replaceBuffers_after hp htable (hkinds k List.mem_cons_self) hcode
    obtain ⟨done', out, hout, hafter⟩ := ih hrest hfresh hafter
    refine ⟨done', out, ?_, hafter⟩
    rw [replaceAllBuffers, hnext]
    exact hout

/-- After the passes for buffers there is no write that could be out of range. -/
theorem replaceThread_after (thread : ThreadSignature)
    (hcode : UnreservedAfter (p.front table done) code) :
    ∃ out, replaceThread thread table code = .ok out := by
  obtain ⟨ints, hints, hafter⟩ := replaceDeclarations_after hp .int htable hcode
  obtain ⟨floats, hfloats, hafter⟩ := replaceDeclarations_after hp .float htable hafter
  -- Without reserved words there is no `thread` in the rest, and so no write out of range.
  obtain ⟨outputs, houtputs⟩ : ∃ out, replaceOutputs thread floats = .ok out := by
    obtain ⟨rest, rfl, hrest⟩ := hafter
    have hinert : Inert (p.front table (.float :: .int :: done)) := inert_front hp
    have hnone : Pattern.output.occurrences
        (p.front table (.float :: .int :: done) ++ rest) = .ok [] := by
      rw [Pattern.occurrences_eq (p := .output) rfl,
        hinert _ (Sweep.list .output) (selects_output _ _),
        Pattern.list_of_unreserved (fun _ _ => Pattern.exists_of_match?_output) hrest]
      simp [Sweep.list]
    obtain ⟨out, hout⟩ := Pattern.Built.output.exists_replaceAll (outputText thread)
      (p.front table (.float :: .int :: done) ++ rest)
    refine ⟨out, ?_⟩
    rw [replaceOutputs, hnone]
    exact congrArg (Except.mapError CompileError.pattern) hout
  obtain ⟨extents, hextents⟩ := replaceOutputExtents_total outputs
  obtain ⟨out, hout⟩ := replaceHeader_total extents
  refine ⟨out, ?_⟩
  unfold replaceThread
  rw [hints]
  simp only [Except.mapError, bind, Except.bind]
  rw [hfloats]
  simp only
  rw [houtputs]
  simp only
  rw [hextents]
  simp only
  rw [hout]

end

/-! ## Compiling -/

/-- A program whose body has no reserved words compiles to a script with its interface. -/
theorem compile_of_stripComments
    (hnodup : (p.declarations.map WrittenDeclaration.name).Nodup) (hbody : Unreserved p.body)
    {source : Text} (hsource : Text.stripComments source = p.text) :
    ∃ script, compile source = .ok script ∧ script.thread = p.header.signature ∧
      script.uniforms = p.uniforms ∧ script.bindings = p.table := by
  have hnone : Pattern.header.occurrences p.body = .ok [] := by
    rw [Pattern.occurrences_eq (p := .header) rfl]
    exact congrArg Except.ok
      (Pattern.list_of_unreserved (fun _ _ => Pattern.exists_of_match?_header) hbody)
  have hinterface := hp.ofText_text hnodup hbody.ne_uniformWord hnone
  have hslots : ∀ d ∈ p.declarations, (p.table.slot? d.name).isSome := fun d hd => isSome_slot? hd
  have hstart : UnreservedAfter (p.front p.table []) p.text := ⟨p.body, p.text_eq p.table, hbody⟩
  obtain ⟨done, code, hbuffers, hafter⟩ := replaceAllBuffers_after hp hslots
    (by decide : BufferKind.all.Nodup) (fun _ _ => List.not_mem_nil) hstart
  obtain ⟨out, hout⟩ := replaceThread_after hp hslots p.header.signature hafter
  refine ⟨⟨p.header.signature, p.uniforms, p.table, Shader.vertex,
    fragmentText p.header.signature p.table out⟩, ?_, rfl, rfl, rfl⟩
  rw [compile_of_interface (hsource ▸ hinterface), hsource]
  show finishScript p.interface p.table (replaceAllBuffers p.table BufferKind.all p.text).2 = _
  rw [hbuffers]
  show (replaceThread p.header.signature p.table code >>= fun code => _) = _
  rw [hout]
  rfl

end

/-- The same for a text with its own blanks and without a comment in the body. -/
theorem exists_compile_text (hp : p.Framed)
    (hnodup : (p.declarations.map WrittenDeclaration.name).Nodup) (hbody : Unreserved p.body)
    (hcomment : ¬ ['/', '/'] <:+: p.body) :
    ∃ script, compile p.text = .ok script ∧ script.thread = p.header.signature ∧
      script.uniforms = p.uniforms ∧ script.bindings = p.table := by
  have hnames : p.unified.declarations.map WrittenDeclaration.name =
      p.declarations.map WrittenDeclaration.name := by
    simp only [unified, List.map_map]
    rfl
  obtain ⟨script, hscript, hthread, huniforms, hbindings⟩ :=
    compile_of_stripComments hp.unified (hnames ▸ hnodup) hbody.unifyBreaks.dropBreak
      (stripComments_text hp hcomment)
  rw [signature_unified] at hthread
  rw [uniforms_unified] at huniforms
  rw [table, uniforms_unified] at hbindings
  exact ⟨script, hscript, hthread, huniforms, hbindings⟩

/-- Inspection undoes printing. The text of a program with declarations of distinct names and a
header compiles, whatever the names and the blanks are, if its body has no reserved words and no
comment. The script has the rank and the outputs of the header, the declarations in their order,
and their bindings. -/
theorem compile_text (hp : p.Framed)
    (hnodup : (p.declarations.map WrittenDeclaration.name).Nodup) (hbody : Unreserved p.body)
    (hcomment : ¬ ['/', '/'] <:+: p.body) :
    ∃ script, compile p.text = .ok script ∧
      script.thread.rank.toNat = p.header.parameters.length ∧
      script.thread.outputs = p.header.outputs.map WrittenOutput.element ∧
      script.uniforms = p.declarations.map WrittenDeclaration.declaration ∧
      script.bindings = .ofDeclarations script.uniforms := by
  obtain ⟨script, hscript, hthread, huniforms, hbindings⟩ :=
    exists_compile_text hp hnodup hbody hcomment
  refine ⟨script, hscript, ?_, ?_, huniforms, ?_⟩
  · rw [hthread]
    exact WrittenHeader.toNat_rank_signature hp.header
  · rw [hthread]
    rfl
  · rw [hbindings, huniforms]
    rfl

/-- Names that the language has a use for, and line breaks of two characters. -/
def takenNames : WrittenProgram where
  declarations := [
    ⟨[], .buffer ⟨.float, .one⟩, "thread".toList, ['\t'], ['\r', '\n'], [' ']⟩,
    ⟨['\r', '\n'], .int, "uniform".toList, [' '], [' '], []⟩,
    ⟨['\r', '\n'], .buffer ⟨.color, .two⟩, "width".toList, [' '], ['\u3000'], []⟩]
  gap := []
  header := ⟨[⟨[], .color, []⟩, ⟨['\r', '\n'], .float, [' ']⟩], [], [' '],
    [⟨[], ['\t'], "thread".toList, []⟩, ⟨[' '], [' '], ['y'], ['\n']⟩]⟩
  body := ["\r\n\x7b\r\n  vec4 c = width[y][",
    "width.width - 1]; \r\n\x7d\r\n"].flatMap String.toList

theorem compile_text_takenNames :
    takenNames.Framed ∧ (takenNames.declarations.map WrittenDeclaration.name).Nodup ∧
      Unreserved takenNames.body ∧ ¬ ['/', '/'] <:+: takenNames.body ∧
      ∃ script, compile takenNames.text = .ok script ∧ script.thread = ⟨.two, [.color, .float]⟩ ∧
        script.uniforms = [⟨"thread".toList, .buffer ⟨.float, .one⟩⟩, ⟨"uniform".toList, .int⟩,
          ⟨"width".toList, .buffer ⟨.color, .two⟩⟩] := by
  have hframed : takenNames.Framed := ⟨by decide, by decide, by decide⟩
  have hnodup : (takenNames.declarations.map WrittenDeclaration.name).Nodup := by decide
  have hbody : Unreserved takenNames.body := unreserved_of_not_infix (by decide)
  have hcomment : ¬ ['/', '/'] <:+: takenNames.body := by decide
  refine ⟨hframed, hnodup, hbody, hcomment, ?_⟩
  obtain ⟨script, hscript, hrank, houtputs, huniforms, -⟩ :=
    compile_text hframed hnodup hbody hcomment
  refine ⟨script, hscript, ?_, huniforms⟩
  obtain ⟨⟨rank, outputs⟩, _, _, _, _⟩ := script
  have hsome : Rank.ofNat? 2 = some rank := Rank.ofNat?_eq_some_iff.mpr hrank.symm
  cases hsome
  exact congrArg (ThreadSignature.mk .two) houtputs

end WrittenProgram

end Texelwise

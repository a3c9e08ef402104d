import Texelwise.Kernel.Compile
import Texelwise.Proofs.Kernel.SampleLoop
import Texelwise.Proofs.Result
import Texelwise.Proofs.Source.Declarations

/-!
# Compiling never fails inside a pass

Whatever the source, the passes go through. A program is rejected only for what it says, and only
before the first pass or for the index of an output.

* `Pattern.Built`: the patterns that the compiler builds, for all names that a program may declare.
* `sampleAllReads_total`, `replaceFields_total` and so on: the passes do not fail.
* `Interface.ofText_error`: why reading the interface fails.
* `compile_total`: the whole compiler, with what it logs.
-/

namespace Texelwise

open Token

/-! ## Patterns -/

/-- The patterns that the compiler builds, each with the number of its captures. -/
inductive Pattern.Built : Pattern → Nat → Prop
  | header : Built .header 2
  | emptyHeader : Built .emptyHeader 1
  | anyDeclaration : Built .anyDeclaration 2
  | declaration (type : Text) : Built (.declaration (.literal type)) 1
  | bufferRead (name : Text) (rank : Rank) : Built (.bufferRead name rank) rank.toNat
  | field (name field : Text) : Built (.field name field) 0
  | output : Built .output 1

namespace Pattern.Built

variable {p : Pattern} {n : Nat}

/-- Every pattern that the compiler builds takes a token. -/
theorem consumes (h : p.Built n) : p.Consumes = true := by
  cases h <;> rfl

theorem captureCount_eq (h : p.Built n) : p.captureCount = n := by
  cases h with
  | bufferRead name rank => cases rank <;> rfl
  | _ => rfl

theorem exists_safe (h : p.Built n) (code : Text) : ∃ found, p.Safe n code found :=
  h.captureCount_eq ▸ Pattern.exists_safe h.consumes code

theorem exists_occurrences (h : p.Built n) (code : Text) : ∃ os, p.occurrences code = .ok os :=
  ⟨_, occurrences_eq h.consumes code⟩

theorem exists_replaceAll (h : p.Built n) (substitute : Occurrence → Text) (code : Text) :
    ∃ out, p.replaceAll substitute code = .ok out :=
  ⟨_, replaceAll_eq h.consumes substitute code⟩

end Pattern.Built

/-! ## Declared names -/

/-- A cut mark is in no identifier or number. -/
theorem Token.Proper.not_mem_of_kind {t : Token} (ht : t.Proper)
    (hkind : t.kind = .ident ∨ t.kind = .number) {c : Char} (hc : isCut c = true) : c ∉ t.text := by
  intro hmem
  have htext := ht.text_eq_of_mem hc hmem
  obtain ⟨d, more, hcons, hstart, -⟩ := ht
  rw [htext] at hcons
  cases hcons
  rw [TokenKind.ofStart_of_isCut hc] at hstart
  rw [← hstart] at hkind
  rcases hkind with hkind | hkind <;> cases hkind

/-- A name that a declaration may give: an identifier or a number. -/
def IsName (w : Text) : Prop :=
  ∃ t : Token, t.Proper ∧ (t.kind = .ident ∨ t.kind = .number) ∧ t.text = w

theorem IsName.not_mem {w : Text} (h : IsName w) {c : Char} (hc : isCut c = true) : c ∉ w := by
  obtain ⟨t, ht, hkind, rfl⟩ := h
  exact ht.not_mem_of_kind hkind hc

/-- Declared names are listed. -/
theorem exists_isName_declaredNames (type code : Text) :
    ∃ names, declaredNames type code = .ok names ∧ ∀ name ∈ names, IsName name := by
  have hconsumes := (Pattern.Built.declaration type).consumes
  refine ⟨((Sweep.list (.declaration (.literal type))).of code).map (·.capture 0), ?_, ?_⟩
  · rw [declaredNames, Pattern.occurrences_eq hconsumes]
    rfl
  · intro name hname
    obtain ⟨o, ho, rfl⟩ := List.mem_map.mp hname
    obtain ⟨piece, hpiece, ho⟩ := List.mem_flatMap.mp ho
    cases piece with
    | kept t => simp [Sweep.piece, Sweep.list] at ho
    | found o' =>
      obtain rfl : o = o' := List.mem_singleton.mp ho
      obtain ⟨us, m, hus, hm, rfl⟩ := Pattern.match?_of_mem_walk hpiece
      obtain ⟨t, ht, hkind, hcaptures⟩ := exists_of_match?_declaration hm
      rw [Occurrence.capture, hcaptures]
      exact ⟨t, proper_tokenize t (hus.subset ht), hkind, rfl⟩

/-! ## Passes -/

theorem sampleAllReads_total (kind : BufferKind) (code : Text) :
    ∃ out, sampleAllReads kind code = .ok out := by
  obtain ⟨names, hnames, -⟩ := exists_isName_declaredNames kind.word code
  obtain ⟨out, hout, -⟩ := sampleAllReads_rounds hnames
  exact ⟨out, hout⟩

theorem replaceFields_total (kind : BufferKind) (code : Text) :
    ∃ out, replaceFields kind code = .ok out := by
  obtain ⟨names, hnames, -⟩ := exists_isName_declaredNames kind.word code
  have hfields : ∀ code, ∀ name ∈ names, ∃ out,
      kind.rank.fields.foldlM (fun code field => replaceField name field code) code = .ok out :=
    fun code name _ => exists_foldlM_ok
      (fun code field _ => (Pattern.Built.field name field).exists_replaceAll _ code) code
  obtain ⟨out, hout⟩ := exists_foldlM_ok hfields code
  exact ⟨out, by rw [replaceFields, hnames]; exact hout⟩

theorem replaceDeclarations_total (type : Text) (table : BindingTable) (code : Text) :
    ∃ out, replaceDeclarations type table code = .ok out :=
  (Pattern.Built.declaration type).exists_replaceAll _ code

theorem replaceBuffers_total (table : BindingTable) (kind : BufferKind) (code : Text) :
    ∃ out, replaceBuffers table kind code = .ok out := by
  obtain ⟨sampled, hsampled⟩ := sampleAllReads_total kind code
  obtain ⟨fielded, hfielded⟩ := replaceFields_total kind sampled
  obtain ⟨out, hout⟩ := replaceDeclarations_total kind.word table fielded
  refine ⟨out, ?_⟩
  rw [replaceBuffers, hsampled]
  show (replaceFields kind sampled >>= _) = _
  rw [hfielded]
  exact hout

/-- The passes for the kinds go through, one stage for each. -/
theorem replaceAllBuffers_total (table : BindingTable) (kinds : List BufferKind) (code : Text) :
    ∃ stages out, replaceAllBuffers table kinds code = (stages, .ok out) ∧
      stages.length = kinds.length := by
  induction kinds generalizing code with
  | nil => exact ⟨[], code, rfl, rfl⟩
  | cons kind kinds ih =>
    obtain ⟨next, hnext⟩ := replaceBuffers_total table kind code
    obtain ⟨stages, out, hrest, hlength⟩ := ih next
    refine ⟨(kind, next) :: stages, out, ?_, by rw [List.length_cons, hlength, List.length_cons]⟩
    rw [replaceAllBuffers, hnext]
    dsimp only
    rw [hrest]

theorem replaceOutputExtents_total (code : Text) : ∃ out, replaceOutputExtents code = .ok out :=
  exists_foldlM_ok
    (fun code field _ => (Pattern.Built.field threadWord field).exists_replaceAll _ code) code

theorem replaceHeader_total (code : Text) : ∃ out, replaceHeader code = .ok out :=
  Pattern.Built.header.exists_replaceAll _ code

/-- Replacing outputs fails only for an index out of range. -/
theorem replaceOutputs_total (thread : ThreadSignature) (code : Text) :
    (∃ out, replaceOutputs thread code = .ok out) ∨
      ∃ index, replaceOutputs thread code =
        .error (.outputIndexOutOfRange index thread.outputs.length) := by
  obtain ⟨found, hfound⟩ := Pattern.Built.output.exists_occurrences code
  obtain ⟨out, hout⟩ := Pattern.Built.output.exists_replaceAll (outputText thread) code
  rw [replaceOutputs, hfound]
  cases hrange : found.findSome? (outOfRange? thread) with
  | some index =>
    refine .inr ⟨index, ?_⟩
    simp only [Except.mapError, bind, Except.bind, hrange]
    rfl
  | none =>
    refine .inl ⟨out, ?_⟩
    simp only [Except.mapError, bind, Except.bind, hrange, hout]

/-- After the declarations of scalars come the outputs, the extents and the header. -/
theorem finishScript_eq_bind (i : Interface) {table : BindingTable} {code ints floats : Text}
    (hints : replaceDeclarations UniformType.int.word table code = .ok ints)
    (hfloats : replaceDeclarations UniformType.float.word table ints = .ok floats) :
    finishScript i table (.ok code) = replaceOutputs i.thread floats >>= fun code =>
      (replaceOutputExtents code).mapError .pattern >>= fun code =>
        (replaceHeader code).mapError .pattern >>= fun code =>
          .ok ⟨i.thread, i.uniforms, table, Shader.vertex, fragmentText i.thread table code⟩ := by
  have hthread : replaceThread i.thread table code =
      replaceOutputs i.thread floats >>= fun code =>
        (replaceOutputExtents code).mapError .pattern >>= fun code =>
          (replaceHeader code).mapError .pattern := by
    rw [replaceThread, hints]
    simp only [Except.mapError, bind, Except.bind, hfloats]
  have hfinish : finishScript i table (.ok code) =
      replaceThread i.thread table code >>= fun code =>
        .ok ⟨i.thread, i.uniforms, table, Shader.vertex, fragmentText i.thread table code⟩ := rfl
  rw [hfinish, hthread, bind_assoc]
  simp only [bind_assoc]

/-- After the buffer passes compiling fails only for an index out of range. -/
theorem finishScript_total (i : Interface) (table : BindingTable) (code : Text) :
    (∃ script, finishScript i table (.ok code) = .ok script) ∨
      ∃ index, finishScript i table (.ok code) =
        .error (.outputIndexOutOfRange index i.thread.outputs.length) := by
  obtain ⟨ints, hints⟩ := replaceDeclarations_total UniformType.int.word table code
  obtain ⟨floats, hfloats⟩ := replaceDeclarations_total UniformType.float.word table ints
  rw [finishScript_eq_bind i hints hfloats]
  rcases replaceOutputs_total i.thread floats with ⟨outputs, houtputs⟩ | ⟨index, herror⟩
  · obtain ⟨extents, hextents⟩ := replaceOutputExtents_total outputs
    obtain ⟨final, hfinal⟩ := replaceHeader_total extents
    rw [houtputs]
    simp only [bind, Except.bind, hextents, Except.mapError, hfinal]
    exact .inl ⟨_, rfl⟩
  · rw [herror]
    exact .inr ⟨index, rfl⟩

/-! ## The interface -/

/-- What can be wrong with the interface of a program. -/
def CompileError.OfInterface : CompileError → Prop
  | .pattern _ | .outputIndexOutOfRange _ _ => False
  | .missingThread | .multipleThreads _ | .invalidOutput _ | .invalidParameterCount _
  | .unknownUniformType _ _ | .duplicateUniform _ => True

theorem readHeader_error {outputs params : Text} {e : CompileError}
    (h : readHeader outputs params = .error e) : e.OfInterface := by
  rcases error_of_bind h with h | ⟨os, -, h⟩
  · obtain ⟨w, -, h⟩ := error_of_mapM h
    split at h
    · cases h
    · cases h
      trivial
  · split at h
    · cases h
    · cases h
      trivial

theorem readThread_error {code : Text} {e : CompileError} (h : readThread code = .error e) :
    e.OfInterface := by
  obtain ⟨found, hfound⟩ := Pattern.Built.header.exists_occurrences code
  obtain ⟨empty, hempty⟩ := Pattern.Built.emptyHeader.exists_occurrences code
  rw [readThread, hfound, hempty] at h
  rcases error_of_bind h with h | ⟨os, -, h⟩
  · cases h
  · split at h
    · exact readHeader_error h
    · rcases error_of_bind h with h | ⟨os, -, h⟩
      · cases h
      · cases h
        split <;> trivial
    · cases h
      trivial

theorem readDeclarations_error {seen : List Text} {os : List Occurrence} {e : CompileError}
    (h : readDeclarations seen os = .error e) : e.OfInterface := by
  induction os generalizing seen with
  | nil => cases h
  | cons o os ih =>
    rw [readDeclarations] at h
    split at h
    · cases h
      trivial
    · split at h
      · cases h
        trivial
      · rename_i type _ _
        cases hrest : readDeclarations (o.capture 1 :: seen) os with
        | error e' =>
          rw [hrest] at h
          cases h
          exact ih hrest
        | ok ds =>
          rw [hrest] at h
          cases h

/-- Reading the interface fails only for what is wrong with it. -/
theorem Interface.ofText_error {code : Text} {e : CompileError}
    (h : Interface.ofText code = .error e) : e.OfInterface := by
  rcases error_of_bind h with h | ⟨thread, -, h⟩
  · exact readThread_error h
  · rcases error_of_bind h with h | ⟨uniforms, -, h⟩
    · obtain ⟨found, hfound⟩ := Pattern.Built.anyDeclaration.exists_occurrences code
      rw [readUniforms, hfound] at h
      exact readDeclarations_error h
    · cases h

/-! ## The compiler -/

/-- Whether the interface of the program was read, by the result. -/
def interfaceRead : Except CompileError Script → Bool
  | .ok _ | .error (.outputIndexOutOfRange _ _) => true
  | .error _ => false

theorem interfaceRead_of_ofInterface {e : CompileError} (h : e.OfInterface) :
    interfaceRead (.error e) = false := by
  cases e <;> first | rfl | cases h

/-- What is logged is the interface and one stage for each kind, or nothing. -/
theorem compileLogged_total (source : Text) :
    (∃ e, compileLogged source = ([], .error e) ∧ e.OfInterface) ∨
      ∃ i, ∃ stages : List (BufferKind × Text), ∃ result, compileLogged source =
          (Interface.record i :: stages.map stageRecord, result) ∧
        stages.length = BufferKind.all.length ∧
        ((∃ script, result = .ok script) ∨
          ∃ index, result = .error (.outputIndexOutOfRange index i.thread.outputs.length)) := by
  cases hinterface : Interface.ofText (Text.stripComments source) with
  | error e =>
    refine .inl ⟨e, ?_, Interface.ofText_error hinterface⟩
    rw [compileLogged, hinterface]
  | ok i =>
    obtain ⟨stages, code, hstages, hlength⟩ := replaceAllBuffers_total
      (.ofDeclarations i.uniforms) BufferKind.all (Text.stripComments source)
    refine .inr ⟨i, stages, finishScript i (.ofDeclarations i.uniforms) (.ok code), ?_, hlength,
      finishScript_total i _ code⟩
    rw [compileLogged, hinterface]
    dsimp only
    rw [hstages]

/-- Compiling ends for every source and never with a failed scan. There is a record for the
interface and one for each of the six kinds if the program compiles or has an output index out of
range, and there is none otherwise. On every text each pattern that the compiler builds, whatever
the declared names are, finds occurrences with all captures that are read and with ranges that are
slices; the rounds for every declared name end; and tokens and lines without comments are slices. -/
theorem compile_total (source : Text) :
    (∀ e, compile source ≠ .error (.pattern e)) ∧
      (compileLogged source).1.map (·.level) =
        (if interfaceRead (compile source) then .debug :: List.replicate 6 .trace else []) ∧
      (∀ p n, Pattern.Built p n → ∀ code, ∃ found, p.Safe n code found) ∧
      (∀ type code, ∃ names, declaredNames type code = .ok names ∧
        ∀ name ∈ names, ∀ kind text, ∃ hname out,
          sampleReads name hname kind text = .ok out ∧ SampleRounds name kind text out) ∧
      (∀ code : Text, ∀ l ∈ Token.locate 0 (tokenize code),
        code.slice? l.start l.stop = some l.token.text) ∧
      ∀ line ∈ Text.lines source,
        line.slice? 0 (Text.byteLength line.beforeComment) = some line.beforeComment := by
  refine ⟨fun e he => ?_, ?_, fun p n h => h.exists_safe, fun type code => ?_, fun code l hl => ?_,
    fun line _ => Text.slice?_beforeComment line⟩
  · rcases compileLogged_total source with ⟨e', h, he'⟩ | ⟨i, stages, result, h, -, hresult⟩
    · rw [compile, h] at he
      cases he
      exact he'
    · rw [compile, h] at he
      rcases hresult with ⟨script, hscript⟩ | ⟨index, hindex⟩
      · cases he.symm.trans hscript
      · cases he.symm.trans hindex
  · rw [compile]
    rcases compileLogged_total source with ⟨e, h, he⟩ | ⟨i, stages, result, h, hlength, hresult⟩
    · rw [h, interfaceRead_of_ofInterface he]
      rfl
    · have hread : interfaceRead result = true := by
        rcases hresult with ⟨script, rfl⟩ | ⟨index, rfl⟩ <;> rfl
      have hlevels : (stages.map stageRecord).map (·.level) = List.replicate 6 .trace := by
        refine List.eq_replicate_iff.mpr ⟨?_, fun level hlevel => ?_⟩
        · rw [List.length_map, List.length_map, hlength]
          rfl
        · rw [List.map_map] at hlevel
          obtain ⟨stage, -, rfl⟩ := List.mem_map.mp hlevel
          rfl
      rw [h, hread, if_pos rfl, List.map_cons, hlevels]
      rfl
  · obtain ⟨names, hnames, -⟩ := exists_isName_declaredNames type code
    refine ⟨names, hnames, fun name hname kind text => ?_⟩
    have hbracket := not_mem_of_declaredNames hnames name hname
    exact ⟨hbracket, sampleReads_rounds hbracket kind text⟩
  · have hslice := @Token.slice?_of_mem_locate [] _ _ hl
    rwa [List.nil_append, textOf_tokenize] at hslice

/-- A program with a read inside an index of the same buffer: it compiles with seven records, and
the rounds for the buffer end. -/
theorem compile_total_nested :
    let source := "uniform Float1D a; [float] thread (int x) \x7b thread[0] = a[a[x]]; \x7d".toList
    (∃ script, compile source = .ok script) ∧
      (compileLogged source).1.map (·.level) =
        [.debug, .trace, .trace, .trace, .trace, .trace, .trace] ∧
      (Pattern.bufferRead "a".toList .one).Built 1 ∧
      (∃ found, (Pattern.bufferRead "a".toList .one).Safe 1 source found) ∧
      ∃ hname out, sampleReads "a".toList hname ⟨.float, .one⟩ source = .ok out ∧
        SampleRounds "a".toList ⟨.float, .one⟩ source out := by
  intro source
  have hbuilt : (Pattern.bufferRead "a".toList .one).Built 1 := .bufferRead _ .one
  obtain ⟨-, hlevels, hsafe, hreads, -⟩ := compile_total source
  obtain ⟨names, hnames, hrounds⟩ := hreads "Float1D".toList source
  have ha : (declaredNames "Float1D".toList source).toOption = some ["a".toList] := by
    decide +kernel
  have hok : (compile source).toOption.isSome = true := by decide +kernel
  obtain ⟨script, hscript⟩ : ∃ script, compile source = .ok script := by
    cases h : compile source with
    | error e =>
      rw [h] at hok
      cases hok
    | ok script => exact ⟨script, rfl⟩
  rw [hnames] at ha
  obtain rfl : names = ["a".toList] := Option.some.inj ha
  rw [hscript] at hlevels
  exact ⟨⟨script, hscript⟩, hlevels, hbuilt, hsafe _ _ hbuilt _, hrounds _ List.mem_cons_self _ _⟩

end Texelwise

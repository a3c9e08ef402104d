import Texelwise.Proofs.Result
import Texelwise.Proofs.Source.Compile
import Texelwise.Proofs.Source.Generated

/-!
# Generated names are declared

The passes put generated names into the text of a program, and other text of the fragment shader
declares names. For a regular program without generated names of its own the two agree: every
generated name in the program text is declared in the same shader.

* `WrittenProgram.offers_allRules`: what the passes put into the body is declared.
* `WrittenProgram.closed_imageText`: so are the generated names of the whole text.
* `WrittenProgram.declared_of_compile`: every generated name of the program text is declared.
* `WrittenProgram.undeclared_of_parameter`: one that is not, where a parameter is no `int` with a
  name.
-/

namespace Texelwise

open Token

namespace WrittenProgram

variable {p : WrittenProgram}

theorem eq_script_of_compile (hp : p.Regular) {source : Text}
    (hsource : Text.stripComments source = p.text) {script : Script}
    (h : compile source = .ok script) : script = p.script := by
  rw [compile_eq_script hp hsource] at h
  split at h
  · cases h
  · exact (Except.ok.inj h).symm

/-! ## Names that the script declares -/

/-- Every declared name has its slot. -/
theorem exists_slot_of_mem_names {t : UniformType} {n : Text} (h : n ∈ p.names t) :
    ∃ s ∈ p.table.slots, s.declaration = ⟨n, t⟩ := by
  have hmem := mem_names.mp h
  rw [← BindingTable.declaration_slots p.uniforms] at hmem
  exact List.mem_map.mp hmem

theorem nodup_names_slots (hp : p.Regular) : (p.table.slots.map UniformSlot.name).Nodup := by
  have hmap : p.table.slots.map UniformSlot.name =
      (p.table.slots.map UniformSlot.declaration).map UniformDeclaration.name := by
    rw [List.map_map]
    rfl
  have hnames : p.uniforms.map UniformDeclaration.name =
      p.declarations.map WrittenDeclaration.name := by
    rw [uniforms, List.map_map]
    rfl
  rw [hmap, table, BindingTable.declaration_slots, hnames]
  exact hp.names_nodup

/-- The texture of a slot stands in the program text, in the place of the declaration. -/
theorem declarationText_infix (hp : p.Regular) {s : UniformSlot} (hs : s ∈ p.table.slots) :
    s.declarationText <:+: p.imageText := by
  obtain ⟨d, hd, hdecl⟩ := List.mem_map.mp (BindingTable.mem_uniforms_of_mem_slots hs)
  obtain ⟨s', hs'⟩ := Option.isSome_iff_exists.mp (isSome_slot? hd)
  have hname : s'.name = s.name := by
    rw [BindingTable.name_eq_of_slot? hs', UniformSlot.name, ← hdecl]
    rfl
  have heq : s' = s :=
    List.inj_on_of_nodup_map (nodup_names_slots hp) (List.mem_of_find?_eq_some hs') hs hname
  have hreplaced : d.replaced p.table = s.declarationText := by
    rw [WrittenDeclaration.replaced, hs', heq]
    rfl
  have hline : s.declarationText <:+: d.before ++ d.replaced p.table := by
    rw [hreplaced]
    exact (List.suffix_append _ _).isInfix
  exact (hline.trans (infix_flatMap (f := fun d => d.before ++ d.replaced p.table) hd)).trans
    (List.prefix_append _ _).isInfix

variable (p) in
/-- All generated names in a text are declared in the shader of the program. -/
abbrev Closed (x : Text) : Prop := Only (Resolved (Declared p.script p.imageText)) x

theorem declared_of_declares (hp : p.Regular) {name line part : Text}
    (h : Declares p.script p.imageText name line part) : Declared p.script p.imageText name :=
  h.declared rfl fun _ hs => declarationText_infix hp hs

section

variable (hp : p.Regular)

include hp

theorem declared_texture {s : UniformSlot} (hs : s ∈ p.table.slots) (h : s.texture.isSome) :
    Declared p.script p.imageText (textureName s.name) := by
  obtain ⟨k, hkind⟩ := (UniformSlot.texture_bind hs).mp h
  exact declared_of_declares hp (.texture hs hkind)

theorem declared_textureName {n : Text} {k : BufferKind} (hn : n ∈ p.names (.buffer k)) :
    Declared p.script p.imageText (textureName n) := by
  obtain ⟨s, hs, hdecl⟩ := exists_slot_of_mem_names hn
  have hname : s.name = n := by rw [UniformSlot.name, hdecl]
  rw [← hname]
  exact declared_texture hp hs ((UniformSlot.texture_bind hs).mpr ⟨k, by rw [hdecl]⟩)

theorem declared_companion {n : Text} {k : BufferKind} (hn : n ∈ p.names (.buffer k)) {f : Text}
    (hf : f ∈ k.companions) : Declared p.script p.imageText (bufferMemberName n f) := by
  obtain ⟨s, hs, hdecl⟩ := exists_slot_of_mem_names hn
  have hname : s.name = n := by rw [UniformSlot.name, hdecl]
  have hmem : (bufferMemberName n f, ScalarType.int) ∈ s.declaration.memberTypes := by
    rw [hdecl]
    exact List.mem_map_of_mem hf
  obtain ⟨o, hmembers⟩ := UniformSlot.exists_members_eq hs
  obtain ⟨m, hm, hmname⟩ := BlockMember.exists_mem_place o hmem
  rw [← hmembers] at hm
  have hdeclares : Declares p.script p.imageText m.name _ _ :=
    .companion hs (by rw [hdecl]) hf hm (by rw [hmname, hname])
  rw [← hmname]
  exact declared_of_declares hp hdeclares

theorem declared_builtin {n : Text} (hn : n ∈ builtinNames) :
    Declared p.script p.imageText n := by
  have hmem : (n, ScalarType.int) ∈ builtinNames.map fun n => (n, ScalarType.int) :=
    List.mem_map_of_mem hn
  obtain ⟨m, hm, hname⟩ := BlockMember.exists_mem_place 0 hmem
  have hdeclares : Declares p.script p.imageText m.name _ _ := .builtin hm
  rw [← hname]
  exact declared_of_declares hp hdeclares

/-! ## What the passes put in -/

theorem resolved_sampleWords {n : Text} {k : BufferKind} (hn : n ∈ p.names (.buffer k)) :
    ∀ w ∈ sampleWords n k, Resolved (Declared p.script p.imageText) w := by
  refine List.forall_mem_append.mpr ⟨?_, fun w hw _ => ?_⟩
  · simp only [List.forall_mem_cons, List.not_mem_nil, false_imp_iff, implies_true, and_true]
    exact ⟨fun _ => declared_of_declares hp .decode, resolved_of_not_generated (by decide),
      resolved_of_not_generated (by decide), fun _ => declared_textureName hp hn,
      fun _ => declared_of_declares hp .sampler, fun _ => declared_of_declares hp (.select k.rank),
      resolved_of_not_generated (by decide)⟩
  · obtain ⟨f, hf, rfl⟩ := List.mem_map.mp hw
    exact declared_companion hp hn hf

theorem closed_fieldEntries {k : BufferKind} {e : (Text × Text) × Text}
    (he : e ∈ fieldEntries k (p.names (.buffer k))) : p.Closed e.2 := by
  obtain ⟨hn, hf, hw⟩ := mem_fieldEntries.mp he
  have hname := (ownName_of_mem_names hp hn).isIdentifier
  rw [hw]
  exact only_word (generated_field hname (Rank.mem_extentFields hf)).1
    fun _ => declared_companion hp hn (List.mem_append_right _ hf)

theorem closed_threadEntries {e : (Text × Text) × Text} (he : e ∈ threadEntries) :
    p.Closed e.2 := by
  obtain ⟨f, hf, rfl⟩ := List.mem_map.mp he
  have hbuiltin : ∀ f ∈ extentFields, threadOutputName f ∈ builtinNames := by decide
  exact only_word (generated_threadOutputName hf).1 fun _ => declared_builtin hp (hbuiltin f hf)

theorem closed_outputName? {n w : Text} (h : p.header.signature.outputName? n = some w) :
    p.Closed w := by
  obtain ⟨i, -, hi⟩ := Option.bind_eq_some_iff.mp h
  obtain ⟨e, he, rfl⟩ := Option.map_eq_some_iff.mp hi
  have hlength : i < p.script.thread.outputs.length := (List.getElem?_eq_some_iff.mp he).1
  have hregister : Declared p.script p.imageText (outputRegister i) :=
    declared_of_declares hp (.register hlength)
  have hword := (generated_outputRegister i).1
  have hchannel : ∀ c ∈ ".r".toList.head?, isWordChar c = false := by
    intro c hc
    obtain rfl : '.' = c := by simpa using hc
    decide
  cases e with
  | float =>
    exact only_word_append hword hchannel (fun _ => hregister)
      (only_resolved_of_not_mem (by decide))
  | color => exact only_word hword fun _ => hregister

/-- What the passes put into the body is declared. -/
theorem offers_allRules : p.allRules.Offers (Resolved (Declared p.script p.imageText)) := by
  refine ⟨fun e he => ?_, fun e he => ?_, fun n w hw => closed_outputName? hp hw⟩
  · rcases mem_reads_withKinds.mp he with he | ⟨-, hn⟩
    · cases he
    · exact resolved_sampleWords hp hn
  · rcases List.mem_append.mp he with he | he
    · rcases mem_fields_withKinds.mp he with he | ⟨k, -, he⟩
      · cases he
      · exact closed_fieldEntries hp he
    · exact closed_threadEntries hp he

/-! ## The whole text -/

theorem closed_textureText {s : UniformSlot} (hs : s ∈ p.table.slots) (h : s.texture.isSome)
    (hname : isIdentifier s.name = true) (binding : Nat) :
    p.Closed (textureText binding s.name) := by
  have hspace : Blank [' '] := fun _ => isBlank_of_mem_space
  have hnil : Blank [] := fun _ hc => absurd hc List.not_mem_nil
  have hline : p.Closed (declarationText textureWord (textureName s.name) [' '] [' '] []) := by
    unfold Closed Only
    rw [tokenize_declarationText (by decide) (isIdentifier_textureName hname) hspace
      (List.cons_ne_nil _ _) hspace (List.cons_ne_nil _ _) hnil]
    simp only [declarationTokens, blanks, if_true, List.nil_append, List.forall_mem_cons,
      List.not_mem_nil, false_imp_iff, implies_true, and_true]
    exact ⟨resolved_of_not_generated (by decide), lenient_resolved.mark ' ',
      resolved_of_not_generated (by decide), lenient_resolved.mark ' ',
      fun _ => declared_texture hp hs h, lenient_resolved.mark ';'⟩
  have hlayout : '_' ∉ layoutText := by decide
  have hdigits : '_' ∉ Text.ofNat binding := fun hmem =>
    absurd (isDigit_of_mem_ofNat hmem) (by decide)
  rw [textureText, List.append_assoc, List.singleton_append]
  refine (only_append_mark lenient_resolved (by decide)).mpr
    ⟨only_resolved_of_not_mem ?_, only_blank_append lenient_resolved hspace hline⟩
  rw [List.mem_append, not_or]
  exact ⟨hlayout, hdigits⟩

theorem closed_replaced {d : WrittenDeclaration} (hd : d ∈ p.declarations) :
    p.Closed (d.replaced p.table) := by
  obtain ⟨s, hslot⟩ := Option.isSome_iff_exists.mp (isSome_slot? hd)
  have hname := BindingTable.name_eq_of_slot? hslot
  rcases d.replaced_eq_or p.table with h | ⟨binding, h⟩
  · rw [h]
    exact only_nil
  · have htexture : s.texture.isSome := by
      rw [WrittenDeclaration.replaced, hslot] at h
      cases htexture : s.texture with
      | some _ => rfl
      | none => simp [UniformSlot.declarationText, htexture, textureText] at h
    rw [h, ← hname]
    exact closed_textureText hp (List.mem_of_find?_eq_some hslot) htexture
      (by rw [hname]; exact (hp.declarations d hd).name.isIdentifier) binding

theorem closed_declarations {x : Text} (hx : p.Closed x) :
    p.Closed (p.declarations.flatMap (fun d => d.before ++ d.replaced p.table) ++ x) := by
  have hall : ∀ ds ⊆ p.declarations,
      p.Closed (ds.flatMap (fun d => d.before ++ d.replaced p.table) ++ x) := by
    intro ds hds
    induction ds with
    | nil => exact hx
    | cons d ds ih =>
      have hd : d ∈ p.declarations := hds List.mem_cons_self
      have hrest := ih fun e he => hds (List.mem_cons_of_mem d he)
      have hline := closed_replaced hp hd
      rw [List.flatMap_cons, List.append_assoc, List.append_assoc]
      refine only_blank_append lenient_resolved (hp.declarations d hd).before ?_
      rcases WrittenDeclaration.replaced_eq_nil_or_exists (d := d) p.table with h | ⟨y, h⟩
      · rw [h]
        exact hrest
      · rw [h] at hline ⊢
        rw [List.append_assoc]
        exact (only_append_mark lenient_resolved (by decide)).mpr
          ⟨((only_append_mark lenient_resolved (by decide)).mp hline).1, hrest⟩
  exact hall _ fun _ hd => hd

omit hp in
/-- The parameters and the body have what the whole program has. -/
theorem only_parts {P : Text → Prop} (hP : Lenient P) (h : Only P p.text) :
    Only P p.header.parametersText ∧ Only P p.body := by
  have hsplit : p.text = p.declarations.flatMap (fun d => d.before ++ d.line) ++ (p.gap ++ '[' ::
      (p.header.outputsText ++ ']' :: (p.header.afterOutputs ++ (threadWord ++
        p.header.afterThread)))) ++ '(' :: (p.header.parametersText ++ ')' :: p.body) := by
    simp [text, WrittenHeader.text, WrittenHeader.front]
  rw [hsplit, only_append_mark hP (by decide), only_append_mark hP (by decide)] at h
  exact h.2

/-- In the text of a program without generated names, all generated names are declared. -/
theorem closed_imageText (h : Only (Resolved fun _ => False) p.text) : p.Closed p.imageText := by
  have hparts := only_parts (P := Resolved (Declared p.script p.imageText)) lenient_resolved
    (h.mono fun _ hw hnc => (hw hnc).elim)
  have hbody := only_textOf (Rules.spaced_image (sane_allRules hp) (spaced_body hp)).separated
    (Rules.forall_mem_image lenient_resolved (offers_allRules hp) hparts.2)
  have hfunction : p.header.functionText ++ textOf (p.allRules.image (tokenize p.body)) =
      "void thread".toList ++ '(' :: (Text.trim p.header.parametersText ++
        ')' :: textOf (p.allRules.image (tokenize p.body))) := by
    have hopen : "void thread(".toList = "void thread".toList ++ ['('] := by decide
    have hassoc : ∀ a t b : Text, a ++ ['('] ++ t ++ [')'] ++ b = a ++ '(' :: (t ++ ')' :: b) :=
      fun a t b => by simp
    exact (congrArg (fun a => a ++ Text.trim p.header.parametersText ++ [')'] ++ _) hopen).trans
      (hassoc _ _ _)
  refine closed_declarations hp (only_blank_append lenient_resolved hp.gap ?_)
  rw [hfunction]
  exact (only_append_mark lenient_resolved (by decide)).mpr
    ⟨only_resolved_of_not_mem (by decide), (only_append_mark lenient_resolved (by decide)).mpr
      ⟨hparts.1.trim, hbody⟩⟩

end

/-- Every generated name in the program text of a compiled shader is declared in the shader, if the
program is regular and has no such names itself. The declarations of textures are in the places of
those of the buffers. -/
theorem declared_of_compile (hp : p.Regular)
    (hown : ∀ t ∈ tokenize p.text, t.kind = .ident → ¬ "nc_".toList <+: t.text)
    {source : Text} (hsource : Text.stripComments source = p.text) {script : Script}
    (h : compile source = .ok script) :
    ∃ code, (∀ c, script.fragment = fragmentText script.thread script.bindings c ↔ c = code) ∧
      (∃ rest, code = p.declarations.flatMap (fun d => d.before ++ d.replaced script.bindings) ++
        rest) ∧
      ∀ t ∈ tokenize code, t.kind = .ident → "nc_".toList <+: t.text →
        Declared script code t.text := by
  have htext : Only (Resolved fun _ => False) p.text := fun t ht hnc =>
    hown t ht (((separated_tokenize p.text).proper ht).kind_of_generated hnc) hnc
  obtain rfl := eq_script_of_compile hp hsource h
  refine ⟨p.imageText, fun c => ⟨fun hc => (fragmentText_injective hc).symm, ?_⟩, ⟨_, rfl⟩,
    fun t ht _ hnc => closed_imageText hp htext t ht hnc⟩
  rintro rfl
  rfl

/-- A read in a product with an extent of the buffer. -/
def scaledRead : WrittenProgram where
  declarations := [⟨[], .buffer ⟨.float, .one⟩, ['a'], [' '], [' '], []⟩]
  gap := ['\n']
  header := ⟨[⟨[], .float, []⟩], [], [], [⟨[], [' '], ['x'], []⟩]⟩
  body := "\x7b thread[0] = a[x] * a.width; \x7d".toList

theorem declared_of_compile_scaledRead :
    scaledRead.Regular ∧
      (∀ t ∈ tokenize scaledRead.text, t.kind = .ident → ¬ "nc_".toList <+: t.text) ∧
      Text.stripComments scaledRead.text = scaledRead.text ∧
      compile scaledRead.text = .ok scaledRead.script ∧
      Declared scaledRead.script scaledRead.imageText "nc_uniform_a_width".toList := by
  have hregular : scaledRead.Regular := by decide +kernel
  have hown : ∀ t ∈ tokenize scaledRead.text, t.kind = .ident → ¬ "nc_".toList <+: t.text := by
    decide +kernel
  have hsource : Text.stripComments scaledRead.text = scaledRead.text := by decide +kernel
  have hok : (compile scaledRead.text).toOption.isSome = true := by decide +kernel
  have hcompile : compile scaledRead.text = .ok scaledRead.script := by
    cases h : compile scaledRead.text with
    | error e =>
      rw [h] at hok
      cases hok
    | ok script => rw [eq_script_of_compile hregular hsource h]
  refine ⟨hregular, hown, hsource, hcompile, ?_⟩
  obtain ⟨code, hcode, -, hall⟩ := declared_of_compile hregular hown hsource hcompile
  obtain rfl := (hcode scaledRead.imageText).mp rfl
  have hmem : Token.word "nc_uniform_a_width".toList ∈ tokenize scaledRead.imageText := by
    decide +kernel
  exact hall _ hmem rfl (by decide)

/-- In a header whose one parameter is not of type `int` with a name, an output can stand before a
name. The program compiles, and in the shader the two make one generated name, which nothing in it
declares. -/
theorem undeclared_of_parameter :
    let source : Text := "[color] thread (thread[0]b) \x7b \x7d".toList
    let code : Text := "void thread(nc_thread_output_0b) \x7b \x7d".toList
    (∀ t ∈ tokenize source, t.kind = .ident → ¬ "nc_".toList <+: t.text) ∧
      Text.stripComments source = source ∧
      ∃ script, compile source = .ok script ∧
        script.fragment = fragmentText script.thread script.bindings code ∧
        Token.word "nc_thread_output_0b".toList ∈ tokenize code ∧
        ¬ Declared script code "nc_thread_output_0b".toList := by
  intro source code
  let thread : ThreadSignature := ⟨.one, [.color]⟩
  let table := BindingTable.ofDeclarations []
  have hsource : Text.stripComments source = source := by decide +kernel
  have hinterface : Interface.ofText source = .ok ⟨thread, []⟩ :=
    ok_of_toOption (by decide +kernel)
  have hbuffers : (replaceAllBuffers table BufferKind.all source).2 = .ok source :=
    ok_of_toOption (by decide +kernel)
  have hthread : replaceThread thread table source = .ok code :=
    ok_of_toOption (by decide +kernel)
  have hcompile : compile source =
      .ok ⟨thread, [], table, Shader.vertex, fragmentText thread table code⟩ := by
    rw [compile_of_interface (hsource.symm ▸ hinterface), hsource]
    show finishScript ⟨thread, []⟩ table (replaceAllBuffers table BufferKind.all source).2 = _
    rw [hbuffers]
    show (replaceThread thread table source >>= fun code => _) = _
    rw [hthread]
    rfl
  refine ⟨by decide +kernel, hsource, _, hcompile, rfl, by decide +kernel, ?_⟩
  rintro ⟨line, part, h, -⟩
  generalize hname : "nc_thread_output_0b".toList = name at h
  cases h with
  | builtin hm =>
    have hnames : ∀ m ∈ table.builtins, "nc_thread_output_0b".toList ≠ m.name := by decide
    exact hnames _ hm hname
  | companion hs => cases hs
  | texture hs => cases hs
  | @register i hi =>
    obtain rfl : i = 0 := Nat.lt_one_iff.mp hi
    exact absurd hname (by decide)
  | select r =>
    have hnames : ∀ r : Rank, "nc_thread_output_0b".toList ≠ "nc_select_".toList ++ r.label := by
      rintro (_ | _ | _) <;> decide
    exact hnames r hname
  | sampler | decode => exact absurd hname (by decide)

end WrittenProgram

end Texelwise

import Texelwise.Proofs.Source.Thread

/-!
# Compiling regular programs

All passes of the compiler together are one pass over the body: a regular program compiles to its
declarations and its header, replaced, and the expansion of its body. The one way to fail is a write
to an output that the header does not list.

* `Interface.rules`: the rules of a program.
* `WrittenProgram.imageText`, `WrittenProgram.script`: what a regular program compiles to, with the
  image of its body under the rules of all passes.
* `WrittenProgram.shaderText`: the same text with the expansion of its body.
* `WrittenProgram.compile_eq`: what compiling a regular program gives.
-/

namespace Texelwise

open Token

/-! ## The rules of a program -/

/-- What stands for the fields of a declaration, if it declares a buffer. -/
def UniformDeclaration.fieldEntries (d : UniformDeclaration) : List ((Text × Text) × Text) :=
  match d.type.bufferKind? with
  | some k => Texelwise.fieldEntries k [d.name]
  | none => []

/-- The reads and fields of the declared buffers, and the outputs and extents of the thread. -/
def Interface.rules (i : Interface) : Rules where
  reads := i.uniforms.filterMap fun d => d.type.bufferKind?.map fun k => (d.name, k)
  fields := i.uniforms.flatMap UniformDeclaration.fieldEntries ++ threadEntries
  output? := i.thread.outputName?

/-! ## Rules that say the same -/

/-- Tables with the same entries, one for each key, have the same values. -/
theorem lookup_eq_of_mem {α β : Type} [BEq α] [LawfulBEq α] {l m : List (α × β)}
    (hmem : ∀ e, e ∈ l ↔ e ∈ m) (hkey : ∀ e ∈ l, ∀ e' ∈ l, e.1 = e'.1 → e = e') (a : α) :
    l.lookup a = m.lookup a := by
  cases hl : l.lookup a with
  | some b =>
    cases hm : m.lookup a with
    | some b' =>
      have heq := hkey _ (mem_of_lookup hl) _ ((hmem _).mpr (mem_of_lookup hm)) rfl
      rw [(Prod.mk.inj heq).2]
    | none =>
      have hne := List.lookup_eq_none_iff.mp hm _ ((hmem _).mp (mem_of_lookup hl))
      simp at hne
  | none =>
    cases hm : m.lookup a with
    | some b' =>
      have hne := List.lookup_eq_none_iff.mp hl _ ((hmem _).mpr (mem_of_lookup hm))
      simp at hne
    | none => rfl

namespace Rules

variable {σ τ : Rules}

theorem site?_congr (hreads : ∀ w, σ.reads.lookup w = τ.reads.lookup w)
    (hfields : ∀ key, σ.fields.lookup key = τ.fields.lookup key)
    (houtputs : ∀ n, σ.output? n = τ.output? n) (t : Token) (ts : List Token) :
    σ.site? t ts = τ.site? t ts := by
  unfold site?
  simp only [hreads, hfields, houtputs]

theorem expand_congr (h : ∀ t ts, σ.site? t ts = τ.site? t ts) (ts : List Token) :
    σ.expand ts = τ.expand ts := by
  induction ts using σ.induction with
  | nil => simp
  | keep t ts hnone ih =>
    rw [expand_keep hnone, expand_keep (by rw [← h]; exact hnone), ih ts (Nat.le_refl _)]
  | site t s tail rest hkind hs ih =>
    have hsite := site?_append hkind hs rest
    have hsite' : τ.site? t (tail ++ rest) = some (s, rest) := by rw [← h]; exact hsite
    have hrest := ih rest (by simp)
    cases s with
    | word w => rw [expand_word hsite, expand_word hsite', hrest]
    | read kind blocks =>
      have hblocks : blocks.map σ.expand = blocks.map τ.expand := by
        refine List.map_congr_left fun b hb => ih b ?_
        have := hs.length_lt hb
        rw [List.length_append]
        omega
      rw [expand_read hsite, expand_read hsite', hrest, hblocks]

/-- Rules for nothing. -/
def none : Rules := ⟨[], [], fun _ => .none⟩

theorem image_none (ts : List Token) : Rules.none.image ts = ts := by
  induction ts with
  | nil => simp
  | cons t ts ih =>
    have hsite : Rules.none.site? t ts = .none := by
      cases hs : Rules.none.site? t ts with
      | none => rfl
      | some p =>
        obtain ⟨s, rest⟩ := p
        obtain ⟨-, tail, hstands, -⟩ := site?_eq_some_iff.mp hs
        cases hstands with
        | field _ _ _ _ hw => cases hw
        | output _ _ _ _ _ hw => cases hw
        | read _ hread => cases hread
    rw [image_keep hsite, ih]

end Rules

namespace WrittenProgram

variable (p : WrittenProgram)

/-- What the program offers. -/
def interface : Interface := ⟨p.header.signature, p.uniforms⟩

/-- The bindings of the program. -/
def table : BindingTable := .ofDeclarations p.uniforms

theorem stage_none : p.Stage [] Rules.none :=
  ⟨fun _ he => absurd he List.not_mem_nil, fun _ he => absurd he List.not_mem_nil, fun _ => rfl⟩

/-- The rules after all passes. -/
def allRules : Rules :=
  ((p.withKinds Rules.none BufferKind.all).withOutputs p.header.signature).withFields threadEntries

variable {p}

theorem sane_allRules (hp : p.Regular) : p.allRules.Sane :=
  ((((stage_none p).withKinds hp BufferKind.all).sane hp).withOutputs p.header.signature).withThread

/-- The reads of all stages are those of the program. -/
theorem mem_reads_allRules {e : Text × BufferKind} :
    e ∈ (p.withKinds Rules.none BufferKind.all).reads ↔ e ∈ p.interface.rules.reads := by
  obtain ⟨n, k⟩ := e
  have hleft : (n, k) ∈ (p.withKinds Rules.none BufferKind.all).reads ↔
      n ∈ p.names (.buffer k) := by
    rw [mem_reads_withKinds]
    simp [Rules.none, BufferKind.mem_all]
  rw [hleft, mem_names]
  simp only [Interface.rules, interface, List.mem_filterMap, Option.map_eq_some_iff,
    Prod.mk.injEq]
  constructor
  · intro hmem
    exact ⟨_, hmem, k, rfl, rfl, rfl⟩
  · rintro ⟨⟨m, type⟩, hmem, k', htype, rfl, rfl⟩
    cases type with
    | int => cases htype
    | float => cases htype
    | buffer k'' =>
      cases htype
      exact hmem

/-- The fields of all stages are those of the declared buffers. -/
theorem mem_fields_allRules {e : (Text × Text) × Text} :
    e ∈ (p.withKinds Rules.none BufferKind.all).fields ↔
      e ∈ p.uniforms.flatMap UniformDeclaration.fieldEntries := by
  rw [mem_fields_withKinds]
  simp only [Rules.none, List.not_mem_nil, false_or, List.mem_flatMap]
  constructor
  · rintro ⟨k, -, he⟩
    obtain ⟨hn, hrest⟩ := mem_fieldEntries.mp he
    exact ⟨_, mem_names.mp hn, mem_fieldEntries.mpr ⟨List.mem_singleton_self _, hrest⟩⟩
  · rintro ⟨⟨m, type⟩, hmem, he⟩
    cases type with
    | int => cases he
    | float => cases he
    | buffer k =>
      obtain ⟨hn, hrest⟩ := mem_fieldEntries.mp he
      refine ⟨k, BufferKind.mem_all k, mem_fieldEntries.mpr ⟨mem_names.mpr ?_, hrest⟩⟩
      rw [List.mem_singleton.mp hn]
      exact hmem

/-- The passes together have the rules of the program. -/
theorem site?_allRules (hp : p.Regular) (t : Token) (ts : List Token) :
    p.allRules.site? t ts = p.interface.rules.site? t ts := by
  have hstage : p.Stage _ (p.withKinds Rules.none BufferKind.all) :=
    (stage_none p).withKinds hp BufferKind.all
  have houtputs : ∀ n, p.allRules.output? n = p.interface.rules.output? n := fun _ => rfl
  refine Rules.site?_congr ?_ ?_ houtputs t ts
  · refine lookup_eq_of_mem (fun _ => mem_reads_allRules) fun e he e' he' hkey => Prod.ext hkey ?_
    have hname := (hstage.reads e he).1
    have hname' := (hstage.reads e' he').1
    rw [← hkey] at hname'
    exact UniformType.buffer.inj (eq_of_mem_names hp hname hname')
  · intro key
    have hlookup := lookup_eq_of_mem (fun _ => mem_fields_allRules (p := p))
      (fun e he e' he' hkey => Prod.ext hkey ?_) key
    · show List.lookup key (_ ++ threadEntries) = List.lookup key (_ ++ threadEntries)
      rw [List.lookup_append, List.lookup_append]
      exact congrArg (fun v => v.or (List.lookup key threadEntries)) hlookup
    · rw [mem_fields_withKinds] at he he'
      simp only [Rules.none, List.not_mem_nil, false_or] at he he'
      obtain ⟨k, -, he⟩ := he
      obtain ⟨k', -, he'⟩ := he'
      rw [(mem_fieldEntries.mp he).2.2, (mem_fieldEntries.mp he').2.2, hkey]

theorem expand_allRules (hp : p.Regular) (ts : List Token) :
    p.allRules.expand ts = p.interface.rules.expand ts :=
  Rules.expand_congr (site?_allRules hp) ts

/-! ## Compiling -/

theorem isSome_slot? {d : WrittenDeclaration} (hd : d ∈ p.declarations) :
    (p.table.slot? d.name).isSome := by
  refine List.find?_isSome.mpr ?_
  have hmem : d.declaration ∈ p.table.slots.map UniformSlot.declaration := by
    rw [table, BindingTable.declaration_slots]
    exact List.mem_map_of_mem hd
  obtain ⟨slot, hslot, heq⟩ := List.mem_map.mp hmem
  refine ⟨slot, hslot, decide_eq_true ?_⟩
  rw [UniformSlot.name, heq]
  rfl

/-- The passes after the buffers, from the stage at which all buffers are done. -/
theorem replaceThread_front (hp : p.Regular) {done : List UniformType} {σ : Rules}
    (hσ : p.Stage done σ) :
    replaceThread p.header.signature p.table
        (p.front p.table done ++ textOf (σ.image (tokenize p.body))) =
      match p.header.signature.strayOutput? (tokenize p.body) with
      | some index => .error (.outputIndexOutOfRange index p.header.signature.outputs.length)
      | none => .ok (p.declarationsText p.table (.float :: .int :: done) ++
          (p.gap ++ (p.header.functionText ++ textOf (((σ.withOutputs p.header.signature).withFields
            threadEntries).image (tokenize p.body))))) := by
  have hsane := hσ.sane hp
  have hspaced := spaced_body hp
  have hinert : Inert (p.front p.table (.float :: .int :: done)) := inert_front hp.framed
  have hwithOutputs := hsane.withOutputs p.header.signature
  -- The passes for scalars change only the front, as the image declares nothing.
  have hdeclarations : ∀ (t : UniformType) (done' : List UniformType),
      replaceDeclarations t.word p.table
          (p.front p.table done' ++ textOf (σ.image (tokenize p.body))) =
        .ok (p.front p.table (t :: done') ++ textOf (σ.image (tokenize p.body))) := fun t _ =>
    replaceDeclarations_front hp.framed (hσ.spaced hp).separated (hσ.ne_uniformWord hp) t
      fun _ hd => isSome_slot? hd
  have houtputs := replaceOutputs_image hinert hspaced hsane p.header.signature hσ.outputs
    fun t s tail hs => (hσ.ownName_of_stands hp hs).ne_threadWord
  have hextents := replaceOutputExtents_image hinert hspaced hwithOutputs
  have hheader := @replaceHeader_front p hp _ p.table (.float :: .int :: done)
    hwithOutputs.withThread
  unfold replaceThread
  rw [hdeclarations .int]
  simp only [Except.mapError, bind, Except.bind]
  rw [hdeclarations .float]
  simp only
  rw [houtputs]
  cases p.header.signature.strayOutput? (tokenize p.body) with
  | some index => rfl
  | none =>
    simp only
    rw [hextents]
    simp only
    rw [hheader]

variable (p) in
/-- The text of the program in the fragment shader, with the image of its body. -/
def imageText : Text :=
  p.declarations.flatMap (fun d => d.before ++ d.replaced p.table) ++
    (p.gap ++ (p.header.functionText ++ textOf (p.allRules.image (tokenize p.body))))

variable (p) in
/-- The script that the program compiles to. -/
def script : Script :=
  ⟨p.header.signature, p.uniforms, p.table, Shader.vertex,
    fragmentText p.header.signature p.table p.imageText⟩

/-- A regular program compiles to its script, unless a write in it is to an output that it does not
have. -/
theorem compile_eq_script (hp : p.Regular) {source : Text}
    (hsource : Text.stripComments source = p.text) :
    compile source =
      match p.header.signature.strayOutput? (tokenize p.body) with
      | some index => .error (.outputIndexOutOfRange index p.header.signature.outputs.length)
      | none => .ok p.script := by
  have hstart : p.text = p.front p.table [] ++ textOf (Rules.none.image (tokenize p.body)) := by
    rw [Rules.image_none, textOf_tokenize, ← text_eq]
  -- The stages follow the passes: all buffers first, and then those of `replaceThread`.
  have hbuffers := replaceAllBuffers_front hp (fun _ hd => isSome_slot? hd) (stage_none p)
    (by decide : BufferKind.all.Nodup) fun _ _ => List.not_mem_nil
  have hthread := replaceThread_front hp ((stage_none p).withKinds hp BufferKind.all)
  have hdone : ∀ t : UniformType,
      t ∈ .float :: .int :: ((BufferKind.all.map UniformType.buffer).reverse ++ []) := by
    rintro (_ | _ | k)
    · exact List.mem_cons_of_mem _ List.mem_cons_self
    · exact List.mem_cons_self
    · refine List.mem_cons_of_mem _ (List.mem_cons_of_mem _ ?_)
      rw [List.append_nil, List.mem_reverse]
      exact List.mem_map_of_mem (BufferKind.mem_all k)
  have hdeclarations : p.declarationsText p.table
      (.float :: .int :: ((BufferKind.all.map .buffer).reverse ++ [])) =
        p.declarations.flatMap fun d => d.before ++ d.replaced p.table := by
    refine List.flatMap_congr fun d _ => ?_
    rw [if_pos (hdone d.type)]
  rw [compile_of_interface (hsource ▸ ofText_text hp), hsource]
  show finishScript p.interface p.table (replaceAllBuffers p.table BufferKind.all p.text).2 = _
  rw [hstart, hbuffers]
  show (replaceThread p.header.signature p.table _ >>= fun code => _) = _
  rw [hthread, hdeclarations]
  cases p.header.signature.strayOutput? (tokenize p.body) <;> rfl

variable (p) in
/-- The text of the program in the fragment shader. -/
def shaderText : Text :=
  p.declarations.flatMap (fun d => d.before ++ d.replaced p.table) ++
    (p.gap ++ (p.header.functionText ++ p.interface.rules.expand (tokenize p.body)))

theorem imageText_eq (hp : p.Regular) : p.imageText = p.shaderText := by
  have hsane : p.allRules.Sane :=
    ((((stage_none p).withKinds hp BufferKind.all).sane hp).withOutputs
      p.header.signature).withThread
  rw [imageText, shaderText, Rules.textOf_image hsane proper_tokenize, expand_allRules hp]

/-- A regular program compiles to the expansion of its body between the replaced declarations and
header and the rest of the shader, unless a write in it is to an output that it does not have. -/
theorem compile_eq (hp : p.Regular) {source : Text} (hsource : Text.stripComments source = p.text) :
    compile source =
      match p.header.signature.strayOutput? (tokenize p.body) with
      | some index => .error (.outputIndexOutOfRange index p.header.outputs.length)
      | none => .ok ⟨p.header.signature, p.uniforms, p.table, Shader.vertex,
          fragmentText p.header.signature p.table p.shaderText⟩ := by
  have hlength : p.header.signature.outputs.length = p.header.outputs.length := List.length_map _
  rw [compile_eq_script hp hsource, script, imageText_eq hp, hlength]

/-- A read in an index of a read, a field in an index, two writes and an extent. -/
def nestedReads : WrittenProgram where
  declarations := [
    ⟨[], .buffer ⟨.float, .two⟩, "grid".toList, [' '], [' '], []⟩,
    ⟨['\n'], .buffer ⟨.color, .one⟩, "palette".toList, [' '], [' '], []⟩,
    ⟨[' ', '\n'], .int, "row".toList, [' '], [' '], []⟩]
  gap := ['\n']
  header := ⟨[⟨[], .float, []⟩, ⟨[' '], .color, []⟩], [' '], [' '],
    [⟨[], [' '], ['x'], []⟩, ⟨[' '], [' '], ['y'], []⟩]⟩
  body := [" \x7b\n  thread[0] = grid[x][ grid[row][y] ];\n",
    "  thread[1] = palette[x % grid.width] * thread.height;\n\x7d"].flatMap String.toList

/-- The program with a comment. -/
def nestedReadsSource : Text :=
  ["uniform Float2D grid;\nuniform Color1D palette; // by row\n",
    "uniform int row;\n[float, color] thread (int x, int y) \x7b\n",
    "  thread[0] = grid[x][ grid[row][y] ];\n",
    "  thread[1] = palette[x % grid.width] * thread.height;\n\x7d\n"].flatMap String.toList

/-- Its text in the fragment shader. -/
def nestedReadsText : Text :=
  ["layout(set = 0, binding = 2) uniform texture2D ", "nc_uniform_grid_texture;\n",
    "layout(set = 0, binding = 3) uniform texture2D ", "nc_uniform_palette_texture; \n\n",
    "void thread(int x, int y) \x7b\n", "  nc_thread_output_0.r = nc_decode(textureLod(",
    "sampler2D(nc_uniform_grid_texture, nc_sampler), ",
    "nc_select_2D(nc_uniform_grid_textureWidth, ", "nc_uniform_grid_textureHeight, ",
    "nc_uniform_grid_width, nc_uniform_grid_height, ",
    "x, nc_decode(textureLod(", "sampler2D(nc_uniform_grid_texture, nc_sampler), ",
    "nc_select_2D(nc_uniform_grid_textureWidth, ", "nc_uniform_grid_textureHeight, ",
    "nc_uniform_grid_width, nc_uniform_grid_height, ", "row, y), 0.0))), 0.0));\n",
    "  nc_thread_output_1 = textureLod(", "sampler2D(nc_uniform_palette_texture, nc_sampler), ",
    "nc_select_1D(nc_uniform_palette_textureWidth, ", "nc_uniform_palette_textureHeight, ",
    "nc_uniform_palette_width, ", "x % nc_uniform_grid_width), 0.0) * ",
    "nc_thread_output_height;\n\x7d"].flatMap String.toList

theorem compile_eq_nestedReads :
    nestedReads.Regular ∧ Text.stripComments nestedReadsSource = nestedReads.text ∧
      compile nestedReadsSource = .ok ⟨nestedReads.header.signature, nestedReads.uniforms,
        nestedReads.table, Shader.vertex,
        fragmentText nestedReads.header.signature nestedReads.table nestedReadsText⟩ := by
  have hregular : nestedReads.Regular := by decide +kernel
  have hsource : Text.stripComments nestedReadsSource = nestedReads.text := by decide +kernel
  have hstray : nestedReads.header.signature.strayOutput? (tokenize nestedReads.body) = none := by
    decide +kernel
  have htext : nestedReads.shaderText = nestedReadsText := by decide +kernel
  refine ⟨hregular, hsource, ?_⟩
  rw [compile_eq hregular hsource, hstray, htext]

end WrittenProgram

end Texelwise

import Texelwise.Proofs.Kernel.Deletions
import Texelwise.Proofs.Source.Generated

/-!
# Writes through the passes for buffers

The passes for a kind take the names of buffers from the text as it stands, where earlier passes
may have changed declarations. What a later pass takes is still the name of a buffer or a generated
one, so no pass takes `thread` for a buffer, and the writes of a program go through all of them.

* `Interface.WellNamed`: what the names of a program have to be for this.
* `Intact`: the invariant of the passes; `intact_self` for the program itself.
* `Intact.sampleRounds`, `Intact.replaceField`, `Intact.replaceDeclarations`: single passes.
* `Intact.replaceAllBuffers`: all passes for buffers.
-/

namespace Texelwise

open Token

/-! ## Names -/

/-- Buffers have identifiers as names, no uniform is called `thread`, and scalars do not have names
that are generated for buffers. -/
structure Interface.WellNamed (i : Interface) : Prop where
  buffers : ∀ d ∈ i.uniforms, d.type.bufferKind?.isSome → isIdentifier d.name = true
  thread : ∀ d ∈ i.uniforms, d.name ≠ threadWord
  scalars : ∀ d ∈ i.uniforms, d.type.bufferKind? = none → ¬ "nc_".toList <+: d.name

/-- The passes for buffers may take the name: it is an identifier, not `thread`, and a uniform with
this name is a buffer. -/
structure Interface.BufferName (i : Interface) (name : Text) : Prop where
  isIdentifier : isIdentifier name = true
  ne_thread : name ≠ threadWord
  buffer : ∀ d ∈ i.uniforms, d.name = name → d.type.bufferKind?.isSome

theorem Token.Proper.isIdentifier {t : Token} (h : t.Proper) (hkind : t.kind = .ident) :
    isIdentifier t.text = true := by
  obtain ⟨c, more, htext, hc⟩ := h.isAlpha_of_ident hkind
  obtain ⟨c', more', htext', -, hrun⟩ := h
  rw [htext] at htext'
  obtain ⟨rfl, rfl⟩ := List.cons.inj htext'
  rw [htext, isIdentifier_cons]
  refine ⟨hc, List.all_eq_true.mpr fun d hd => ?_⟩
  obtain ⟨b, hb⟩ := TokenKind.continues_of_run hrun hd
  rwa [hkind] at hb

variable {i : Interface}

theorem Interface.WellNamed.bufferName_of_generated (h : i.WellNamed) {x : Text}
    {kind : BufferKind} {name : Text} (hname : "nc_".toList <+: name)
    (hd : DeclaresBuffer x kind name) : i.BufferName name := by
  obtain ⟨w, hw, hpart⟩ := hd
  have hproper : ∀ u ∈ w, u.Proper := fun u hu => proper_tokenize u (hpart.subset hu)
  obtain ⟨-, -, -, -, -, rfl, -⟩ := hw
  rename_i b t b' n gap
  have hn : n.Proper := hproper n (by simp)
  refine ⟨hn.isIdentifier (hn.kind_of_generated hname), fun hthread => ?_, fun d hd heq => ?_⟩
  · rw [hthread] at hname
    exact absurd hname (by decide)
  · refine Option.isSome_iff_ne_none.mpr fun hnone => h.scalars d hd hnone ?_
    rwa [heq]

/-! ## The invariant -/

/-- The text `x` that passes for buffers make of `code` has buffers with names that passes may take
and all writes of `code`, and it is tidy if `code` is. -/
structure Intact (i : Interface) (code x : Text) : Prop where
  names : ∀ kind name, DeclaresBuffer x kind name → i.BufferName name
  writes : ∀ k ∈ hits writeAt (tokenize code), k ∈ hits writeAt (tokenize x)
  tidy : Tidy code → Tidy x

variable {code x : Text}

theorem intact_self (hi : Interface.ofText code = .ok i) (hnamed : i.WellNamed) :
    Intact i code code := by
  refine ⟨fun kind name hd => ?_, fun k hk => hk, id⟩
  have hmem := hd.mem_uniforms hi
  refine ⟨hnamed.buffers _ hmem rfl, hnamed.thread _ hmem, fun d hd heq => ?_⟩
  obtain rfl := List.inj_on_of_nodup_map (Interface.nodup_names hi) hd hmem heq
  rfl

namespace Intact

section

variable (hnamed : i.WellNamed) (h : Intact i code x)

include hnamed h

theorem bufferEdit {y : Text} (hedited : Edited BufferEdit (tokenize x) (tokenize y))
    (htidy : Tidy x → Tidy y) : Intact i code y := by
  refine ⟨fun kind name hd => ?_, fun k hk => ?_, fun hcode => htidy (h.tidy hcode)⟩
  · -- a field in the place of a name makes a declaration of a generated name
    by_cases hgenerated : "nc_".toList <+: name
    · exact hnamed.bufferName_of_generated hgenerated hd
    · obtain ⟨w, hw, hpart⟩ := hd
      exact h.names kind name ⟨w, hw, hw.infix_of_bufferEdit hgenerated hedited hpart⟩
  · rw [BufferEdit.keepsWrites.hits_eq hedited]
    exact h.writes k hk

/-- The reads of a buffer are replaced. -/
theorem sampleRounds {name : Text} (hname : i.BufferName name) {kind : BufferKind} {y : Text}
    (hrounds : SampleRounds name kind x y) : Intact i code y := by
  induction hrounds with
  | done => exact h
  | round _ hnext _ _ ih =>
    exact ih (h.bufferEdit hnamed (edited_round hname.isIdentifier hname.ne_thread kind hnext)
      fun hx => tidy_round hname.isIdentifier kind hx hnext)

omit hnamed in
/-- The names that a pass takes are names of buffers. -/
theorem exists_declaredNames (kind : BufferKind) :
    ∃ names, declaredNames kind.word x = .ok names ∧ ∀ name ∈ names, i.BufferName name := by
  obtain ⟨names, hnames, -⟩ := exists_isName_declaredNames kind.word x
  exact ⟨names, hnames, fun name hname =>
    h.names kind name (declaresBuffer_of_mem_declaredNames hnames hname)⟩

/-- The reads of all buffers of a kind are replaced. -/
theorem sampleAllReads (kind : BufferKind) :
    ∃ y, Texelwise.sampleAllReads kind x = .ok y ∧ Intact i code y := by
  obtain ⟨names, hnames, hbuffers⟩ := h.exists_declaredNames kind
  obtain ⟨y, hy, hrounds⟩ := sampleAllReads_rounds hnames
  exact ⟨y, hy, hrounds.keeps (fun name hmem _ _ hrounds hx =>
    hx.sampleRounds hnamed (hbuffers name hmem) hrounds) h⟩

/-- The fields of a buffer are replaced. -/
theorem replaceField {name f : Text} (hname : i.BufferName name) (hf : f ∈ extentFields) :
    ∃ y, Texelwise.replaceField name f x = .ok y ∧ Intact i code y := by
  obtain ⟨y, hy⟩ := (Pattern.Built.field name f).exists_replaceAll
    (fun _ => bufferMemberName name f) x
  exact ⟨y, hy, h.bufferEdit hnamed (edited_replaceField hname.isIdentifier hf hname.ne_thread hy)
    fun hx => tidy_replaceField hname.isIdentifier hf hx hy⟩

/-- The fields of all buffers of a kind are replaced. -/
theorem replaceFields (kind : BufferKind) :
    ∃ y, Texelwise.replaceFields kind x = .ok y ∧ Intact i code y := by
  obtain ⟨names, hnames, hbuffers⟩ := h.exists_declaredNames kind
  obtain ⟨y, hy, hintact⟩ := exists_foldlM_ok_of (P := Intact i code)
    (fun x hx name hmem => exists_foldlM_ok_of (P := Intact i code)
      (fun x hx f hf => hx.replaceField hnamed (hbuffers name hmem) (Rank.mem_extentFields hf)) hx)
    h
  exact ⟨y, by rw [Texelwise.replaceFields, hnames]; exact hy, hintact⟩

end

end Intact

/-! ## The table -/

section

variable (hnamed : i.WellNamed)

include hnamed

theorem Interface.WellNamed.isIdentifier_of_texture {name : Text} {slot : UniformSlot}
    (hslot : (BindingTable.ofDeclarations i.uniforms).slot? name = some slot)
    (htexture : slot.texture.isSome) : isIdentifier name = true := by
  have hmem := List.mem_of_find?_eq_some hslot
  obtain ⟨k, hk⟩ := (UniformSlot.texture_bind hmem).mp htexture
  rw [← BindingTable.name_eq_of_slot? hslot]
  exact hnamed.buffers _ (BindingTable.mem_uniforms_of_mem_slots hmem) (by rw [hk]; rfl)

end

/-- The slot of a name that passes may take has a texture. -/
theorem Interface.BufferName.isSome_texture {name : Text} (h : i.BufferName name)
    {slot : UniformSlot}
    (hslot : (BindingTable.ofDeclarations i.uniforms).slot? name = some slot) :
    slot.texture.isSome := by
  have hmem := List.mem_of_find?_eq_some hslot
  have hbuffer := h.buffer _ (BindingTable.mem_uniforms_of_mem_slots hmem)
    (BindingTable.name_eq_of_slot? hslot)
  refine (UniformSlot.texture_bind hmem).mpr ?_
  cases htype : slot.declaration.type with
  | int => rw [htype] at hbuffer; cases hbuffer
  | float => rw [htype] at hbuffer; cases hbuffer
  | buffer k => exact ⟨k, rfl⟩

namespace Intact

variable (hnamed : i.WellNamed) (h : Intact i code x)

include hnamed h

/-- The declarations of a kind are replaced. -/
theorem replaceDeclarations (kind : BufferKind) :
    ∃ y, Texelwise.replaceDeclarations kind.word (.ofDeclarations i.uniforms) x = .ok y ∧
      Intact i code y := by
  have htype : isIdentifier kind.word = true := UniformType.isIdentifier_word (.buffer kind)
  obtain ⟨y, hy⟩ := replaceDeclarations_total kind.word (.ofDeclarations i.uniforms) x
  refine ⟨y, hy, fun kind' name hd => ?_, fun k hk => ?_, fun hcode => ?_⟩
  · have hedited := edited_replaceDeclarations (fun name hd =>
      ⟨(h.names kind name hd).isIdentifier, fun _ => (h.names kind name hd).isSome_texture⟩) hy
    obtain ⟨w, hw, hpart⟩ := hd
    exact h.names kind' name ⟨w, hw, hw.infix_of_textureEdit hedited hpart⟩
  · exact mem_hits_replaceDeclarations htype (fun _ _ => hnamed.isIdentifier_of_texture) hy
      (h.writes k hk)
  · exact tidy_replaceDeclarations htype (fun _ _ => hnamed.isIdentifier_of_texture)
      (h.tidy hcode) hy

/-- The passes for one kind. -/
theorem replaceBuffers (kind : BufferKind) :
    ∃ y, Texelwise.replaceBuffers (.ofDeclarations i.uniforms) kind x = .ok y ∧
      Intact i code y := by
  obtain ⟨sampled, hsampled, h₁⟩ := h.sampleAllReads hnamed kind
  obtain ⟨fielded, hfielded, h₂⟩ := h₁.replaceFields hnamed kind
  obtain ⟨y, hy, h₃⟩ := h₂.replaceDeclarations hnamed kind
  refine ⟨y, ?_, h₃⟩
  rw [Texelwise.replaceBuffers, hsampled]
  show (Texelwise.replaceFields kind sampled >>= _) = _
  rw [hfielded]
  exact hy

/-- All passes for buffers. -/
theorem replaceAllBuffers (kinds : List BufferKind) :
    ∃ y, (Texelwise.replaceAllBuffers (.ofDeclarations i.uniforms) kinds x).2 = .ok y ∧
      Intact i code y := by
  induction kinds generalizing x with
  | nil => exact ⟨x, rfl, h⟩
  | cons kind kinds ih =>
    obtain ⟨next, hnext, h₁⟩ := h.replaceBuffers hnamed kind
    obtain ⟨y, hy, h₂⟩ := ih h₁
    exact ⟨y, by rw [Texelwise.replaceAllBuffers, hnext]; exact hy, h₂⟩

end Intact

end Texelwise

import Mathlib.Data.List.Nodup
import Texelwise.Proofs.Source.Interface

/-!
# The stages of a regular program

After the passes for some buffer kinds a regular program is the text before the body with the
declarations of these kinds replaced, and then the image of the body with the rules for these kinds.

* `WrittenProgram.Stage`: what holds of the rules at a stage.
* `WrittenProgram.replaceBuffers_front`: the passes for one kind lead to the next stage.
* `WrittenProgram.replaceAllBuffers_front`: the passes for several kinds, one after another.
-/

namespace Texelwise

open Token

/-! ## Names -/

namespace WrittenProgram

variable {p : WrittenProgram}

theorem mem_names {t : UniformType} {n : Text} :
    n ∈ p.names t ↔ ⟨n, t⟩ ∈ p.uniforms := by
  simp only [names, uniforms, List.mem_map, List.mem_filter, decide_eq_true_eq,
    WrittenDeclaration.declaration, UniformDeclaration.mk.injEq]
  constructor
  · rintro ⟨d, ⟨hd, htype⟩, hname⟩
    exact ⟨d, hd, hname, htype⟩
  · rintro ⟨d, hd, hname, htype⟩
    exact ⟨d, ⟨hd, htype⟩, hname⟩

variable (hp : p.Regular)

include hp

theorem ownName_of_mem_names {t : UniformType} {n : Text} (h : n ∈ p.names t) : OwnName n := by
  obtain ⟨d, hd, rfl⟩ := List.mem_map.mp h
  exact (hp.declarations d (List.mem_of_mem_filter hd)).name

theorem nodup_names (t : UniformType) : (p.names t).Nodup :=
  hp.names_nodup.sublist ((List.filter_sublist).map _)

/-- A name has one type. -/
theorem eq_of_mem_names {t t' : UniformType} {n : Text} (h : n ∈ p.names t)
    (h' : n ∈ p.names t') : t = t' := by
  obtain ⟨d, hd, hname⟩ := List.mem_map.mp h
  obtain ⟨d', hd', hname'⟩ := List.mem_map.mp h'
  obtain ⟨hmem, htype⟩ := List.mem_filter.mp hd
  obtain ⟨hmem', htype'⟩ := List.mem_filter.mp hd'
  have heq : d = d' := List.inj_on_of_nodup_map hp.names_nodup hmem hmem' (hname.trans hname'.symm)
  rw [← of_decide_eq_true htype, ← of_decide_eq_true htype', heq]

end WrittenProgram

theorem generated_field {n : Text} (hn : isIdentifier n = true) {f : Text}
    (hf : f ∈ extentFields) : Generated (bufferMemberName n f) := by
  have hall : ∀ f ∈ extentFields, f.all isWordChar = true := by decide
  exact ⟨isIdentifier_bufferMemberName hn (hall f hf), generated_bufferMemberName n f⟩

/-- The kinds after the first are still new when the first is done. -/
theorem buffer_not_mem_of_nodup {k : BufferKind} {kinds : List BufferKind}
    {done : List UniformType} (hk : k ∉ kinds) (hkinds : ∀ k' ∈ k :: kinds, .buffer k' ∉ done) :
    ∀ k' ∈ kinds, UniformType.buffer k' ∉ .buffer k :: done := by
  intro k' hk' hmem
  rcases List.mem_cons.mp hmem with heq | hmem
  · cases heq
    exact hk hk'
  · exact hkinds k' (List.mem_cons_of_mem k hk') hmem

theorem Rank.mem_extentFields {r : Rank} {f : Text} (h : f ∈ r.fields) : f ∈ extentFields :=
  List.mem_of_mem_take h

theorem hits_textAt_eq_nil_iff {w : Text} {ts : List Token} :
    hits (textAt w) ts = [] ↔ ∀ u ∈ ts, u.text ≠ w := by
  induction ts with
  | nil => simp
  | cons t ts ih =>
    rw [hits, List.append_eq_nil_iff, ih, List.forall_mem_cons]
    simp [textAt]

/-! ## Rules of a stage -/

/-- What stands for the fields of these names. -/
def fieldEntries (kind : BufferKind) (names : List Text) : List ((Text × Text) × Text) :=
  names.flatMap fun n => kind.rank.fields.map fun f => ((n, f), bufferMemberName n f)

/-- The rules with the reads and fields of one more kind. -/
def Rules.withKind (σ : Rules) (kind : BufferKind) (names : List Text) : Rules :=
  (σ.withReads (names.map fun n => (n, kind))).withFields (fieldEntries kind names)

theorem mem_fieldEntries {kind : BufferKind} {names : List Text} {e : (Text × Text) × Text} :
    e ∈ fieldEntries kind names ↔
      e.1.1 ∈ names ∧ e.1.2 ∈ kind.rank.fields ∧ e.2 = bufferMemberName e.1.1 e.1.2 := by
  obtain ⟨⟨n, f⟩, w⟩ := e
  simp only [fieldEntries, List.mem_flatMap, List.mem_map, Prod.mk.injEq]
  constructor
  · rintro ⟨m, hm, g, hg, ⟨rfl, rfl⟩, rfl⟩
    exact ⟨hm, hg, rfl⟩
  · rintro ⟨hn, hf, rfl⟩
    exact ⟨n, hn, f, hf, ⟨rfl, rfl⟩, rfl⟩

namespace WrittenProgram

variable (p : WrittenProgram)

/-- Rules for buffers of the program whose types are in `done`, and for no outputs. -/
structure Stage (done : List UniformType) (σ : Rules) : Prop where
  reads : ∀ e ∈ σ.reads, e.1 ∈ p.names (.buffer e.2) ∧ .buffer e.2 ∈ done
  fields : ∀ e ∈ σ.fields, (∃ k, e.1.1 ∈ p.names (.buffer k)) ∧ Generated e.2
  outputs : ∀ n, σ.output? n = none

/-- The rules with the reads and fields of the buffers of these kinds. -/
def withKinds (σ : Rules) (kinds : List BufferKind) : Rules :=
  kinds.foldl (fun σ k => σ.withKind k (p.names (.buffer k))) σ

variable {p}

theorem mem_reads_withKinds {σ : Rules} {kinds : List BufferKind} {e : Text × BufferKind} :
    e ∈ (p.withKinds σ kinds).reads ↔
      e ∈ σ.reads ∨ e.2 ∈ kinds ∧ e.1 ∈ p.names (.buffer e.2) := by
  induction kinds generalizing σ with
  | nil => simp [withKinds]
  | cons k kinds ih =>
    have hstep : p.withKinds σ (k :: kinds) =
        p.withKinds (σ.withKind k (p.names (.buffer k))) kinds := rfl
    obtain ⟨n, k'⟩ := e
    rw [hstep, ih]
    simp only [Rules.withKind, Rules.withReads, Rules.withFields, List.mem_append, List.mem_map,
      Prod.mk.injEq, List.mem_cons]
    constructor
    · rintro ((h | ⟨m, hm, rfl, rfl⟩) | ⟨hk, hn⟩)
      · exact .inl h
      · exact .inr ⟨.inl rfl, hm⟩
      · exact .inr ⟨.inr hk, hn⟩
    · rintro (h | ⟨rfl | hk, hn⟩)
      · exact .inl (.inl h)
      · exact .inl (.inr ⟨n, hn, rfl, rfl⟩)
      · exact .inr ⟨hk, hn⟩

theorem mem_fields_withKinds {σ : Rules} {kinds : List BufferKind} {e : (Text × Text) × Text} :
    e ∈ (p.withKinds σ kinds).fields ↔
      e ∈ σ.fields ∨ ∃ k ∈ kinds, e ∈ fieldEntries k (p.names (.buffer k)) := by
  induction kinds generalizing σ with
  | nil => simp [withKinds]
  | cons k kinds ih =>
    have hstep : p.withKinds σ (k :: kinds) =
        p.withKinds (σ.withKind k (p.names (.buffer k))) kinds := rfl
    rw [hstep, ih]
    simp [Rules.withKind, Rules.withReads, Rules.withFields, or_assoc]

variable (hp : p.Regular) {done : List UniformType} {σ : Rules}

include hp

namespace Stage

section

variable (hσ : p.Stage done σ)

include hσ

theorem sane : σ.Sane := by
  refine ⟨fun e he => ?_, fun e he => ?_, fun n w h => ?_⟩
  · have hname := ownName_of_mem_names hp (hσ.reads e he).1
    exact ⟨hname.isIdentifier, hname.not_mem_extentFields⟩
  · obtain ⟨⟨k, hk⟩, hgen⟩ := hσ.fields e he
    exact ⟨(ownName_of_mem_names hp hk).not_mem_extentFields, hgen⟩
  · rw [hσ.outputs] at h
    cases h

/-- The names of a kind that is not done have no rules for reads. -/
theorem lookup_eq_none {k : BufferKind} (hk : .buffer k ∉ done) {n : Text}
    (hn : n ∈ p.names (.buffer k)) : σ.reads.lookup n = none := by
  cases hlookup : σ.reads.lookup n with
  | none => rfl
  | some k' =>
    obtain ⟨hmem, hdone⟩ := hσ.reads _ (mem_of_lookup hlookup)
    rw [eq_of_mem_names hp hn hmem] at hk
    exact absurd hdone hk

/-- A site starts at a name of the program. -/
theorem ownName_of_stands {t : Token} {s : Site} {tail : List Token} (h : σ.Stands t s tail) :
    OwnName t.text := by
  cases h with
  | field _ _ _ _ hw =>
    obtain ⟨⟨k, hk⟩, -⟩ := hσ.fields _ (mem_of_lookup hw)
    exact ownName_of_mem_names hp hk
  | output _ _ _ _ _ hw =>
    rw [hσ.outputs] at hw
    cases hw
  | read _ hread => exact ownName_of_mem_names hp (hσ.reads _ (mem_of_lookup hread)).1

omit hp in
theorem withReads (k : BufferKind) :
    p.Stage (.buffer k :: done) (σ.withReads ((p.names (.buffer k)).map fun n => (n, k))) := by
  refine ⟨fun e he => ?_, hσ.fields, hσ.outputs⟩
  rcases List.mem_append.mp he with he | he
  · obtain ⟨hmem, hdone⟩ := hσ.reads e he
    exact ⟨hmem, List.mem_cons_of_mem _ hdone⟩
  · obtain ⟨n, hn, rfl⟩ := List.mem_map.mp he
    exact ⟨hn, List.mem_cons_self⟩

theorem withFields {k : BufferKind} {names : List Text}
    (hnames : ∀ n ∈ names, n ∈ p.names (.buffer k)) :
    p.Stage done (σ.withFields (fieldEntries k names)) := by
  refine ⟨hσ.reads, fun e he => ?_, hσ.outputs⟩
  rcases List.mem_append.mp he with he | he
  · exact hσ.fields e he
  · obtain ⟨hn, hf, hw⟩ := mem_fieldEntries.mp he
    rw [hw]
    exact ⟨⟨k, hnames _ hn⟩, generated_field (ownName_of_mem_names hp (hnames _ hn)).isIdentifier
      (Rank.mem_extentFields hf)⟩

theorem withKind (k : BufferKind) :
    p.Stage (.buffer k :: done) (σ.withKind k (p.names (.buffer k))) :=
  (hσ.withReads k).withFields hp fun _ hn => hn

theorem withKinds (kinds : List BufferKind) :
    p.Stage ((kinds.map .buffer).reverse ++ done) (p.withKinds σ kinds) := by
  induction kinds generalizing σ done with
  | nil => exact hσ
  | cons k kinds ih =>
    have hdone : ((k :: kinds).map UniformType.buffer).reverse ++ done =
        (kinds.map .buffer).reverse ++ .buffer k :: done := by simp
    rw [hdone]
    exact ih (hσ.withKind hp k)

end

end Stage

/-! ## The body at a stage -/

/-- No declaration starts in an image of the body. -/
theorem Stage.ne_uniformWord (hσ : p.Stage done σ) :
    ∀ u ∈ σ.image (tokenize p.body), u.text ≠ uniformWord := by
  have hhead : ∀ t s tail rest, t.kind = .ident → σ.Stands t s tail →
      textAt uniformWord t (tail ++ rest) = none := by
    intro t s tail rest _ hs
    exact if_neg (hσ.ownName_of_stands hp hs).ne_uniformWord
  have hasked : Unasked (textAt uniformWord) (tokenize p.body) :=
    fun pre us _ => if_neg (by decide)
  refine hits_textAt_eq_nil_iff.mp ?_
  rw [(probe_textAt (by decide)).hits_image (hσ.sane hp) hhead proper_tokenize hasked,
    hits_textAt_eq_nil_iff]
  exact hp.no_uniform

theorem Stage.spaced (hσ : p.Stage done σ) : Spaced (σ.image (tokenize p.body)) :=
  Rules.spaced_image (hσ.sane hp) (spaced_body hp)

/-! ## From stage to stage -/

/-- The fields of several names are replaced, one name after another. -/
theorem foldlM_replaceFields (hσ : p.Stage done σ) (kind : BufferKind) {x : Text} (hx : Inert x)
    {names : List Text} (hnames : ∀ n ∈ names, n ∈ p.names (.buffer kind)) :
    names.foldlM
        (fun code name => kind.rank.fields.foldlM (fun code f => replaceField name f code) code)
        (x ++ textOf (σ.image (tokenize p.body))) =
      .ok (x ++ textOf ((σ.withFields (fieldEntries kind names)).image (tokenize p.body))) := by
  induction names generalizing σ with
  | nil => rw [fieldEntries, List.flatMap_nil, Rules.withFields_nil]; rfl
  | cons n names ih =>
    have hmem := hnames n List.mem_cons_self
    have hn := ownName_of_mem_names hp hmem
    have hfields : ∀ f ∈ kind.rank.fields,
        f ∈ extentFields ∧ Generated (bufferMemberName n f) := fun f hf =>
      ⟨Rank.mem_extentFields hf, generated_field hn.isIdentifier (Rank.mem_extentFields hf)⟩
    have hstep := foldlM_field hn.isIdentifier hn.not_mem_extentFields hn.not_generated
      (bufferMemberName n) hfields (hσ.sane hp) (.inl hσ.outputs) hx (spaced_body hp)
    have hentries : fieldEntries kind (n :: names) =
        (kind.rank.fields.map fun f => ((n, f), bufferMemberName n f)) ++
          fieldEntries kind names := List.flatMap_cons
    have hone : fieldEntries kind [n] =
        kind.rank.fields.map fun f => ((n, f), bufferMemberName n f) := List.flatMap_singleton _ _
    have hnext : p.Stage done
        (σ.withFields (kind.rank.fields.map fun f => ((n, f), bufferMemberName n f))) := by
      rw [← hone]
      refine hσ.withFields hp fun m hm => ?_
      rw [List.mem_singleton.mp hm]
      exact hmem
    rw [hentries, Rules.withFields_append, List.foldlM_cons]
    unfold replaceField
    rw [hstep]
    exact ih hnext fun m hm => hnames m (List.mem_cons_of_mem n hm)

section

variable {table : BindingTable} (htable : ∀ d ∈ p.declarations, (table.slot? d.name).isSome)

include htable

/-- The passes for one kind lead to the next stage. -/
theorem replaceBuffers_front (hσ : p.Stage done σ) {kind : BufferKind}
    (hkind : .buffer kind ∉ done) :
    replaceBuffers table kind (p.front table done ++ textOf (σ.image (tokenize p.body))) =
      .ok (p.front table (.buffer kind :: done) ++
        textOf ((σ.withKind kind (p.names (.buffer kind))).image (tokenize p.body))) := by
  have hreads := hσ.withReads kind
  have hall := hσ.withKind hp kind
  have hinert : Inert (p.front table done) := inert_front hp.framed
  have hnames : ∀ {τ : Rules} {done' : List UniformType}, p.Stage done' τ →
      declaredNames kind.word (p.front table done ++ textOf (τ.image (tokenize p.body))) =
        .ok (p.names (.buffer kind)) := fun hτ =>
    declaredNames_front hp.framed (t := .buffer kind) (hτ.spaced hp).separated
      (hτ.ne_uniformWord hp) hkind
  have hsampled : sampleAllReads kind
      (p.front table done ++ textOf (σ.image (tokenize p.body))) =
        .ok (p.front table done ++ textOf ((σ.withReads
          ((p.names (.buffer kind)).map fun n => (n, kind))).image (tokenize p.body))) := by
    rw [sampleAllReads_eq (hnames hσ)]
    exact sampleEach_image kind _ (hσ.sane hp) hσ.outputs
      (fun n hn => ownName_of_mem_names hp hn) (nodup_names hp _)
      (fun n hn => hσ.lookup_eq_none hp hkind hn) hinert (spaced_body hp)
  have hfielded : replaceFields kind (p.front table done ++ textOf ((σ.withReads
      ((p.names (.buffer kind)).map fun n => (n, kind))).image (tokenize p.body))) =
        .ok (p.front table done ++
          textOf ((σ.withKind kind (p.names (.buffer kind))).image (tokenize p.body))) := by
    unfold replaceFields
    rw [hnames hreads]
    exact foldlM_replaceFields hp hreads kind hinert fun n hn => hn
  -- The declarations come last, as the passes before take the names from them.
  unfold replaceBuffers
  rw [hsampled]
  show (replaceFields kind _ >>= fun fielded => replaceDeclarations kind.word table fielded) = _
  rw [hfielded]
  exact replaceDeclarations_front hp.framed (hall.spaced hp).separated (hall.ne_uniformWord hp)
    (.buffer kind) htable

/-- The passes for several kinds lead from stage to stage. -/
theorem replaceAllBuffers_front (hσ : p.Stage done σ) {kinds : List BufferKind}
    (hnodup : kinds.Nodup) (hkinds : ∀ k ∈ kinds, .buffer k ∉ done) :
    (replaceAllBuffers table kinds
        (p.front table done ++ textOf (σ.image (tokenize p.body)))).2 =
      .ok (p.front table ((kinds.map .buffer).reverse ++ done) ++
        textOf ((p.withKinds σ kinds).image (tokenize p.body))) := by
  induction kinds generalizing σ done with
  | nil => rfl
  | cons k kinds ih =>
    obtain ⟨hk, hrest⟩ := List.nodup_cons.mp hnodup
    have hfresh := buffer_not_mem_of_nodup hk hkinds
    have hall := ih (hσ.withKind hp k) hrest hfresh
    have hdone : ((k :: kinds).map UniformType.buffer).reverse ++ done =
        (kinds.map .buffer).reverse ++ .buffer k :: done := by simp
    rw [replaceAllBuffers, replaceBuffers_front hp htable hσ (hkinds k List.mem_cons_self), hdone]
    exact hall

end

end WrittenProgram

end Texelwise

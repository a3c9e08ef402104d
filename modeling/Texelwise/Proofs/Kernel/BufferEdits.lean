import Texelwise.Proofs.Expansion.Tidy
import Texelwise.Proofs.Kernel.Declared
import Texelwise.Proofs.Kernel.Writes

/-!
# The passes for buffers as edits

A pass for a kind of buffers puts samples in the place of reads, members in the place of fields and
textures in the place of declarations. It keeps a tidy text tidy, and a declaration after it was
there before, unless its name is a generated one.

* `edited_round`, `edited_replaceField`: reads and fields, as `BufferEdit`.
* `edited_replaceDeclarations`: declarations, as `TextureEdit`.
* `tidy_round`, `tidy_replaceField`, `tidy_replaceDeclarations`: the passes keep a text tidy.
* `DeclarationOf.infix_of_bufferEdit`, `DeclarationOf.infix_of_textureEdit`: no declaration is new.
-/

namespace Texelwise

open Token

/-! ## Samples -/

theorem SeparatedBy.of_isInfix {R : Token → Char → Prop} {xs ys : List Token}
    (h : SeparatedBy R ys) (hx : xs <:+: ys) : SeparatedBy R xs := by
  obtain ⟨pre, post, rfl⟩ := hx
  exact (separatedBy_append.mp (separatedBy_append.mp h).1).2.1

theorem argument_sample {R : Token → Char → Prop} (hR : EndsAtMarks R) {name : Text}
    (hname : isIdentifier name = true) (kind : BufferKind) {blocks : List (List Token)}
    (h : ∀ b ∈ blocks, SeparatedBy R b) :
    Argument R (sampleTokens name kind (blocks.map trimBlanks)) := by
  refine argument_sampleTokens hR hname kind fun i hi => ?_
  obtain ⟨b, hb, rfl⟩ := List.mem_map.mp hi
  exact argument_trimBlanks (h b hb)

section

variable {name : Text} (hname : isIdentifier name = true) (kind : BufferKind)
  {blocks : List (List Token)}

theorem sampleText_map_textOf (h : ∀ b ∈ blocks, Separated b) :
    sampleText name kind (blocks.map textOf) =
      textOf (sampleTokens name kind (blocks.map trimBlanks)) :=
  (textOf_sampleTokens name kind fun b hb _ hu => (h b hb).proper hu).symm

include hname

/-- The tokens of a sample are those of its text. -/
theorem tokenize_sampleText (h : ∀ b ∈ blocks, Separated b) :
    tokenize (sampleText name kind (blocks.map textOf)) =
      sampleTokens name kind (blocks.map trimBlanks) := by
  rw [sampleText_map_textOf kind h]
  exact tokenize_textOf (argument_sample endsAtMarks_endsAt hname kind h).separated

theorem tidyIn_sampleText (h : ∀ b ∈ blocks, Spaced b) :
    TidyIn (sampleText name kind (blocks.map textOf)) := by
  have hspaced := (argument_sample endsAtMarks_clearOf hname kind h).separated
  obtain ⟨f, first, rest, -, hcall⟩ := exists_sampleTokens_eq name kind (blocks.map trimBlanks)
  have hlast : (textOf (call f first rest)).getLast? = some ')' := by
    rw [textOf_call, ← List.cons_append, ← List.append_assoc, List.getLast?_concat]
  rw [sampleText_map_textOf kind fun b hb => (h b hb).separated]
  refine .inr ⟨Spaced.tidy hspaced, ?_⟩
  rw [hcall, hlast]
  decide

end

/-! ## Reads -/

theorem IsRead.separatedBy {R : Token → Char → Prop} {name : Text} {rank : Rank} {o : Occurrence}
    {t : Token} {tail : List Token} {blocks : List (List Token)}
    (h : IsRead name rank o t tail blocks) (hs : SeparatedBy R o.taken) :
    ∀ b ∈ blocks, SeparatedBy R b := by
  intro b hb
  obtain ⟨pre, post, heq⟩ := h.subscripts.exists_of_mem hb
  refine hs.of_isInfix ⟨t :: pre, mark ']' :: post, ?_⟩
  rw [h.taken, heq]
  simp

/-- A read of a buffer starts with its name as a word. -/
theorem IsRead.eq_word {name : Text} (hname : isIdentifier name = true) {rank : Rank}
    {o : Occurrence} {t : Token} {tail : List Token} {blocks : List (List Token)}
    (h : IsRead name rank o t tail blocks) (hp : ∀ u ∈ o.taken, u.Proper) : t = word name := by
  have hmem : t ∈ o.taken := by
    rw [h.taken]
    exact List.mem_cons_self
  rw [(hp t hmem).eq_word (h.text_eq ▸ hname), h.text_eq]

section

variable {x y : Text} {us : List Token} {m : Match}

/-- What is taken off a part of the tokens of a text. -/
theorem isInfix_taken {p : Pattern} (hus : us <:+ tokenize x) (hm : p.match? us = some m) :
    m.taken <:+: tokenize x := by
  rw [← Pattern.match?_append hm] at hus
  exact (List.prefix_append _ _).isInfix.trans hus.isInfix

variable {name : Text} (hname : isIdentifier name = true)

include hname

/-- A round edits the text by samples. -/
theorem edited_round (hthread : name ≠ threadWord) (kind : BufferKind)
    (h : (Pattern.bufferRead name kind.rank).replaceAll
      (fun o => sampleText name kind o.captures) x = .ok y) :
    Edited BufferEdit (tokenize x) (tokenize y) := by
  refine Pattern.edited_replaceAll rfl (fun us m hus hm => ?_) h
  have hproper : ∀ u ∈ us, u.Proper := fun u hu => proper_tokenize u (hus.subset hu)
  have hseparated : Separated m.taken := (separated_tokenize x).of_isInfix (isInfix_taken hus hm)
  obtain ⟨t, tail, blocks, hread⟩ := exists_isRead hproper hm
  obtain rfl := hread.eq_word hname fun u hu => hseparated.proper hu
  have htaken : m.taken = word name :: tail := hread.taken
  refine ⟨seamless_sampleText (startsName_taken hname hm) name kind m.captures, .inl ?_⟩
  have hcaptures : m.captures = blocks.map textOf := hread.captures
  rw [htaken, hcaptures, tokenize_sampleText hname kind (hread.separatedBy hseparated)]
  refine .read kind hname hthread hread.subscripts fun u hu => hseparated.proper ?_
  rw [htaken]
  exact List.mem_cons_of_mem _ hu

/-- A round keeps a text tidy. -/
theorem tidy_round (kind : BufferKind) (hx : Tidy x)
    (h : (Pattern.bufferRead name kind.rank).replaceAll
      (fun o => sampleText name kind o.captures) x = .ok y) : Tidy y := by
  refine Pattern.tidy_replaceAll rfl (fun us m hus hm => ?_) h hx
  have hproper : ∀ u ∈ us, u.Proper := fun u hu => proper_tokenize u (hus.subset hu)
  have hspaced : Spaced m.taken := (spaced_tokenize hx).of_isInfix (isInfix_taken hus hm)
  obtain ⟨t, tail, blocks, hread⟩ := exists_isRead hproper hm
  have hcaptures : m.captures = blocks.map textOf := hread.captures
  refine ⟨startsName_taken hname hm, ?_⟩
  rw [hcaptures]
  exact tidyIn_sampleText hname kind (hread.separatedBy hspaced)

end

/-! ## Fields -/

section

variable {x y name f : Text} (hname : isIdentifier name = true) (hf : f ∈ extentFields)

include hname hf

theorem edited_replaceField (hthread : name ≠ threadWord)
    (h : replaceField name f x = .ok y) : Edited BufferEdit (tokenize x) (tokenize y) := by
  have hfield := isIdentifier_of_mem_extentFields hf
  have hmember := isIdentifier_bufferMemberName hname (all_of_isIdentifier hfield)
  refine Pattern.edited_replaceAll rfl (fun us m hus hm => ?_) h
  have hproper : ∀ u ∈ us, u.Proper := fun u hu => proper_tokenize u (hus.subset hu)
  obtain ⟨gap, gap', hgap, hgap', htaken⟩ := match?_field_eq_some hname hfield hproper hm
  refine ⟨seamless_field hname hfield hmember hproper hm, .inl ?_⟩
  rw [htaken, tokenize_of_isIdentifier hmember]
  refine .field hthread hf hgap hgap' fun u hu => ?_
  have hmem : u ∈ m.taken := by
    rw [htaken]
    rcases List.mem_append.mp hu with hu | hu <;> simp [hu]
  exact proper_tokenize u ((isInfix_taken hus hm).subset hmem)

theorem tidy_replaceField (hx : Tidy x) (h : replaceField name f x = .ok y) : Tidy y := by
  have hmember := isIdentifier_bufferMemberName hname
    (all_of_isIdentifier (isIdentifier_of_mem_extentFields hf))
  have hbracket : ']' ∉ bufferMemberName name f := fun hmem =>
    absurd (List.all_eq_true.mp (all_of_isIdentifier hmember) _ hmem) (by decide)
  refine Pattern.tidy_replaceAll rfl (fun us m hus hm =>
    ⟨startsName_taken hname hm, .inr ⟨tidy_of_not_mem hbracket, fun hlast => ?_⟩⟩) h hx
  exact hbracket (List.mem_of_mem_getLast? hlast)

end

/-! ## Textures -/

/-- What the table puts in the place of a declaration. -/
def BindingTable.replacement (table : BindingTable) (o : Occurrence) : Text :=
  match table.slot? (o.capture 0) with
  | some slot => slot.declarationText
  | none => o.text

theorem replaceDeclarations_eq (type : Text) (table : BindingTable) (x : Text) :
    replaceDeclarations type table x =
      (Pattern.declaration (.literal type)).replaceAll table.replacement x :=
  rfl

theorem BindingTable.replacement_cases (table : BindingTable) (o : Occurrence) :
    table.replacement o = o.text ∨
      ∃ slot, table.slot? (o.capture 0) = some slot ∧
        ((slot.texture = none ∧ table.replacement o = []) ∨
          ∃ binding, slot.texture = some binding ∧
            table.replacement o = textureText binding (o.capture 0)) := by
  unfold replacement
  cases hslot : table.slot? (o.capture 0) with
  | none => exact .inl rfl
  | some slot =>
    refine .inr ⟨slot, rfl, ?_⟩
    cases htexture : slot.texture with
    | none => exact .inl ⟨rfl, by simp only [UniformSlot.declarationText, htexture]⟩
    | some binding =>
      refine .inr ⟨binding, rfl, ?_⟩
      rw [← BindingTable.name_eq_of_slot? hslot]
      exact UniformSlot.declarationText_of_texture htexture

section

variable {name : Text} (hname : isIdentifier name = true) (binding : Nat)

include hname

theorem tokenize_textureText : tokenize (textureText binding name) =
    tokenize (layoutText ++ Text.ofNat binding) ++ mark ')' :: blank [' '] ::
      declarationTokens textureWord (textureName name) [' '] [' '] [] := by
  have hspace : Blank [' '] := fun _ => isBlank_of_mem_space
  have hnil : Blank [] := fun _ hc => absurd hc List.not_mem_nil
  have htype : isIdentifier textureWord = true := by decide
  have hline := tokenize_declarationText htype (isIdentifier_textureName hname) hspace
    (List.cons_ne_nil _ _) hspace (List.cons_ne_nil _ _) hnil
  have hhead : ∀ c ∈ (declarationText textureWord (textureName name) [' '] [' '] []).head?,
      Text.isBlank c = false := head_of_isIdentifier (by decide) _
  rw [textureText, List.append_assoc, List.singleton_append, tokenize_append_mark (by decide),
    tokenize_blank (List.cons_ne_nil _ _) hspace hhead, hline]

theorem exists_textureText_eq : ∃ more, textureText binding name = more ++ [';'] ∧
    ']' ∉ textureText binding name := by
  refine ⟨layoutText ++ Text.ofNat binding ++ [')'] ++ ([' '] ++ (uniformWord ++ ([' '] ++
    (textureWord ++ ([' '] ++ textureName name))))), ?_, fun hmem => ?_⟩
  · rw [textureText, declarationText]
    simp only [List.append_assoc, List.nil_append]
  · exact absurd (isLineChar_of_mem_textureText hname hmem) (by decide)

end

theorem DeclarationOf.exists_textOf_eq {type name : Text} {w : List Token}
    (h : DeclarationOf type name w) : StartsName (textOf w) ∧ ∃ more, textOf w = more ++ [';'] := by
  obtain ⟨⟩ := h
  rename_i b t b' n gap _ _ _ _ _ _ _
  refine ⟨startsName_of_isIdentifier (w := uniformWord) (by decide) _,
    textOf (word uniformWord :: b :: t :: b' :: n :: gap), ?_⟩
  simp [mark]

/-- A texture in the place of a declaration. -/
inductive TextureEdit : List Token → List Token → Prop
  | mk {type name : Text} {w : List Token} (hw : DeclarationOf type name w)
      (hname : isIdentifier name = true) (binding : Nat) :
      TextureEdit w (tokenize (textureText binding name))

section

variable {table : BindingTable} {x y : Text}

/-- Where all declarations of a kind get textures, the pass edits the text by textures. -/
theorem edited_replaceDeclarations {kind : BufferKind}
    (htable : ∀ name, DeclaresBuffer x kind name → isIdentifier name = true ∧
      ∀ slot, table.slot? name = some slot → slot.texture.isSome)
    (h : replaceDeclarations kind.word table x = .ok y) :
    Edited TextureEdit (tokenize x) (tokenize y) := by
  rw [replaceDeclarations_eq] at h
  refine Pattern.edited_replaceAll (consumes_declaration _) (fun us m hus hm => ?_) h
  obtain ⟨name, hdeclares, hw, hcaptures⟩ := declaresBuffer_of_match? hus hm
  obtain ⟨hname, hslot⟩ := htable name hdeclares
  obtain ⟨hstarts, more, hmore⟩ := hw.exists_textOf_eq
  have hcapture : (⟨m.taken, m.captures⟩ : Occurrence).capture 0 = name := by
    rw [Occurrence.capture, hcaptures]
    rfl
  rcases table.replacement_cases ⟨m.taken, m.captures⟩ with hsame | ⟨slot, hs, hnone | htexture⟩
  · have hseparated : Separated m.taken := (separated_tokenize x).of_isInfix (isInfix_taken hus hm)
    rw [hsame]
    refine ⟨?_, .inr (tokenize_textOf hseparated)⟩
    show Seamless m.taken (textOf m.taken)
    rw [hmore] at hstarts ⊢
    exact .of_mark (by rwa [hmore]) (by decide) hstarts
  · have hsome := hslot slot (by rw [← hcapture]; exact hs)
    rw [hnone.1] at hsome
    cases hsome
  · obtain ⟨binding, -, htext⟩ := htexture
    rw [hcapture] at htext
    obtain ⟨front, hfront, -⟩ := exists_textureText_eq hname binding
    rw [htext]
    refine ⟨?_, .inl (.mk hw hname binding)⟩
    have htexture : StartsName (textureText binding name) := ⟨'l', _, rfl, by decide⟩
    rw [hfront] at htexture ⊢
    exact .of_mark hstarts (by decide) htexture

/-- Replacing declarations keeps a text tidy. -/
theorem tidy_replaceDeclarations {type : Text} (htype : isIdentifier type = true)
    (htable : ∀ name slot, table.slot? name = some slot → slot.texture.isSome →
      isIdentifier name = true) (hx : Tidy x) (h : replaceDeclarations type table x = .ok y) :
    Tidy y := by
  rw [replaceDeclarations_eq] at h
  refine Pattern.tidy_replaceAll (consumes_declaration _) (fun us m hus hm => ?_) h hx
  obtain ⟨name, hw, -⟩ :=
    match?_declaration_literal htype (fun u hu => proper_tokenize u (hus.subset hu)) hm
  obtain ⟨hstarts, more, hmore⟩ := hw.exists_textOf_eq
  have hlast : ∀ front : Text, ']' ∉ (front ++ [';']).getLast? := by simp
  refine ⟨hstarts, ?_⟩
  rcases table.replacement_cases ⟨m.taken, m.captures⟩ with hsame | ⟨slot, hs, hnone | htexture⟩
  · have hspaced : Spaced m.taken := (spaced_tokenize hx).of_isInfix (isInfix_taken hus hm)
    rw [hsame]
    refine .inr ⟨Spaced.tidy hspaced, ?_⟩
    show ']' ∉ (textOf m.taken).getLast?
    rw [hmore]
    exact hlast more
  · exact .inl hnone.2
  · obtain ⟨binding, hbinding, htext⟩ := htexture
    have hname := htable _ slot hs (by rw [hbinding]; rfl)
    obtain ⟨front, hfront, hbracket⟩ := exists_textureText_eq hname binding
    rw [htext]
    refine .inr ⟨tidy_of_not_mem hbracket, ?_⟩
    rw [hfront]
    exact hlast front

end

/-! ## Declarations before and after -/

theorem uniformWord_ne_bufferMemberName (name member : Text) :
    uniformWord ≠ bufferMemberName name member := by
  intro heq
  have hgenerated := generated_bufferMemberName name member
  rw [← heq] at hgenerated
  exact absurd hgenerated (by decide)

theorem isInfix_trimBlanks (ts : List Token) : trimBlanks ts <:+: ts := by
  obtain ⟨pre, post, heq, -⟩ := exists_trimBy Token.isSpace ts
  exact ⟨pre, post, by rw [List.append_assoc]; exact heq.symm⟩

section

variable {kind : BufferKind} {name : Text} {w : List Token} (h : DeclarationOf kind.word name w)

include h

/-- The tokens of a declaration are words, numbers, blanks and the semicolon at the end. -/
theorem DeclarationOf.mark_not_mem {c : Char} (hc : c ≠ ';') : mark c ∉ w := by
  obtain ⟨hb, ht, -, hb', hn, -, hgap⟩ := h
  have hword : ∀ t : Token, t.kind = .ident ∨ t.kind = .number → mark c ≠ t := by
    rintro t ht rfl
    rcases ht with ht | ht <;> cases ht
  have hspace : ∀ t : Token, t.kind = .space → mark c ≠ t := by
    rintro t ht rfl
    cases ht
  simp only [List.mem_cons, List.mem_append, List.not_mem_nil, or_false, not_or]
  refine ⟨hword _ (.inl rfl), hspace _ hb, hword _ ht, hspace _ hb', hword _ hn,
    fun hmem => hspace _ (hgap.kind_eq hmem) rfl, fun heq => hc ?_⟩
  simpa [mark] using heq

theorem DeclarationOf.exists_getLast? : ∃ us, w = word uniformWord :: us ∧
    us.getLast? = some (mark ';') := by
  obtain ⟨⟩ := h
  rename_i b t b' n gap _ _ _ _ _ _ _
  refine ⟨_, rfl, ?_⟩
  show ((b :: t :: b' :: n :: gap) ++ [mark ';']).getLast? = _
  exact List.getLast?_concat

/-- A generated word is in a declaration only as the name. -/
theorem DeclarationOf.word_not_mem (hname : ¬ "nc_".toList <+: name) {f : Text}
    (hf : "nc_".toList <+: f) : word f ∉ w := by
  obtain ⟨hb, -, htype, hb', -, hn, hgap⟩ := h
  have hspace : ∀ t : Token, t.kind = .space → word f ≠ t := by
    rintro t ht rfl
    cases ht
  have hkinds : ∀ k : BufferKind, ¬ "nc_".toList <+: k.word := fun k => by
    have hall : ∀ k ∈ BufferKind.all, ¬ "nc_".toList <+: k.word := by decide
    exact hall k (BufferKind.mem_all k)
  simp only [List.mem_cons, List.mem_append, List.not_mem_nil, or_false, not_or]
  refine ⟨fun heq => ?_, hspace _ hb, fun heq => ?_, hspace _ hb', fun heq => ?_,
    fun hmem => hspace _ (hgap.kind_eq hmem) rfl, fun heq => ?_⟩
  · obtain rfl : f = uniformWord := congrArg Token.text heq
    exact absurd hf (by decide)
  · rw [← heq] at htype
    exact hkinds kind (htype ▸ hf)
  · rw [← heq] at hn
    exact hname (hn ▸ hf)
  · cases heq

/-- Samples and fields bring no declarations, but with generated names. -/
theorem DeclarationOf.infix_of_bufferEdit (hname : ¬ "nc_".toList <+: name) {ts us : List Token}
    (hedited : Edited BufferEdit ts us) (hw : w <:+: us) : w <:+: ts := by
  have hopen := h.mark_not_mem (c := '(') (by decide)
  have hcomma := h.mark_not_mem (c := ',') (by decide)
  have hclose := h.mark_not_mem (c := ')') (by decide)
  have hword : ∀ f, "nc_".toList <+: f → word f ∉ w := fun f => h.word_not_mem hname
  obtain ⟨vs, rfl, hlast⟩ := h.exists_getLast?
  refine hedited.infix_of_infix (fun old new hedit => ?_) (fun old new hedit => ?_) hw
  · cases hedit with
    | read kind =>
      obtain ⟨f, first, rest, -, hcall⟩ := exists_sampleTokens_eq _ kind _
      rw [hcall]
      refine .of_stop [word f] (fun hmem => hopen (List.mem_cons_of_mem _ hmem)) fun t ht => ?_
      obtain rfl : mark ';' = t := Option.some.inj (hlast.symm.trans ht)
      simp [mark, word]
    | field =>
      exact .of_not_mem fun hmem =>
        hword _ (generated_bufferMemberName _ _) (List.mem_cons_of_mem _ hmem)
  · cases hedit with
    | @read name' tail blocks kind' hname' _ htail _ =>
      refine startsOnly_sampleTokens hcomma hclose rfl (by decide) (by decide) kind' ?_
      intro i hi hin
      obtain ⟨b, hb, rfl⟩ := List.mem_map.mp hi
      obtain ⟨pre, post, rfl⟩ := htail.exists_of_mem hb
      have hindex : b <:+: word name' :: (pre ++ (b ++ mark ']' :: post)) :=
        ⟨word name' :: pre, mark ']' :: post, by simp⟩
      exact (hin.trans (isInfix_trimBlanks b)).trans hindex
    | field =>
      exact .of_not_mem fun hmem =>
        uniformWord_ne_bufferMemberName _ _ (congrArg Token.text (List.mem_singleton.mp hmem))

/-- Textures bring no declarations of buffers. -/
theorem DeclarationOf.infix_of_textureEdit {ts us : List Token} (hedited : Edited TextureEdit ts us)
    (hw : w <:+: us) : w <:+: ts := by
  have hopen := h.mark_not_mem (c := '(') (by decide)
  have htype : ∀ (name : Text) (zs : List Token),
      ¬ w <+: declarationTokens textureWord (textureName name) [' '] [' '] [] ++ zs := by
    intro name zs hw
    obtain ⟨-, -, htype, -, -, -, -⟩ := h
    simp only [declarationTokens, List.cons_append, List.cons_prefix_cons] at hw
    rw [hw.2.2.1] at htype
    have hkinds : ∀ k ∈ BufferKind.all, textureWord ≠ k.word := by decide
    exact hkinds kind (BufferKind.mem_all kind) htype
  obtain ⟨vs, rfl, hlast⟩ := h.exists_getLast?
  refine hedited.infix_of_infix (fun old new hedit => ?_) (fun old new hedit => ?_) hw
  · obtain ⟨-, hname, binding⟩ := hedit
    have hlayout : layoutText = "layout".toList ++ '(' :: "set = 0, binding = ".toList := rfl
    rw [tokenize_textureText hname, hlayout, List.append_assoc, List.cons_append,
      tokenize_append_mark (by decide), tokenize_of_isIdentifier (by decide)]
    refine .of_stop [word "layout".toList] (fun hmem => hopen (List.mem_cons_of_mem _ hmem))
      fun t ht => ?_
    obtain rfl : mark ';' = t := Option.some.inj (hlast.symm.trans ht)
    simp [mark, word]
  · obtain ⟨-, hname, binding⟩ := hedit
    rw [tokenize_textureText hname]
    -- There is one `uniform` in the text of a texture, and another type comes after it.
    have hfront : word uniformWord ∉ tokenize (layoutText ++ Text.ofNat binding) := by
      intro hmem
      refine ne_uniformWord_of_not_mem (c := 'f') (by decide) (fun hf => ?_) hmem rfl
      rcases List.mem_append.mp hf with hf | hf
      · exact absurd hf (by decide)
      · exact absurd (isDigit_of_mem_ofNat hf) (by decide)
    have hmarks : word uniformWord ∉ [mark ')', blank [' ']] := by decide
    refine .append (.of_not_mem hfront) (.append (.of_not_mem hmarks)
      (.cons (fun zs hw => absurd hw (htype _ zs)) (.of_not_mem ?_)))
    · intro hmem
      simp only [blanks, if_true, List.nil_append, List.mem_cons, List.not_mem_nil,
        or_false] at hmem
      rcases hmem with heq | heq | heq | heq | heq
      · cases heq
      · exact absurd heq (by decide)
      · cases heq
      · exact uniformWord_ne_bufferMemberName _ _ (congrArg Token.text heq)
      · cases heq

end

end Texelwise

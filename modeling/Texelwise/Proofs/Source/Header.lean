import Texelwise.Proofs.Source.Declarations

/-!
# Written headers

A header in a program is `[<outputs>] thread (<parameters>)` with blanks between. This module reads
such text with the patterns of the compiler.

* `WrittenHeader`: a header with its blanks; `WrittenHeader.text`.
* `WrittenHeader.read?_tokens`: the header pattern captures the outputs and the parameters.
* `WrittenHeader.readHeader_eq`: the captures describe the signature.
* `Sweep.Turns.header`, `Sweep.Turns.declaration_header`: what sweeps give on a header.
-/

namespace Texelwise

open Token

/-! ## Lists with commas -/

theorem cut_of_not_mem {separator : Char} {p : Text} (h : separator ∉ p) :
    Text.cut separator p = [p] := by
  induction p with
  | nil => rfl
  | cons c p ih =>
    rw [List.mem_cons, not_or] at h
    rw [Text.cut, if_neg (Ne.symm h.1), ih h.2]
    rfl

theorem cut_append_of_not_mem {separator : Char} {p : Text} (h : separator ∉ p) (rest : Text) :
    Text.cut separator (p ++ separator :: rest) = p :: Text.cut separator rest := by
  induction p with
  | nil => simp [Text.cut]
  | cons c p ih =>
    rw [List.mem_cons, not_or] at h
    rw [List.cons_append, Text.cut, if_neg (Ne.symm h.1), ih h.2]
    rfl

/-- The parts of a list are the parts between its commas. -/
theorem cut_intercalate {separator : Char} {parts : List Text} (hne : parts ≠ [])
    (h : ∀ p ∈ parts, separator ∉ p) :
    Text.cut separator ([separator].intercalate parts) = parts := by
  induction parts with
  | nil => exact absurd rfl hne
  | cons p parts ih =>
    have hp := h p List.mem_cons_self
    cases parts with
    | nil =>
      rw [List.intercalate_singleton]
      exact cut_of_not_mem hp
    | cons q parts =>
      rw [List.intercalate_cons_cons, List.append_assoc, List.singleton_append,
        cut_append_of_not_mem hp,
        ih (List.cons_ne_nil q parts) fun r hr => h r (List.mem_cons_of_mem p hr)]

theorem mem_intercalate {separator c : Char} {parts : List Text}
    (h : c ∈ [separator].intercalate parts) : c = separator ∨ ∃ p ∈ parts, c ∈ p := by
  induction parts with
  | nil => cases h
  | cons p parts ih =>
    cases parts with
    | nil =>
      rw [List.intercalate_singleton] at h
      exact .inr ⟨p, List.mem_cons_self, h⟩
    | cons q parts =>
      rw [List.intercalate_cons_cons, List.append_assoc, List.singleton_append] at h
      rcases List.mem_append.mp h with h | h
      · exact .inr ⟨p, List.mem_cons_self, h⟩
      · rcases List.mem_cons.mp h with h | h
        · exact .inl h
        · rcases ih h with h | ⟨r, hr, hc⟩
          · exact .inl h
          · exact .inr ⟨r, List.mem_cons_of_mem p hr, hc⟩

/-- The trimmed text between blanks. -/
theorem trim_blanks {before w after : Text} (hb : Blank before) (ha : Blank after)
    (hhead : ∀ c ∈ w.head?, Text.isBlank c = false)
    (hlast : ∀ c ∈ w.getLast?, Text.isBlank c = false) :
    Text.trim (before ++ (w ++ after)) = w :=
  trimBy_eq hb ha hhead hlast

/-! ## Headers -/

/-- One output of a header with the blanks around it. -/
structure WrittenOutput where
  before : Text
  element : ElementKind
  after : Text
  deriving DecidableEq, Repr

def WrittenOutput.text (o : WrittenOutput) : Text := o.before ++ (o.element.word ++ o.after)

/-- One parameter `int <name>` of a header with its blanks. -/
structure WrittenParameter where
  before : Text
  between : Text
  name : Text
  after : Text
  deriving DecidableEq, Repr

def WrittenParameter.text (p : WrittenParameter) : Text :=
  p.before ++ ("int".toList ++ (p.between ++ (p.name ++ p.after)))

/-- A parameter with blanks where they belong. -/
structure WrittenParameter.WellFormed (p : WrittenParameter) : Prop where
  before : Blank p.before
  between : Blank p.between
  between_ne_nil : p.between ≠ []
  name : isIdentifier p.name = true
  after : Blank p.after

instance (p : WrittenParameter) : Decidable p.WellFormed :=
  decidable_of_iff (Blank p.before ∧ Blank p.between ∧ p.between ≠ [] ∧
      isIdentifier p.name = true ∧ Blank p.after)
    ⟨fun ⟨h₁, h₂, h₃, h₄, h₅⟩ => ⟨h₁, h₂, h₃, h₄, h₅⟩,
      fun ⟨h₁, h₂, h₃, h₄, h₅⟩ => ⟨h₁, h₂, h₃, h₄, h₅⟩⟩

/-- A header `[<outputs>] thread (<parameters>)` with its blanks. -/
structure WrittenHeader where
  outputs : List WrittenOutput
  afterOutputs : Text
  afterThread : Text
  parameters : List WrittenParameter
  deriving DecidableEq, Repr

namespace WrittenHeader

variable (h : WrittenHeader)

def outputsText : Text := [','].intercalate (h.outputs.map WrittenOutput.text)

def parametersText : Text := [','].intercalate (h.parameters.map WrittenParameter.text)

/-- The header up to its opening parenthesis. -/
def front : Text :=
  '[' :: (h.outputsText ++ (']' :: (h.afterOutputs ++ (threadWord ++ (h.afterThread ++ ['('])))))

def text : Text := h.front ++ (h.parametersText ++ [')'])

/-- The function header in its place. -/
def functionText : Text := "void thread(".toList ++ Text.trim h.parametersText ++ [')']

/-- A header with at least one output and one to three parameters, and blanks where they belong. -/
structure WellFormed : Prop where
  outputs_ne_nil : h.outputs ≠ []
  outputs : ∀ o ∈ h.outputs, Blank o.before ∧ Blank o.after
  afterOutputs : Blank h.afterOutputs
  afterThread : Blank h.afterThread
  parameters_pos : 1 ≤ h.parameters.length
  parameters_le : h.parameters.length ≤ 3
  parameters : ∀ p ∈ h.parameters, p.WellFormed

instance : Decidable h.WellFormed :=
  decidable_of_iff (h.outputs ≠ [] ∧ (∀ o ∈ h.outputs, Blank o.before ∧ Blank o.after) ∧
      Blank h.afterOutputs ∧ Blank h.afterThread ∧ 1 ≤ h.parameters.length ∧
      h.parameters.length ≤ 3 ∧ ∀ p ∈ h.parameters, p.WellFormed)
    ⟨fun ⟨h₁, h₂, h₃, h₄, h₅, h₆, h₇⟩ => ⟨h₁, h₂, h₃, h₄, h₅, h₆, h₇⟩,
      fun ⟨h₁, h₂, h₃, h₄, h₅, h₆, h₇⟩ => ⟨h₁, h₂, h₃, h₄, h₅, h₆, h₇⟩⟩

/-- The signature that the header gives. -/
def signature : ThreadSignature :=
  ⟨(Rank.ofNat? h.parameters.length).getD .one, h.outputs.map WrittenOutput.element⟩

end WrittenHeader

/-! ## Characters -/

/-- Characters of words, blanks and commas. -/
def isPlain (c : Char) : Bool := isWordChar c || Text.isBlank c || c = ','

theorem isPlain_of_mem_word {w : Text} (hw : isIdentifier w = true) {c : Char} (hc : c ∈ w) :
    isPlain c = true := by
  have hword := List.all_eq_true.mp (all_of_isIdentifier hw) c hc
  simp [isPlain, hword]

theorem isPlain_of_blank {w : Text} (hw : Blank w) {c : Char} (hc : c ∈ w) :
    isPlain c = true := by
  simp [isPlain, hw c hc]

theorem comma_not_mem_of_blank {w : Text} (hblank : Blank w) : ',' ∉ w :=
  fun hmem => absurd (hblank ',' hmem) (by decide)

theorem comma_not_mem_of_isIdentifier {w : Text} (hident : isIdentifier w = true) : ',' ∉ w :=
  fun hmem => absurd (List.all_eq_true.mp (all_of_isIdentifier hident) ',' hmem) (by decide)

theorem ElementKind.isIdentifier_word (e : ElementKind) : isIdentifier e.word = true := by
  cases e <;> decide

/-- Plain text is a code block. -/
theorem balanced_tokenize {x : Text} (hx : ∀ c ∈ x, isPlain c = true) : Balanced (tokenize x) := by
  refine balanced_of_other fun u hu => ?_
  have hne : ∀ c, isPlain c = false → u.text ≠ [c] := by
    intro c hc htext
    have := hx c (mem_of_mem_tokenize hu (by rw [htext]; exact List.mem_singleton_self c))
    rw [hc] at this
    cases this
  simp [role, hne '(' (by decide), hne ')' (by decide), hne '[' (by decide), hne ']' (by decide),
    hne '\x7b' (by decide), hne '\x7d' (by decide), hne ';' (by decide)]

theorem tokenize_ne_nil {x : Text} (hx : x ≠ []) : tokenize x ≠ [] := by
  intro h
  rw [← textOf_tokenize x, h] at hx
  exact hx rfl

namespace WrittenHeader

variable {h : WrittenHeader} (hw : h.WellFormed)

include hw

theorem isPlain_outputsText : ∀ c ∈ h.outputsText, isPlain c = true := by
  intro c hc
  rcases mem_intercalate hc with rfl | ⟨part, hpart, hc⟩
  · decide
  · obtain ⟨o, ho, rfl⟩ := List.mem_map.mp hpart
    obtain ⟨hbefore, hafter⟩ := hw.outputs o ho
    simp only [WrittenOutput.text, List.mem_append] at hc
    rcases hc with hc | hc | hc
    · exact isPlain_of_blank hbefore hc
    · exact isPlain_of_mem_word o.element.isIdentifier_word hc
    · exact isPlain_of_blank hafter hc

theorem isPlain_parametersText : ∀ c ∈ h.parametersText, isPlain c = true := by
  intro c hc
  rcases mem_intercalate hc with rfl | ⟨part, hpart, hc⟩
  · decide
  · obtain ⟨p, hp, rfl⟩ := List.mem_map.mp hpart
    have hp := hw.parameters p hp
    simp only [WrittenParameter.text, List.mem_append] at hc
    rcases hc with hc | hc | hc | hc | hc
    · exact isPlain_of_blank hp.before hc
    · exact isPlain_of_mem_word (by decide) hc
    · exact isPlain_of_blank hp.between hc
    · exact isPlain_of_mem_word hp.name hc
    · exact isPlain_of_blank hp.after hc

theorem outputsText_ne_nil : h.outputsText ≠ [] := by
  obtain ⟨o, os, hos⟩ := List.exists_cons_of_ne_nil hw.outputs_ne_nil
  have hword : o.element.word ≠ [] := by cases o.element <;> decide
  intro hnil
  rw [outputsText, hos, List.map_cons] at hnil
  cases os with
  | nil =>
    rw [List.map_nil, List.intercalate_singleton] at hnil
    simp [WrittenOutput.text, hword] at hnil
  | cons q qs =>
    rw [List.map_cons, List.intercalate_cons_cons] at hnil
    simp at hnil

theorem parametersText_ne_nil : h.parametersText ≠ [] := by
  obtain ⟨p, ps, hps⟩ := List.exists_cons_of_length_pos hw.parameters_pos
  intro hnil
  rw [parametersText, hps, List.map_cons] at hnil
  cases ps with
  | nil =>
    rw [List.map_nil, List.intercalate_singleton] at hnil
    simp [WrittenParameter.text] at hnil
  | cons q qs =>
    rw [List.map_cons, List.intercalate_cons_cons] at hnil
    simp at hnil

/-! ## Reading a header -/

theorem tokenize_text (x : Text) : tokenize (h.text ++ x) =
    mark '[' :: (tokenize h.outputsText ++ mark ']' :: (blanks h.afterOutputs ++ word threadWord ::
      (blanks h.afterThread ++ mark '(' :: (tokenize h.parametersText ++
        mark ')' :: tokenize x)))) := by
  have htext : h.text ++ x = '[' :: (h.outputsText ++ ']' :: (h.afterOutputs ++ (threadWord ++
      (h.afterThread ++ '(' :: (h.parametersText ++ ')' :: x))))) := by
    simp [text, front]
  rw [htext, tokenize_mark (by decide), tokenize_append_mark (by decide),
    tokenize_blanks hw.afterOutputs (head_of_isIdentifier (by decide) _),
    tokenize_word_blanks_mark (by decide) hw.afterThread (by decide),
    tokenize_append_mark (by decide)]

/-- The header pattern captures the outputs and the parameters. -/
theorem read?_tokens {zs : List Token} (hzs : ∀ u ∈ zs, u.Proper) :
    Pattern.header.read? (tokenize h.text ++ zs) =
      some ([h.outputsText, h.parametersText], zs) := by
  have htokens := tokenize_text hw []
  rw [List.append_nil, tokenize_nil] at htokens
  have hsplit : tokenize h.text ++ zs = mark '[' :: (tokenize h.outputsText ++ mark ']' ::
      (blanks h.afterOutputs ++ word threadWord :: (blanks h.afterThread ++ mark '(' ::
        (tokenize h.parametersText ++ mark ')' :: zs)))) := by
    rw [htokens]
    simp
  have hproper : ∀ u ∈ tokenize h.text ++ zs, u.Proper := by
    intro u hu
    rcases List.mem_append.mp hu with hu | hu
    · exact (separated_tokenize h.text).proper hu
    · exact hzs u hu
  rw [hsplit] at hproper ⊢
  have houtputs := (enclosed?_eq_some_iff (o := '[') role_close).mpr
    ⟨balanced_tokenize (isPlain_outputsText hw), tokenize_ne_nil (outputsText_ne_nil hw), [], .none,
      (List.nil_append (mark '[' :: (tokenize h.outputsText ++ mark ']' ::
        (blanks h.afterOutputs ++ word threadWord :: (blanks h.afterThread ++ mark '(' ::
          (tokenize h.parametersText ++ mark ')' :: zs)))))).symm⟩
  have hthread : next? (· = word threadWord) (skipBlank (blanks h.afterOutputs ++
      word threadWord :: (blanks h.afterThread ++ mark '(' ::
        (tokenize h.parametersText ++ mark ')' :: zs)))) = some (word threadWord,
          blanks h.afterThread ++ mark '(' :: (tokenize h.parametersText ++ mark ')' :: zs)) := by
    refine (next?_skipBlank_eq_some_iff fun t ht => decide_eq_false ?_).mpr
      ⟨by simp, blanks h.afterOutputs, gap_blanks _, rfl⟩
    rintro rfl
    cases ht
  have hparameters := (enclosed?_eq_some_iff (o := '(') role_closeParen).mpr
    ⟨balanced_tokenize (isPlain_parametersText hw), tokenize_ne_nil (parametersText_ne_nil hw),
      blanks h.afterThread, gap_blanks _,
      (rfl : blanks h.afterThread ++ mark '(' :: (tokenize h.parametersText ++ mark ')' :: zs) =
        blanks h.afterThread ++ mark '(' :: (tokenize h.parametersText ++ mark ')' :: zs))⟩
  rw [Pattern.read?_header fun u hu => hproper u (List.mem_cons_of_mem _ hu), houtputs]
  simp only [Option.bind_some, hthread, hparameters, Option.map_some, textOf_tokenize]

/-! ## The signature -/

theorem readOutputs_eq : readOutputs h.outputsText = .ok (h.outputs.map WrittenOutput.element) := by
  have hcut : Text.cut ',' h.outputsText = h.outputs.map WrittenOutput.text := by
    refine cut_intercalate (fun hnil => hw.outputs_ne_nil (List.map_eq_nil_iff.mp hnil)) ?_
    intro part hpart hmem
    obtain ⟨o, ho, rfl⟩ := List.mem_map.mp hpart
    obtain ⟨hbefore, hafter⟩ := hw.outputs o ho
    simp only [WrittenOutput.text, List.mem_append] at hmem
    rcases hmem with hmem | hmem | hmem
    · exact comma_not_mem_of_blank hbefore hmem
    · exact comma_not_mem_of_isIdentifier o.element.isIdentifier_word hmem
    · exact comma_not_mem_of_blank hafter hmem
  have htrim : (h.outputs.map WrittenOutput.text).map Text.trim =
      h.outputs.map fun o => o.element.word := by
    rw [List.map_map]
    refine List.map_congr_left fun o ho => ?_
    obtain ⟨hbefore, hafter⟩ := hw.outputs o ho
    have hword : ∀ c ∈ o.element.word, Text.isBlank c = false := fun c hc =>
      isBlank_of_isWordChar
        (List.all_eq_true.mp (all_of_isIdentifier o.element.isIdentifier_word) c hc)
    exact trim_blanks hbefore hafter (fun c hc => hword c (List.mem_of_mem_head? hc))
      fun c hc => hword c (List.mem_of_mem_getLast? hc)
  unfold readOutputs
  rw [hcut, htrim]
  generalize h.outputs = os
  induction os with
  | nil => rfl
  | cons o os ih =>
    have hread : ElementKind.ofWord? o.element.word = some o.element := by
      cases o.element <;> decide
    rw [List.map_cons, List.mapM_cons, hread, ih]
    rfl

theorem parameterCount_eq : parameterCount h.parametersText = h.parameters.length := by
  have hne : h.parameters ≠ [] := List.ne_nil_of_length_pos hw.parameters_pos
  have hcut : Text.cut ',' h.parametersText = h.parameters.map WrittenParameter.text := by
    refine cut_intercalate (fun hnil => hne (List.map_eq_nil_iff.mp hnil)) ?_
    intro part hpart hmem
    obtain ⟨p, hp, rfl⟩ := List.mem_map.mp hpart
    have hp := hw.parameters p hp
    simp only [WrittenParameter.text, List.mem_append] at hmem
    rcases hmem with hmem | hmem | hmem | hmem | hmem
    · exact comma_not_mem_of_blank hp.before hmem
    · exact absurd hmem (by decide)
    · exact comma_not_mem_of_blank hp.between hmem
    · exact comma_not_mem_of_isIdentifier hp.name hmem
    · exact comma_not_mem_of_blank hp.after hmem
  have hall : (h.parameters.map WrittenParameter.text).filter (fun p => !Text.isAllBlank p) =
      h.parameters.map WrittenParameter.text := by
    refine List.filter_eq_self.mpr fun part hpart => ?_
    obtain ⟨p, -, rfl⟩ := List.mem_map.mp hpart
    have hmem : 'i' ∈ p.text := by simp [WrittenParameter.text]
    rw [Bool.not_eq_true', Text.isAllBlank, List.all_eq_false]
    exact ⟨'i', hmem, by decide⟩
  rw [parameterCount, hcut, hall, List.length_map]

theorem ofNat?_length_parameters :
    Rank.ofNat? h.parameters.length = some h.signature.rank := by
  obtain ⟨rank, hrank⟩ : ∃ rank, Rank.ofNat? h.parameters.length = some rank := by
    have hpos := hw.parameters_pos
    have hle := hw.parameters_le
    have hcases : h.parameters.length = 1 ∨ h.parameters.length = 2 ∨
        h.parameters.length = 3 := by omega
    rcases hcases with hlen | hlen | hlen
    · exact ⟨.one, by rw [hlen]; rfl⟩
    · exact ⟨.two, by rw [hlen]; rfl⟩
    · exact ⟨.three, by rw [hlen]; rfl⟩
  rw [signature, hrank, Option.getD_some]

/-- The rank of a header is the number of its parameters. -/
theorem toNat_rank_signature : h.signature.rank.toNat = h.parameters.length :=
  (Rank.ofNat?_eq_some_iff.mp (ofNat?_length_parameters hw)).symm

/-- What the header captures describes its signature. -/
theorem readHeader_eq : readHeader h.outputsText h.parametersText = .ok h.signature := by
  unfold readHeader
  rw [readOutputs_eq hw, parameterCount_eq hw]
  simp only [bind, Except.bind, ofNat?_length_parameters hw]
  rfl

/-! ## Passes over a header -/

theorem inert_text : Inert h.text := by
  have hsplit : h.text = ['['] ++ (h.outputsText ++ (']' :: (h.afterOutputs ++ (threadWord ++
      (h.afterThread ++ ('(' :: h.parametersText))))) ++ [')']) := by
    simp [text, front]
  have hplain : ∀ d, isPlain d = true → d ≠ '.' ∧ d ≠ '[' := by
    intro d hd
    exact ⟨by rintro rfl; exact absurd hd (by decide), by rintro rfl; exact absurd hd (by decide)⟩
  rw [hsplit]
  refine (inert_mark (by decide)).append (inert_of_forall (by decide) (by decide) fun d hd => ?_)
  simp only [List.mem_append, List.mem_cons] at hd
  rcases hd with hd | rfl | hd | hd | hd | rfl | hd
  · exact hplain d (isPlain_outputsText hw d hd)
  · decide
  · exact hplain d (isPlain_of_blank hw.afterOutputs hd)
  · exact hplain d (isPlain_of_mem_word (w := threadWord) (by decide) hd)
  · exact hplain d (isPlain_of_blank hw.afterThread hd)
  · decide
  · exact hplain d (isPlain_parametersText hw d hd)

end WrittenHeader

/-! ## Sweeps over a header -/

section

variable {β : Type} {s : Sweep β}

/-- A text without opening brackets that ends with a mark has no header. -/
theorem Sweep.Turns.header_keep (hs : s.pattern = .header) {x : Text} {c : Char}
    (hc : isCut c = true) (h : '[' ∉ x ++ [c]) :
    s.Turns (x ++ [c]) ((x ++ [c]).flatMap s.keep) := by
  refine Sweep.Turns.keep hc fun zs _ pre t post heq => ?_
  rw [hs]
  refine Pattern.read?_mark_of_ne (fun htext => h ?_) _
  refine mem_of_mem_tokenize (u := t) (by rw [heq]; simp) ?_
  rw [htext]
  exact List.mem_singleton_self '['

theorem Sweep.Turns.header_blank (hs : s.pattern = .header) {w : Text} (hw : Blank w) :
    s.Turns w (w.flatMap s.keep) := by
  refine Sweep.Turns.blank (fun t ts hp hspace => ?_) hw
  have hne : t.text ∉ askedWords := not_mem_askedWords_of_isSpace (hp t List.mem_cons_self) hspace
  rw [hs]
  refine Pattern.read?_mark_of_ne (fun htext => hne ?_) _
  rw [htext]
  decide

/-- A header is found whole. -/
theorem Sweep.Turns.header (hs : s.pattern = .header) {h : WrittenHeader} (hw : h.WellFormed) :
    s.Turns h.text (s.found ⟨tokenize h.text, [h.outputsText, h.parametersText]⟩) := by
  have htext : h.text = h.front ++ h.parametersText ++ [')'] := by
    simp [WrittenHeader.text]
  have hcut : s.Turns (h.front ++ h.parametersText ++ [')'])
      (s.found ⟨tokenize h.text, [h.outputsText, h.parametersText]⟩) := by
    refine Sweep.Turns.of_tokens (by decide) fun zs hzs => ?_
    have hread := WrittenHeader.read?_tokens hw hzs
    rw [← hs] at hread
    obtain ⟨taken, happ, hover⟩ := Sweep.exists_along_found (by rw [hs]; rfl) hread
    rw [← htext, hover, List.append_cancel_right happ]
  rwa [← htext] at hcut

/-- A parameter with the mark after it has no declaration, whatever its name. -/
theorem Sweep.Turns.declaration_parameter {type : Pattern} {accept : Text → Option (List Text)}
    (htype : Accepts type accept) (hs : s.pattern = .declaration type) {p : WrittenParameter}
    (hp : p.WellFormed) {c : Char} (hc : isCut c = true) :
    s.Turns (p.text ++ [c]) ((p.text ++ [c]).flatMap s.keep) := by
  have htext : p.text ++ [c] =
      p.before ++ ("int".toList ++ (p.between ++ (p.name ++ (p.after ++ [c])))) := by
    simp [WrittenParameter.text]
  have htokens : tokenize (p.text ++ [c]) = (blanks p.before ++ [word "int".toList,
      Token.blank p.between]) ++ word p.name :: (blanks p.after ++ [mark c]) := by
    rw [htext, tokenize_blanks hp.before (head_of_isIdentifier (by decide) _),
      tokenize_word (by decide) (isWordChar_head_of_blank hp.between hp.between_ne_nil _),
      tokenize_blank hp.between_ne_nil hp.between (head_of_isIdentifier hp.name _),
      tokenize_word_blanks_mark hp.name hp.after hc, tokenize_nil]
    simp
  have hfront : ∀ u ∈ blanks p.before ++ [word "int".toList, Token.blank p.between],
      u.text ≠ uniformWord := by
    intro u hu
    simp only [List.mem_append, List.mem_cons, List.not_mem_nil, or_false] at hu
    rcases hu with hu | rfl | rfl
    · exact ne_uniformWord_of_mem_blanks hp.before hu
    · decide
    · exact ne_uniformWord_of_blank hp.between
  refine Sweep.Turns.of_tokens hc fun zs _ => ?_
  have hsplit : tokenize (p.text ++ [c]) ++ zs = (blanks p.before ++ [word "int".toList,
      Token.blank p.between]) ++ word p.name :: (blanks p.after ++ mark c :: zs) := by
    rw [htokens]
    simp
  rw [hsplit, Sweep.along_of_ne_uniformWord hs hfront,
    Sweep.along_before_mark hs htype p.name hp.after hc, textOf_append, textOf_blanks, htext]
  simp [word, Token.blank]

/-- Sweeps for declarations keep what stands before the parameters. -/
theorem Sweep.Turns.declaration_front {type : Pattern} (hs : s.pattern = .declaration type)
    {h : WrittenHeader} (hw : h.WellFormed) : s.Turns h.front (h.front.flatMap s.keep) := by
  have hsplit : h.front = '[' :: (h.outputsText ++ (']' :: (h.afterOutputs ++
      (threadWord ++ h.afterThread)))) ++ ['('] := by
    simp [WrittenHeader.front]
  -- No `u` stands there, which every `uniform` starts with.
  have hblank : ∀ {w : Text}, Blank w → 'u' ∉ w := by
    intro w hw hmem
    exact absurd (hw 'u' hmem) (by decide)
  have houtputs : 'u' ∉ h.outputsText := by
    intro hmem
    rcases mem_intercalate hmem with hmem | ⟨part, hpart, hmem⟩
    · exact absurd hmem (by decide)
    · obtain ⟨o, ho, rfl⟩ := List.mem_map.mp hpart
      obtain ⟨hbefore, hafter⟩ := hw.outputs o ho
      have hword : 'u' ∉ o.element.word := by cases o.element <;> decide
      simp only [WrittenOutput.text, List.mem_append] at hmem
      rcases hmem with hmem | hmem | hmem
      · exact hblank hbefore hmem
      · exact hword hmem
      · exact hblank hafter hmem
  have hthread : 'u' ∉ threadWord := by decide
  rw [hsplit]
  refine Sweep.Turns.declaration_keep hs (by decide) fun u hu =>
    ne_uniformWord_of_not_mem (c := 'u') (by decide) ?_ hu
  simp [houtputs, hblank hw.afterOutputs, hblank hw.afterThread, hthread]

/-- Sweeps for declarations keep the parameters, one after another. -/
theorem Sweep.Turns.declaration_parameters {type : Pattern} {accept : Text → Option (List Text)}
    (htype : Accepts type accept) (hs : s.pattern = .declaration type) {ps : List WrittenParameter}
    (hne : ps ≠ []) (hps : ∀ p ∈ ps, p.WellFormed) :
    s.Turns ([','].intercalate (ps.map WrittenParameter.text) ++ [')'])
      (([','].intercalate (ps.map WrittenParameter.text) ++ [')']).flatMap s.keep) := by
  induction ps with
  | nil => exact absurd rfl hne
  | cons p ps ih =>
    have hp := hps p List.mem_cons_self
    cases ps with
    | nil =>
      rw [List.map_singleton, List.intercalate_singleton]
      exact Sweep.Turns.declaration_parameter htype hs hp (by decide)
    | cons q ps =>
      have hfirst := Sweep.Turns.declaration_parameter htype hs hp (c := ',') (by decide)
      have hrest := ih (List.cons_ne_nil q ps) fun r hr => hps r (List.mem_cons_of_mem p hr)
      have hboth := hfirst.append hrest
      rw [← List.flatMap_append] at hboth
      rw [List.map_cons, List.map_cons, List.intercalate_cons_cons,
        List.append_assoc, List.append_assoc, ← List.append_assoc p.text]
      exact hboth

/-- Sweeps for declarations keep a header. -/
theorem Sweep.Turns.declaration_header {type : Pattern} {accept : Text → Option (List Text)}
    (htype : Accepts type accept) (hs : s.pattern = .declaration type) {h : WrittenHeader}
    (hw : h.WellFormed) : s.Turns h.text (h.text.flatMap s.keep) := by
  rw [WrittenHeader.text, List.flatMap_append]
  exact (Sweep.Turns.declaration_front hs hw).append (Sweep.Turns.declaration_parameters htype hs
    (List.ne_nil_of_length_pos hw.parameters_pos) hw.parameters)

end

end Texelwise

import Texelwise.Proofs.Kernel.Slots
import Texelwise.Proofs.Source.Header

/-!
# Regular programs

A regular program is a sequence of declarations, a header and a body. While it is compiled, more
and more of its declarations are replaced, and this module reads it at every stage.

* `WrittenDeclaration`, `WrittenProgram`: the parts of a program; `WrittenProgram.Regular`.
* `WrittenProgram.front`: the text before the body when some declarations are replaced.
* `WrittenProgram.inert_front`: the passes over the body leave it alone.
* `WrittenProgram.turns_declaration`: a sweep for declarations finds the ones that are left.
* `WrittenProgram.turns_header`: a sweep for the header finds it.
-/

namespace Texelwise

open Token

/-! ## Declarations -/

/-- A declaration `uniform <type> <name>;` with its blanks. -/
structure WrittenDeclaration where
  before : Text
  type : UniformType
  name : Text
  afterUniform : Text
  afterType : Text
  afterName : Text
  deriving DecidableEq, Repr

theorem UniformType.isIdentifier_word (t : UniformType) : isIdentifier t.word = true := by
  rcases t with _ | _ | ⟨_ | _, _ | _ | _⟩ <;> decide

theorem UniformType.ofWord?_word (t : UniformType) : ofWord? t.word = some t := by
  rcases t with _ | _ | ⟨_ | _, _ | _ | _⟩ <;> decide

theorem UniformType.word_injective {t t' : UniformType} (h : t.word = t'.word) : t = t' := by
  have ht := ofWord?_word t
  rw [h, ofWord?_word] at ht
  exact (Option.some.inj ht).symm

/-- The text before the binding of a texture. -/
def layoutText : Text := "layout(set = 0, binding = ".toList

/-- The shader's word for a texture. -/
def textureWord : Text := "texture2D".toList

/-- What stands for the declaration of a buffer. -/
def textureText (binding : Nat) (name : Text) : Text :=
  layoutText ++ Text.ofNat binding ++ [')'] ++ ([' '] ++
    declarationText textureWord (textureName name) [' '] [' '] [])

namespace WrittenDeclaration

variable (d : WrittenDeclaration)

/-- What it declares. -/
def declaration : UniformDeclaration := ⟨d.name, d.type⟩

/-- The declaration without the blanks before it. -/
def line : Text := declarationText d.type.word d.name d.afterUniform d.afterType d.afterName

/-- The tokens of the line. -/
def tokens : List Token :=
  declarationTokens d.type.word d.name d.afterUniform d.afterType d.afterName

/-- What a table puts in the place of the line. -/
def replaced (table : BindingTable) : Text :=
  ((table.slot? d.name).map UniformSlot.declarationText).getD []

structure WellFormed : Prop where
  before : Blank d.before
  name : OwnName d.name
  afterUniform : Blank d.afterUniform
  afterUniform_ne_nil : d.afterUniform ≠ []
  afterType : Blank d.afterType
  afterType_ne_nil : d.afterType ≠ []
  afterName : Blank d.afterName

instance : Decidable d.WellFormed :=
  decidable_of_iff (Blank d.before ∧ OwnName d.name ∧ Blank d.afterUniform ∧
      d.afterUniform ≠ [] ∧ Blank d.afterType ∧ d.afterType ≠ [] ∧ Blank d.afterName)
    ⟨fun ⟨h₁, h₂, h₃, h₄, h₅, h₆, h₇⟩ => ⟨h₁, h₂, h₃, h₄, h₅, h₆, h₇⟩,
      fun ⟨h₁, h₂, h₃, h₄, h₅, h₆, h₇⟩ => ⟨h₁, h₂, h₃, h₄, h₅, h₆, h₇⟩⟩

/-- A declaration with blanks where they belong, whatever its name is. -/
structure Spelled : Prop where
  before : Blank d.before
  name : isIdentifier d.name = true
  afterUniform : Blank d.afterUniform
  afterUniform_ne_nil : d.afterUniform ≠ []
  afterType : Blank d.afterType
  afterType_ne_nil : d.afterType ≠ []
  afterName : Blank d.afterName

instance : Decidable d.Spelled :=
  decidable_of_iff (Blank d.before ∧ isIdentifier d.name = true ∧ Blank d.afterUniform ∧
      d.afterUniform ≠ [] ∧ Blank d.afterType ∧ d.afterType ≠ [] ∧ Blank d.afterName)
    ⟨fun ⟨h₁, h₂, h₃, h₄, h₅, h₆, h₇⟩ => ⟨h₁, h₂, h₃, h₄, h₅, h₆, h₇⟩,
      fun ⟨h₁, h₂, h₃, h₄, h₅, h₆, h₇⟩ => ⟨h₁, h₂, h₃, h₄, h₅, h₆, h₇⟩⟩

variable {d} in
theorem WellFormed.spelled (h : d.WellFormed) : d.Spelled :=
  ⟨h.before, h.name.isIdentifier, h.afterUniform, h.afterUniform_ne_nil, h.afterType,
    h.afterType_ne_nil, h.afterName⟩

end WrittenDeclaration

theorem BindingTable.name_eq_of_slot? {table : BindingTable} {name : Text} {slot : UniformSlot}
    (h : table.slot? name = some slot) : slot.name = name := by
  simpa using List.find?_some h

theorem UniformSlot.declarationText_of_texture {s : UniformSlot} {binding : Nat}
    (h : s.texture = some binding) : s.declarationText = textureText binding s.name := by
  have hsplit : ") uniform texture2D ".toList =
      [')'] ++ ([' '] ++ (uniformWord ++ ([' '] ++ (textureWord ++ [' '])))) := by decide
  rw [declarationText, h]
  show layoutText ++ Text.ofNat binding ++ ") uniform texture2D ".toList ++
    textureName s.name ++ [';'] = textureText binding s.name
  rw [hsplit, textureText, Texelwise.declarationText]
  simp only [List.append_assoc, List.nil_append]

/-- What stands for a declaration is nothing or a texture. -/
theorem WrittenDeclaration.replaced_eq_or (d : WrittenDeclaration) (table : BindingTable) :
    d.replaced table = [] ∨ ∃ binding, d.replaced table = textureText binding d.name := by
  unfold replaced
  cases hslot : table.slot? d.name with
  | none => exact .inl rfl
  | some slot =>
    rw [Option.map_some, Option.getD_some, ← BindingTable.name_eq_of_slot? hslot]
    cases htexture : slot.texture with
    | none => exact .inl (by rw [UniformSlot.declarationText, htexture])
    | some binding => exact .inr ⟨binding, UniformSlot.declarationText_of_texture htexture⟩

/-! ## Characters of declarations -/

/-- A character of a declaration, or of what stands for one. -/
def isLineChar (c : Char) : Bool := isPlain c || c ∈ ['(', ')', '=', ';']

theorem isLineChar_of_isPlain {c : Char} (h : isPlain c = true) : isLineChar c = true := by
  simp [isLineChar, h]

theorem isLineChar_of_mem_declarationText {type name afterUniform afterType afterName : Text}
    (htype : isIdentifier type = true) (hname : isIdentifier name = true)
    (hu : Blank afterUniform) (ht : Blank afterType) (hn : Blank afterName) {c : Char}
    (hc : c ∈ declarationText type name afterUniform afterType afterName) :
    isLineChar c = true := by
  simp only [declarationText, List.mem_append, List.mem_singleton] at hc
  rcases hc with hc | hc | hc | hc | hc | hc | rfl
  · exact isLineChar_of_isPlain (isPlain_of_mem_word (w := uniformWord) (by decide) hc)
  · exact isLineChar_of_isPlain (isPlain_of_blank hu hc)
  · exact isLineChar_of_isPlain (isPlain_of_mem_word htype hc)
  · exact isLineChar_of_isPlain (isPlain_of_blank ht hc)
  · exact isLineChar_of_isPlain (isPlain_of_mem_word hname hc)
  · exact isLineChar_of_isPlain (isPlain_of_blank hn hc)
  · decide

theorem isDigit_of_mem_ofNat {n : Nat} {c : Char} (h : c ∈ Text.ofNat n) : c.isDigit = true :=
  Nat.isDigit_of_mem_toDigits (by decide) (Nat.le_refl 10) h

theorem isLineChar_of_mem_textureText {binding : Nat} {name : Text}
    (hname : isIdentifier name = true) {c : Char} (hc : c ∈ textureText binding name) :
    isLineChar c = true := by
  have hstart : ∀ c ∈ layoutText, isLineChar c = true :=
    List.all_eq_true.mp (by decide +kernel)
  have hspace : Blank [' '] := fun _ => isBlank_of_mem_space
  simp only [textureText, List.mem_append, List.mem_singleton] at hc
  rcases hc with ((hc | hc) | rfl) | rfl | hc
  · exact hstart c hc
  · have hdigit := isDigit_of_mem_ofNat hc
    exact isLineChar_of_isPlain (by simp [isPlain, isWordChar, Char.isAlphanum, hdigit])
  · decide
  · decide
  · exact isLineChar_of_mem_declarationText (by decide) (isIdentifier_textureName hname) hspace
      hspace (fun c hc => absurd hc List.not_mem_nil) hc

theorem ne_of_isLineChar {c : Char} (h : isLineChar c = true) : c ≠ '.' ∧ c ≠ '[' :=
  ⟨by rintro rfl; exact absurd h (by decide), by rintro rfl; exact absurd h (by decide)⟩

/-! ## Sweeps over a declaration -/

section

variable {β : Type} {s : Sweep β} {type : Pattern} {accept : Text → Option (List Text)}
  {d : WrittenDeclaration} (hd : d.Spelled)

include hd

namespace WrittenDeclaration

theorem isLineChar_of_mem_line {c : Char} (hc : c ∈ d.line) : isLineChar c = true :=
  isLineChar_of_mem_declarationText d.type.isIdentifier_word hd.name hd.afterUniform
    hd.afterType hd.afterName hc

theorem isLineChar_of_mem_replaced (table : BindingTable) {c : Char}
    (hc : c ∈ d.replaced table) : isLineChar c = true := by
  rcases d.replaced_eq_or table with h | ⟨binding, h⟩
  · rw [h] at hc
    cases hc
  · rw [h] at hc
    exact isLineChar_of_mem_textureText hd.name hc

omit hd in
/-- A line ends with a semicolon. -/
theorem exists_line_eq : ∃ x, d.line = x ++ [';'] := by
  refine ⟨uniformWord ++ (d.afterUniform ++ (d.type.word ++ (d.afterType ++ (d.name ++
    d.afterName)))), ?_⟩
  simp [line, declarationText]

omit hd in
/-- What stands for a declaration is empty or ends with a semicolon. -/
theorem replaced_eq_nil_or_exists (table : BindingTable) :
    d.replaced table = [] ∨ ∃ x, d.replaced table = x ++ [';'] := by
  rcases d.replaced_eq_or table with h | ⟨binding, h⟩
  · exact .inl h
  · refine .inr ⟨layoutText ++ Text.ofNat binding ++ [')'] ++ ([' '] ++ (uniformWord ++ ([' '] ++
      (textureWord ++ ([' '] ++ (textureName d.name ++ [])))))), ?_⟩
    rw [h, textureText, declarationText]
    simp only [List.append_assoc]

/-- What stands in place of a declaration is empty or a line that ends with a semicolon. -/
theorem shown_eq_nil_or_exists (table : BindingTable) (done : List UniformType) :
    (if d.type ∈ done then d.replaced table else d.line) = [] ∨
      ∃ x, (if d.type ∈ done then d.replaced table else d.line) = x ++ [';'] ∧
        ∀ c ∈ x ++ [';'], isLineChar c = true := by
  split
  · rcases d.replaced_eq_nil_or_exists table with h | ⟨x, h⟩
    · exact .inl h
    · exact .inr ⟨x, h, fun c hc => isLineChar_of_mem_replaced hd table (by rwa [h])⟩
  · obtain ⟨x, h⟩ := d.exists_line_eq
    exact .inr ⟨x, h, fun c hc => isLineChar_of_mem_line hd (by rwa [← h] at hc)⟩

/-- A sweep for declarations finds the line if it accepts the type. -/
theorem turns_line (htype : Accepts type accept) (hs : s.pattern = .declaration type) :
    s.Turns d.line
      (match accept d.type.word with
        | some cs => s.found ⟨d.tokens, cs ++ [d.name]⟩
        | none => d.line.flatMap s.keep) := by
  refine Sweep.Turns.declaration hs htype d.type.isIdentifier_word hd.name
    hd.afterUniform hd.afterUniform_ne_nil hd.afterType hd.afterType_ne_nil hd.afterName ?_
  rcases d.type with _ | _ | ⟨_ | _, _ | _ | _⟩ <;> decide

/-- A sweep for declarations keeps what stands for one, as a texture is no type of a program. -/
theorem turns_replaced (htype : Accepts type accept) (hs : s.pattern = .declaration type)
    (hnone : accept textureWord = none) (table : BindingTable) :
    s.Turns (d.replaced table) ((d.replaced table).flatMap s.keep) := by
  have hspace : Blank [' '] := fun _ => isBlank_of_mem_space
  rcases d.replaced_eq_or table with h | ⟨binding, h⟩
  · rw [h]
    exact Sweep.Turns.nil
  · have hfront : s.Turns (layoutText ++ Text.ofNat binding ++ [')'])
        ((layoutText ++ Text.ofNat binding ++ [')']).flatMap s.keep) := by
      refine Sweep.Turns.declaration_keep hs (by decide) fun u hu =>
        ne_uniformWord_of_not_mem (c := 'f') (by decide) (fun hmem => ?_) hu
      have hlayout : 'f' ∉ layoutText := by decide
      simp only [List.mem_append, List.mem_singleton] at hmem
      rcases hmem with (hmem | hmem) | hmem
      · exact hlayout hmem
      · exact absurd (isDigit_of_mem_ofNat hmem) (by decide)
      · exact absurd hmem (by decide)
    have hline := Sweep.Turns.declaration hs htype (w := textureWord) (by decide)
      (isIdentifier_textureName hd.name) hspace (List.cons_ne_nil _ _) hspace
      (List.cons_ne_nil _ _) (fun c hc => absurd hc List.not_mem_nil) (by decide)
    simp only [hnone] at hline
    have hall := hfront.append ((Sweep.Turns.declaration_blank hs hspace).append hline)
    rw [← List.flatMap_append, ← List.flatMap_append] at hall
    rw [h]
    exact hall

end WrittenDeclaration

end

/-! ## Programs -/

/-- A program in its parts. -/
structure WrittenProgram where
  declarations : List WrittenDeclaration
  /-- The blanks before the header. -/
  gap : Text
  header : WrittenHeader
  body : Text
  deriving DecidableEq, Repr

namespace WrittenProgram

variable (p : WrittenProgram)

def text : Text :=
  p.declarations.flatMap (fun d => d.before ++ d.line) ++ (p.gap ++ (p.header.text ++ p.body))

/-- What the program declares. -/
def uniforms : List UniformDeclaration := p.declarations.map WrittenDeclaration.declaration

/-- The names that are declared with this type. -/
def names (type : UniformType) : List Text :=
  (p.declarations.filter fun d => d.type = type).map WrittenDeclaration.name

/-- Declarations with distinct names, a header, and a body in which no declaration and no header
starts and no word stands directly after a closing bracket. -/
structure Regular : Prop where
  declarations : ∀ d ∈ p.declarations, d.WellFormed
  names_nodup : (p.declarations.map WrittenDeclaration.name).Nodup
  gap : Blank p.gap
  header : p.header.WellFormed
  no_uniform : ∀ u ∈ tokenize p.body, u.text ≠ uniformWord
  no_header : Pattern.header.occurrences p.body = .ok []
  no_word : (tokenize p.body).IsChain fun t u =>
    t = mark ']' → u.kind ≠ .ident ∧ u.kind ≠ .number

instance : Decidable p.Regular :=
  decidable_of_iff ((∀ d ∈ p.declarations, d.WellFormed) ∧
      (p.declarations.map WrittenDeclaration.name).Nodup ∧ Blank p.gap ∧ p.header.WellFormed ∧
      (∀ u ∈ tokenize p.body, u.text ≠ uniformWord) ∧
      Pattern.header.occurrences p.body = .ok [] ∧
      (tokenize p.body).IsChain fun t u =>
        t = mark ']' → u.kind ≠ .ident ∧ u.kind ≠ .number)
    ⟨fun ⟨h₁, h₂, h₃, h₄, h₅, h₆, h₇⟩ => ⟨h₁, h₂, h₃, h₄, h₅, h₆, h₇⟩,
      fun ⟨h₁, h₂, h₃, h₄, h₅, h₆, h₇⟩ => ⟨h₁, h₂, h₃, h₄, h₅, h₆, h₇⟩⟩

/-- The declarations when those of the types in `done` are replaced. -/
def declarationsText (table : BindingTable) (done : List UniformType) : Text :=
  p.declarations.flatMap fun d => d.before ++ if d.type ∈ done then d.replaced table else d.line

/-- The text before the body when the declarations of the types in `done` are replaced. -/
def front (table : BindingTable) (done : List UniformType) : Text :=
  p.declarationsText table done ++ (p.gap ++ p.header.text)

theorem text_eq (table : BindingTable) : p.text = p.front table [] ++ p.body := by
  simp [text, front, declarationsText]

/-- Declarations and a header with blanks where they belong, before whatever body. -/
structure Framed : Prop where
  declarations : ∀ d ∈ p.declarations, d.Spelled
  gap : Blank p.gap
  header : p.header.WellFormed

variable {p} {table : BindingTable} {done : List UniformType}

theorem Regular.framed (hp : p.Regular) : p.Framed :=
  ⟨fun d hd => (hp.declarations d hd).spelled, hp.gap, hp.header⟩

/-- No word directly after a closing bracket: the tokens of the body are spaced. -/
theorem spaced_body (hp : p.Regular) : Spaced (tokenize p.body) :=
  (separated_tokenize p.body).spaced hp.no_word

/-! ## Sweeps over the front -/

variable (hp : p.Framed)

include hp

theorem inert_declarationsText : Inert (p.declarationsText table done) := by
  refine Inert.flatMap fun d hmem => ?_
  have hd := hp.declarations d hmem
  refine (inert_blank hd.before).append ?_
  rcases d.shown_eq_nil_or_exists hd table done with h | ⟨x, h, hx⟩
  · rw [h]
    exact inert_nil
  · rw [h]
    exact inert_of_forall (by decide) (by decide) fun c hc =>
      ne_of_isLineChar (hx c (List.mem_append_left _ hc))

/-- The passes over the body leave the text before it alone. -/
theorem inert_front : Inert (p.front table done) :=
  (inert_declarationsText hp).append
    ((inert_blank hp.gap).append (WrittenHeader.inert_text hp.header))

section

variable {β : Type} {s : Sweep β}

/-- A sweep for headers finds the header of the program. -/
theorem turns_header (hs : s.pattern = .header) :
    s.Turns (p.front table done) ((p.declarationsText table done ++ p.gap).flatMap s.keep ++
      s.found ⟨tokenize p.header.text, [p.header.outputsText, p.header.parametersText]⟩) := by
  have hdeclarations : s.Turns (p.declarationsText table done)
      ((p.declarationsText table done).flatMap s.keep) := by
    rw [declarationsText, List.flatMap_assoc]
    refine Sweep.Turns.flatMap fun d hmem => ?_
    have hd := hp.declarations d hmem
    rw [List.flatMap_append]
    refine (Sweep.Turns.header_blank hs hd.before).append ?_
    -- No bracket opens in a line, so no header starts in it.
    rcases d.shown_eq_nil_or_exists hd table done with h | ⟨x, h, hx⟩
    · rw [h]
      exact Sweep.Turns.nil
    · rw [h]
      exact Sweep.Turns.header_keep hs (by decide) fun hmem => (ne_of_isLineChar (hx _ hmem)).2 rfl
  rw [front, List.flatMap_append, List.append_assoc]
  exact hdeclarations.append ((Sweep.Turns.header_blank hs hp.gap).append
    (Sweep.Turns.header hs hp.header))

/-- A sweep for the declarations of a type finds the ones that are left. -/
theorem turns_declaration (t : UniformType) (hs : s.pattern = .declaration (.literal t.word)) :
    s.Turns (p.front table done)
      (p.declarations.flatMap (fun d => d.before.flatMap s.keep ++
        if d.type ∈ done then (d.replaced table).flatMap s.keep
        else if d.type = t then s.found ⟨d.tokens, [d.name]⟩ else d.line.flatMap s.keep) ++
        (p.gap ++ p.header.text).flatMap s.keep) := by
  have htype := accepts_literal t.isIdentifier_word
  have htexture : textureWord ≠ t.word := by
    rcases t with _ | _ | ⟨_ | _, _ | _ | _⟩ <;> decide
  have hdeclarations : s.Turns (p.declarationsText table done)
      (p.declarations.flatMap fun d => d.before.flatMap s.keep ++
        if d.type ∈ done then (d.replaced table).flatMap s.keep
        else if d.type = t then s.found ⟨d.tokens, [d.name]⟩ else d.line.flatMap s.keep) := by
    refine Sweep.Turns.flatMap fun d hmem => ?_
    have hd := hp.declarations d hmem
    refine (Sweep.Turns.declaration_blank hs hd.before).append ?_
    split
    · exact d.turns_replaced hd htype hs (if_neg htexture) table
    · have hline := d.turns_line hd htype hs
      by_cases htd : d.type = t
      · rw [if_pos htd]
        rwa [if_pos (congrArg UniformType.word htd)] at hline
      · rw [if_neg htd]
        rwa [if_neg fun h => htd (UniformType.word_injective h)] at hline
  rw [front, List.flatMap_append]
  exact hdeclarations.append ((Sweep.Turns.declaration_blank hs hp.gap).append
    (Sweep.Turns.declaration_header htype hs hp.header))

end

end WrittenProgram

end Texelwise

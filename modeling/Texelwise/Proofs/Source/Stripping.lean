import Texelwise.Proofs.Expansion.Reserved
import Texelwise.Proofs.Source.Interface
import Texelwise.Proofs.Text.Lines

/-!
# Removing comments from a program

A program without comments is, when comments are removed, a program with the same declarations and
the same header. Only its line breaks are written in one form.

* `tokenize_unifyBreaks`: one form of line breaks changes blanks only.
* `Unreserved.unifyBreaks`, `Unreserved.dropBreak`: no reserved words come.
* `WrittenProgram.unified`: the program with line breaks in one form.
* `WrittenProgram.stripComments_text`: removing comments gives the text of that program.
-/

namespace Texelwise

open Token

/-! ## Tokens with line breaks in one form -/

namespace Token

/-- The token with line breaks in one form. -/
def unified (t : Token) : Token := ⟨t.kind, Text.unifyBreaks t.text⟩

theorem unified_eq_self {t : Token} (ht : t.Proper) (hspace : t.isSpace = false) :
    t.unified = t := by
  have hreturn : '\r' ∉ t.text := by
    intro hmem
    have hblank := ht.isBlank_eq hmem
    rw [hspace] at hblank
    exact absurd hblank (by decide)
  have htext := Text.unifyBreaks_append_of_not_mem hreturn []
  rw [List.append_nil, Text.unifyBreaks_nil, List.append_nil] at htext
  rw [unified, htext]

theorem proper_unified {t : Token} (ht : t.Proper) : t.unified.Proper := by
  cases hspace : t.isSpace with
  | false => rwa [unified_eq_self ht hspace]
  | true =>
    have hkind : t.kind = .space := of_decide_eq_true hspace
    rw [unified, hkind]
    refine proper_blank (fun hnil => ht.text_ne_nil (Text.unifyBreaks_eq_nil_iff.mp hnil)) ?_
    intro c hc
    rw [ht.isBlank_eq (Text.mem_of_mem_unifyBreaks hc), hspace]

/-- A token that is no blank ends before every blank. -/
theorem endsAt_of_isBlank {t : Token} (hspace : t.isSpace = false) {c : Char}
    (hc : Text.isBlank c = true) : t.EndsAt c := by
  have hkind : t.kind ≠ .space := of_decide_eq_false hspace
  have hword : isWordChar c = false := by
    by_contra h
    rw [isBlank_of_isWordChar (by simpa using h)] at hc
    cases hc
  refine ⟨?_, fun _ => ?_⟩
  · by_contra h
    rw [TokenKind.isBlank_of_continues (by simpa using h) hkind] at hc
    cases hc
  · simp only [isWordChar, Char.isAlphanum, Bool.or_eq_false_iff] at hword
    exact hword.1.2

end Token

/-- One form of line breaks changes blanks only. -/
theorem separated_unified {ts : List Token} (hts : Separated ts) :
    textOf (ts.map unified) = Text.unifyBreaks (textOf ts) ∧ Separated (ts.map unified) := by
  induction ts with
  | nil => exact ⟨rfl, trivial⟩
  | cons t ts ih =>
    obtain ⟨htext, hrest⟩ := ih hts.tail
    obtain ⟨ht, hends, -⟩ := hts
    have hhead := Text.head?_unifyBreaks (textOf ts)
    -- Breaks are in blanks only, and a break of two characters is in one blank.
    cases hspace : t.isSpace with
    | false =>
      have hself := unified_eq_self ht hspace
      have hreturn : '\r' ∉ t.text := by
        intro hmem
        have hblank := ht.isBlank_eq hmem
        rw [hspace] at hblank
        exact absurd hblank (by decide)
      refine ⟨?_, proper_unified ht, fun c hc => ?_, hrest⟩
      · rw [List.map_cons, textOf_cons, textOf_cons, hself, htext,
          Text.unifyBreaks_append_of_not_mem hreturn]
      · rw [htext] at hc
        rw [hself]
        rcases hhead with hhead | ⟨hhead, -⟩
        · exact hends c (by rwa [hhead] at hc)
        · obtain rfl : '\n' = c := by simpa [hhead] using hc
          exact endsAt_of_isBlank hspace (by decide)
    | true =>
      have hkind : t.kind = .space := of_decide_eq_true hspace
      have hblank : ∀ c ∈ (textOf ts).head?, Text.isBlank c = false := by
        intro c hc
        have hstops := (hends c hc).1
        rwa [hkind] at hstops
      refine ⟨?_, proper_unified ht, fun c hc => ?_, hrest⟩
      · have hbreak : (textOf ts).head? ≠ some '\n' := fun h => absurd (hblank _ h) (by decide)
        rw [List.map_cons, textOf_cons, textOf_cons, unified, htext,
          Text.unifyBreaks_append _ hbreak]
      · rw [htext] at hc
        rcases hhead with hhead | ⟨-, hreturn⟩
        · rw [hhead] at hc
          rw [unified, hkind]
          refine (blank_endsAt fun d hd => ?_).mpr (hblank c hc)
          rw [ht.isBlank_eq (Text.mem_of_mem_unifyBreaks hd), hspace]
        · exact absurd (hblank _ hreturn) (by decide)

theorem tokenize_unifyBreaks (x : Text) :
    tokenize (Text.unifyBreaks x) = (tokenize x).map unified := by
  obtain ⟨htext, hseparated⟩ := separated_unified (separated_tokenize x)
  rw [textOf_tokenize] at htext
  rw [← htext, tokenize_textOf hseparated]

theorem Unreserved.unifyBreaks {x : Text} (hx : Unreserved x) :
    Unreserved (Text.unifyBreaks x) := by
  intro u hu
  rw [tokenize_unifyBreaks] at hu
  obtain ⟨t, ht, rfl⟩ := List.mem_map.mp hu
  have hp := proper_tokenize t ht
  cases hspace : t.isSpace with
  | false =>
    rw [unified_eq_self hp hspace]
    exact hx t ht
  | true =>
    exact not_mem_reservedWords_of_isSpace (proper_unified hp) (of_decide_eq_true hspace)

/-- The last token may be shortened. -/
theorem separated_shorten {pre : List Token} {t u : Token} (h : Separated (pre ++ [t]))
    (hu : u.Proper) (hshort : u.text <+: t.text) : Separated (pre ++ [u]) := by
  obtain ⟨hpre, -, hends⟩ := separatedBy_append.mp h
  obtain ⟨more, hmore⟩ := hshort
  refine separatedBy_append.mpr ⟨hpre, ⟨hu, by simp, trivial⟩, fun v hv c hc => hends v hv c ?_⟩
  rw [textOf_cons, textOf_nil, List.append_nil] at hc ⊢
  rwa [← hmore, List.head?_append_of_ne_nil _ hu.text_ne_nil]

/-- Without a break at its end a text has no tokens that it did not have, but for blanks. -/
theorem Unreserved.dropBreak {x : Text} (hx : Unreserved x) : Unreserved (Text.dropBreak x) := by
  rcases List.eq_nil_or_concat (tokenize x) with hnil | ⟨pre, t, htokens⟩
  · have htext := textOf_tokenize x
    rw [hnil] at htext
    rw [← htext]
    exact unreserved_nil
  rw [List.concat_eq_append] at htokens
  have hseparated : Separated (pre ++ [t]) := htokens ▸ separated_tokenize x
  have htext : x = textOf pre ++ t.text := by
    rw [← textOf_tokenize x, htokens]
    simp
  have hpre : ∀ u ∈ pre, u.text ∉ reservedWords := fun u hu => hx u (by simp [htokens, hu])
  have ht : t.Proper := hseparated.proper (by simp)
  -- A break at the end belongs to the last token, which then is a blank.
  have hsplit : Text.dropBreak x = textOf pre ++ Text.dropBreak t.text := by
    rw [htext, Text.dropBreak_append _ ht.text_ne_nil]
  cases hspace : t.isSpace with
  | false =>
    have hbreak : '\n' ∉ t.text := by
      intro hmem
      have hblank := ht.isBlank_eq hmem
      rw [hspace] at hblank
      exact absurd hblank (by decide)
    rwa [hsplit, Text.dropBreak_of_not_mem hbreak, ← htext]
  | true =>
    have hshort := Text.dropBreak_prefix t.text
    have hblank : ∀ c ∈ Text.dropBreak t.text, Text.isBlank c = true := fun c hc => by
      rw [ht.isBlank_eq (hshort.subset hc), hspace]
    rw [hsplit]
    by_cases hempty : Text.dropBreak t.text = []
    · rw [hempty, List.append_nil]
      exact unreserved_textOf (separatedBy_append.mp hseparated).1 hpre
    have hproper := proper_blank hempty hblank
    have hall := unreserved_textOf (separated_shorten hseparated hproper hshort) fun u hu => by
      rcases List.mem_append.mp hu with hu | hu
      · exact hpre u hu
      · rw [List.mem_singleton.mp hu]
        exact not_mem_reservedWords_of_isSpace hproper rfl
    simpa [blank] using hall

/-! ## Programs with line breaks in one form -/

def WrittenDeclaration.unified (d : WrittenDeclaration) : WrittenDeclaration where
  before := Text.unifyBreaks d.before
  type := d.type
  name := d.name
  afterUniform := Text.unifyBreaks d.afterUniform
  afterType := Text.unifyBreaks d.afterType
  afterName := Text.unifyBreaks d.afterName

def WrittenOutput.unified (o : WrittenOutput) : WrittenOutput :=
  ⟨Text.unifyBreaks o.before, o.element, Text.unifyBreaks o.after⟩

def WrittenParameter.unified (p : WrittenParameter) : WrittenParameter :=
  ⟨Text.unifyBreaks p.before, Text.unifyBreaks p.between, p.name, Text.unifyBreaks p.after⟩

def WrittenHeader.unified (h : WrittenHeader) : WrittenHeader where
  outputs := h.outputs.map WrittenOutput.unified
  afterOutputs := Text.unifyBreaks h.afterOutputs
  afterThread := Text.unifyBreaks h.afterThread
  parameters := h.parameters.map WrittenParameter.unified

/-- The program with line breaks in one form and none at its end. -/
def WrittenProgram.unified (p : WrittenProgram) : WrittenProgram where
  declarations := p.declarations.map WrittenDeclaration.unified
  gap := Text.unifyBreaks p.gap
  header := p.header.unified
  body := Text.dropBreak (Text.unifyBreaks p.body)

theorem Blank.unifyBreaks {w : Text} (hw : Blank w) : Blank (Text.unifyBreaks w) :=
  fun c hc => hw c (Text.mem_of_mem_unifyBreaks hc)

theorem unifyBreaks_ne_nil {w : Text} (hw : w ≠ []) : Text.unifyBreaks w ≠ [] :=
  fun h => hw (Text.unifyBreaks_eq_nil_iff.mp h)

theorem WrittenDeclaration.Spelled.unified {d : WrittenDeclaration} (hd : d.Spelled) :
    d.unified.Spelled where
  before := hd.before.unifyBreaks
  name := hd.name
  afterUniform := hd.afterUniform.unifyBreaks
  afterUniform_ne_nil := unifyBreaks_ne_nil hd.afterUniform_ne_nil
  afterType := hd.afterType.unifyBreaks
  afterType_ne_nil := unifyBreaks_ne_nil hd.afterType_ne_nil
  afterName := hd.afterName.unifyBreaks

theorem WrittenParameter.WellFormed.unified {p : WrittenParameter} (hp : p.WellFormed) :
    p.unified.WellFormed where
  before := hp.before.unifyBreaks
  between := hp.between.unifyBreaks
  between_ne_nil := unifyBreaks_ne_nil hp.between_ne_nil
  name := hp.name
  after := hp.after.unifyBreaks

theorem WrittenHeader.WellFormed.unified {h : WrittenHeader} (hh : h.WellFormed) :
    h.unified.WellFormed where
  outputs_ne_nil := by simpa [WrittenHeader.unified] using hh.outputs_ne_nil
  outputs := by
    intro _ ho
    obtain ⟨o, hmem, rfl⟩ := List.mem_map.mp ho
    exact ⟨(hh.outputs o hmem).1.unifyBreaks, (hh.outputs o hmem).2.unifyBreaks⟩
  afterOutputs := hh.afterOutputs.unifyBreaks
  afterThread := hh.afterThread.unifyBreaks
  parameters_pos := by simpa [WrittenHeader.unified] using hh.parameters_pos
  parameters_le := by simpa [WrittenHeader.unified] using hh.parameters_le
  parameters := by
    intro _ hp
    obtain ⟨p, hmem, rfl⟩ := List.mem_map.mp hp
    exact (hh.parameters p hmem).unified

namespace WrittenProgram

variable {p : WrittenProgram}

theorem Framed.unified (hp : p.Framed) : p.unified.Framed where
  declarations := by
    intro _ hd
    obtain ⟨d, hmem, rfl⟩ := List.mem_map.mp hd
    exact (hp.declarations d hmem).unified
  gap := hp.gap.unifyBreaks
  header := hp.header.unified

theorem uniforms_unified (p : WrittenProgram) : p.unified.uniforms = p.uniforms := by
  simp only [uniforms, unified, List.map_map]
  rfl

theorem signature_unified (p : WrittenProgram) :
    p.unified.header.signature = p.header.signature := by
  simp only [unified, WrittenHeader.unified, WrittenHeader.signature, List.map_map,
    List.length_map]
  rfl

end WrittenProgram

/-! ## Their texts -/

namespace Text

/-- Before a word and before a mark no break is cut in two. -/
theorem unifyBreaks_append_word (x : Text) {w : Text} (hw : isIdentifier w = true) (y : Text) :
    unifyBreaks (x ++ (w ++ y)) = unifyBreaks x ++ (w ++ unifyBreaks y) := by
  have hreturn : '\r' ∉ w := fun hmem =>
    absurd (List.all_eq_true.mp (all_of_isIdentifier hw) '\r' hmem) (by decide)
  have hhead : (w ++ y).head? ≠ some '\n' := fun h =>
    absurd (head_of_isIdentifier hw y '\n' h) (by decide)
  rw [unifyBreaks_append x hhead, unifyBreaks_append_of_not_mem hreturn]

theorem unifyBreaks_append_mark (x : Text) {c : Char} (hc : isCut c = true) (y : Text) :
    unifyBreaks (x ++ c :: y) = unifyBreaks x ++ c :: unifyBreaks y := by
  have hreturn : c ≠ '\r' := by
    rintro rfl
    exact absurd hc (by decide)
  have hhead : (c :: y).head? ≠ some '\n' := fun h => by
    obtain rfl : c = '\n' := by simpa using h
    exact absurd hc (by decide)
  rw [unifyBreaks_append x hhead, unifyBreaks_cons_of_ne hreturn]

/-- The items of a list with commas, with a mark after it. -/
theorem unifyBreaks_intercalate {ι : Type} {item : ι → Text} {unified : ι → ι} {l : List ι}
    (h : ∀ i ∈ l, ∀ c y, isCut c = true →
      unifyBreaks (item i ++ c :: y) = item (unified i) ++ c :: unifyBreaks y)
    {c : Char} (hc : isCut c = true) (y : Text) :
    unifyBreaks ([','].intercalate (l.map item) ++ c :: y) =
      [','].intercalate ((l.map unified).map item) ++ c :: unifyBreaks y := by
  induction l with
  | nil => exact unifyBreaks_append_mark [] hc y
  | cons i l ih =>
    have hi := h i List.mem_cons_self
    have hrest := ih fun j hj => h j (List.mem_cons_of_mem i hj)
    cases l with
    | nil =>
      simp only [List.map_cons, List.map_nil, List.intercalate_singleton]
      exact hi c y hc
    | cons j l =>
      simp only [List.map_cons, List.intercalate_cons_cons, List.append_assoc, List.cons_append,
        List.nil_append] at hrest ⊢
      rw [hi ',' _ (by decide), hrest]

end Text

theorem WrittenHeader.unifyBreaks_text {h : WrittenHeader} (hh : h.WellFormed) (y : Text) :
    Text.unifyBreaks (h.text ++ y) = h.unified.text ++ Text.unifyBreaks y := by
  have houtputs : ∀ o ∈ h.outputs, ∀ c y, isCut c = true →
      Text.unifyBreaks (o.text ++ c :: y) = o.unified.text ++ c :: Text.unifyBreaks y := by
    intro o _ c y hc
    rw [WrittenOutput.text, List.append_assoc, List.append_assoc,
      Text.unifyBreaks_append_word _ o.element.isIdentifier_word,
      Text.unifyBreaks_append_mark _ hc]
    simp [WrittenOutput.text, WrittenOutput.unified]
  have hparameters : ∀ p ∈ h.parameters, ∀ c y, isCut c = true →
      Text.unifyBreaks (p.text ++ c :: y) = p.unified.text ++ c :: Text.unifyBreaks y := by
    intro p hp c y hc
    have hname := (hh.parameters p hp).name
    rw [WrittenParameter.text, List.append_assoc, List.append_assoc, List.append_assoc,
      List.append_assoc, Text.unifyBreaks_append_word _ (by decide),
      Text.unifyBreaks_append_word _ hname, Text.unifyBreaks_append_mark _ hc]
    simp [WrittenParameter.text, WrittenParameter.unified]
  have hshape : ∀ (h : WrittenHeader) (y : Text), h.text ++ y = '[' :: (h.outputsText ++
      ']' :: (h.afterOutputs ++ (threadWord ++ (h.afterThread ++ '(' ::
        (h.parametersText ++ ')' :: y))))) := by
    intro h y
    simp [text, front]
  rw [hshape, hshape, Text.unifyBreaks_cons_of_ne (by decide), outputsText,
    Text.unifyBreaks_intercalate houtputs (by decide),
    Text.unifyBreaks_append_word _ (w := threadWord) (by decide),
    Text.unifyBreaks_append_mark _ (by decide), parametersText,
    Text.unifyBreaks_intercalate hparameters (by decide)]
  rfl

theorem WrittenDeclaration.unifyBreaks_line {d : WrittenDeclaration} (hd : d.Spelled) (y : Text) :
    Text.unifyBreaks (d.before ++ (d.line ++ y)) =
      d.unified.before ++ (d.unified.line ++ Text.unifyBreaks y) := by
  have hshape : ∀ d : WrittenDeclaration, d.line ++ y = uniformWord ++ (d.afterUniform ++
      (d.type.word ++ (d.afterType ++ (d.name ++ (d.afterName ++ ';' :: y))))) := by
    intro d
    simp [line, declarationText]
  rw [hshape, Text.unifyBreaks_append_word _ (w := uniformWord) (by decide),
    Text.unifyBreaks_append_word _ d.type.isIdentifier_word,
    Text.unifyBreaks_append_word _ hd.name, Text.unifyBreaks_append_mark _ (by decide)]
  simp [line, declarationText, unified]

namespace WrittenProgram

variable {p : WrittenProgram}

theorem unifyBreaks_text (hp : p.Framed) : Text.unifyBreaks p.text =
    p.unified.declarations.flatMap (fun d => d.before ++ d.line) ++
      (p.unified.gap ++ (p.unified.header.text ++ Text.unifyBreaks p.body)) := by
  have hdeclarations : ∀ ds : List WrittenDeclaration, (∀ d ∈ ds, d.Spelled) → ∀ y,
      Text.unifyBreaks (ds.flatMap (fun d => d.before ++ d.line) ++ y) =
        (ds.map WrittenDeclaration.unified).flatMap (fun d => d.before ++ d.line) ++
          Text.unifyBreaks y := by
    intro ds hds y
    induction ds with
    | nil => rfl
    | cons d ds ih =>
      have hrest := ih fun e he => hds e (List.mem_cons_of_mem d he)
      rw [List.flatMap_cons, List.append_assoc, List.append_assoc,
        d.unifyBreaks_line (hds d List.mem_cons_self), hrest]
      simp
  have hheader : (p.header.text ++ p.body).head? ≠ some '\n' := by
    rintro ⟨⟩
  rw [text, hdeclarations _ hp.declarations, Text.unifyBreaks_append _ hheader,
    WrittenHeader.unifyBreaks_text hp.header]
  rfl

/-- Declarations and header have no slashes. -/
theorem slash_not_mem (hp : p.Framed) :
    '/' ∉ p.declarations.flatMap (fun d => d.before ++ d.line) ++ (p.gap ++ p.header.text) := by
  have hblank : ∀ {w : Text}, Blank w → '/' ∉ w := fun hw hmem =>
    absurd (hw '/' hmem) (by decide)
  have hplain : ∀ {w : Text}, (∀ c ∈ w, isPlain c = true) → '/' ∉ w := fun hw hmem =>
    absurd (hw '/' hmem) (by decide)
  have hheader := hp.header
  simp only [List.mem_append, List.mem_flatMap, not_or, not_exists, not_and]
  refine ⟨fun d hd => ⟨hblank (hp.declarations d hd).before, fun hmem => ?_⟩, hblank hp.gap, ?_⟩
  · exact absurd (d.isLineChar_of_mem_line (hp.declarations d hd) hmem) (by decide)
  · have hthread : '/' ∉ threadWord := by decide
    simp [WrittenHeader.text, WrittenHeader.front, hblank hheader.afterOutputs,
      hblank hheader.afterThread, hplain (WrittenHeader.isPlain_outputsText hheader),
      hplain (WrittenHeader.isPlain_parametersText hheader), hthread]

/-- Removing comments from a program without comments writes its line breaks in one form. -/
theorem stripComments_text (hp : p.Framed) (hcomment : ¬ ['/', '/'] <:+: p.body) :
    Text.stripComments p.text = p.unified.text := by
  have hsplit : p.text = p.declarations.flatMap (fun d => d.before ++ d.line) ++
      (p.gap ++ p.header.text) ++ p.body := by
    simp [text]
  have hnone : ¬ ['/', '/'] <:+: p.text := by
    rw [hsplit]
    exact Text.not_infix_append (slash_not_mem hp) hcomment
  have hheader : ∀ (h : WrittenHeader) (y : Text),
      Text.dropBreak (h.text ++ y) = h.text ++ Text.dropBreak y := by
    intro h y
    have hmark : h.text ++ y = h.front ++ h.parametersText ++ ')' :: y := by
      simp [WrittenHeader.text]
    rw [hmark, Text.dropBreak_append _ (List.cons_ne_nil _ _),
      Text.dropBreak_cons_of_ne (by decide)]
    simp [WrittenHeader.text]
  have hne : ∀ (h : WrittenHeader) (y : Text), h.text ++ y ≠ [] := fun h y => List.cons_ne_nil _ _
  rw [Text.stripComments_eq hnone, unifyBreaks_text hp,
    Text.dropBreak_append _ (List.append_ne_nil_of_right_ne_nil _ (hne _ _)),
    Text.dropBreak_append _ (hne _ _), hheader]
  rfl

end WrittenProgram

end Texelwise

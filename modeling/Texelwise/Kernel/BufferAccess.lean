import Texelwise.Kernel.Interface
import Texelwise.Kernel.Sample

/-!
# Buffers in shader text

A thread program reads a buffer by subscripts, `name[x][y]`, and its extents as fields,
`name.width`. In the shader the buffer is a texture with companions in the uniform block, so for
each buffer kind three passes go over the text.

* `sampleAllReads`: subscripted names become texture samples, nested ones included.
* `replaceFields`: fields become companions.
* `replaceDeclarations`: declaration lines become texture declarations.

The first two take the names from the declaration lines, so they come before the third. No such name
has a bracket.
-/

namespace Texelwise

namespace Pattern

/-- The field `field` of `name`. -/
def field (name field : Text) : Pattern :=
  literal name ++ spaceOptional ++ mark '.' ++ spaceOptional ++ literal field

end Pattern

/-- The names declared with the type word `type` in the text as it stands. -/
def declaredNames (type code : Text) : Except PatternError (List Text) :=
  ((Pattern.declaration (.literal type)).occurrences code).map (·.map (·.capture 0))

/-- A declaration captures an identifier or a number. -/
theorem exists_of_match?_declaration {type : Text} {ts : List Token} {m : Match}
    (h : (Pattern.declaration (.literal type)).match? ts = some m) :
    ∃ t ∈ ts, (t.kind = .ident ∨ t.kind = .number) ∧ m.captures = [t.text] := by
  obtain ⟨word, ts₁, m₁, hword, h₁, rfl⟩ := Pattern.exists_of_match?_atom h
  obtain ⟨space, ts₂, m₂, hspace, h₂, rfl⟩ := Pattern.exists_of_match?_atom h₁
  obtain ⟨kind, ts₃, m₃, hkind, h₃, rfl⟩ := Pattern.exists_of_match?_atom h₂
  obtain ⟨space', ts₄, m₄, hspace', h₄, rfl⟩ := Pattern.exists_of_match?_atom h₃
  obtain ⟨i, m₅, hi, h₅, rfl⟩ := Pattern.exists_of_match?_capture h₄
  obtain ⟨run, ts₅, n, hrun, hnil, rfl⟩ := Pattern.exists_of_match?_atom hi
  obtain ⟨gap, ts₆, m₆, -, h₆, rfl⟩ := Pattern.exists_of_match?_atom h₅
  obtain ⟨semicolon, ts₇, m₇, -, h₇, rfl⟩ := Pattern.exists_of_match?_atom h₆
  cases hnil
  cases h₇
  obtain ⟨t, rfl, ht⟩ := Atom.exists_of_split?_alphanumeric hrun
  refine ⟨t, ?_, ht, by simp⟩
  rw [← Atom.split?_append hword, ← Atom.split?_append hspace, ← Atom.split?_append hkind,
    ← Atom.split?_append hspace', ← Atom.split?_append hrun]
  simp

/-- No declared name has a bracket. -/
theorem not_mem_of_declaredNames {type code : Text} {names : List Text}
    (h : declaredNames type code = .ok names) : ∀ name ∈ names, '[' ∉ name := by
  unfold declaredNames Pattern.occurrences at h
  cases hpieces : (Pattern.declaration (.literal type)).pieces code with
  | error e =>
    rw [hpieces] at h
    cases h
  | ok pieces =>
    rw [hpieces] at h
    cases h
    intro name hname
    obtain ⟨o, ho, rfl⟩ := List.mem_map.mp hname
    obtain ⟨piece, hpiece, ho⟩ := List.mem_filterMap.mp ho
    cases piece with
    | kept t => cases ho
    | found o' =>
      cases ho
      obtain ⟨us, m, hus, hm, rfl⟩ := Pattern.match?_of_mem_scan hpieces hpiece
      obtain ⟨t, ht, hkind, hcaptures⟩ := exists_of_match?_declaration hm
      rw [Occurrence.capture, hcaptures]
      exact not_mem_of_mem_tokenize (hus.subset ht) hkind

/-! ## Reads -/

/-- Replaces the reads of these buffers, one buffer after another. -/
def sampleEach (kind : BufferKind) : (names : List Text) → (∀ name ∈ names, '[' ∉ name) → Text →
    Except PatternError Text
  | [], _, code => .ok code
  | name :: rest, h, code => do
    let code ← sampleReads name (h name List.mem_cons_self) kind code
    sampleEach kind rest (fun n hn => h n (List.mem_cons_of_mem name hn)) code

/-- Replaces the reads of all buffers that are declared with this kind. -/
def sampleAllReads (kind : BufferKind) (code : Text) : Except PatternError Text :=
  match h : declaredNames kind.word code with
  | .error e => .error e
  | .ok names => sampleEach kind names (not_mem_of_declaredNames h) code

theorem sampleAllReads_eq {kind : BufferKind} {code : Text} {names : List Text}
    (h : declaredNames kind.word code = .ok names) :
    sampleAllReads kind code = sampleEach kind names (not_mem_of_declaredNames h) code := by
  unfold sampleAllReads
  split
  · rename_i he
    cases h.symm.trans he
  · rename_i found hfound
    obtain rfl : names = found := Except.ok.inj (h.symm.trans hfound)
    rfl

/-! ## Fields and declarations -/

/-- Replaces one field of the buffer `name`. -/
def replaceField (name field code : Text) : Except PatternError Text :=
  (Pattern.field name field).replaceAll (fun _ => bufferMemberName name field) code

/-- Replaces the fields of all buffers that are declared with this kind. -/
def replaceFields (kind : BufferKind) (code : Text) : Except PatternError Text := do
  let names ← declaredNames kind.word code
  names.foldlM
    (fun code name => kind.rank.fields.foldlM (fun code field => replaceField name field code) code)
    code

/-- Replaces the declarations with the type word `type` by what the table puts in their place. -/
def replaceDeclarations (type : Text) (table : BindingTable) (code : Text) :
    Except PatternError Text :=
  (Pattern.declaration (.literal type)).replaceAll
    (fun o =>
      match table.slot? (o.capture 0) with
      | some slot => slot.declarationText
      | none => o.text)
    code

/-- The three passes for one buffer kind. -/
def replaceBuffers (table : BindingTable) (kind : BufferKind) (code : Text) :
    Except PatternError Text := do
  let sampled ← sampleAllReads kind code
  let fielded ← replaceFields kind sampled
  replaceDeclarations kind.word table fielded

end Texelwise

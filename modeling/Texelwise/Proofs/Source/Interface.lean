import Texelwise.Proofs.Source.Program

/-!
# Reading regular programs

What the compiler reads from a regular program before and between its passes over the body.

* `WrittenProgram.declaredNames_front`, `WrittenProgram.replaceDeclarations_front`: the
  declarations of one type are listed and replaced.
* `WrittenProgram.ofText_text`: the interface is the signature and the declarations.
-/

namespace Texelwise

open Token

/-! ## Sweeps over tokens -/

theorem Sweep.of_textOf {β : Type} (s : Sweep β) {ts : List Token} (hts : Separated ts) :
    s.of (textOf ts) = s.along ts := by
  rw [Sweep.of, tokenize_textOf hts]

/-- A sweep for declarations keeps tokens without the word `uniform`. -/
theorem Sweep.of_textOf_of_ne_uniformWord {β : Type} {s : Sweep β} {type : Pattern}
    (hs : s.pattern = .declaration type) {ts : List Token} (hts : Separated ts)
    (hu : ∀ u ∈ ts, u.text ≠ uniformWord) : s.of (textOf ts) = (textOf ts).flatMap s.keep := by
  have hover := Sweep.along_of_ne_uniformWord hs hu []
  rwa [List.append_nil, Sweep.along_nil, List.append_nil, ← s.of_textOf hts] at hover

theorem flatMap_singleton_eq (x : Text) : x.flatMap (fun c => [c]) = x := by
  simp

theorem flatMap_nil_eq {β : Type} (x : Text) : x.flatMap (fun _ => ([] : List β)) = [] := by
  simp

namespace WrittenProgram

variable {p : WrittenProgram} (hp : p.Framed) {table : BindingTable} {done : List UniformType}

include hp

section

variable {ts : List Token} (hts : Separated ts) (hu : ∀ u ∈ ts, u.text ≠ uniformWord)

include hts hu

/-- The names declared with a type whose declarations are not replaced yet. -/
theorem declaredNames_front {t : UniformType} (ht : t ∉ done) :
    declaredNames t.word (p.front table done ++ textOf ts) = .ok (p.names t) := by
  have hfound : (Sweep.list (.declaration (.literal t.word))).of (p.front table done ++ textOf ts) =
      (p.declarations.filter fun d => d.type = t).map fun d => ⟨d.tokens, [d.name]⟩ := by
    rw [turns_declaration hp (s := Sweep.list (.declaration (.literal t.word))) t rfl,
      Sweep.of_textOf_of_ne_uniformWord rfl hts hu]
    simp only [Sweep.list, flatMap_nil_eq, List.append_nil, List.nil_append]
    induction p.declarations with
    | nil => rfl
    | cons d ds ih =>
      rw [List.flatMap_cons, ih]
      by_cases htd : d.type = t
      · rw [if_neg (by rw [htd]; exact ht), if_pos htd,
          List.filter_cons_of_pos (by simpa using htd)]
        rfl
      · rw [if_neg htd, ite_self, List.filter_cons_of_neg (by simpa using htd)]
        rfl
  rw [declaredNames, Pattern.occurrences_eq (consumes_declaration _), hfound]
  simp only [Except.map, List.map_map, names]
  rfl

/-- The declarations of one more type are replaced. -/
theorem replaceDeclarations_front (t : UniformType)
    (htable : ∀ d ∈ p.declarations, (table.slot? d.name).isSome) :
    replaceDeclarations t.word table (p.front table done ++ textOf ts) =
      .ok (p.front table (t :: done) ++ textOf ts) := by
  unfold replaceDeclarations
  rw [Pattern.replaceAll_eq (consumes_declaration _)]
  congr 1
  rw [turns_declaration hp t rfl, Sweep.of_textOf_of_ne_uniformWord rfl hts hu]
  simp only [Sweep.replace, flatMap_singleton_eq]
  congr 2
  refine List.flatMap_congr fun d hmem => ?_
  congr 1
  obtain ⟨slot, hslot⟩ := Option.isSome_iff_exists.mp (htable d hmem)
  by_cases hdone : d.type ∈ done
  · rw [if_pos hdone, if_pos (List.mem_cons_of_mem t hdone)]
  · by_cases htd : d.type = t
    · rw [if_neg hdone, if_pos htd, if_pos (by rw [htd]; exact List.mem_cons_self)]
      simp [Occurrence.capture, WrittenDeclaration.replaced, hslot]
    · rw [if_neg hdone, if_neg htd, if_neg (by simp [htd, hdone])]

end

/-! ## The interface -/

omit hp in
theorem readDeclarations_eq {ds : List WrittenDeclaration} {seen : List Text}
    (hnodup : (ds.map WrittenDeclaration.name).Nodup) (hseen : ∀ d ∈ ds, d.name ∉ seen) :
    readDeclarations seen (ds.map fun d => ⟨d.tokens, [d.type.word, d.name]⟩) =
      .ok (ds.map WrittenDeclaration.declaration) := by
  induction ds generalizing seen with
  | nil => rfl
  | cons d ds ih =>
    rw [List.map_cons, List.nodup_cons] at hnodup
    have hfresh := hseen d List.mem_cons_self
    have hrest : ∀ e ∈ ds, e.name ∉ d.name :: seen := by
      intro e he hmem
      rcases List.mem_cons.mp hmem with h | h
      · exact hnodup.1 (h ▸ List.mem_map_of_mem he)
      · exact hseen e (List.mem_cons_of_mem d he) h
    rw [List.map_cons, readDeclarations]
    simp only [Occurrence.capture, List.getD_cons_zero, List.getD_cons_succ,
      UniformType.ofWord?_word, if_neg hfresh, ih hnodup.2 hrest]
    rfl

/-- The uniforms that the program declares. -/
theorem readUniforms_text (hnodup : (p.declarations.map WrittenDeclaration.name).Nodup)
    (hu : ∀ u ∈ tokenize p.body, u.text ≠ uniformWord) : readUniforms p.text = .ok p.uniforms := by
  have hfound : (Sweep.list Pattern.anyDeclaration).of p.text =
      p.declarations.map fun d => ⟨d.tokens, [d.type.word, d.name]⟩ := by
    have hs : (Sweep.list Pattern.anyDeclaration).pattern =
        .declaration (.group .alphanumeric) := rfl
    have hdeclarations : (Sweep.list Pattern.anyDeclaration).Turns
        (p.declarations.flatMap fun d => d.before ++ d.line)
        (p.declarations.flatMap fun d => d.before.flatMap (fun _ => []) ++
          [⟨d.tokens, [d.type.word, d.name]⟩]) := by
      refine Sweep.Turns.flatMap fun d hmem => ?_
      have hd := hp.declarations d hmem
      exact (Sweep.Turns.declaration_blank hs hd.before).append
        (d.turns_line hd accepts_alphanumeric hs)
    rw [text, hdeclarations, Sweep.Turns.declaration_blank hs hp.gap,
      Sweep.Turns.declaration_header accepts_alphanumeric hs hp.header, ← textOf_tokenize p.body,
      Sweep.of_textOf_of_ne_uniformWord hs (separated_tokenize p.body) hu]
    simp only [Sweep.list, flatMap_nil_eq, List.append_nil, List.nil_append]
    exact List.map_eq_flatMap.symm
  have hoccurrences : Pattern.anyDeclaration.occurrences p.text =
      .ok (p.declarations.map fun d => ⟨d.tokens, [d.type.word, d.name]⟩) := by
    rw [Pattern.occurrences_eq (p := .anyDeclaration) (consumes_declaration _), hfound]
  unfold readUniforms
  rw [hoccurrences]
  exact readDeclarations_eq hnodup fun _ _ => List.not_mem_nil

/-- The signature of the one header. -/
theorem readThread_text (hnone : Pattern.header.occurrences p.body = .ok []) :
    readThread p.text = .ok p.header.signature := by
  have hbody : (Sweep.list .header).of p.body = [] := by
    rw [Pattern.occurrences_eq (p := .header) rfl] at hnone
    exact Except.ok.inj hnone
  have hfound : (Sweep.list .header).of p.text =
      [⟨tokenize p.header.text, [p.header.outputsText, p.header.parametersText]⟩] := by
    rw [p.text_eq ⟨[], []⟩, turns_header hp (s := Sweep.list .header) rfl, hbody]
    simp only [Sweep.list, flatMap_nil_eq, List.append_nil, List.nil_append]
  have hoccurrences : Pattern.header.occurrences p.text =
      .ok [⟨tokenize p.header.text, [p.header.outputsText, p.header.parametersText]⟩] := by
    rw [Pattern.occurrences_eq (p := .header) rfl, hfound]
  unfold readThread
  rw [hoccurrences]
  exact WrittenHeader.readHeader_eq hp.header

/-- The program offers its signature and its declarations. -/
theorem Framed.ofText_text (hnodup : (p.declarations.map WrittenDeclaration.name).Nodup)
    (hu : ∀ u ∈ tokenize p.body, u.text ≠ uniformWord)
    (hnone : Pattern.header.occurrences p.body = .ok []) :
    Interface.ofText p.text = .ok ⟨p.header.signature, p.uniforms⟩ := by
  unfold Interface.ofText
  rw [readThread_text hp hnone, readUniforms_text hp hnodup hu]
  rfl

omit hp in
theorem ofText_text (hp : p.Regular) :
    Interface.ofText p.text = .ok ⟨p.header.signature, p.uniforms⟩ :=
  hp.framed.ofText_text hp.names_nodup hp.no_uniform hp.no_header

end WrittenProgram

end Texelwise

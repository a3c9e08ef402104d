import Texelwise.Proofs.Expansion.Edits
import Texelwise.Proofs.Kernel.Totality
import Texelwise.Proofs.Program.Creation
import Texelwise.Proofs.Source.Program

/-!
# Where buffers are declared

The passes for a kind of buffers take the names of the declarations with its type word. In the
source, all of these are declarations of the interface, since a declaration does not start inside
another one.

* `DeclarationOf`: the tokens of a declaration; `DeclaresBuffer`: one of them stands in a text.
* `read?_declaration_eq_some_iff`: what the pattern of a declaration reads.
* `Pattern.mem_walk_of_match?`: matches that do not overlap are occurrences.
* `DeclaresBuffer.mem_uniforms`: buffers that a source declares are uniforms of its interface.
-/

namespace Texelwise

open Token

/-! ## Declarations -/

/-- The tokens of a declaration of `name` with the type word `type`. -/
inductive DeclarationOf (type name : Text) : List Token → Prop
  | mk {b t b' n : Token} {gap : List Token} (hb : b.kind = .space)
      (ht : t.kind = .ident ∨ t.kind = .number) (htype : t.text = type) (hb' : b'.kind = .space)
      (hn : n.kind = .ident ∨ n.kind = .number) (hname : n.text = name) (hgap : Gap gap) :
      DeclarationOf type name (word uniformWord :: b :: t :: b' :: n :: (gap ++ [mark ';']))

/-- The buffer `name` of this kind is declared somewhere in the text. -/
def DeclaresBuffer (x : Text) (kind : BufferKind) (name : Text) : Prop :=
  ∃ w, DeclarationOf kind.word name w ∧ w <:+: tokenize x

/-- The pattern reads one token that passes the test, and what is captured of it. -/
def Pattern.ReadsOne (p : Pattern) (test : Token → Bool) (captured : Token → List Text) : Prop :=
  ∀ ts, p.read? ts = (next? test ts).map fun (t, rest) => (captured t, rest)

theorem Pattern.ReadsOne.append {p : Pattern} {test : Token → Bool} {captured : Token → List Text}
    (hp : p.ReadsOne test captured) {q : Pattern} {ts rest : List Token} {cs : List Text} :
    (p ++ q).read? ts = some (cs, rest) ↔ ∃ t us ds, test t = true ∧ ts = t :: us ∧
      q.read? us = some (ds, rest) ∧ cs = captured t ++ ds := by
  rw [Pattern.read?_append, hp]
  constructor
  · intro h
    obtain ⟨⟨cs', us⟩, hfirst, hrest⟩ := Option.bind_eq_some_iff.mp h
    obtain ⟨⟨t, us⟩, hnext, heq⟩ := Option.map_eq_some_iff.mp hfirst
    cases heq
    obtain ⟨ht, rfl⟩ := next?_eq_some_iff.mp hnext
    obtain ⟨⟨ds, rest⟩, hq, heq⟩ := Option.map_eq_some_iff.mp hrest
    cases heq
    exact ⟨t, us, ds, ht, rfl, hq, rfl⟩
  · rintro ⟨t, us, ds, ht, rfl, hq, rfl⟩
    simp [next?, ht, hq]

section

variable {ts rest : List Token} (hp : ∀ u ∈ ts, u.Proper)

include hp

/-- A declaration ends with a semicolon, after a gap. -/
theorem read?_declarationEnd_eq_some_iff {cs : List Text} :
    (Pattern.spaceOptional ++ .mark ';').read? ts = some (cs, rest) ↔
      cs = [] ∧ ∃ gap, Gap gap ∧ ts = gap ++ mark ';' :: rest := by
  rw [Pattern.read?_spaceOptional_mark hp (c := ';') (by decide), Option.map_eq_some_iff]
  constructor
  · rintro ⟨left, hleft, heq⟩
    cases heq
    exact ⟨rfl, afterMark?_eq_some_iff.mp hleft⟩
  · rintro ⟨rfl, hgap⟩
    exact ⟨rest, afterMark?_eq_some_iff.mpr hgap, rfl⟩

/-- What a declaration reads, for a type that is read off one token. -/
theorem read?_declaration_eq_some_iff {type : Pattern} {test : Token → Bool}
    {captured : Token → List Text} (htype : type.ReadsOne test captured) {cs : List Text} :
    (Pattern.declaration type).read? ts = some (cs, rest) ↔
      ∃ b t b' n gap, b.kind = .space ∧ test t = true ∧ b'.kind = .space ∧
        (n.kind = .ident ∨ n.kind = .number) ∧ Gap gap ∧ cs = captured t ++ [n.text] ∧
        ts = word uniformWord :: b :: t :: b' :: n :: (gap ++ mark ';' :: rest) := by
  have hword : (Pattern.literal uniformWord).ReadsOne (·.text = uniformWord) fun _ => [] :=
    Pattern.read?_literal uniformWord
  have hspace : Pattern.spaceMandated.ReadsOne (·.kind = .space) fun _ => [] :=
    Pattern.read?_spaceMandated
  have hname : (Pattern.group .alphanumeric).ReadsOne
      (fun n => n.kind = .ident || n.kind = .number) fun n => [n.text] :=
    Pattern.read?_group_alphanumeric
  rw [declaration_eq, hword.append]
  constructor
  · rintro ⟨u, _, _, hu, rfl, h₁, rfl⟩
    obtain ⟨b, _, _, hb, rfl, h₂, rfl⟩ := hspace.append.mp h₁
    obtain ⟨t, _, _, ht, rfl, h₃, rfl⟩ := htype.append.mp h₂
    obtain ⟨b', _, _, hb', rfl, h₄, rfl⟩ := hspace.append.mp h₃
    obtain ⟨n, _, _, hn, rfl, h₅, rfl⟩ := hname.append.mp h₄
    obtain ⟨rfl, gap, hgap, rfl⟩ :=
      (read?_declarationEnd_eq_some_iff fun v hv => hp v (by simp [hv])).mp h₅
    have hword : u = word uniformWord := by
      have hu' : u.text = uniformWord := of_decide_eq_true hu
      rw [← hu']
      exact (hp u List.mem_cons_self).eq_word (by rw [hu']; decide)
    exact ⟨b, t, b', n, gap, of_decide_eq_true hb, ht, of_decide_eq_true hb', by simpa using hn,
      hgap, by simp, by rw [hword]⟩
  · rintro ⟨b, t, b', n, gap, hb, ht, hb', hn, hgap, rfl, rfl⟩
    have hproper : ∀ v ∈ gap ++ mark ';' :: rest, v.Proper := fun v hv => hp v (by simp [hv])
    have hrest := (read?_declarationEnd_eq_some_iff hproper).mpr ⟨rfl, gap, hgap, rfl⟩
    refine ⟨_, _, _, decide_eq_true rfl, rfl, hspace.append.mpr ⟨b, _, _, decide_eq_true hb, rfl,
      htype.append.mpr ⟨t, _, _, ht, rfl, hspace.append.mpr ⟨b', _, _, decide_eq_true hb', rfl,
        hname.append.mpr ⟨n, _, _, by simpa using hn, rfl, hrest, rfl⟩, rfl⟩, rfl⟩, rfl⟩, by simp⟩

/-- A match of a declaration takes the tokens of one. -/
theorem match?_declaration_eq_some {type : Pattern} {test : Token → Bool}
    {captured : Token → List Text} (htype : type.ReadsOne test captured)
    (hkind : ∀ t ∈ ts, test t = true → t.kind = .ident ∨ t.kind = .number) {m : Match}
    (h : (Pattern.declaration type).match? ts = some m) :
    ∃ t name, test t = true ∧ DeclarationOf t.text name m.taken ∧
      m.captures = captured t ++ [name] := by
  have happ := Pattern.match?_append h
  have hread : (Pattern.declaration type).read? ts = some (m.captures, m.rest) := by
    rw [Pattern.read?, h, Option.map_some]
  obtain ⟨b, t, b', n, gap, hb, ht, hb', hn, hgap, hcs, hts⟩ :=
    (read?_declaration_eq_some_iff hp htype).mp hread
  have htaken : m.taken = word uniformWord :: b :: t :: b' :: n :: (gap ++ [mark ';']) := by
    refine List.append_cancel_right (happ.trans (hts.trans ?_))
    simp
  have hmem : t ∈ ts := by simp [hts]
  exact ⟨t, n.text, ht, htaken ▸ .mk hb (hkind t hmem ht) rfl hb' hn rfl hgap, hcs⟩

end

theorem readsOne_literal (w : Text) :
    (Pattern.literal w).ReadsOne (·.text = w) fun _ => [] := Pattern.read?_literal w

theorem readsOne_alphanumeric : (Pattern.group .alphanumeric).ReadsOne
    (fun t => t.kind = .ident || t.kind = .number) fun t => [t.text] :=
  Pattern.read?_group_alphanumeric

theorem DeclarationOf.exists_cons {type name : Text} {w : List Token}
    (h : DeclarationOf type name w) : ∃ us, w = word uniformWord :: us := by
  obtain ⟨⟩ := h
  exact ⟨_, rfl⟩

theorem DeclarationOf.isName {type name : Text} {w : List Token} (h : DeclarationOf type name w)
    (hp : ∀ u ∈ w, u.Proper) : IsName name := by
  obtain ⟨-, -, -, -, hn, rfl, -⟩ := h
  rename_i b t b' n gap
  exact ⟨n, hp n (by simp), hn, rfl⟩

/-- No declaration starts inside another one. -/
theorem DeclarationOf.startsOnly {type name type' name' : Text} {u : Token} {w w' : List Token}
    (h : DeclarationOf type name (u :: w)) (h' : DeclarationOf type' name' w') :
    StartsOnly w' w False := by
  obtain ⟨hc, ht, -, hc', hm, -, -⟩ := h'
  rename_i c t' c' m gap'
  have hspace : ∀ v : Token, v.kind = .space → v ≠ word uniformWord := by
    rintro v hv rfl
    cases hv
  -- A blank and a word do not fit the end of a declaration.
  have hend : ∀ {gap ys zs : List Token} {b v : Token}, Gap gap → b.kind = .space →
      (v.kind = .ident ∨ v.kind = .number) → ¬ b :: v :: ys <+: gap ++ [mark ';'] ++ zs := by
    intro gap ys zs b v hgap hb hv hw
    cases hgap with
    | none =>
      obtain rfl : b = mark ';' := (List.cons_prefix_cons.mp hw).1
      cases hb
    | blank =>
      obtain rfl : v = mark ';' := (List.cons_prefix_cons.mp (List.cons_prefix_cons.mp hw).2).1
      rcases hv with hv | hv <;> cases hv
  obtain ⟨hb, -, -, hb', hn, -, hgap⟩ := h
  refine .cons (fun zs hw => ?_) (.cons (fun zs hw => ?_) (.cons (fun zs hw => ?_)
    (.cons (fun zs hw => ?_) (.of_not_mem ?_))))
  · exact hspace _ hb (List.cons_prefix_cons.mp hw).1.symm
  · simp only [List.cons_append, List.cons_prefix_cons] at hw
    exact hend hgap hc' hm hw.2.2.2
  · exact hspace _ hb' (List.cons_prefix_cons.mp hw).1.symm
  · exact hend hgap hc ht (List.cons_prefix_cons.mp hw).2
  · intro hmem
    rcases List.mem_append.mp hmem with hmem | hmem
    · exact hspace _ (hgap.kind_eq hmem) rfl
    · exact absurd (List.mem_singleton.mp hmem) (by decide)

/-- What a declaration is read as, wherever its tokens stand. -/
theorem DeclarationOf.match?_anyDeclaration {type name : Text} {w ts : List Token}
    (h : DeclarationOf type name w) (hp : ∀ u ∈ ts, u.Proper) (hw : w <+: ts) :
    ∃ m, Pattern.anyDeclaration.match? ts = some m ∧ m.taken = w ∧ m.captures = [type, name] := by
  obtain ⟨rest, rfl⟩ := hw
  obtain ⟨hb, ht, rfl, hb', hn, rfl, hgap⟩ := h
  rename_i b t b' n gap
  have hread : Pattern.anyDeclaration.read?
      (word uniformWord :: b :: t :: b' :: n :: (gap ++ [mark ';']) ++ rest) =
        some ([t.text, n.text], rest) :=
    (read?_declaration_eq_some_iff hp readsOne_alphanumeric).mpr
      ⟨b, t, b', n, gap, hb, by simpa using ht, hb', hn, hgap, rfl, by simp⟩
  obtain ⟨m, hm, heq⟩ := Option.map_eq_some_iff.mp hread
  obtain ⟨hcaptures, rfl⟩ := Prod.mk.inj heq
  exact ⟨m, hm, List.append_cancel_right (Pattern.match?_append hm), hcaptures⟩

/-! ## Occurrences without overlap -/

/-- If no match starts inside another one, every match is an occurrence. -/
theorem Pattern.mem_walk_of_match? {p : Pattern} (hp : p.Consumes = true) {ts : List Token}
    (hfree : ∀ us m, us <:+ ts → p.match? us = some m → ∀ s, s <:+ m.taken → s ≠ m.taken →
      s ≠ [] → p.match? (s ++ m.rest) = none)
    {us : List Token} {m : Match} (hus : us <:+ ts) (hm : p.match? us = some m) :
    .found ⟨m.taken, m.captures⟩ ∈ p.walk ts := by
  fun_induction walk p ts with
  | case1 =>
    rw [List.suffix_nil.mp hus, match?_nil hp] at hm
    cases hm
  | case2 t ts hnone ih =>
    rcases List.suffix_cons_iff.mp hus with rfl | hus
    · cases hnone.symm.trans hm
    · exact List.mem_cons_of_mem _
        (ih (fun vs n hvs => hfree vs n (hvs.trans (List.suffix_cons t ts))) hus)
  | case3 t ts n hn hlt ih =>
    have happ := match?_append hn
    have hrest : n.rest <:+ t :: ts := happ ▸ List.suffix_append n.taken n.rest
    -- The match starts behind the tokens taken, with them or inside them.
    rcases List.suffix_or_suffix_of_suffix hus hrest with hus | ⟨s, rfl⟩
    · exact List.mem_cons_of_mem _ (ih (fun vs l hvs => hfree vs l (hvs.trans hrest)) hus)
    · rw [← happ] at hus
      by_cases hnil : s = []
      · rw [hnil, List.nil_append] at hm
        exact List.mem_cons_of_mem _
          (ih (fun vs l hvs => hfree vs l (hvs.trans hrest)) (hnil ▸ List.suffix_refl _))
      by_cases hall : s = n.taken
      · rw [hall, happ, hn] at hm
        cases hm
        exact List.mem_cons_self
      · have hs : s <:+ n.taken := ((List.suffix_append_inj_of_length_eq rfl).mp hus).1
        cases (hfree _ n (List.suffix_refl _) hn s hs hall hnil).symm.trans hm
  | case4 t ts n hn hlt => exact absurd (length_lt_of_match? hp hn) hlt

/-! ## Declarations of one type -/

/-- A match of a declaration with a type word takes the tokens of one and captures its name. -/
theorem match?_declaration_literal {type : Text} (htype : isIdentifier type = true)
    {ts : List Token} (hp : ∀ u ∈ ts, u.Proper) {m : Match}
    (h : (Pattern.declaration (.literal type)).match? ts = some m) :
    ∃ name, DeclarationOf type name m.taken ∧ m.captures = [name] := by
  have hkind : ∀ t ∈ ts, decide (t.text = type) = true → t.kind = .ident ∨ t.kind = .number := by
    intro t ht htext
    have hword : t = word t.text :=
      (hp t ht).eq_word (by rw [of_decide_eq_true htext]; exact htype)
    exact .inl (by rw [hword]; rfl)
  obtain ⟨t, name, ht, htaken, hcaptures⟩ :=
    match?_declaration_eq_some hp (readsOne_literal type) hkind h
  have htext : t.text = type := of_decide_eq_true ht
  exact ⟨name, htext ▸ htaken, hcaptures⟩

theorem declaresBuffer_of_match? {x : Text} {kind : BufferKind} {us : List Token} {m : Match}
    (hus : us <:+ tokenize x)
    (h : (Pattern.declaration (.literal kind.word)).match? us = some m) :
    ∃ name, DeclaresBuffer x kind name ∧ DeclarationOf kind.word name m.taken ∧
      m.captures = [name] := by
  have htype : isIdentifier kind.word = true := UniformType.isIdentifier_word (.buffer kind)
  obtain ⟨name, htaken, hcaptures⟩ :=
    match?_declaration_literal htype (fun u hu => proper_tokenize u (hus.subset hu)) h
  have hpart : m.taken <:+: us := by
    rw [← Pattern.match?_append h]
    exact (List.prefix_append _ _).isInfix
  exact ⟨name, ⟨m.taken, htaken, hpart.trans hus.isInfix⟩, htaken, hcaptures⟩

/-- The names that the passes for a kind take are declared with the kind. -/
theorem declaresBuffer_of_mem_declaredNames {kind : BufferKind} {code : Text} {names : List Text}
    (h : declaredNames kind.word code = .ok names) {name : Text} (hname : name ∈ names) :
    DeclaresBuffer code kind name := by
  rw [declaredNames, Pattern.occurrences_eq_walk (consumes_declaration _)] at h
  obtain rfl := Except.ok.inj h
  obtain ⟨o, ho, rfl⟩ := List.mem_map.mp hname
  obtain ⟨piece, hpiece, ho⟩ := List.mem_filterMap.mp ho
  cases piece with
  | kept t => cases ho
  | found o' =>
    cases ho
    obtain ⟨us, m, hus, hm, rfl⟩ := Pattern.match?_of_mem_walk hpiece
    obtain ⟨name, hdeclares, -, hcaptures⟩ := declaresBuffer_of_match? hus hm
    rwa [Occurrence.capture, hcaptures]

/-! ## Declarations of the interface -/

/-- Declarations that are read are those of the occurrences, one after another. -/
theorem forall₂_of_readDeclarations {seen : List Text} {found : List Occurrence}
    {ds : List UniformDeclaration} (h : readDeclarations seen found = .ok ds) :
    List.Forall₂ (fun o d => UniformType.ofWord? (o.capture 0) = some d.type ∧
      o.capture 1 = d.name) found ds := by
  induction found generalizing seen ds with
  | nil =>
    cases h
    exact .nil
  | cons o found ih =>
    rw [readDeclarations] at h
    split at h
    · cases h
    · rename_i type htype
      split at h
      · cases h
      · cases hrest : readDeclarations (o.capture 1 :: seen) found with
        | error e => rw [hrest] at h; cases h
        | ok rest =>
          rw [hrest] at h
          cases h
          exact .cons ⟨htype, rfl⟩ (ih hrest)

/-- No declaration starts inside of another one. -/
theorem match?_anyDeclaration_eq_none_of_inside {us s : List Token} {m : Match}
    (hp : ∀ u ∈ us, u.Proper) (hm : Pattern.anyDeclaration.match? us = some m)
    (hs : s <:+ m.taken) (hne : s ≠ m.taken) (hnil : s ≠ []) :
    Pattern.anyDeclaration.match? (s ++ m.rest) = none := by
  have happ := Pattern.match?_append hm
  have hs' : s ++ m.rest <:+ us := by
    rw [← happ]
    exact (List.suffix_append_inj_of_length_eq rfl).mpr ⟨hs, rfl⟩
  refine Option.eq_none_iff_forall_ne_some.mpr fun n hn => ?_
  obtain ⟨_, _, -, hold, -⟩ := match?_declaration_eq_some hp readsOne_alphanumeric (by simp) hm
  obtain ⟨_, _, -, hnew, -⟩ := match?_declaration_eq_some (fun u hu => hp u (hs'.subset hu))
    readsOne_alphanumeric (by simp) hn
  obtain ⟨v, htaken⟩ := hold.exists_cons
  rw [htaken] at hs hne hold
  rcases List.suffix_cons_iff.mp hs with rfl | hs
  · exact hne rfl
  · refine hold.startsOnly hnew s hs hnil m.rest ?_
    rw [← Pattern.match?_append hn]
    exact List.prefix_append _ _

section

variable {code : Text} {i : Interface} (h : Interface.ofText code = .ok i)

include h

theorem Interface.exists_readDeclarations : ∃ found,
    Pattern.anyDeclaration.occurrences code = .ok found ∧
      readDeclarations [] found = .ok i.uniforms := by
  obtain ⟨thread, -, h⟩ := ok_of_bind h
  obtain ⟨uniforms, huniforms, h⟩ := ok_of_bind h
  cases h
  obtain ⟨found, hfound, huniforms⟩ := ok_of_bind huniforms
  exact ⟨found, ok_of_mapError hfound, huniforms⟩

/-- The interface has every name once. -/
theorem Interface.nodup_names : (i.uniforms.map (·.name)).Nodup := by
  obtain ⟨found, -, hfound⟩ := Interface.exists_readDeclarations h
  exact (nodup_of_readDeclarations hfound).1

/-- Wherever a buffer is declared, the interface has it. -/
theorem DeclaresBuffer.mem_uniforms {kind : BufferKind} {name : Text}
    (hd : DeclaresBuffer code kind name) : ⟨name, .buffer kind⟩ ∈ i.uniforms := by
  have hconsumes : Pattern.anyDeclaration.Consumes = true := consumes_declaration _
  obtain ⟨w, hw, before, after, hwindow⟩ := hd
  have hus : w ++ after <:+ tokenize code :=
    ⟨before, by rw [← List.append_assoc]; exact hwindow⟩
  obtain ⟨m, hm, -, hcaptures⟩ := hw.match?_anyDeclaration
    (fun u hu => proper_tokenize u (hus.subset hu)) (List.prefix_append w after)
  have hmem := Pattern.mem_walk_of_match? hconsumes
    (fun us m hus hm s hs hne hnil => match?_anyDeclaration_eq_none_of_inside
      (fun u hu => proper_tokenize u (hus.subset hu)) hm hs hne hnil) hus hm
  obtain ⟨found, hfound, huniforms⟩ := Interface.exists_readDeclarations h
  rw [Pattern.occurrences_eq_walk hconsumes] at hfound
  obtain rfl := Except.ok.inj hfound
  obtain ⟨d, hd, htype, hname⟩ := exists_of_forall₂ (forall₂_of_readDeclarations huniforms).flip
    (List.mem_filterMap.mpr ⟨_, hmem, rfl⟩)
  rw [Occurrence.capture, hcaptures] at htype hname
  have hkind : UniformType.ofWord? kind.word = some (.buffer kind) :=
    UniformType.ofWord?_word (.buffer kind)
  obtain ⟨_, _⟩ := d
  obtain rfl := Option.some.inj (hkind.symm.trans htype)
  obtain rfl : name = _ := hname
  exact hd

/-- The names of uniforms are identifiers and numbers. -/
theorem Interface.isName_of_mem {d : UniformDeclaration} (hd : d ∈ i.uniforms) :
    IsName d.name := by
  have hconsumes : Pattern.anyDeclaration.Consumes = true := consumes_declaration _
  obtain ⟨found, hfound, huniforms⟩ := Interface.exists_readDeclarations h
  rw [Pattern.occurrences_eq_walk hconsumes] at hfound
  obtain rfl := Except.ok.inj hfound
  obtain ⟨o, ho, -, hname⟩ := exists_of_forall₂ (forall₂_of_readDeclarations huniforms) hd
  obtain ⟨piece, hpiece, ho⟩ := List.mem_filterMap.mp ho
  cases piece with
  | kept t => cases ho
  | found o' =>
    cases ho
    obtain ⟨us, m, hus, hm, rfl⟩ := Pattern.match?_of_mem_walk hpiece
    have hproper : ∀ u ∈ us, u.Proper := fun u hu => proper_tokenize u (hus.subset hu)
    obtain ⟨t, name, -, hw, hcaptures⟩ :=
      match?_declaration_eq_some hproper readsOne_alphanumeric (by simp) hm
    have hcapture : (⟨m.taken, m.captures⟩ : Occurrence).capture 1 = name := by
      rw [Occurrence.capture, hcaptures]
      rfl
    rw [← hname, hcapture]
    exact hw.isName fun u hu => hproper u (by
      rw [← Pattern.match?_append hm]
      exact List.mem_append_left _ hu)

end

end Texelwise

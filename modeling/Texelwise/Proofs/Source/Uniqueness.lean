import Texelwise.Proofs.Expansion.Patterns
import Texelwise.Proofs.Pattern.Ranges
import Texelwise.Proofs.Program.Creation
import Texelwise.Proofs.Source.Header

/-!
# How many thread headers a program has

The compiler looks for headers with a parameter block, and for headers with empty parentheses only
where it finds none of the others. So a program that compiles has one header of the first kind that
no other one of this kind stands beside; there may be headers with empty parentheses anywhere, and
headers in the parameters.

* `StartsHeader`: where a header of either kind stands.
* `HeaderSite`: the parts of a text around the header that the compiler reads.
-/

namespace Texelwise

open Token

/-- A suffix of two parts begins in the second or in the first. -/
theorem suffix_append_cases {α : Type} {xs ys us : List α} (h : us <:+ xs ++ ys) :
    us <:+ ys ∨ ∃ zs, zs ≠ [] ∧ zs <:+ xs ∧ us = zs ++ ys := by
  induction xs with
  | nil => exact .inl h
  | cons x xs ih =>
    rcases List.suffix_cons_iff.mp h with rfl | h
    · exact .inr ⟨x :: xs, List.cons_ne_nil x xs, List.suffix_refl _, rfl⟩
    · rcases ih h with h | ⟨zs, hne, hzs, rfl⟩
      · exact .inl h
      · exact .inr ⟨zs, hne, hzs.trans (List.suffix_cons x xs), rfl⟩

/-! ## What a header that is read has -/

theorem mem_cut {separator c : Char} {t : Text} (hc : c ∈ t) (hne : c ≠ separator) :
    ∃ part ∈ Text.cut separator t, c ∈ part := by
  induction t with
  | nil => cases hc
  | cons d t ih =>
    rw [Text.cut]
    by_cases hd : d = separator
    · rw [if_pos hd]
      rcases List.mem_cons.mp hc with rfl | hc
      · exact absurd hd hne
      · obtain ⟨part, hpart, hmem⟩ := ih hc
        exact ⟨part, List.mem_cons_of_mem _ hpart, hmem⟩
    · rw [if_neg hd]
      obtain ⟨first, parts, hcut⟩ := List.exists_cons_of_ne_nil (Text.cut_ne_nil separator t)
      rw [hcut] at ih ⊢
      rcases List.mem_cons.mp hc with rfl | hc
      · exact ⟨c :: first, List.mem_cons_self, List.mem_cons_self⟩
      · obtain ⟨part, hpart, hmem⟩ := ih hc
        rcases List.mem_cons.mp hpart with rfl | hpart
        · exact ⟨d :: part, List.mem_cons_self, List.mem_cons_of_mem d hmem⟩
        · exact ⟨part, List.mem_cons_of_mem _ hpart, hmem⟩

/-- Trimming keeps what is no blank. -/
theorem mem_trim {c : Char} {t : Text} (hc : c ∈ t) (hblank : Text.isBlank c = false) :
    c ∈ Text.trim t := by
  have hdrop : ∀ s : Text, c ∈ s → c ∈ s.dropWhile Text.isBlank := by
    intro s hs
    rw [← List.takeWhile_append_dropWhile (p := Text.isBlank) (l := s), List.mem_append] at hs
    rcases hs with hs | hs
    · rw [List.mem_takeWhile_imp hs] at hblank
      cases hblank
    · exact hs
  exact List.mem_reverse.mpr (hdrop _ (List.mem_reverse.mpr (hdrop t hc)))

/-- Outputs that are read are words, so there is no bracket among them. -/
theorem not_mem_of_readOutputs {outputs : Text} {elements : List ElementKind}
    (h : readOutputs outputs = .ok elements) : '[' ∉ outputs := by
  intro hmem
  obtain ⟨part, hpart, hmem⟩ := mem_cut hmem (by decide : '[' ≠ ',')
  have hword : Text.trim part ∈ (Text.cut ',' outputs).map Text.trim := List.mem_map_of_mem hpart
  obtain ⟨e, he⟩ : ∃ e, ElementKind.ofWord? (Text.trim part) = some e := by
    obtain ⟨e, -, he⟩ := exists_of_forall₂ (forall₂_of_mapM h).flip hword
    split at he
    · exact ⟨_, ‹_›⟩
    · cases he
  have htrim := mem_trim hmem (by decide)
  have hword : e.word = Text.trim part := by simpa using List.find?_some he
  rw [← hword] at htrim
  cases e <;> exact absurd htrim (by decide)

/-- Blanks are no parameter. -/
theorem parameterCount_of_isAllBlank {params : Text} (h : params.isAllBlank = true) :
    parameterCount params = 0 := by
  have hcomma : ',' ∉ params := fun hmem =>
    absurd (List.all_eq_true.mp h ',' hmem) (by decide)
  rw [parameterCount, cut_of_not_mem hcomma]
  simp [h]

/-! ## Headers -/

/-- Here a thread header stands, with a parameter block or with empty parentheses. -/
def StartsHeader (us : List Token) : Prop :=
  (Pattern.header.match? us).isSome ∨ (Pattern.emptyHeader.match? us).isSome

instance (us : List Token) : Decidable (StartsHeader us) := inferInstanceAs (Decidable (_ ∨ _))

theorem StartsHeader.exists_cons {us : List Token} (h : StartsHeader us) :
    ∃ t ts, us = t :: ts ∧ t.text = ['['] := by
  have hopening : ∀ q : Pattern, ((Pattern.mark '[' ++ q).match? us).isSome →
      ∃ t ts, us = t :: ts ∧ t.text = ['['] := by
    intro q hq
    obtain ⟨m, hm⟩ := Option.isSome_iff_exists.mp hq
    obtain ⟨run, left, n, hrun, -, -⟩ := Pattern.exists_of_match?_atom hm
    obtain ⟨t, rfl, ht⟩ := Atom.exists_of_split?_literal hrun
    exact ⟨t, left, (Atom.split?_append hrun).symm, ht⟩
  rcases h with h | h
  · exact hopening _ h
  · exact hopening _ h

/-- A header starts with a bracket, so behind tokens that are none. -/
theorem StartsHeader.suffix_of_append {xs ys us : List Token} (h : StartsHeader us)
    (hxs : ∀ t ∈ xs, t.text ≠ ['[']) (hus : us <:+ xs ++ ys) : us <:+ ys := by
  rcases suffix_append_cases hus with hus | ⟨zs, hne, hzs, rfl⟩
  · exact hus
  · obtain ⟨z, zs, rfl⟩ := List.exists_cons_of_ne_nil hne
    obtain ⟨t, ts, heq, ht⟩ := h.exists_cons
    obtain ⟨rfl, -⟩ := List.cons_eq_cons.mp heq
    exact absurd ht (hxs z (hzs.subset List.mem_cons_self))

section

variable {us rest : List Token} {captures : List Text} (hp : ∀ u ∈ us, u.Proper)

include hp

/-- The tokens of a header with a parameter block. -/
theorem exists_of_read?_header (h : Pattern.header.read? us = some (captures, rest)) :
    ∃ outputs opening params, captures = [textOf outputs, textOf params] ∧
      us = mark '[' :: (outputs ++ (opening ++ (params ++ mark ')' :: rest))) ∧
      ∀ t ∈ opening, t.text ≠ ['['] := by
  obtain ⟨m, hm, -⟩ := Option.map_eq_some_iff.mp h
  obtain ⟨t, ts, rfl, ht⟩ := StartsHeader.exists_cons (.inl (Option.isSome_of_eq_some hm))
  obtain rfl := (hp t List.mem_cons_self).eq_mark (by decide) ht
  rw [Pattern.read?_header fun u hu => hp u (List.mem_cons_of_mem _ hu)] at h
  obtain ⟨⟨outputs, left⟩, houtputs, h⟩ := Option.bind_eq_some_iff.mp h
  obtain ⟨⟨w, after⟩, hw, h⟩ := Option.bind_eq_some_iff.mp h
  obtain ⟨⟨params, rest'⟩, hparams, h⟩ := Option.map_eq_some_iff.mp h
  cases h
  obtain ⟨-, -, before, hbefore, hts⟩ := (enclosed?_eq_some_iff role_close).mp houtputs
  obtain ⟨hthread, gap, hgap, rfl⟩ := (next?_skipBlank_eq_some_iff fun t ht => decide_eq_false
    (by rintro rfl; cases ht)).mp hw
  obtain rfl : w = word threadWord := of_decide_eq_true hthread
  obtain ⟨-, -, gap', hgap', rfl⟩ := (enclosed?_eq_some_iff role_closeParen).mp hparams
  -- The bracket comes first, so no blank is before it.
  obtain rfl : before = [] := by
    rcases hbefore.eq_nil_or with rfl | ⟨b, rfl, hb⟩
    · rfl
    · obtain ⟨rfl, -⟩ := List.cons_eq_cons.mp hts
      cases hb
  have hkind : ∀ t : Token, t.Proper → t.kind = .space → t.text ≠ ['['] := by
    intro t ht hspace htext
    rw [ht.kind_eq htext] at hspace
    cases hspace
  refine ⟨outputs, mark ']' :: (gap ++ word threadWord :: (gap' ++ [mark '('])), params, rfl, ?_,
    ?_⟩
  · rw [hts]
    simp
  · rw [hts] at hp
    intro t ht
    simp only [List.mem_cons, List.mem_append, List.not_mem_nil, or_false] at ht
    rcases ht with rfl | ht | rfl | ht | rfl
    · decide
    · exact hkind t (hp t (by simp [ht])) (hgap.kind_eq ht)
    · decide
    · exact hkind t (hp t (by simp [ht])) (hgap'.kind_eq ht)
    · decide

/-- A block that stands where closing parentheses may stand as well is a blank. -/
theorem isAllBlank_of_blockRun {block left : List Token} (hrun : blockRun 0 us = some (block, left))
    (hclose : (next? (fun t => t.text = [')']) (skipBlank us)).isSome) :
    (textOf block).isAllBlank = true := by
  have hstop : ∀ (t : Token) (ts : List Token), t.text = [')'] →
      blockRun 0 (t :: ts) = some ([], t :: ts) := by
    intro t ts ht
    have hrole : t.role = .closer := by simp [Token.role, ht]
    rw [blockRun_cons_none (by rw [hrole]; rfl), if_pos rfl]
  obtain ⟨⟨t, after⟩, hnext⟩ := Option.isSome_iff_exists.mp hclose
  obtain ⟨htest, hskip⟩ := next?_eq_some_iff.mp hnext
  have ht : t.text = [')'] := of_decide_eq_true htest
  cases us with
  | nil => cases hskip
  | cons u us =>
    simp only [skipBlank] at hskip
    -- The block is the blank if there is one, and else it is empty.
    split at hskip
    · rename_i hspace
      have hu := hp u List.mem_cons_self
      subst hskip
      have hother : u.role = .other := hu.role_eq (by rw [hspace]; decide)
      rw [blockRun_cons (by rw [hother]; rfl), hstop t after ht] at hrun
      cases hrun
      refine List.all_eq_true.mpr fun c hc => ?_
      have hc : c ∈ u.text := by simpa using hc
      rw [hu.isBlank_eq hc]
      exact decide_eq_true hspace
    · obtain ⟨rfl, rfl⟩ := List.cons_eq_cons.mp hskip
      rw [hstop _ _ ht] at hrun
      cases hrun
      rfl

/-- A header with a block that empty parentheses match as well has just a blank between them. -/
theorem isAllBlank_of_match?_emptyHeader {outputs params : Text}
    (h : Pattern.header.read? us = some ([outputs, params], rest))
    (hempty : (Pattern.emptyHeader.match? us).isSome) : params.isAllBlank = true := by
  have hheader : Pattern.header = .headerStart ++ (.group .codeBlock ++ .mark ')') := by
    rw [Pattern.header, Pattern.append_assoc]
  have hemptyHeader : Pattern.emptyHeader = .headerStart ++ (.spaceOptional ++ .mark ')') := by
    rw [Pattern.emptyHeader, Pattern.append_assoc]
  rw [hheader, Pattern.read?_append] at h
  obtain ⟨⟨start, left⟩, hstart, h⟩ := Option.bind_eq_some_iff.mp h
  obtain ⟨⟨ends, rest'⟩, hends, h⟩ := Option.map_eq_some_iff.mp h
  have hclose : (next? (fun t => t.text = [')']) (skipBlank left)).isSome := by
    rw [← Option.isSome_map (f := fun m : Match => (m.captures, m.rest))] at hempty
    change (Pattern.emptyHeader.read? us).isSome at hempty
    rw [hemptyHeader, Pattern.read?_append, hstart, Option.bind_some, Option.isSome_map,
      Pattern.read?_append, Pattern.read?_spaceOptional, Option.bind_some, Option.isSome_map,
      Pattern.mark, Pattern.read?_literal, Option.isSome_map] at hempty
    exact hempty
  have hleft : ∀ u ∈ left, u.Proper := by
    obtain ⟨m, hm, heq⟩ := Option.map_eq_some_iff.mp hstart
    cases heq
    intro u hu
    exact hp u (by rw [← Pattern.match?_append hm]; exact List.mem_append_right _ hu)
  rw [Pattern.read?_append, Pattern.read?_group_codeBlock] at hends
  obtain ⟨⟨blocks, left'⟩, hblock, hends⟩ := Option.bind_eq_some_iff.mp hends
  obtain ⟨⟨block, left''⟩, hrun, hblock⟩ := Option.bind_eq_some_iff.mp hblock
  obtain ⟨⟨closing, after⟩, hclosing, hends⟩ := Option.map_eq_some_iff.mp hends
  obtain ⟨-, hblock⟩ := Option.ite_none_left_eq_some.mp hblock
  cases hblock
  rw [Pattern.mark, Pattern.read?_literal] at hclosing
  obtain ⟨next, -, hclosing⟩ := Option.map_eq_some_iff.mp hclosing
  cases hclosing
  cases hends
  have hcaptures : start ++ [textOf block] = [outputs] ++ [params] := congrArg Prod.fst h
  obtain ⟨-, hparams⟩ := List.append_inj' hcaptures rfl
  rw [← List.singleton_inj.mp hparams]
  exact isAllBlank_of_blockRun hleft hrun hclose

end

/-! ## The header that is read -/

/-- The header with a parameter block that a signature is read from, and the tokens around it. -/
structure HeaderSite (ts : List Token) (thread : ThreadSignature) where
  before : List Token
  outputs : List Token
  /-- The tokens from the end of the outputs to the parameters. -/
  opening : List Token
  params : List Token
  after : List Token
  tokens_eq : ts = before ++ mark '[' :: (outputs ++ (opening ++ (params ++ mark ')' :: after)))
  isHeader : (Pattern.header.match?
    (mark '[' :: (outputs ++ (opening ++ (params ++ mark ')' :: after))))).isSome
  signature : readHeader (textOf outputs) (textOf params) = .ok thread

namespace HeaderSite

variable {ts : List Token} {thread : ThreadSignature}

/-- The tokens from the header on. -/
def start (site : HeaderSite ts thread) : List Token :=
  mark '[' :: (site.outputs ++ (site.opening ++ (site.params ++ mark ')' :: site.after)))

/-- No header stands beside this one or in its parameters, and none with empty parentheses stands
anywhere. -/
structure Sole (site : HeaderSite ts thread) : Prop where
  empty : ∀ us, us <:+ ts → Pattern.emptyHeader.match? us = none
  params : ∀ us, us <:+ site.params → Pattern.header.match? (us ++ mark ')' :: site.after) = none

theorem start_suffix (site : HeaderSite ts thread) : site.start <:+ ts := by
  conv => rhs; rw [site.tokens_eq]
  exact List.suffix_append _ _

/-- If other headers with parameters can only be in the parameters of this one, and this one has
some, then it is the only header just if there is no other one there and none without parameters. -/
theorem existsUnique_iff (site : HeaderSite ts thread)
    (hempty : Pattern.emptyHeader.match? site.start = none)
    (hsites : ∀ us, us <:+ ts → (Pattern.header.match? us).isSome → us = site.start ∨
      ∃ vs, vs <:+ site.params ∧ us = vs ++ mark ')' :: site.after) :
    (∃! us, us <:+ ts ∧ StartsHeader us) ↔ site.Sole := by
  have hstart : site.start <:+ ts ∧ StartsHeader site.start :=
    ⟨site.start_suffix, .inl site.isHeader⟩
  constructor
  · intro hunique
    refine ⟨fun us hus => ?_, fun us hus => ?_⟩
    · by_contra hne
      have heq := hunique.unique ⟨hus, .inr (Option.isSome_iff_ne_none.mpr hne)⟩ hstart
      exact hne (heq ▸ hempty)
    · by_contra hne
      have hinside : us ++ mark ')' :: site.after <:+
          site.outputs ++ (site.opening ++ (site.params ++ mark ')' :: site.after)) := by
        obtain ⟨first, hfirst⟩ := hus
        exact ⟨site.outputs ++ (site.opening ++ first), by simp [← hfirst]⟩
      have hts : us ++ mark ')' :: site.after <:+ ts :=
        (hinside.trans (List.suffix_cons _ _)).trans site.start_suffix
      have heq := hunique.unique ⟨hts, .inl (Option.isSome_iff_ne_none.mpr hne)⟩ hstart
      have hlength := hinside.length_le
      rw [heq] at hlength
      exact absurd hlength (Nat.not_succ_le_self _)
  · intro hsole
    refine ⟨site.start, hstart, ?_⟩
    rintro us ⟨hus, hus' | hus'⟩
    · rcases hsites us hus hus' with heq | ⟨vs, hvs, rfl⟩
      · exact heq
      · rw [hsole.params vs hvs] at hus'
        cases hus'
    · rw [hsole.empty us hus] at hus'
      cases hus'

end HeaderSite

/-- Where a signature is read, there is one header with a parameter block that no other one stands
before or after; it has no header among its outputs, and it is none with empty parentheses. -/
theorem exists_headerSite {code : Text} {thread : ThreadSignature}
    (h : readThread code = .ok thread) :
    ∃ site : HeaderSite (tokenize code) thread,
      Pattern.emptyHeader.match? site.start = none ∧
      ∀ us, us <:+ tokenize code → (Pattern.header.match? us).isSome → us = site.start ∨
        ∃ vs, vs <:+ site.params ∧ us = vs ++ mark ')' :: site.after := by
  have hconsumes : Pattern.header.Consumes = true := rfl
  obtain ⟨found, hfound, h⟩ := ok_of_bind h
  rw [Pattern.occurrences_eq_walk hconsumes] at hfound
  split at h
  · rename_i o
    have hwalk := Except.ok.inj (ok_of_mapError hfound)
    obtain ⟨before, us, m, hts, hm, rfl, hbefore, hafter⟩ :=
      Pattern.exists_of_walk_singleton hconsumes hwalk
    have hproper : ∀ u ∈ us, u.Proper := fun u hu =>
      proper_tokenize u (by rw [hts]; exact List.mem_append_right _ hu)
    have hread : Pattern.header.read? us = some (m.captures, m.rest) := by
      rw [Pattern.read?, hm, Option.map_some]
    obtain ⟨outputs, opening, params, hcaptures, rfl, hopening⟩ :=
      exists_of_read?_header hproper hread
    have hcapture : readHeader (textOf outputs) (textOf params) = .ok thread := by
      rw [Occurrence.capture, Occurrence.capture, hcaptures] at h
      exact h
    obtain ⟨elements, helements, hrank⟩ := ok_of_bind hcapture
    -- Before and after this header no other one starts, so one could only be inside.
    refine ⟨⟨before, outputs, opening, params, m.rest, hts, Option.isSome_of_eq_some hm, hcapture⟩,
      ?_, fun vs hvs hmatch => ?_⟩
    · by_contra hempty
      have hblank := isAllBlank_of_match?_emptyHeader hproper (hcaptures ▸ hread)
        (Option.isSome_iff_ne_none.mpr hempty)
      rw [parameterCount_of_isAllBlank hblank] at hrank
      cases hrank
    · have hplain : ∀ t ∈ outputs, t.text ≠ ['['] := fun t ht htext =>
        not_mem_of_readOutputs helements (List.mem_flatMap.mpr ⟨t, ht, by simp [htext]⟩)
      have hshort : vs <:+
          mark '[' :: (outputs ++ (opening ++ (params ++ mark ')' :: m.rest))) := by
        refine List.suffix_of_suffix_length_le hvs (hts ▸ List.suffix_append _ _) ?_
        by_contra hlong
        rw [hbefore vs hvs (Nat.lt_of_not_le hlong)] at hmatch
        cases hmatch
      rcases List.suffix_cons_iff.mp hshort with heq | hinside
      · exact .inl heq
      · have hstarts : StartsHeader vs := .inl hmatch
        have hparams := hstarts.suffix_of_append hopening (hstarts.suffix_of_append hplain hinside)
        rcases suffix_append_cases hparams with hclose | ⟨zs, -, hzs, heq⟩
        · rcases List.suffix_cons_iff.mp hclose with heq | hrest
          · exact .inr ⟨[], List.nil_suffix, heq⟩
          · rw [hafter vs hrest] at hmatch
            cases hmatch
        · exact .inr ⟨zs, hzs, heq⟩
  · obtain ⟨empty, -, h⟩ := ok_of_bind h
    cases h
  · cases h

/-- Without a header with parameters, the error says whether there is one without. -/
theorem readThread_eq_error {code : Text}
    (h : ∀ us, us <:+ tokenize code → Pattern.header.match? us = none) :
    readThread code = .error
      (if ((Pattern.emptyHeader.walk (tokenize code)).filterMap Piece.occurrence?).isEmpty then
        .missingThread else .invalidParameterCount 0) := by
  have hheader : Pattern.header.Consumes = true := rfl
  have hempty : Pattern.emptyHeader.Consumes = true := rfl
  rw [readThread, Pattern.occurrences_eq_walk hheader, Pattern.walk_eq_nil_of_match? h,
    Pattern.occurrences_eq_walk hempty]
  rfl

/-- What the header is rejected for, the program is. -/
theorem compile_eq_error_of_readThread {source : Text} {e : CompileError}
    (h : readThread (Text.stripComments source) = .error e) : compile source = .error e := by
  have hinterface : Interface.ofText (Text.stripComments source) = .error e := by
    rw [Interface.ofText, h]
    rfl
  exact compile_eq_error_of_interface hinterface

/-- A program without any header is rejected, and so is one that has headers with empty parentheses
only. In a program that compiles there is a header with parameters, and its signature is read. That
this is the only header of any kind in the program is so just if no other one is in the parameters
and none with empty parentheses is anywhere. -/
theorem headerSite_of_compile (source : Text) :
    ((∀ us, us <:+ tokenize (Text.stripComments source) → ¬ StartsHeader us) →
      compile source = .error .missingThread) ∧
    ((∀ us, us <:+ tokenize (Text.stripComments source) → Pattern.header.match? us = none) →
      (∃ us, us <:+ tokenize (Text.stripComments source) ∧ StartsHeader us) →
      compile source = .error (.invalidParameterCount 0)) ∧
    ∀ script, compile source = .ok script →
      ∃ site : HeaderSite (tokenize (Text.stripComments source)) script.thread,
        (∃! us, us <:+ tokenize (Text.stripComments source) ∧ StartsHeader us) ↔ site.Sole := by
  have hempty : Pattern.emptyHeader.Consumes = true := rfl
  generalize hcode : Text.stripComments source = code
  refine ⟨fun hnone => ?_, fun hheader hsome => ?_, fun script hscript => ?_⟩
  · have hno : ∀ us, us <:+ tokenize code →
        Pattern.header.match? us = none ∧ Pattern.emptyHeader.match? us = none := by
      intro us hus
      have hstart := hnone us hus
      rw [StartsHeader, not_or, Option.not_isSome_iff_eq_none, Option.not_isSome_iff_eq_none]
        at hstart
      exact hstart
    have hread := readThread_eq_error fun us hus => (hno us hus).1
    rw [Pattern.walk_eq_nil_of_match? fun us hus => (hno us hus).2] at hread
    exact compile_eq_error_of_readThread (hcode ▸ hread)
  · have hread := readThread_eq_error hheader
    obtain ⟨us, hus, hstart⟩ := hsome
    rw [if_neg] at hread
    · exact compile_eq_error_of_readThread (hcode ▸ hread)
    · intro hnil
      have hempty := Pattern.match?_eq_none_of_walk hempty (List.isEmpty_iff.mp hnil) hus
      rw [StartsHeader, hheader us hus, hempty] at hstart
      rcases hstart with hstart | hstart <;> cases hstart
  · obtain ⟨thread, hthread, hrest⟩ := ok_of_bind (ofText_of_compile hscript)
    obtain ⟨uniforms, -, hinterface⟩ := ok_of_bind hrest
    obtain rfl : thread = script.thread := congrArg Interface.thread (Except.ok.inj hinterface)
    obtain ⟨site, hnotEmpty, hsites⟩ := exists_headerSite (hcode ▸ hthread)
    exact ⟨site, site.existsUnique_iff hnotEmpty hsites⟩

/-- A header in a comment is none. -/
theorem headerSite_of_compile_comment :
    let source := "// [float] thread ()\n[float] thread (int x) \x7b thread[0] = 1.0; \x7d".toList
    ∃ script, compile source = .ok script ∧
      ∃ site : HeaderSite (tokenize (Text.stripComments source)) script.thread, site.Sole := by
  intro source
  have hok : (compile source).toOption.isSome = true := by decide +kernel
  have hfirst : StartsHeader ((tokenize (Text.stripComments source)).drop 1) := by decide +kernel
  have honly : ∀ us ∈ (tokenize (Text.stripComments source)).tails, StartsHeader us →
      us = (tokenize (Text.stripComments source)).drop 1 := by decide +kernel
  cases h : compile source with
  | error e => rw [h] at hok; cases hok
  | ok script =>
    obtain ⟨-, -, hscript⟩ := headerSite_of_compile source
    obtain ⟨site, hsite⟩ := hscript script h
    exact ⟨script, rfl, site, hsite.mp ⟨_, ⟨List.drop_suffix _ _, hfirst⟩,
      fun us hus => honly us ((List.mem_tails us _).mpr hus.1) hus.2⟩⟩

/-- A program with a second header compiles if there is nothing between its parentheses. -/
theorem compile_two_headers :
    let source := ["[float] thread (int x) \x7b thread[0] = 1.0; \x7d\n",
      "[float] thread () \x7b \x7d"].flatMap String.toList
    (∃ script, compile source = .ok script) ∧
      ¬ ∃! us, us <:+ tokenize (Text.stripComments source) ∧ StartsHeader us := by
  intro source
  have hok : (compile source).toOption.isSome = true := by decide +kernel
  have hfirst : StartsHeader (tokenize (Text.stripComments source)) := by decide +kernel
  have hsecond : StartsHeader ((tokenize (Text.stripComments source)).drop 26) := by decide +kernel
  have hne : tokenize (Text.stripComments source) ≠
      (tokenize (Text.stripComments source)).drop 26 := by decide +kernel
  refine ⟨?_, fun hunique => hne (hunique.unique ⟨List.suffix_refl _, hfirst⟩
    ⟨List.drop_suffix _ _, hsecond⟩)⟩
  cases h : compile source with
  | error e => rw [h] at hok; cases hok
  | ok script => exact ⟨script, rfl⟩

end Texelwise

import Texelwise.Proofs.Expansion.Patterns

/-!
# Passes over a body

Each pass of the compiler over a body is an image with one rule.

* `readRule`, `fieldRule`, `outputRule`: the rules of single passes.
* `Follows`: a pass whose occurrences are the sites of a rule.
* `along_replace`: such a pass gives the image.
-/

namespace Texelwise

open Token

/-! ## Rules of single passes -/

/-- The rule for the reads of one buffer. -/
def readRule (name : Text) (kind : BufferKind) : Rules := ⟨[(name, kind)], [], fun _ => none⟩

/-- The rule for one field of one name. -/
def fieldRule (name f w : Text) : Rules := ⟨[], [((name, f), w)], fun _ => none⟩

/-- The rule for writes. -/
def outputRule (output? : Text → Option Text) : Rules := ⟨[], [], output?⟩

theorem afterMark?_of_extent? {ts rest : List Token} {f : Text}
    (h : extent? ts = some (f, rest)) : ∃ left, afterMark? '.' ts = some left := by
  obtain ⟨left, hleft, -⟩ := Option.bind_eq_some_iff.mp h
  exact ⟨left, hleft⟩

theorem subscripts?_eq_none_of_extent? {ts rest : List Token} {f : Text}
    (h : extent? ts = some (f, rest)) (rank : Rank) : subscripts? rank.toNat ts = none := by
  obtain ⟨left, hleft⟩ := afterMark?_of_extent? h
  have hopen := afterMark?_eq_none_of (d := '[') (by decide) hleft
  cases rank <;> simp [Rank.toNat, subscripts?, enclosed?, hopen]

theorem number?_eq_none_of_extent? {ts rest : List Token} {f : Text}
    (h : extent? ts = some (f, rest)) : number? ts = none := by
  obtain ⟨left, hleft⟩ := afterMark?_of_extent? h
  rw [number?, afterMark?_eq_none_of (by decide) hleft]
  rfl

section

variable {t : Token} (ht : t.Proper) (ts : List Token)

include ht

theorem site?_readRule {name : Text} (hname : isIdentifier name = true)
    (hthread : name ≠ threadWord) (kind : BufferKind) :
    (readRule name kind).site? t ts =
      if t.text = name then
        (subscripts? kind.rank.toNat ts).map fun (blocks, rest) => (.read kind blocks, rest)
      else none := by
  by_cases htext : t.text = name
  · have hkind := ht.kind_of_text_eq htext hname
    rw [Rules.site?, if_neg (by simp [hkind]), if_pos htext]
    cases hext : extent? ts with
    | some p =>
      obtain ⟨f, rest⟩ := p
      rw [subscripts?_eq_none_of_extent? hext]
      rfl
    | none => simp [readRule, htext, hthread]
  · rw [if_neg htext]
    exact Rules.site?_eq_none_of_unnamed (by simp [readRule, htext]) (fun _ => rfl)
      (fun _ _ => rfl) ts

theorem site?_fieldRule {name f : Text} (hname : isIdentifier name = true) (w : Text) :
    (fieldRule name f w).site? t ts =
      if t.text = name then
        (extent? ts).bind fun (g, rest) => if g = f then some (.word w, rest) else none
      else none := by
  by_cases htext : t.text = name
  · have hkind := ht.kind_of_text_eq htext hname
    rw [Rules.site?, if_neg (by simp [hkind]), if_pos htext]
    cases hext : extent? ts with
    | some p =>
      obtain ⟨g, rest⟩ := p
      by_cases hg : g = f
      · simp [fieldRule, htext, hg]
      · simp [fieldRule, htext, hg]
    | none =>
      simp only [Option.bind_none]
      split
      · cases number? ts <;> rfl
      · rfl
  · rw [if_neg htext]
    exact Rules.site?_eq_none_of_unnamed rfl (by simp [fieldRule, htext]) (fun _ _ => rfl) ts

theorem site?_outputRule (output? : Text → Option Text) :
    (outputRule output?).site? t ts =
      if t.text = threadWord then
        (number? ts).bind fun (n, rest) => (output? n).map fun w => (.word w, rest)
      else none := by
  by_cases htext : t.text = threadWord
  · have hkind := ht.kind_of_text_eq htext (by decide)
    rw [Rules.site?, if_neg (by simp [hkind]), if_pos htext, if_pos htext]
    cases hext : extent? ts with
    | some p =>
      obtain ⟨g, rest⟩ := p
      rw [number?_eq_none_of_extent? hext]
      rfl
    | none => rfl
  · rw [if_neg htext]
    exact Rules.site?_eq_none_of_unnamed rfl (fun _ => rfl) (fun h => absurd h htext) ts

end

/-! ## Passes are images -/

/-- At each token a pass finds nothing where no site starts, or finds something after which it
gives what the image gives. -/
def Follows (p : Pattern) (substitute : Occurrence → Text) (r : Rules) : Prop :=
  ∀ t ts, (∀ u ∈ t :: ts, u.Proper) →
    (p.read? (t :: ts) = none ∧ r.site? t ts = none) ∨
      ∃ cs rest, p.read? (t :: ts) = some (cs, rest) ∧ ∀ taken, taken ++ rest = t :: ts →
        textOf (r.imageWith id (t :: ts)) =
          substitute ⟨taken, cs⟩ ++ textOf (r.imageWith id rest)

/-- A pass that follows a rule gives the text of the image. -/
theorem along_replace {p : Pattern} (hp : p.Consumes = true) {substitute : Occurrence → Text}
    {r : Rules} (h : Follows p substitute r) {ts : List Token} (hts : ∀ u ∈ ts, u.Proper) :
    (Sweep.replace p substitute).along ts = textOf (r.imageWith id ts) := by
  induction hn : ts.length using Nat.strongRecOn generalizing ts with
  | ind n ih =>
    cases ts with
    | nil => simp
    | cons t ts =>
      have hpts : ∀ u ∈ ts, u.Proper := fun u hu => hts u (List.mem_cons_of_mem t hu)
      rcases h t ts hts with ⟨hnone, hsite⟩ | ⟨cs, rest, hread, himage⟩
      · have hrest := ih ts.length (by rw [← hn, List.length_cons]; omega) hpts rfl
        rw [Sweep.along_keep hnone, Rules.imageWith_keep hsite, textOf_cons, hrest]
        congr 1
        simp [Sweep.replace]
      · obtain ⟨taken, happ, hover⟩ :=
          Sweep.exists_along_found (s := Sweep.replace p substitute) hp hread
        have hlt : rest.length < (t :: ts).length := by
          obtain ⟨m, hm, heq⟩ := Option.map_eq_some_iff.mp hread
          cases heq
          exact Pattern.length_lt_of_match? hp hm
        have hprest : ∀ u ∈ rest, u.Proper := fun u hu => hts u (by rw [← happ]; simp [hu])
        rw [hover, himage taken happ, ih rest.length (by omega) hprest rfl]
        rfl

theorem follows_fieldRule {name f : Text} (hname : isIdentifier name = true)
    (hf : f ∈ extentFields) (w : Text) :
    Follows (Pattern.field name f) (fun _ => w) (fieldRule name f w) := by
  have hident : isIdentifier f = true := by
    have hall : ∀ g ∈ extentFields, isIdentifier g = true := by decide
    exact hall f hf
  intro t ts hp
  have hpts : ∀ u ∈ ts, u.Proper := fun u hu => hp u (List.mem_cons_of_mem t hu)
  have hsite := site?_fieldRule (hp t List.mem_cons_self) ts hname (f := f) w
  have hread := Pattern.read?_field hpts t name f
  -- Pattern and rule ask for the name, the point and the field, one after another.
  by_cases htext : t.text = name
  swap
  · rw [if_neg htext] at hsite hread
    exact .inl ⟨hread, hsite⟩
  rw [if_pos htext] at hsite hread
  rw [extent?] at hsite
  cases hin : afterMark? '.' ts with
  | none =>
    rw [hin] at hsite hread
    exact .inl ⟨hread, hsite⟩
  | some left =>
    rw [hin, Option.bind_some] at hsite hread
    cases hskip : skipBlank left with
    | nil =>
      rw [hskip] at hsite hread
      exact .inl ⟨hread, hsite⟩
    | cons u rest =>
      have hu : u.Proper := by
        obtain ⟨gap, -, rfl⟩ := afterMark?_eq_some_iff.mp hin
        refine hpts u ?_
        have hmem : u ∈ skipBlank left := by rw [hskip]; exact List.mem_cons_self
        simp [Rules.mem_skipBlank hmem]
      rw [hskip] at hsite hread
      by_cases hutext : u.text = f
      · have hukind := hu.kind_of_text_eq hutext hident
        have hsome : (fieldRule name f w).site? t ts = some (.word w, rest) := by
          rw [hsite]
          simp [next?, hutext, hukind, hf]
        refine .inr ⟨[], rest, ?_, fun taken _ => ?_⟩
        · rw [hread]
          simp [next?, hutext]
        · rw [Rules.imageWith_site hsome, textOf_append, Rules.emit, textOf_tokenize]
      · refine .inl ⟨?_, ?_⟩
        · rw [hread]
          simp [next?, hutext]
        · rw [hsite]
          simp only [next?]
          split
          · simp [hutext]
          · rfl

theorem follows_readRule {name : Text} (hname : isIdentifier name = true)
    (hthread : name ≠ threadWord) (kind : BufferKind) :
    Follows (Pattern.bufferRead name kind.rank) (fun o => sampleText name kind o.captures)
      (readRule name kind) := by
  intro t ts hp
  have hpts : ∀ u ∈ ts, u.Proper := fun u hu => hp u (List.mem_cons_of_mem t hu)
  have hsite := site?_readRule (hp t List.mem_cons_self) ts hname hthread kind
  have hread := Pattern.read?_bufferRead hpts t name kind.rank
  by_cases htext : t.text = name
  swap
  · rw [if_neg htext] at hsite hread
    exact .inl ⟨hread, hsite⟩
  rw [if_pos htext] at hsite hread
  cases hs : subscripts? kind.rank.toNat ts with
  | none =>
    rw [hs] at hsite hread
    exact .inl ⟨hread, hsite⟩
  | some p =>
    obtain ⟨blocks, rest⟩ := p
    obtain ⟨tail, htail, -, rfl⟩ := subscripts?_eq_some_iff.mp hs
    have hblocks : ∀ i ∈ blocks, ∀ u ∈ i, u.Proper := by
      intro i hi u hu
      obtain ⟨pre, post, rfl⟩ := htail.exists_of_mem hi
      exact hpts u (by simp [hu])
    rw [hs] at hsite hread
    refine .inr ⟨blocks.map textOf, rest, hread, fun taken _ => ?_⟩
    have hemit : Rules.emit t id (.read kind blocks) =
        sampleTokens t.text kind (blocks.map trimBlanks) := rfl
    rw [Rules.imageWith_site hsite, textOf_append, hemit, textOf_sampleTokens _ _ hblocks, htext]

/-- What stands for the write to the output of a number. -/
def ThreadSignature.outputName? (thread : ThreadSignature) (number : Text) : Option Text :=
  (readIndex? number).bind fun index =>
    thread.outputs[index]?.map fun
      | .float => outputRegister index ++ ".r".toList
      | .color => outputRegister index

theorem outputText_eq (thread : ThreadSignature) (o : Occurrence) :
    outputText thread o = (thread.outputName? (o.capture 0)).getD o.text := by
  unfold outputText ThreadSignature.outputName?
  cases readIndex? (o.capture 0) with
  | none => rfl
  | some index =>
    simp only [Option.bind_some]
    cases thread.outputs[index]? with
    | none => rfl
    | some e => cases e <;> rfl

theorem imageWith_append_of_kind {r : Rules} {g : List Token → List Token} {us : List Token}
    (h : ∀ u ∈ us, u.kind ≠ .ident) (zs : List Token) :
    r.imageWith g (us ++ zs) = us ++ r.imageWith g zs := by
  induction us with
  | nil => rfl
  | cons u us ih =>
    have hsite : r.site? u (us ++ zs) = none :=
      Rules.site?_eq_none_of_kind (h u List.mem_cons_self) _
    rw [List.cons_append, Rules.imageWith_keep hsite,
      ih fun v hv => h v (List.mem_cons_of_mem u hv), List.cons_append]

/-- The tokens of a number in brackets are no names. -/
theorem exists_tail_of_number? {ts rest : List Token} {n : Text}
    (h : number? ts = some (n, rest)) :
    ∃ tail, (∀ u ∈ tail, u.kind ≠ .ident) ∧ ts = tail ++ rest := by
  obtain ⟨gap, gap', gap'', u, hgap, hgap', hgap'', hu, -, rfl⟩ := number?_eq_some_iff.mp h
  refine ⟨gap ++ mark '[' :: (gap' ++ u :: (gap'' ++ [mark ']'])), fun v hv => ?_, by simp⟩
  simp only [List.mem_append, List.mem_cons, List.not_mem_nil, or_false] at hv
  rcases hv with hv | rfl | hv | rfl | hv | rfl
  · rw [hgap.kind_eq hv]
    decide
  · decide
  · rw [hgap'.kind_eq hv]
    decide
  · rw [hu]
    decide
  · rw [hgap''.kind_eq hv]
    decide
  · decide

theorem follows_outputRule (thread : ThreadSignature) :
    Follows Pattern.output (outputText thread) (outputRule thread.outputName?) := by
  intro t ts hp
  have hpts : ∀ u ∈ ts, u.Proper := fun u hu => hp u (List.mem_cons_of_mem t hu)
  have hsite := site?_outputRule (hp t List.mem_cons_self) ts thread.outputName?
  have hread := Pattern.read?_output hpts t
  by_cases htext : t.text = threadWord
  swap
  · rw [if_neg htext] at hsite hread
    exact .inl ⟨hread, hsite⟩
  rw [if_pos htext] at hsite hread
  cases hn : number? ts with
  | none =>
    rw [hn] at hsite hread
    exact .inl ⟨hread, hsite⟩
  | some p =>
    obtain ⟨n, rest⟩ := p
    rw [hn, Option.bind_some] at hsite
    rw [hn] at hread
    refine .inr ⟨[n], rest, hread, fun taken happ => ?_⟩
    rw [outputText_eq]
    show _ = (thread.outputName? n).getD (textOf taken) ++ _
    cases hw : thread.outputName? n with
    | some w =>
      simp only [hw, Option.map_some] at hsite
      rw [Rules.imageWith_site hsite, textOf_append, Rules.emit, textOf_tokenize]
      rfl
    | none =>
      -- The number is out of use, and what was taken stays.
      simp only [hw, Option.map_none] at hsite
      obtain ⟨tail, hkinds, rfl⟩ := exists_tail_of_number? hn
      have htaken : taken = t :: tail := by
        rw [← List.cons_append] at happ
        exact List.append_cancel_right happ
      rw [Rules.imageWith_keep hsite, imageWith_append_of_kind hkinds, htaken,
        ← List.cons_append, textOf_append]
      rfl

end Texelwise

import Texelwise.Proofs.Expansion.Rules
import Texelwise.Proofs.Expansion.Sample

/-!
# Images of token lists

The expansion of a token list as a token list again, so that a further pass can be read off it.

* `Rules.imageWith`: every outermost site replaced once, with a function for the indices;
  `Rules.image`: with the indices replaced in turn.
* `Rules.induction`: induction over a token list from site to site.
* `Rules.Sane`: rules whose sites and replacements keep the brackets of their surroundings.
* `blockRun_imageWith`: an image has its code blocks where the token list has them.
-/

namespace Texelwise

open Token

/-! ## Images -/

namespace Rules

variable {r : Rules} {g : List Token → List Token}

/-- The tokens in place of a site that starts with `t`, with `g` for its indices. -/
def emit (t : Token) (g : List Token → List Token) : Site → List Token
  | .read kind blocks => sampleTokens t.text kind (blocks.map fun b => trimBlanks (g b))
  | .word w => tokenize w

/-- The tokens with every outermost site replaced. -/
def imageWith (r : Rules) (g : List Token → List Token) : List Token → List Token
  | [] => []
  | t :: ts =>
    match _h : r.site? t ts with
    | none => t :: r.imageWith g ts
    | some (site, rest) => emit t g site ++ r.imageWith g rest
termination_by ts => ts.length
decreasing_by
  · simp
  · have := length_of_site? _h
    simp only [List.length_cons]
    omega

/-- The tokens with every site replaced, also in indices. -/
def image (r : Rules) : List Token → List Token
  | [] => []
  | t :: ts =>
    match _h : r.site? t ts with
    | none => t :: r.image ts
    | some (.read kind blocks, rest) =>
      sampleTokens t.text kind (blocks.attach.map fun b => trimBlanks (r.image b.1)) ++
        r.image rest
    | some (.word w, rest) => tokenize w ++ r.image rest
termination_by ts => ts.length
decreasing_by
  · simp
  · have := length_index_of_site? _h b.2
    simp only [List.length_cons]
    omega
  · have := length_of_site? _h
    simp only [List.length_cons]
    omega
  · have := length_of_site? _h
    simp only [List.length_cons]
    omega

@[simp] theorem imageWith_nil : r.imageWith g [] = [] := by
  simp [imageWith]

theorem imageWith_keep {t : Token} {ts : List Token} (h : r.site? t ts = none) :
    r.imageWith g (t :: ts) = t :: r.imageWith g ts := by
  rw [imageWith]
  split
  · rfl
  · rename_i h'
    rw [h] at h'
    cases h'

theorem imageWith_site {t : Token} {ts rest : List Token} {site : Site}
    (h : r.site? t ts = some (site, rest)) :
    r.imageWith g (t :: ts) = emit t g site ++ r.imageWith g rest := by
  rw [imageWith]
  split
  · rename_i h'
    rw [h] at h'
    cases h'
  · rename_i h'
    rw [h] at h'
    cases h'
    rfl

@[simp] theorem image_nil : r.image [] = [] := by
  simp [image]

theorem image_keep {t : Token} {ts : List Token} (h : r.site? t ts = none) :
    r.image (t :: ts) = t :: r.image ts := by
  rw [image]
  split
  · rfl
  · rename_i h'
    rw [h] at h'
    cases h'
  · rename_i h'
    rw [h] at h'
    cases h'

theorem image_site {t : Token} {ts rest : List Token} {site : Site}
    (h : r.site? t ts = some (site, rest)) :
    r.image (t :: ts) = emit t r.image site ++ r.image rest := by
  rw [image]
  split
  · rename_i h'
    rw [h] at h'
    cases h'
  · rename_i kind blocks left h'
    rw [h] at h'
    cases h'
    rw [emit, ← @List.attach_map_val _ _ blocks]
  · rename_i h'
    rw [h] at h'
    cases h'
    rfl

/-! ## From site to site -/

theorem site?_append {t : Token} {tail : List Token} {site : Site} (hkind : t.kind = .ident)
    (h : r.Stands t site tail) (rest : List Token) :
    r.site? t (tail ++ rest) = some (site, rest) :=
  site?_eq_some_iff.mpr ⟨hkind, tail, h, rfl⟩

/-- Where nothing stands, nothing stands in front of less. -/
theorem site?_eq_none_of_append {t : Token} {xs ys : List Token}
    (h : r.site? t (xs ++ ys) = none) : r.site? t xs = none := by
  cases hx : r.site? t xs with
  | none => rfl
  | some p =>
    obtain ⟨site, rest⟩ := p
    obtain ⟨hkind, tail, hs, rfl⟩ := site?_eq_some_iff.mp hx
    rw [List.append_assoc, site?_append hkind hs] at h
    cases h

theorem site?_eq_none_of_kind {t : Token} (h : t.kind ≠ .ident) (ts : List Token) :
    r.site? t ts = none := by
  rw [site?, if_pos h]

/-- Induction from site to site; a token list inherits from all that are not longer than what
follows its first token. -/
@[elab_as_elim]
theorem induction (r : Rules) {motive : List Token → Prop} (nil : motive [])
    (keep : ∀ t ts, r.site? t ts = none → (∀ us, us.length ≤ ts.length → motive us) →
      motive (t :: ts))
    (site : ∀ t s tail rest, t.kind = .ident → r.Stands t s tail →
      (∀ us, us.length ≤ (tail ++ rest).length → motive us) → motive (t :: (tail ++ rest)))
    (ts : List Token) : motive ts := by
  induction h : ts.length using Nat.strongRecOn generalizing ts with
  | ind n ih =>
    cases ts with
    | nil => exact nil
    | cons t ts =>
      have hshort : ∀ us : List Token, us.length ≤ ts.length → motive us := by
        intro us hus
        exact ih us.length (by rw [← h, List.length_cons]; omega) us rfl
      cases hs : r.site? t ts with
      | none => exact keep t ts hs hshort
      | some p =>
        obtain ⟨s, rest⟩ := p
        obtain ⟨hkind, tail, hstands, rfl⟩ := site?_eq_some_iff.mp hs
        exact site t s tail rest hkind hstands hshort

theorem image_eq (r : Rules) (ts : List Token) : r.image ts = r.imageWith r.image ts := by
  induction ts using r.induction with
  | nil => simp
  | keep t ts hnone ih => rw [image_keep hnone, imageWith_keep hnone, ih ts (Nat.le_refl _)]
  | site t s tail rest hkind hs ih =>
    have hsite := site?_append hkind hs rest
    rw [image_site hsite, imageWith_site hsite, ih rest (by simp)]

end Rules

/-! ## Sane rules -/

/-- A name that only the compiler makes. -/
def Generated (w : Text) : Prop := isIdentifier w = true ∧ "nc_".toList <+: w

/-- A generated name, or its first channel. -/
def Replacement (w : Text) : Prop :=
  ∃ name : Text, Generated name ∧ (w = name ∨ w = name ++ ".r".toList)

theorem Generated.replacement {w : Text} (h : Generated w) : Replacement w := ⟨w, h, .inl rfl⟩

/-- Rules whose names are names and whose replacements are generated names. -/
structure Rules.Sane (r : Rules) : Prop where
  reads : ∀ e ∈ r.reads, isIdentifier e.1 = true ∧ e.1 ∉ extentFields
  fields : ∀ e ∈ r.fields, e.1.1 ∉ extentFields ∧ Generated e.2
  outputs : ∀ number w, r.output? number = some w → Replacement w

/-- The tokens in place of a site: clean, with a name first that the language has no use for, and
a name or a closing parenthesis last. -/
structure Firm (us : List Token) : Prop where
  clean : Clean us
  head : ∃ u more, us = u :: more ∧ u.kind = .ident ∧ u.text ∉ threadWord :: extentFields
  last : ∃ more u, us = more ++ [u] ∧ (u = mark ')' ∨ u.kind = .ident)

theorem firm_call {f : Text} {first : List Token} {rest : List (List Token)}
    (h : Clean (call f first rest)) (hext : f ∉ threadWord :: extentFields) :
    Firm (call f first rest) := by
  refine ⟨h, ⟨word f, _, rfl, rfl, hext⟩,
    ⟨word f :: mark '(' :: (first ++ argumentTail rest), mark ')', ?_, .inl rfl⟩⟩
  simp [call]

theorem firm_sampleTokens {name : Text} (hname : isIdentifier name = true) (kind : BufferKind)
    {indices : List (List Token)} (h : ∀ i ∈ indices, Clean i) :
    Firm (sampleTokens name kind indices) := by
  have hclean := clean_sampleTokens hname kind h
  have hlod : "textureLod".toList ∉ threadWord :: extentFields := by decide
  have hdecode : "nc_decode".toList ∉ threadWord :: extentFields := by decide
  unfold sampleTokens at hclean ⊢
  cases hkind : kind.element with
  | float =>
    rw [hkind] at hclean
    exact firm_call hclean hdecode
  | color =>
    rw [hkind] at hclean
    exact firm_call hclean hlod

theorem not_mem_of_generated {w : Text} (h : "nc_".toList <+: w) :
    w ∉ threadWord :: extentFields := by
  obtain ⟨more, rfl⟩ := h
  have hall : ∀ w ∈ threadWord :: extentFields, w.head? ≠ some 'n' := by decide
  exact fun hmem => hall _ hmem rfl

theorem Generated.tokenize_eq {w : Text} (h : Generated w) : tokenize w = [word w] := by
  have := @tokenize_word w h.1 [] (by simp)
  simpa using this

/-- The tokens of a replacement. -/
theorem Replacement.tokenize_eq {w : Text} (h : Replacement w) :
    ∃ name : Text, Generated name ∧
      (tokenize w = [word name] ∨ tokenize w = [word name, mark '.', word ['r']]) := by
  obtain ⟨name, hname, rfl | rfl⟩ := h
  · exact ⟨w, hname, .inl hname.tokenize_eq⟩
  · refine ⟨name, hname, .inr ?_⟩
    rw [tokenize_word hname.1 (by rintro _ ⟨⟩; decide)]
    congr 1
    decide +kernel

theorem Replacement.firm {w : Text} (h : Replacement w) : Firm (tokenize w) := by
  obtain ⟨name, ⟨hname, hnc⟩, htok | htok⟩ := h.tokenize_eq
  · rw [htok]
    exact ⟨clean_word hname, ⟨word name, [], rfl, rfl, not_mem_of_generated hnc⟩,
      ⟨[], word name, rfl, .inr rfl⟩⟩
  · have hpoint : Clean [mark '.'] :=
      clean_singleton ⟨'.', [], rfl, by decide, rfl⟩ (by decide)
    rw [htok]
    exact ⟨(clean_word hname).append (hpoint.append (clean_word (by decide))),
      ⟨word name, _, rfl, rfl, not_mem_of_generated hnc⟩,
      ⟨[word name, mark '.'], word ['r'], rfl, .inr rfl⟩⟩

/-! ## Sites -/

theorem Gap.eq_nil_or {gap : List Token} (h : Gap gap) :
    gap = [] ∨ ∃ b, gap = [b] ∧ b.kind = .space := by
  cases h with
  | none => exact .inl rfl
  | blank hb => exact .inr ⟨_, rfl, hb⟩

theorem Gap.kind_eq {gap : List Token} (h : Gap gap) {u : Token} (hu : u ∈ gap) :
    u.kind = .space := by
  rcases h.eq_nil_or with rfl | ⟨b, rfl, hb⟩
  · cases hu
  · rw [List.mem_singleton.mp hu, hb]

theorem Gap.balanced {gap : List Token} (h : Gap gap) (hp : ∀ t ∈ gap, t.Proper) :
    Balanced gap := by
  refine balanced_of_other fun t ht => ?_
  rcases h.eq_nil_or with rfl | ⟨b, rfl, hb⟩
  · cases ht
  · rw [List.mem_singleton] at ht
    subst ht
    exact (hp t List.mem_cons_self).role_eq (by rw [hb]; decide)

theorem Subscripts.balanced {blocks : List (List Token)} {tail : List Token}
    (h : Subscripts blocks tail) (hp : ∀ t ∈ tail, t.Proper) : Balanced tail := by
  induction h with
  | nil => exact balanced_nil
  | @cons gap block tail blocks hgap hblock _ _ ih =>
    have hopen : (mark '[').role = .opener := by decide
    have hbrackets : Balanced (mark '[' :: block ++ [mark ']']) :=
      hblock.enclosed hopen role_close
    have hgap' := hgap.balanced fun t ht => hp t (List.mem_append_left _ ht)
    have htail := ih fun t ht => hp t (by simp [ht])
    have hall := hgap'.append (hbrackets.append htail)
    simpa using hall

/-- An index stands in the subscripts with a bracket after it. -/
theorem Subscripts.exists_of_mem {blocks : List (List Token)} {tail block : List Token}
    (h : Subscripts blocks tail) (hb : block ∈ blocks) :
    ∃ pre post, tail = pre ++ (block ++ mark ']' :: post) := by
  induction h with
  | nil => cases hb
  | @cons gap first tail blocks _ _ _ _ ih =>
    rcases List.mem_cons.mp hb with rfl | hb
    · exact ⟨gap ++ [mark '['], tail, by simp⟩
    · obtain ⟨pre, post, rfl⟩ := ih hb
      exact ⟨gap ++ mark '[' :: (first ++ mark ']' :: pre), post, by simp⟩

/-- The indices of a read are code blocks inside it. -/
theorem Subscripts.of_mem {blocks : List (List Token)} {tail block : List Token}
    (h : Subscripts blocks tail) (hb : block ∈ blocks) : Balanced block ∧ block ≠ [] := by
  induction h with
  | nil => cases hb
  | cons _ hblock hne _ ih =>
    rcases List.mem_cons.mp hb with rfl | hb
    · exact ⟨hblock, hne⟩
    · exact ih hb

namespace Rules

variable {r : Rules} {g : List Token → List Token}

theorem Stands.balanced {t : Token} {s : Site} {tail : List Token} (hkind : t.kind = .ident)
    (h : r.Stands t s tail) (hp : ∀ u ∈ t :: tail, u.Proper) : Balanced (t :: tail) := by
  have ht : Balanced [t] := balanced_of_other fun u hu => by
    rw [List.mem_singleton.mp hu]
    exact (hp t List.mem_cons_self).role_eq (by rw [hkind]; decide)
  have htail : Balanced tail := by
    have hp : ∀ u ∈ tail, u.Proper := fun u hu => hp u (List.mem_cons_of_mem t hu)
    cases h with
    | @field gap gap' f w hgap hgap' hf _ _ =>
      have hpoint : Balanced [mark '.'] := balanced_of_other (by decide)
      have hname : Balanced [f] := balanced_of_other fun u hu => by
        rw [List.mem_singleton.mp hu]
        exact (hp f (by simp)).role_eq (by rw [hf]; decide)
      exact (hgap.balanced fun u hu => hp u (by simp [hu])).append
        (hpoint.append ((hgap'.balanced fun u hu => hp u (by simp [hu])).append hname))
    | @output gap gap' gap'' n w _ hgap hgap' hgap'' hn _ =>
      have hopen : (mark '[').role = .opener := by decide
      have hnumber : Balanced [n] := balanced_of_other fun u hu => by
        rw [List.mem_singleton.mp hu]
        exact (hp n (by simp)).role_eq (by rw [hn]; decide)
      have hinside : Balanced (gap' ++ ([n] ++ gap'')) :=
        (hgap'.balanced fun u hu => hp u (by simp [hu])).append
          (hnumber.append (hgap''.balanced fun u hu => hp u (by simp [hu])))
      have hall := (hgap.balanced fun u hu => hp u (by simp [hu])).append
        (hinside.enclosed hopen role_close)
      simpa using hall
    | read _ _ _ htail => exact htail.balanced hp
  exact ht.append htail

/-- A function for indices that keeps those below a length clean. -/
def Keeps (g : List Token → List Token) (n : Nat) : Prop :=
  ∀ b, b.length < n → Clean b → Clean (g b)

theorem Keeps.mono {m n : Nat} (h : Keeps g n) (hmn : m ≤ n) : Keeps g m :=
  fun b hb => h b (by omega)

end Rules

/-- What stands before a balanced part of a closed run is closed. -/
theorem Closes.of_append_balanced {d : Nat} {xs ys : List Token} (hy : Balanced ys)
    (h : Closes d (xs ++ ys)) : Closes d xs := by
  induction xs generalizing d with
  | nil =>
    rw [List.nil_append] at h
    have hd := hy.blockRun_append d []
    unfold Closes at h
    rw [List.append_nil, h, blockRun] at hd
    split at hd
    · exact closes_nil.mpr ‹_›
    · cases hd
  | cons t xs ih =>
    obtain ⟨n, hn, hxs⟩ := closes_cons.mp h
    exact closes_cons.mpr ⟨n, hn, ih hxs⟩

theorem balanced_of_isSpace {us : List Token} (hp : ∀ u ∈ us, u.Proper)
    (h : ∀ u ∈ us, u.isSpace = true) : Balanced us := by
  refine balanced_of_other fun u hu => (hp u hu).role_eq ?_
  rw [of_decide_eq_true (h u hu)]
  decide

/-- The parts of clean tokens that trimming drops and keeps. -/
theorem Clean.exists_trimBlanks {ts : List Token} (h : Clean ts) :
    ∃ pre post, ts = pre ++ (trimBlanks ts ++ post) ∧ (∀ u ∈ pre, u.isSpace = true) ∧
      (∀ u ∈ post, u.isSpace = true) ∧ Clean (trimBlanks ts) := by
  obtain ⟨pre, post, heq, hpre, hpost, -, -⟩ := exists_trimBy Token.isSpace ts
  have hp : ∀ t ∈ pre ++ (trimBlanks ts ++ post), t.Proper := by
    have hp := h.proper
    rwa [heq] at hp
  have hb : Closes (0 + 0) (pre ++ (trimBlanks ts ++ post)) := by
    have hb := h.balanced
    rwa [heq] at hb
  have hpre' : Balanced pre := balanced_of_isSpace (fun t ht => hp t (by simp [ht])) hpre
  have hpost' : Balanced post := balanced_of_isSpace (fun t ht => hp t (by simp [ht])) hpost
  have hmid : Balanced (trimBlanks ts ++ post) := Closes.of_append hpre' hb
  exact ⟨pre, post, heq, hpre, hpost, Closes.of_append_balanced hpost' hmid,
    fun t ht => hp t (by simp [ht])⟩

theorem Clean.trimBlanks {ts : List Token} (h : Clean ts) : Clean (trimBlanks ts) := by
  obtain ⟨_, _, _, _, _, hclean⟩ := h.exists_trimBlanks
  exact hclean

/-! ## Code blocks of images -/

theorem mem_of_lookup {α β : Type} [BEq α] [LawfulBEq α] {l : List (α × β)} {a : α} {b : β}
    (h : l.lookup a = some b) : (a, b) ∈ l := by
  obtain ⟨_, _, rfl, _⟩ := List.lookup_eq_some_iff.mp h
  simp

namespace Rules

variable {r : Rules} {g : List Token → List Token}

theorem Stands.length_lt {t : Token} {kind : BufferKind} {blocks : List (List Token)}
    {tail b : List Token} (h : r.Stands t (.read kind blocks) tail) (hb : b ∈ blocks) :
    b.length < tail.length := by
  cases h with
  | read _ _ _ htail => exact htail.length_lt hb

/-- The indices of a site are clean. -/
theorem Stands.clean {t : Token} {kind : BufferKind} {blocks : List (List Token)}
    {tail b : List Token} (h : r.Stands t (.read kind blocks) tail) (hp : ∀ u ∈ tail, u.Proper)
    (hb : b ∈ blocks) : Clean b := by
  cases h with
  | read _ _ _ htail =>
    obtain ⟨pre, post, rfl⟩ := htail.exists_of_mem hb
    exact ⟨(htail.of_mem hb).1, fun u hu => hp u (by simp [hu])⟩

theorem Stands.firm {t : Token} {s : Site} {tail : List Token} (hr : r.Sane)
    (h : r.Stands t s tail) (hp : ∀ u ∈ tail, u.Proper) (hg : Keeps g tail.length) :
    Firm (emit t g s) := by
  cases h with
  | field _ _ _ _ hw => exact (hr.fields _ (mem_of_lookup hw)).2.replacement.firm
  | output _ _ _ _ _ hw => exact (hr.outputs _ _ hw).firm
  | @read kind blocks _ ht hkind hlen htail =>
    have hstands : r.Stands t (.read kind blocks) tail := .read ht hkind hlen htail
    refine firm_sampleTokens (hr.reads _ (mem_of_lookup hkind)).1 kind fun i hi => ?_
    obtain ⟨b, hb, rfl⟩ := List.mem_map.mp hi
    exact (hg b (hstands.length_lt hb) (hstands.clean hp hb)).trimBlanks

theorem proper_imageWith (hr : r.Sane) {ts : List Token} (hp : ∀ u ∈ ts, u.Proper)
    (hg : Keeps g ts.length) : ∀ u ∈ r.imageWith g ts, u.Proper := by
  induction ts using r.induction with
  | nil => simp
  | keep t ts hnone ih =>
    intro u hu
    rw [imageWith_keep hnone] at hu
    rcases List.mem_cons.mp hu with rfl | hu
    · exact hp u List.mem_cons_self
    · exact ih ts (Nat.le_refl _) (fun v hv => hp v (List.mem_cons_of_mem t hv))
        (hg.mono (Nat.le_succ _)) u hu
  | site t s tail rest hkind hs ih =>
    intro u hu
    rw [imageWith_site (site?_append hkind hs rest)] at hu
    rcases List.mem_append.mp hu with hu | hu
    · exact (hs.firm hr (fun v hv => hp v (by simp [hv])) (hg.mono (by simp; omega))).clean.proper
        u hu
    · exact ih rest (by simp) (fun v hv => hp v (by simp [hv])) (hg.mono (by simp; omega)) u hu

/-- A code block of an image is the image of a code block. -/
theorem blockRun_imageWith (hr : r.Sane) {ts : List Token} (hp : ∀ u ∈ ts, u.Proper)
    (hg : Keeps g ts.length) (d : Nat) :
    blockRun d (r.imageWith g ts) =
      (blockRun d ts).map (Prod.map (r.imageWith g) (r.imageWith g)) := by
  induction ts using r.induction generalizing d with
  | nil =>
    rw [imageWith_nil, blockRun]
    split <;> simp
  | keep t ts hnone ih =>
    have hkeep := imageWith_keep (g := g) hnone
    rw [hkeep]
    cases hn : t.role.depthAfter d with
    | none =>
      rw [blockRun_cons_none hn, blockRun_cons_none hn]
      split
      · simp [hkeep]
      · rfl
    | some n =>
      rw [blockRun_cons hn, blockRun_cons hn, ih ts (Nat.le_refl _)
        (fun v hv => hp v (List.mem_cons_of_mem t hv)) (hg.mono (Nat.le_succ _)) n]
      cases hrun : blockRun n ts with
      | none => rfl
      | some p =>
        obtain ⟨run, rest⟩ := p
        -- No site starts at the token in the block either, where less follows it.
        rw [← Texelwise.blockRun_append hrun] at hnone
        simp [imageWith_keep (site?_eq_none_of_append hnone)]
  | site t s tail rest hkind hs ih =>
    have hbal := hs.balanced hkind fun v hv => hp v (by
      rcases List.mem_cons.mp hv with rfl | hv
      · exact List.mem_cons_self
      · simp [hv])
    have hfirm := hs.firm hr (g := g) (fun v hv => hp v (by simp [hv])) (hg.mono (by simp; omega))
    have hrest := ih rest (by simp) (fun v hv => hp v (by simp [hv])) (hg.mono (by simp; omega)) d
    rw [imageWith_site (site?_append hkind hs rest), hfirm.clean.balanced.blockRun_append, hrest,
      ← List.cons_append, hbal.blockRun_append, Option.map_map, Option.map_map]
    congr 1
    funext p
    simp [imageWith_site (site?_append hkind hs p.1)]

theorem clean_imageWith (hr : r.Sane) {ts : List Token} (hts : Clean ts)
    (hg : Keeps g ts.length) : Clean (r.imageWith g ts) := by
  refine ⟨?_, proper_imageWith hr hts.proper hg⟩
  have hbal := hts.balanced
  unfold Balanced Closes at hbal ⊢
  rw [blockRun_imageWith hr hts.proper hg, hbal]
  simp

/-- The image of clean tokens is clean. -/
theorem clean_image (hr : r.Sane) {ts : List Token} (h : Clean ts) : Clean (r.image ts) := by
  induction hn : ts.length using Nat.strongRecOn generalizing ts with
  | ind n ih =>
    rw [image_eq]
    refine clean_imageWith hr h fun b hb hclean => ?_
    exact ih b.length (by omega) hclean rfl

theorem keeps_image (hr : r.Sane) (n : Nat) : Keeps r.image n := fun _ _ h => clean_image hr h

end Rules

end Texelwise

import Texelwise.Proofs.Expansion.Rounds

/-!
# One pass for several

A body that is the image of some tokens becomes, by one more pass, the image with one more rule.

* `Rules.merge`: the rules of both.
* `Rules.image_merge`: one image after the other is the image with the merged rules.
* `replaceAll_eq_image`: a pass over a text that ends with such a body.
* `sampleEach_image`, `foldlM_field`: passes for several names or fields, one after another.
-/

namespace Texelwise

open Token

namespace Rules

variable {σ ρ : Rules}

/-- The rules of both, the first before the second. -/
def merge (σ ρ : Rules) : Rules :=
  ⟨σ.reads ++ ρ.reads, σ.fields ++ ρ.fields, fun n => (σ.output? n).or (ρ.output? n)⟩

theorem Sane.merge (hσ : σ.Sane) (hρ : ρ.Sane) : (σ.merge ρ).Sane := by
  refine ⟨fun e he => ?_, fun e he => ?_, fun n w h => ?_⟩
  · rcases List.mem_append.mp he with he | he
    · exact hσ.reads e he
    · exact hρ.reads e he
  · rcases List.mem_append.mp he with he | he
    · exact hσ.fields e he
    · exact hρ.fields e he
  · rcases Option.or_eq_some_iff.mp h with h | ⟨-, h⟩
    · exact hσ.outputs n w h
    · exact hρ.outputs n w h

/-- No buffer has rules in both. -/
def Apart (σ ρ : Rules) : Prop := ∀ w, σ.reads.lookup w = none ∨ ρ.reads.lookup w = none

/-- Merged rules have the sites of both. -/
theorem site?_merge (h : σ.Apart ρ) (t : Token) (ts : List Token) :
    (σ.merge ρ).site? t ts = (σ.site? t ts).or (ρ.site? t ts) := by
  unfold site? merge
  split
  · rfl
  cases extent? ts with
  | some p =>
    simp only [List.lookup_append]
    cases σ.fields.lookup (t.text, p.1) <;> rfl
  | none =>
    simp only
    split
    · cases number? ts with
      | none => rfl
      | some p =>
        simp only [Option.bind_some]
        cases σ.output? p.1 <;> rfl
    · rw [List.lookup_append]
      rcases h t.text with h | h
      · rw [h]
        rfl
      · rw [h, Option.or_none, Option.bind_none, Option.or_none]

/-- No site starts at a generated name. -/
def Foreign (ρ : Rules) : Prop := ∀ w, "nc_".toList <+: w → ρ.Ignores w

/-- No site starts in what stands for a site. -/
theorem ignores_of_stands (hσ : σ.Sane) (hρ : ρ.Foreign)
    (hr : (∀ n, σ.output? n = none) ∨ ρ.Ignores ['r']) {t : Token} {w : Text} {tail : List Token}
    (h : σ.Stands t (.word w) tail) {u : Token} (hu : u ∈ tokenize w) (hkind : u.kind = .ident) :
    ρ.Ignores u.text := by
  cases h with
  | field _ _ _ _ hw =>
    obtain ⟨-, hgen⟩ := hσ.fields _ (mem_of_lookup hw)
    rw [hgen.tokenize_eq] at hu
    rw [List.mem_singleton.mp hu]
    exact hρ w hgen.2
  | @output _ _ _ n _ _ _ _ _ _ hw =>
    have hchannel : ρ.Ignores ['r'] := by
      rcases hr with hr | hr
      · rw [hr] at hw
        cases hw
      · exact hr
    obtain ⟨name, ⟨-, hnc⟩, htok | htok⟩ := (hσ.outputs _ _ hw).tokenize_eq
    · rw [htok] at hu
      rw [List.mem_singleton.mp hu]
      exact hρ name hnc
    · rw [htok] at hu
      simp only [List.mem_cons, List.not_mem_nil, or_false] at hu
      rcases hu with rfl | rfl | rfl
      · exact hρ name hnc
      · cases hkind
      · exact hchannel

/-- One image after another is the image with the merged rules. -/
theorem image_merge (hσ : σ.Sane) (hρ : ρ.Sane) (hapart : σ.Apart ρ) (hforeign : ρ.Foreign)
    (hr : (∀ n, σ.output? n = none) ∨ ρ.Ignores ['r']) {ts : List Token}
    (hp : ∀ u ∈ ts, u.Proper) : ρ.image (σ.image ts) = (σ.merge ρ).image ts :=
  image_image hσ hρ (fun t ts => site?_merge hapart t ts)
    (fun _ _ _ hs _ hu hkind => ignores_of_stands hσ hforeign hr hs hu hkind) hp

/-- Rules without reads leave no indices to replace. -/
theorem image_eq_of_reads (h : ρ.reads = []) (g : List Token → List Token) (ts : List Token) :
    ρ.image ts = ρ.imageWith g ts := by
  induction ts using ρ.induction with
  | nil => simp
  | keep t ts hnone ih => rw [image_keep hnone, imageWith_keep hnone, ih ts (Nat.le_refl _)]
  | site t s tail rest hkind hs ih =>
    have hsite := site?_append hkind hs rest
    rw [image_site hsite, imageWith_site hsite, ih rest (by simp)]
    cases hs with
    | field => rfl
    | output => rfl
    | read _ hread =>
      rw [h] at hread
      cases hread

end Rules

/-! ## Names -/

/-- A name that a program may give to a uniform. -/
structure OwnName (w : Text) : Prop where
  isIdentifier : isIdentifier w = true
  not_generated : ¬ "nc_".toList <+: w
  not_reserved : w ∉ uniformWord :: threadWord :: extentFields

instance (w : Text) : Decidable (OwnName w) :=
  decidable_of_iff (isIdentifier w = true ∧ ¬ "nc_".toList <+: w ∧
      w ∉ uniformWord :: threadWord :: extentFields)
    ⟨fun ⟨h₁, h₂, h₃⟩ => ⟨h₁, h₂, h₃⟩, fun ⟨h₁, h₂, h₃⟩ => ⟨h₁, h₂, h₃⟩⟩

theorem OwnName.ne_uniformWord {w : Text} (h : OwnName w) : w ≠ uniformWord :=
  fun heq => h.not_reserved (by simp [heq])

theorem OwnName.ne_threadWord {w : Text} (h : OwnName w) : w ≠ threadWord :=
  fun heq => h.not_reserved (by simp [heq])

theorem OwnName.not_mem_extentFields {w : Text} (h : OwnName w) : w ∉ extentFields :=
  fun hmem => h.not_reserved (by simp [hmem])

/-! ## More reads and fields -/

namespace Rules

variable {σ : Rules}

/-- The rules with more reads. -/
def withReads (σ : Rules) (reads : List (Text × BufferKind)) : Rules :=
  ⟨σ.reads ++ reads, σ.fields, σ.output?⟩

/-- The rules with more fields. -/
def withFields (σ : Rules) (fields : List ((Text × Text) × Text)) : Rules :=
  ⟨σ.reads, σ.fields ++ fields, σ.output?⟩

theorem withReads_nil : σ.withReads [] = σ := by
  simp [withReads]

theorem withFields_nil : σ.withFields [] = σ := by
  simp [withFields]

theorem withReads_append (xs ys : List (Text × BufferKind)) :
    σ.withReads (xs ++ ys) = (σ.withReads xs).withReads ys := by
  simp [withReads]

theorem withReads_cons (e : Text × BufferKind) (es : List (Text × BufferKind)) :
    σ.withReads (e :: es) = (σ.withReads [e]).withReads es :=
  withReads_append [e] es

theorem withFields_append (xs ys : List ((Text × Text) × Text)) :
    σ.withFields (xs ++ ys) = (σ.withFields xs).withFields ys := by
  simp [withFields]

theorem withFields_cons (e : (Text × Text) × Text) (es : List ((Text × Text) × Text)) :
    σ.withFields (e :: es) = (σ.withFields [e]).withFields es :=
  withFields_append [e] es

theorem merge_readRule (name : Text) (kind : BufferKind) :
    σ.merge (readRule name kind) = σ.withReads [(name, kind)] := by
  simp [merge, readRule, withReads]

theorem merge_fieldRule (name f w : Text) :
    σ.merge (fieldRule name f w) = σ.withFields [((name, f), w)] := by
  simp [merge, fieldRule, withFields]

theorem foreign_readRule {name : Text} (h : ¬ "nc_".toList <+: name) (kind : BufferKind) :
    (readRule name kind).Foreign := by
  intro w hw
  have hne : w ≠ name := by
    rintro rfl
    exact h hw
  refine ⟨fun hthread => not_mem_of_generated hw (by rw [hthread]; exact List.mem_cons_self), ?_,
    fun _ => rfl⟩
  simp [readRule, hne]

theorem ignores_fieldRule {name w : Text} (hthread : w ≠ threadWord) (hne : w ≠ name)
    (f v : Text) : (fieldRule name f v).Ignores w :=
  ⟨hthread, rfl, fun g => by simp [fieldRule, hne]⟩

theorem foreign_fieldRule {name : Text} (h : ¬ "nc_".toList <+: name) (f v : Text) :
    (fieldRule name f v).Foreign := by
  intro w hw
  refine ignores_fieldRule (fun hthread => ?_) (fun hname => ?_) f v
  · exact not_mem_of_generated hw (by rw [hthread]; exact List.mem_cons_self)
  · exact h (by rw [← hname]; exact hw)

end Rules

theorem sane_fieldRule {name w : Text} (hext : name ∉ extentFields) (hw : Generated w) (f : Text) :
    (fieldRule name f w).Sane := by
  refine ⟨fun e he => absurd he List.not_mem_nil, fun e he => ?_, fun _ _ h => ?_⟩
  · rw [List.mem_singleton.mp he]
    exact ⟨hext, hw⟩
  · cases h

/-! ## Passes over a text with a body -/

section

variable {x : Text} {ts : List Token}

/-- A pass with a rule other than for reads, over a text that ends with spaced tokens. -/
theorem replaceAll_eq_image {p : Pattern} (hp : p.Consumes = true) {f : Occurrence → Text}
    {ρ : Rules} (hfollows : Follows p f ρ) (hselects : (Sweep.replace p f).Selects)
    (hreads : ρ.reads = []) (hx : Inert x) (hts : Spaced ts) :
    p.replaceAll f (x ++ textOf ts) = .ok (x ++ textOf (ρ.image ts)) := by
  have hkeep : x.flatMap (Sweep.replace p f).keep = x := by simp [Sweep.replace]
  rw [Pattern.replaceAll_eq hp, hx _ _ hselects, Sweep.of, tokenize_textOf hts.separated,
    along_replace hp hfollows fun u hu => hts.proper hu, hkeep, Rules.image_eq_of_reads hreads id]

theorem selects_field (name f : Text) (hname : isIdentifier name = true)
    (g : Occurrence → Text) : (Sweep.replace (Pattern.field name f) g).Selects := by
  intro t ts hp hread
  have hpts : ∀ u ∈ ts, u.Proper := fun u hu => hp u (List.mem_cons_of_mem t hu)
  have hshape := Pattern.read?_field hpts t name f
  rw [show (Sweep.replace (Pattern.field name f) g).pattern.read? (t :: ts) = _ from hshape]
    at hread
  by_cases htext : t.text = name
  · rw [if_pos htext] at hread
    refine ⟨(hp t List.mem_cons_self).kind_of_text_eq htext hname, ?_⟩
    cases hin : afterMark? '.' ts with
    | none => rw [hin] at hread; exact absurd rfl hread
    | some left => exact ⟨'.', left, .inl rfl, hin⟩
  · rw [if_neg htext] at hread
    exact absurd rfl hread

theorem selects_output {β : Type} (keep : Char → List β) (found : Occurrence → List β) :
    (⟨Pattern.output, keep, found⟩ : Sweep β).Selects := by
  intro t ts hp hread
  have hpts : ∀ u ∈ ts, u.Proper := fun u hu => hp u (List.mem_cons_of_mem t hu)
  have hshape := Pattern.read?_output hpts t
  rw [hshape] at hread
  by_cases htext : t.text = threadWord
  · rw [if_pos htext] at hread
    refine ⟨(hp t List.mem_cons_self).kind_of_text_eq htext (by decide), ?_⟩
    cases hn : number? ts with
    | none => rw [hn] at hread; exact absurd rfl hread
    | some p =>
      obtain ⟨left, hleft, -⟩ := Option.bind_eq_some_iff.mp hn
      exact ⟨'[', left, .inr rfl, hleft⟩
  · rw [if_neg htext] at hread
    exact absurd rfl hread

/-- The reads of several buffers of one kind are replaced, one buffer after another. -/
theorem sampleEach_image (kind : BufferKind) {names : List Text}
    (hbracket : ∀ n ∈ names, '[' ∉ n) {σ : Rules} (hσ : σ.Sane)
    (hout : ∀ n, σ.output? n = none) (hnames : ∀ n ∈ names, OwnName n) (hnodup : names.Nodup)
    (hfresh : ∀ n ∈ names, σ.reads.lookup n = none) (hx : Inert x) (hts : Spaced ts) :
    sampleEach kind names hbracket (x ++ textOf (σ.image ts)) =
      .ok (x ++ textOf ((σ.withReads (names.map fun n => (n, kind))).image ts)) := by
  induction names generalizing σ with
  | nil => rw [List.map_nil, Rules.withReads_nil]; rfl
  | cons n names ih =>
    have hn := hnames n List.mem_cons_self
    have hsane := sane_readRule hn.isIdentifier hn.not_mem_extentFields kind
    have hmerge : (σ.withReads [(n, kind)]).Sane := by
      rw [← Rules.merge_readRule]
      exact hσ.merge hsane
    -- No read of this buffer is replaced yet, so its rule does not meet the ones so far.
    have hapart : σ.Apart (readRule n kind) := by
      intro w
      by_cases hw : w = n
      · rw [hw]
        exact .inl (hfresh n List.mem_cons_self)
      · exact .inr (by simp [readRule, hw])
    have hstep : sampleReads n (hbracket n List.mem_cons_self) kind (x ++ textOf (σ.image ts)) =
        .ok (x ++ textOf ((σ.withReads [(n, kind)]).image ts)) := by
      rw [sampleReads_eq hn.isIdentifier hn.ne_threadWord hn.not_mem_extentFields kind hx
        (Rules.spaced_image hσ hts), Rules.image_merge hσ hsane hapart
        (Rules.foreign_readRule hn.not_generated kind) (.inl hout) fun u hu => hts.proper hu,
        Rules.merge_readRule]
    have hrest : ∀ m ∈ names, (σ.withReads [(n, kind)]).reads.lookup m = none := by
      intro m hm
      have hne : m ≠ n := by
        rintro rfl
        exact (List.nodup_cons.mp hnodup).1 hm
      rw [Rules.withReads, List.lookup_append, hfresh m (List.mem_cons_of_mem n hm)]
      simp [hne]
    rw [List.map_cons, Rules.withReads_cons, sampleEach, hstep]
    exact ih _ hmerge hout (fun m hm => hnames m (List.mem_cons_of_mem n hm))
      (List.nodup_cons.mp hnodup).2 hrest

/-- Several fields of one name are replaced, one field after another. -/
theorem foldlM_field {name : Text} (hname : isIdentifier name = true)
    (hext : name ∉ extentFields) (hnc : ¬ "nc_".toList <+: name) (member : Text → Text)
    {fs : List Text} (hfs : ∀ f ∈ fs, f ∈ extentFields ∧ Generated (member f)) {σ : Rules}
    (hσ : σ.Sane) (hr : (∀ n, σ.output? n = none) ∨ name ≠ ['r']) (hx : Inert x) (hts : Spaced ts) :
    fs.foldlM (fun code f => (Pattern.field name f).replaceAll (fun _ => member f) code)
        (x ++ textOf (σ.image ts)) =
      .ok (x ++ textOf ((σ.withFields (fs.map fun f => ((name, f), member f))).image ts)) := by
  induction fs generalizing σ with
  | nil => rw [List.map_nil, Rules.withFields_nil]; rfl
  | cons f fs ih =>
    obtain ⟨hf, hmember⟩ := hfs f List.mem_cons_self
    have hsane := sane_fieldRule hext hmember f
    have hmerge : (σ.withFields [((name, f), member f)]).Sane := by
      rw [← Rules.merge_fieldRule]
      exact hσ.merge hsane
    have hchannel : (∀ n, σ.output? n = none) ∨
        (fieldRule name f (member f)).Ignores ['r'] := by
      rcases hr with hr | hr
      · exact .inl hr
      · exact .inr (Rules.ignores_fieldRule (by decide) (Ne.symm hr) f _)
    have hstep : (Pattern.field name f).replaceAll (fun _ => member f)
        (x ++ textOf (σ.image ts)) =
          .ok (x ++ textOf ((σ.withFields [((name, f), member f)]).image ts)) := by
      rw [replaceAll_eq_image rfl (follows_fieldRule hname hf _) (selects_field name f hname _) rfl
        hx (Rules.spaced_image hσ hts), Rules.image_merge hσ hsane (fun _ => .inr rfl)
        (Rules.foreign_fieldRule hnc f _) hchannel fun u hu => hts.proper hu,
        Rules.merge_fieldRule]
    rw [List.map_cons, Rules.withFields_cons, List.foldlM_cons, hstep]
    exact ih (fun g hg => hfs g (List.mem_cons_of_mem f hg)) hmerge hr

end

end Texelwise

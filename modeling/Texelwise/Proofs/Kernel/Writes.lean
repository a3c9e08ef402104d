import Texelwise.Proofs.Expansion.Edits
import Texelwise.Proofs.Kernel.Fixpoint
import Texelwise.Proofs.Source.Thread

/-!
# Writes that passes keep

A write is `thread` and a number in brackets behind it. Passes that replace reads and fields of
buffers keep the writes: what they replace begins with a word other than `thread`, so it is no part
of a write around it, and the writes in the indices of a read stand in its sample again.

* `Writes`: a write stands in a text; `writes_iff`: it is one of the hits of `writeAt`.
* `Bracketed`, `mem_hits_writeAt_iff`: the tokens of a write.
* `KeepsWrites.hits_eq`: edits that keep the writes of what they replace keep those of a text.
* `BufferEdit.keepsWrites`: samples and members keep the writes of reads and fields.
-/

namespace Texelwise

open Token

/-! ## Writes -/

/-- A write to output `k` stands in the text: somewhere the pattern of writes captures `k`. -/
def Writes (x k : Text) : Prop :=
  ∃ us m, us <:+ tokenize x ∧ Pattern.output.match? us = some m ∧ m.captures = [k]

theorem mem_hits_iff {α : Type} {q : Token → List Token → Option α} {ts : List Token} {a : α} :
    a ∈ hits q ts ↔ ∃ t us, t :: us <:+ ts ∧ q t us = some a := by
  induction ts with
  | nil => simp
  | cons t ts ih =>
    rw [hits, List.mem_append, Option.mem_toList, ih]
    constructor
    · rintro (h | ⟨u, us, hus, h⟩)
      · exact ⟨t, ts, List.suffix_refl _, h⟩
      · exact ⟨u, us, hus.trans (List.suffix_cons t ts), h⟩
    · rintro ⟨u, us, hus, h⟩
      rcases List.suffix_cons_iff.mp hus with heq | hus
      · obtain ⟨rfl, rfl⟩ := List.cons_eq_cons.mp heq
        exact .inl h
      · exact .inr ⟨u, us, hus, h⟩

theorem writes_iff {x k : Text} : Writes x k ↔ k ∈ hits writeAt (tokenize x) := by
  have hmatch : ∀ t us, t :: us <:+ tokenize x →
      ((∃ m, Pattern.output.match? (t :: us) = some m ∧ m.captures = [k]) ↔
        writeAt t us = some k) := by
    intro t us hus
    have hread := Pattern.read?_output
      (fun u hu => proper_tokenize u (hus.subset (List.mem_cons_of_mem t hu))) t
    have hcaptures : (∃ m, Pattern.output.match? (t :: us) = some m ∧ m.captures = [k]) ↔
        (Pattern.output.read? (t :: us)).map Prod.fst = some [k] := by
      rw [Pattern.read?, Option.map_map, Option.map_eq_some_iff]
      rfl
    rw [hcaptures, hread, writeAt]
    split
    · rw [Option.map_map, Option.map_eq_some_iff, Option.map_eq_some_iff]
      simp
    · simp
  rw [mem_hits_iff]
  constructor
  · rintro ⟨us, m, hus, hm, hk⟩
    cases us with
    | nil => cases (Pattern.match?_nil (p := .output) rfl).symm.trans hm
    | cons t us => exact ⟨t, us, hus, (hmatch t us hus).mp ⟨m, hm, hk⟩⟩
  · rintro ⟨t, us, hus, hk⟩
    obtain ⟨m, hm, hk⟩ := (hmatch t us hus).mpr hk
    exact ⟨t :: us, m, hus, hm, hk⟩

/-- A number in brackets, with at most one blank at each place. -/
inductive Bracketed (k : Text) : List Token → Prop
  | mk {gap gap' gap'' : List Token} {n : Token} (hgap : Gap gap) (hgap' : Gap gap')
      (hgap'' : Gap gap'') (hn : n.kind = .number) (hk : n.text = k) :
      Bracketed k (gap ++ mark '[' :: (gap' ++ n :: (gap'' ++ [mark ']'])))

theorem number?_eq_some_iff_bracketed {ts rest : List Token} {k : Text} :
    number? ts = some (k, rest) ↔ ∃ w, Bracketed k w ∧ ts = w ++ rest := by
  rw [number?_eq_some_iff]
  constructor
  · rintro ⟨gap, gap', gap'', n, hgap, hgap', hgap'', hn, hk, rfl⟩
    exact ⟨_, .mk hgap hgap' hgap'' hn hk, by simp⟩
  · rintro ⟨w, ⟨hgap, hgap', hgap'', hn, hk⟩, rfl⟩
    exact ⟨_, _, _, _, hgap, hgap', hgap'', hn, hk, by simp⟩

theorem writeAt_eq_some_iff {t : Token} {ts : List Token} {k : Text} :
    writeAt t ts = some k ↔ t.text = threadWord ∧ ∃ w, Bracketed k w ∧ w <+: ts := by
  rw [writeAt, Option.ite_none_right_eq_some, Option.map_eq_some_iff]
  refine and_congr_right fun _ => ⟨?_, ?_⟩
  · rintro ⟨⟨n, rest⟩, hn, rfl⟩
    obtain ⟨w, hw, rfl⟩ := number?_eq_some_iff_bracketed.mp hn
    exact ⟨w, hw, List.prefix_append w rest⟩
  · rintro ⟨w, hw, rest, rfl⟩
    exact ⟨(k, rest), number?_eq_some_iff_bracketed.mpr ⟨w, hw, rfl⟩, rfl⟩

/-- A write is the word `thread` and a number in brackets. -/
theorem mem_hits_writeAt_iff {ts : List Token} (hp : ∀ u ∈ ts, u.Proper) {k : Text} :
    k ∈ hits writeAt ts ↔ ∃ w, Bracketed k w ∧ word threadWord :: w <:+: ts := by
  rw [mem_hits_iff]
  constructor
  · rintro ⟨t, us, hus, hwrite⟩
    obtain ⟨htext, w, hw, hprefix⟩ := writeAt_eq_some_iff.mp hwrite
    have ht : t = word threadWord := by
      rw [← htext]
      exact (hp t (hus.subset List.mem_cons_self)).eq_word (by rw [htext]; decide)
    subst ht
    exact ⟨w, hw, (List.cons_prefix_cons.mpr ⟨rfl, hprefix⟩).isInfix.trans hus.isInfix⟩
  · rintro ⟨w, hw, before, after, rfl⟩
    refine ⟨word threadWord, w ++ after, ⟨before, by simp⟩, ?_⟩
    exact writeAt_eq_some_iff.mpr ⟨rfl, w, hw, List.prefix_append w after⟩

namespace Bracketed

variable {k : Text} {w : List Token} (h : Bracketed k w)

include h

theorem kind_ne {u : Token} (hu : u ∈ w) : u.kind ≠ .ident := by
  obtain ⟨hgap, hgap', hgap'', hn, -⟩ := h
  simp only [List.mem_append, List.mem_cons, List.not_mem_nil, or_false] at hu
  rcases hu with hu | rfl | hu | rfl | hu | rfl
  · rw [hgap.kind_eq hu]
    decide
  · decide
  · rw [hgap'.kind_eq hu]
    decide
  · rw [hn]
    decide
  · rw [hgap''.kind_eq hu]
    decide
  · decide

theorem mark_not_mem {c : Char} (ho : c ≠ '[') (hc : c ≠ ']') : mark c ∉ w := by
  obtain ⟨hgap, hgap', hgap'', hn, -⟩ := h
  have hspace : ∀ {g : List Token}, Gap g → mark c ∉ g := fun hg hmem => by
    cases hg.kind_eq hmem
  simp only [List.mem_append, List.mem_cons, List.not_mem_nil, or_false, not_or]
  refine ⟨hspace hgap, fun heq => ho ?_, hspace hgap', fun heq => ?_, hspace hgap'',
    fun heq => hc ?_⟩
  · simpa [mark] using heq
  · rw [← heq] at hn
    cases hn
  · simpa [mark] using heq

theorem isSome_afterMark? (zs : List Token) : (afterMark? '[' (w ++ zs)).isSome := by
  obtain ⟨hgap, -, -, -, -⟩ := h
  rw [List.append_assoc, List.cons_append, afterMark?_eq_some_iff.mpr ⟨_, hgap, rfl⟩]
  rfl

theorem exists_eq_append : ∃ more, w = more ++ [mark ']'] := by
  obtain ⟨hgap, hgap', hgap'', hn, -⟩ := h
  rename_i gap gap' gap'' n
  exact ⟨gap ++ mark '[' :: (gap' ++ n :: gap''), by simp⟩

theorem stops {u : Token} (hu : u.kind = .ident) (us : List Token) : Stops w (u :: us) :=
  .of_not_mem fun hmem => h.kind_ne hmem hu

end Bracketed

/-- Tokens that are no `thread` add no write. -/
theorem hits_writeAt_append_of_ne {us : List Token} (h : ∀ u ∈ us, u.text ≠ threadWord)
    (zs : List Token) : hits writeAt (us ++ zs) = hits writeAt zs := by
  induction us with
  | nil => rfl
  | cons u us ih =>
    have hu : writeAt u (us ++ zs) = none := if_neg (h u List.mem_cons_self)
    rw [List.cons_append, hits_cons_of_none hu]
    exact ih fun v hv => h v (List.mem_cons_of_mem u hv)

/-! ## Writes before and after edits -/

/-- Edits of runs that start with words for runs that start with words, and with the same writes. -/
structure KeepsWrites (R : List Token → List Token → Prop) : Prop where
  word_old : ∀ old new, R old new → ∃ u us, old = u :: us ∧ u.kind = .ident
  word_new : ∀ old new, R old new → ∃ u us, new = u :: us ∧ u.kind = .ident
  hits : ∀ old new, R old new → ∃ ks,
    (∀ zs, Texelwise.hits writeAt (old ++ zs) = ks ++ Texelwise.hits writeAt zs) ∧
    ∀ zs, Texelwise.hits writeAt (new ++ zs) = ks ++ Texelwise.hits writeAt zs

/-- What is written at a token before other ones is written there before the tokens they were. -/
theorem Edited.writeAt_of_writeAt {R : List Token → List Token → Prop} {ts us : List Token}
    (h : Edited R ts us) (hword : ∀ old new, R old new → ∃ u us, new = u :: us ∧ u.kind = .ident)
    {t : Token} {k : Text} (hk : writeAt t us = some k) : writeAt t ts = some k := by
  obtain ⟨ht, w, hw, rest, hrest⟩ := writeAt_eq_some_iff.mp hk
  obtain ⟨rest', rfl, -⟩ := h.exists_prefix (fun old new hR => by
    obtain ⟨u, vs, rfl, hu⟩ := hword old new hR
    exact hw.stops hu vs) hrest.symm
  exact writeAt_eq_some_iff.mpr ⟨ht, w, hw, List.prefix_append w rest'⟩

theorem KeepsWrites.hits_eq {R : List Token → List Token → Prop} (hR : KeepsWrites R)
    {ts us : List Token} (h : Edited R ts us) :
    Texelwise.hits writeAt us = Texelwise.hits writeAt ts := by
  induction h with
  | nil => rfl
  | @keep ts us t h ih =>
    have hback := @h.flip.writeAt_of_writeAt _ _ _ fun old new => hR.word_old new old
    have hwrite : writeAt t us = writeAt t ts :=
      Option.ext fun k => ⟨h.writeAt_of_writeAt hR.word_new, hback⟩
    rw [Texelwise.hits, Texelwise.hits, hwrite, ih]
  | @edit ts us old new hedit h ih =>
    obtain ⟨ks, hold, hnew⟩ := hR.hits old new hedit
    rw [hold, hnew, ih]

/-! ## Reads and fields -/

/-- What the passes for buffers put in place of reads and fields of names. -/
inductive BufferEdit : List Token → List Token → Prop
  | read {name : Text} {tail : List Token} {blocks : List (List Token)} (kind : BufferKind)
      (hname : isIdentifier name = true) (hthread : name ≠ threadWord)
      (htail : Subscripts blocks tail) (hp : ∀ u ∈ tail, u.Proper) :
      BufferEdit (word name :: tail) (sampleTokens name kind (blocks.map trimBlanks))
  | field {name f : Text} {gap gap' : List Token} (hthread : name ≠ threadWord)
      (hf : f ∈ extentFields) (hgap : Gap gap) (hgap' : Gap gap')
      (hp : ∀ u ∈ gap ++ gap', u.Proper) :
      BufferEdit (word name :: (gap ++ mark '.' :: (gap' ++ [word f])))
        [word (bufferMemberName name f)]

namespace BufferEdit

theorem clean {blocks : List (List Token)} {tail : List Token} (htail : Subscripts blocks tail)
    (hp : ∀ u ∈ tail, u.Proper) : ∀ b ∈ blocks, Clean b := by
  intro b hb
  obtain ⟨pre, post, rfl⟩ := htail.exists_of_mem hb
  exact ⟨(htail.of_mem hb).1, fun u hu => hp u (by simp [hu])⟩

/-- A read and its sample have the writes in the indices. -/
theorem hits_read {name : Text} {tail : List Token} {blocks : List (List Token)}
    (kind : BufferKind) (hname : isIdentifier name = true) (hthread : name ≠ threadWord)
    (htail : Subscripts blocks tail) (hp : ∀ u ∈ tail, u.Proper) (zs : List Token) :
    hits writeAt (word name :: tail ++ zs) =
        blocks.flatMap (hits writeAt) ++ hits writeAt zs ∧
      hits writeAt (sampleTokens name kind (blocks.map trimBlanks) ++ zs) =
        blocks.flatMap (hits writeAt) ++ hits writeAt zs := by
  have hclean := clean htail hp
  constructor
  · have hnone : writeAt (word name) (tail ++ zs) = none := if_neg hthread
    rw [List.cons_append, hits_cons_of_none hnone]
    exact probe_writeAt.hits_subscripts htail hp fun _ _ _ => if_neg (by decide)
  · rw [probe_writeAt.hits_sampleTokens hname kind, List.flatMap_map]
    · congr 1
      exact List.flatMap_congr fun b hb => probe_writeAt.hits_trimBlanks (hclean b hb)
    · intro i hi
      obtain ⟨b, hb, rfl⟩ := List.mem_map.mp hi
      exact (hclean b hb).trimBlanks

/-- A field has no writes, and what stands for it has none. -/
theorem hits_field {name f : Text} {gap gap' : List Token} (hthread : name ≠ threadWord)
    (hf : f ∈ extentFields) (hgap : Gap gap) (hgap' : Gap gap')
    (hp : ∀ u ∈ gap ++ gap', u.Proper) (zs : List Token) :
    hits writeAt (word name :: (gap ++ mark '.' :: (gap' ++ [word f])) ++ zs) = hits writeAt zs ∧
      hits writeAt ([word (bufferMemberName name f)] ++ zs) = hits writeAt zs := by
  have hblank : ∀ g : List Token, Gap g → (∀ u ∈ g, u.Proper) →
      ∀ u ∈ g, u.text ≠ threadWord := by
    intro g hg hproper u hu htext
    exact not_mem_askedWords_of_isSpace (hproper u hu) (hg.kind_eq hu)
      (by rw [htext]; exact List.mem_cons_self)
  have hextents : ∀ f ∈ extentFields, f ≠ threadWord := by decide
  constructor
  · refine hits_writeAt_append_of_ne (fun u hu => ?_) zs
    simp only [List.mem_cons, List.mem_append, List.not_mem_nil, or_false] at hu
    rcases hu with rfl | hu | rfl | hu | rfl
    · exact hthread
    · exact hblank gap hgap (fun v hv => hp v (List.mem_append_left _ hv)) u hu
    · decide
    · exact hblank gap' hgap' (fun v hv => hp v (List.mem_append_right _ hv)) u hu
    · exact hextents f hf
  · refine hits_writeAt_append_of_ne (fun u hu => ?_) zs
    rw [List.mem_singleton.mp hu]
    intro htext
    have hgenerated := generated_bufferMemberName name f
    rw [show bufferMemberName name f = threadWord from htext] at hgenerated
    exact absurd hgenerated (by decide)

/-- Samples have the writes of the reads, in their indices, and fields have none. -/
theorem keepsWrites : KeepsWrites BufferEdit := by
  refine ⟨fun old new h => ?_, fun old new h => ?_, fun old new h => ?_⟩
  · cases h <;> exact ⟨_, _, rfl, rfl⟩
  · cases h with
    | read kind =>
      obtain ⟨f, first, rest, -, hcall⟩ := exists_sampleTokens_eq _ kind _
      exact ⟨_, _, hcall, rfl⟩
    | field => exact ⟨_, _, rfl, rfl⟩
  · cases h with
    | @read name tail blocks kind hname hthread htail hp =>
      have hread := hits_read kind hname hthread htail hp
      exact ⟨blocks.flatMap (Texelwise.hits writeAt), fun zs => (hread zs).1,
        fun zs => (hread zs).2⟩
    | field hthread hf hgap hgap' hp =>
      have hfield := hits_field hthread hf hgap hgap' hp
      exact ⟨[], fun zs => (hfield zs).1, fun zs => (hfield zs).2⟩

end BufferEdit

end Texelwise

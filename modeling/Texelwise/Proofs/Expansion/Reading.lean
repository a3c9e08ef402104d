import Texelwise.Proofs.Expansion.Image

/-!
# Reading images

What is read off an image is the image of what is read off the tokens, and what is read inside a
closed part does not depend on what follows the part.

* `Rules.site?_imageWith`: what stands in front of an image.
* `Halts`: what may follow a closed part so that no reader goes on into it.
* `Rules.site?_append_of_closes`: what stands in front of a closed part with more after it.
* `Rules.image_append`, `image_trimBlanks`, `image_sampleTokens`: images of parts.
-/

namespace Texelwise

open Token

/-! ## In front of an image -/

namespace Rules

variable {r : Rules} {g : List Token → List Token}

theorem Stands.not_mem_extentFields {t : Token} {s : Site} {tail : List Token} (hr : r.Sane)
    (h : r.Stands t s tail) : t.text ∉ extentFields := by
  cases h with
  | field _ _ _ _ hw => exact (hr.fields _ (mem_of_lookup hw)).1
  | output ht => rw [ht]; decide
  | read _ hkind => exact (hr.reads _ (mem_of_lookup hkind)).2

/-- A function for indices that keeps what is clean clean. -/
def KeepsAll (g : List Token → List Token) : Prop := ∀ b, Clean b → Clean (g b)

theorem KeepsAll.keeps (h : KeepsAll g) (n : Nat) : Keeps g n := fun b _ => h b

/-- The first token stays, or a site starts at it and a name that the language has no use for
takes its place. -/
theorem imageWith_cons_cases (hr : r.Sane) (hg : KeepsAll g) {t : Token} {ts : List Token}
    (hp : ∀ u ∈ t :: ts, u.Proper) :
    r.imageWith g (t :: ts) = t :: r.imageWith g ts ∨
      (t.kind = .ident ∧ t.text ∉ extentFields ∧ r.site? t ts ≠ none ∧
        ∃ u us, r.imageWith g (t :: ts) = u :: us ∧ u.kind = .ident ∧
          u.text ∉ threadWord :: extentFields) := by
  cases hs : r.site? t ts with
  | none => exact .inl (imageWith_keep hs)
  | some p =>
    obtain ⟨s, rest⟩ := p
    obtain ⟨hkind, tail, hstands, rfl⟩ := site?_eq_some_iff.mp hs
    have hfirm := hstands.firm hr (g := g) (fun u hu => hp u (by simp [hu])) (hg.keeps _)
    obtain ⟨u, more, hemit, hu, hext⟩ := hfirm.head
    refine .inr ⟨hkind, hstands.not_mem_extentFields hr, by simp, u,
      more ++ r.imageWith g rest, ?_, hu, hext⟩
    rw [imageWith_site hs, hemit, List.cons_append]

theorem imageWith_eq_nil (hr : r.Sane) (hg : KeepsAll g) {ts : List Token}
    (hp : ∀ u ∈ ts, u.Proper) : r.imageWith g ts = [] ↔ ts = [] := by
  cases ts with
  | nil => simp
  | cons t ts =>
    rcases imageWith_cons_cases hr hg hp with h | ⟨-, -, -, u, us, h, -⟩
    · simp [h]
    · simp [h]

/-- A test that no first token of a site passes is passed by the same tokens. -/
theorem next?_imageWith (hr : r.Sane) (hg : KeepsAll g) {ts : List Token}
    (hp : ∀ u ∈ ts, u.Proper) {test : Token → Bool}
    (htest : ∀ t, t.kind = .ident → t.text ∉ extentFields → test t = false) :
    next? test (r.imageWith g ts) = (next? test ts).map (Prod.map id (r.imageWith g)) := by
  cases ts with
  | nil => simp [next?]
  | cons t ts =>
    rcases imageWith_cons_cases hr hg hp with h | ⟨hkind, hext, -, u, us, h, hu, huext⟩
    · rw [h]
      simp only [next?]
      split <;> rfl
    · rw [h]
      simp [next?, htest u hu fun hmem => huext (List.mem_cons_of_mem _ hmem), htest t hkind hext]

theorem skipBlank_imageWith (hr : r.Sane) (hg : KeepsAll g) {ts : List Token}
    (hp : ∀ u ∈ ts, u.Proper) :
    skipBlank (r.imageWith g ts) = r.imageWith g (skipBlank ts) := by
  cases ts with
  | nil => simp [skipBlank]
  | cons t ts =>
    rcases imageWith_cons_cases hr hg hp with h | ⟨hkind, -, -, u, us, h, hu, -⟩
    · by_cases ht : t.kind = .space
      · rw [h]
        simp [skipBlank, ht]
      · rw [h]
        simp [skipBlank, ht, h]
    · rw [h]
      simp [skipBlank, hkind, hu, h]

theorem mem_skipBlank {ts : List Token} {u : Token} (hu : u ∈ skipBlank ts) : u ∈ ts := by
  cases ts with
  | nil => exact hu
  | cons t ts =>
    rw [skipBlank] at hu
    split at hu
    · exact List.mem_cons_of_mem t hu
    · exact hu

theorem afterMark?_imageWith (hr : r.Sane) (hg : KeepsAll g) {ts : List Token}
    (hp : ∀ u ∈ ts, u.Proper) (c : Char) :
    afterMark? c (r.imageWith g ts) = (afterMark? c ts).map (r.imageWith g) := by
  have hmark : ∀ t : Token, t.kind = .ident → t.text ∉ extentFields →
      decide (t = mark c) = false := by
    rintro t ht -
    exact decide_eq_false fun h => by rw [h] at ht; cases ht
  unfold afterMark?
  rw [skipBlank_imageWith hr hg hp, next?_imageWith hr hg (fun u hu => hp u (mem_skipBlank hu))
    hmark, Option.map_map, Option.map_map]
  rfl

theorem enclosed?_imageWith (hr : r.Sane) (hg : KeepsAll g) {ts : List Token}
    (hp : ∀ u ∈ ts, u.Proper) (o c : Char) :
    enclosed? o c (r.imageWith g ts) =
      (enclosed? o c ts).map (Prod.map (r.imageWith g) (r.imageWith g)) := by
  have hmark : ∀ t : Token, t.kind = .ident → t.text ∉ extentFields →
      decide (t = mark c) = false := by
    rintro t ht -
    exact decide_eq_false fun h => by rw [h] at ht; cases ht
  unfold enclosed?
  rw [afterMark?_imageWith hr hg hp]
  cases hin : afterMark? o ts with
  | none => rfl
  | some inside =>
    obtain ⟨gap, -, rfl⟩ := afterMark?_eq_some_iff.mp hin
    have hpin : ∀ u ∈ inside, u.Proper := fun u hu => hp u (by simp [hu])
    rw [Option.map_some, Option.bind_some, Option.bind_some,
      blockRun_imageWith hr hpin (hg.keeps _)]
    cases hrun : blockRun 0 inside with
    | none => rfl
    | some p =>
      obtain ⟨run, left⟩ := p
      have happ := Texelwise.blockRun_append hrun
      have hprun : ∀ u ∈ run, u.Proper := fun u hu => hpin u (by rw [← happ]; simp [hu])
      have hpleft : ∀ u ∈ left, u.Proper := fun u hu => hpin u (by rw [← happ]; simp [hu])
      have hempty : (r.imageWith g run).isEmpty = run.isEmpty := by
        rw [Bool.eq_iff_iff, List.isEmpty_iff, List.isEmpty_iff, imageWith_eq_nil hr hg hprun]
      simp only [Option.map_some, Option.bind_some, Prod.map_apply, hempty]
      rw [next?_imageWith hr hg hpleft hmark]
      split
      · rfl
      · rw [Option.map_map, Option.map_map]
        rfl

theorem subscripts?_imageWith (hr : r.Sane) (hg : KeepsAll g) {ts : List Token}
    (hp : ∀ u ∈ ts, u.Proper) (n : Nat) :
    subscripts? n (r.imageWith g ts) =
      (subscripts? n ts).map (Prod.map (List.map (r.imageWith g)) (r.imageWith g)) := by
  induction n generalizing ts with
  | zero => rfl
  | succ n ih =>
    unfold subscripts?
    rw [enclosed?_imageWith hr hg hp]
    cases hs : enclosed? '[' ']' ts with
    | none => rfl
    | some p =>
      obtain ⟨block, left⟩ := p
      obtain ⟨-, -, gap, -, rfl⟩ := (enclosed?_eq_some_iff role_close).mp hs
      have hleft := @ih left fun u hu => hp u (by simp [hu])
      simp only [Option.map_some, Option.bind_some, Prod.map_apply, hleft, Option.map_map]
      rfl

theorem extent?_imageWith (hr : r.Sane) (hg : KeepsAll g) {ts : List Token}
    (hp : ∀ u ∈ ts, u.Proper) :
    extent? (r.imageWith g ts) = (extent? ts).map (Prod.map id (r.imageWith g)) := by
  have htest : ∀ t : Token, t.kind = .ident → t.text ∉ extentFields →
      decide (t.kind = .ident ∧ t.text ∈ extentFields) = false := by
    rintro t - hext
    exact decide_eq_false fun h => hext h.2
  unfold extent?
  rw [afterMark?_imageWith hr hg hp]
  cases hin : afterMark? '.' ts with
  | none => rfl
  | some left =>
    obtain ⟨gap, -, rfl⟩ := afterMark?_eq_some_iff.mp hin
    have hpleft : ∀ u ∈ left, u.Proper := fun u hu => hp u (by simp [hu])
    rw [Option.map_some, Option.bind_some, Option.bind_some, skipBlank_imageWith hr hg hpleft,
      next?_imageWith hr hg (fun u hu => hpleft u (mem_skipBlank hu)) htest, Option.map_map,
      Option.map_map]
    rfl

theorem number?_imageWith (hr : r.Sane) (hg : KeepsAll g) {ts : List Token}
    (hp : ∀ u ∈ ts, u.Proper) :
    number? (r.imageWith g ts) = (number? ts).map (Prod.map id (r.imageWith g)) := by
  have htest : ∀ t : Token, t.kind = .ident → t.text ∉ extentFields →
      decide (t.kind = .number) = false := by
    rintro t ht -
    simp [ht]
  unfold number?
  rw [afterMark?_imageWith hr hg hp]
  cases hin : afterMark? '[' ts with
  | none => rfl
  | some left =>
    obtain ⟨gap, -, rfl⟩ := afterMark?_eq_some_iff.mp hin
    have hpleft : ∀ u ∈ left, u.Proper := fun u hu => hp u (by simp [hu])
    rw [Option.map_some, Option.bind_some, Option.bind_some, skipBlank_imageWith hr hg hpleft,
      next?_imageWith hr hg (fun u hu => hpleft u (mem_skipBlank hu)) htest]
    cases hn : next? (fun t => decide (t.kind = .number)) (skipBlank left) with
    | none => rfl
    | some p =>
      obtain ⟨n, after⟩ := p
      obtain ⟨-, hafter⟩ := next?_eq_some_iff.mp hn
      have hpafter : ∀ u ∈ after, u.Proper := fun u hu =>
        hpleft u (mem_skipBlank (by rw [hafter]; exact List.mem_cons_of_mem n hu))
      simp only [Option.map_some, Option.bind_some, Prod.map_apply, id_eq,
        afterMark?_imageWith hr hg hpafter, Option.map_map]
      rfl

end Rules

/-- The same site with other indices. -/
def Site.map (f : List Token → List Token) : Site → Site
  | .read kind blocks => .read kind (blocks.map f)
  | .word w => .word w

/-- What stands in front of an image is the image of what stands in front of the tokens. -/
theorem Rules.site?_imageWith {r ρ : Rules} {g : List Token → List Token} (hr : r.Sane)
    (hg : KeepsAll g) {ts : List Token} (hp : ∀ u ∈ ts, u.Proper) (t : Token) :
    ρ.site? t (r.imageWith g ts) =
      (ρ.site? t ts).map (Prod.map (Site.map (r.imageWith g)) (r.imageWith g)) := by
  unfold site?
  split
  · rfl
  rw [extent?_imageWith hr hg hp]
  cases extent? ts with
  | some p =>
    obtain ⟨field, rest⟩ := p
    simp only [Option.map_some, Prod.map_apply, id_eq, Option.map_map]
    rfl
  | none =>
    simp only [Option.map_none]
    split
    · rw [number?_imageWith hr hg hp]
      cases number? ts with
      | none => rfl
      | some p =>
        obtain ⟨number, rest⟩ := p
        simp only [Option.map_some, Option.bind_some, Prod.map_apply, id_eq, Option.map_map]
        rfl
    · cases ρ.reads.lookup t.text with
      | none => rfl
      | some kind =>
        simp only [Option.bind_some, subscripts?_imageWith hr hg hp, Option.map_map]
        rfl

/-! ## In front of a closed part -/

/-- What a reader does not go on into: blanks, and then nothing, a comma or a closing bracket. -/
def Halts (zs : List Token) : Prop :=
  ∀ u ∈ (zs.dropWhile Token.isSpace).head?, u = mark ',' ∨ u = mark ')' ∨ u = mark ']'

theorem halts_mark {c : Char} (hc : c = ',' ∨ c = ')' ∨ c = ']') (zs : List Token) :
    Halts (mark c :: zs) := by
  have hspace : Token.isSpace (mark c) = false := rfl
  rintro u hu
  rw [List.dropWhile_cons_of_neg (by simp [hspace])] at hu
  obtain rfl : mark c = u := by simpa using hu
  rcases hc with rfl | rfl | rfl
  · exact .inl rfl
  · exact .inr (.inl rfl)
  · exact .inr (.inr rfl)

theorem halts_of_isSpace {zs : List Token} (h : ∀ u ∈ zs, u.isSpace = true) : Halts zs := by
  rintro u hu
  rw [List.dropWhile_eq_nil_iff.mpr h] at hu
  cases hu

theorem Halts.append {xs ys : List Token} (hx : Halts xs) (hy : Halts ys) : Halts (xs ++ ys) := by
  intro u hu
  rw [List.dropWhile_append] at hu
  split at hu
  · exact hy u hu
  · rename_i hne
    obtain ⟨v, vs, hv⟩ := List.exists_cons_of_ne_nil fun hnil => hne (List.isEmpty_iff.mpr hnil)
    rw [hv] at hu
    exact hx u (by rw [hv]; exact hu)

/-- A test that neither a blank passes nor what may follow a closed part. -/
def Passes (test : Token → Bool) : Prop :=
  (∀ t, t.kind = .space → test t = false) ∧ test (mark ',') = false ∧ test (mark ')') = false ∧
    test (mark ']') = false

theorem Halts.next?_eq_none {zs : List Token} (h : Halts zs) {test : Token → Bool}
    (htest : Passes test) : next? test zs = none := by
  cases zs with
  | nil => rfl
  | cons z zs =>
    suffices test z = false by simp [next?, this]
    by_cases hz : z.kind = .space
    · exact htest.1 z hz
    · have hspace : z.isSpace = false := decide_eq_false hz
      rw [Halts, List.dropWhile_cons_of_neg (by simp [hspace])] at h
      rcases h z rfl with rfl | rfl | rfl
      · exact htest.2.1
      · exact htest.2.2.1
      · exact htest.2.2.2

theorem Halts.skipBlank {zs : List Token} (h : Halts zs) : Halts (skipBlank zs) := by
  cases zs with
  | nil => exact h
  | cons z zs =>
    rw [Texelwise.skipBlank]
    split
    · have hspace : z.isSpace = true := decide_eq_true ‹_›
      rw [Halts, List.dropWhile_cons_of_pos hspace] at h
      exact h
    · exact h

theorem next?_append {test : Token → Bool} (htest : Passes test) (ts : List Token)
    {zs : List Token} (hz : Halts zs) :
    next? test (ts ++ zs) = (next? test ts).map (Prod.map id (· ++ zs)) := by
  cases ts with
  | nil => exact hz.next?_eq_none htest
  | cons t ts =>
    simp only [List.cons_append, next?]
    split <;> rfl

theorem next?_skipBlank_append {test : Token → Bool} (htest : Passes test) (ts : List Token)
    {zs : List Token} (hz : Halts zs) :
    next? test (skipBlank (ts ++ zs)) =
      (next? test (skipBlank ts)).map (Prod.map id (· ++ zs)) := by
  cases ts with
  | nil => exact hz.skipBlank.next?_eq_none htest
  | cons t ts =>
    simp only [List.cons_append, skipBlank]
    split
    · exact next?_append htest ts hz
    · exact next?_append htest (t :: ts) hz

theorem passes_mark {c : Char} (hc : ¬ (c = ',' ∨ c = ')' ∨ c = ']')) :
    Passes fun t => t = mark c := by
  push Not at hc
  refine ⟨fun t ht => decide_eq_false ?_, ?_, ?_, ?_⟩
  · rintro rfl
    cases ht
  · simp [mark, Ne.symm hc.1]
  · simp [mark, Ne.symm hc.2.1]
  · simp [mark, Ne.symm hc.2.2]

theorem afterMark?_append {c : Char} (hc : ¬ (c = ',' ∨ c = ')' ∨ c = ']')) (ts : List Token)
    {zs : List Token} (hz : Halts zs) :
    afterMark? c (ts ++ zs) = (afterMark? c ts).map (· ++ zs) := by
  unfold afterMark?
  rw [next?_skipBlank_append (passes_mark hc) ts hz, Option.map_map, Option.map_map]
  rfl

/-- A mark other than the one that is looked for stops the search. -/
theorem afterMark?_append_mark {c d : Char} (h : c ≠ d) (xs ys : List Token) :
    afterMark? d (xs ++ mark c :: ys) = (afterMark? d xs).map (· ++ mark c :: ys) := by
  have hnext : ∀ xs : List Token, next? (· = mark d) (xs ++ mark c :: ys) =
      (next? (· = mark d) xs).map (Prod.map id (· ++ mark c :: ys)) := by
    intro xs
    cases xs with
    | nil => simp [next?, mark, h]
    | cons x xs =>
      simp only [List.cons_append, next?]
      split <;> rfl
  have hskip : skipBlank (xs ++ mark c :: ys) = skipBlank xs ++ mark c :: ys := by
    cases xs with
    | nil => rfl
    | cons x xs =>
      simp only [List.cons_append, skipBlank]
      split <;> rfl
  unfold afterMark?
  rw [hskip, hnext, Option.map_map, Option.map_map]
  rfl

theorem extent?_append (ts : List Token) {zs : List Token} (hz : Halts zs) :
    extent? (ts ++ zs) = (extent? ts).map (Prod.map id (· ++ zs)) := by
  have htest : Passes fun t => t.kind = .ident ∧ t.text ∈ extentFields :=
    ⟨fun t ht => by simp [ht], by decide, by decide, by decide⟩
  unfold extent?
  rw [afterMark?_append (by decide) ts hz]
  cases afterMark? '.' ts with
  | none => rfl
  | some left =>
    simp only [Option.map_some, Option.bind_some, next?_skipBlank_append htest left hz,
      Option.map_map]
    rfl

section Closed

variable {d : Nat} {ts : List Token}

/-- After an opening bracket a part is closed with one bracket more. -/
theorem Closes.of_afterMark? {o : Char} (ho : (mark o).role = .opener) {inside : List Token}
    (h : Closes d ts) (hp : ∀ u ∈ ts, u.Proper) (hin : afterMark? o ts = some inside) :
    Closes (d + 1) inside := by
  obtain ⟨gap, hgap, rfl⟩ := afterMark?_eq_some_iff.mp hin
  have hgap' : Balanced gap := hgap.balanced fun u hu => hp u (by simp [hu])
  have hrest : Closes d (mark o :: inside) := Closes.of_append hgap' (by rwa [Nat.zero_add])
  obtain ⟨n, hn, hinside⟩ := closes_cons.mp hrest
  rw [ho] at hn
  cases hn
  exact hinside

/-- Inside brackets the next mark is found before the end of the brackets. -/
theorem Closes.afterMark?_append (h : Closes (d + 1) ts) (hp : ∀ u ∈ ts, u.Proper) (c : Char)
    (zs : List Token) : afterMark? c (ts ++ zs) = (afterMark? c ts).map (· ++ zs) := by
  have hnext : ∀ u us, next? (fun t => t = mark c) (u :: us ++ zs) =
      (next? (fun t => t = mark c) (u :: us)).map (Prod.map id (· ++ zs)) := by
    intro u us
    simp only [List.cons_append, next?]
    split <;> rfl
  have hskip : ∃ u us, skipBlank ts = u :: us ∧ skipBlank (ts ++ zs) = u :: us ++ zs := by
    cases ts with
    | nil => rw [closes_nil] at h; omega
    | cons t ts =>
      by_cases ht : t.kind = .space
      · obtain ⟨n, hn, hts⟩ := closes_cons.mp h
        rw [(hp t List.mem_cons_self).role_eq (by rw [ht]; decide)] at hn
        cases hn
        cases ts with
        | nil => rw [closes_nil] at hts; omega
        | cons u us => exact ⟨u, us, by simp [skipBlank, ht], by simp [skipBlank, ht]⟩
      · exact ⟨t, ts, by simp [skipBlank, ht], by simp [skipBlank, ht]⟩
  obtain ⟨u, us, hts, happ⟩ := hskip
  unfold afterMark?
  rw [happ, hts, hnext, Option.map_map, Option.map_map]
  rfl

theorem Closes.enclosed?_append {o : Char} (ho : (mark o).role = .opener) {c : Char}
    (h : Closes d ts) (hp : ∀ u ∈ ts, u.Proper) {zs : List Token} (hz : Halts zs) :
    enclosed? o c (ts ++ zs) = (enclosed? o c ts).map (Prod.map id (· ++ zs)) := by
  have hmark : ¬ (o = ',' ∨ o = ')' ∨ o = ']') := by
    rintro (rfl | rfl | rfl)
    · exact absurd ho (by decide)
    · exact absurd ho (by decide)
    · exact absurd ho (by decide)
  unfold enclosed?
  rw [Texelwise.afterMark?_append hmark ts hz]
  cases hin : afterMark? o ts with
  | none => rfl
  | some inside =>
    have hinside : Closes (d + 1 + 0) inside := h.of_afterMark? ho hp hin
    obtain ⟨run, rest, hrun, hne, happ⟩ := hinside.blockRun_inside
    rw [Option.map_some, Option.bind_some, Option.bind_some, happ zs, hrun]
    cases rest with
    | nil => exact absurd rfl hne
    | cons u us =>
      simp only [Option.bind_some, List.cons_append, next?]
      split
      · rfl
      · split <;> rfl

/-- What follows a block in brackets is closed. -/
theorem Closes.of_enclosed? {o c : Char} (ho : (mark o).role = .opener)
    (hc : (mark c).role = .closer) (h : Closes d ts) (hp : ∀ u ∈ ts, u.Proper)
    {block rest : List Token} (hs : enclosed? o c ts = some (block, rest)) :
    Closes d rest ∧ ∀ u ∈ rest, u.Proper := by
  obtain ⟨hblock, -, gap, hgap, rfl⟩ := (enclosed?_eq_some_iff hc).mp hs
  have hbrackets : Balanced (gap ++ (mark o :: block ++ [mark c])) :=
    (hgap.balanced fun u hu => hp u (by simp [hu])).append (hblock.enclosed ho hc)
  refine ⟨Closes.of_append hbrackets ?_, fun u hu => hp u (by simp [hu])⟩
  rw [Nat.zero_add]
  simpa using h

theorem Closes.subscripts?_append (h : Closes d ts) (hp : ∀ u ∈ ts, u.Proper) {zs : List Token}
    (hz : Halts zs) (n : Nat) :
    subscripts? n (ts ++ zs) = (subscripts? n ts).map (Prod.map id (· ++ zs)) := by
  induction n generalizing ts with
  | zero => rfl
  | succ n ih =>
    unfold subscripts?
    rw [h.enclosed?_append (by decide) hp hz]
    cases hs : enclosed? '[' ']' ts with
    | none => rfl
    | some p =>
      obtain ⟨block, left⟩ := p
      obtain ⟨hleft, hpleft⟩ := h.of_enclosed? (by decide) role_close hp hs
      simp only [Option.map_some, Option.bind_some, Prod.map_apply, id_eq, ih hleft hpleft,
        Option.map_map]
      rfl

theorem Closes.number?_append (h : Closes d ts) (hp : ∀ u ∈ ts, u.Proper) {zs : List Token}
    (hz : Halts zs) : number? (ts ++ zs) = (number? ts).map (Prod.map id (· ++ zs)) := by
  have htest : Passes fun t => t.kind = .number :=
    ⟨fun t ht => by simp [ht], by decide, by decide, by decide⟩
  have hspace : ∀ t : Token, t.kind = .space → decide (t.kind = .number) = false := htest.1
  unfold number?
  rw [Texelwise.afterMark?_append (by decide) ts hz]
  cases hin : afterMark? '[' ts with
  | none => rfl
  | some left =>
    have hleft := h.of_afterMark? (by decide) hp hin
    obtain ⟨gap, -, rfl⟩ := afterMark?_eq_some_iff.mp hin
    rw [Option.map_some, Option.bind_some, Option.bind_some, next?_skipBlank_append htest left hz]
    cases hn : next? (fun t => decide (t.kind = .number)) (skipBlank left) with
    | none => rfl
    | some p =>
      obtain ⟨n, after⟩ := p
      obtain ⟨hkind, gap', hgap', rfl⟩ := (next?_skipBlank_eq_some_iff hspace).mp hn
      have hafter : Closes (d + 1) after := by
        have hnumber : Balanced [n] := balanced_of_other fun u hu => by
          rw [List.mem_singleton.mp hu]
          exact (hp n (by simp)).role_eq (by rw [of_decide_eq_true hkind]; decide)
        have hfront := (hgap'.balanced fun u hu => hp u (by simp [hu])).append hnumber
        refine Closes.of_append hfront ?_
        rw [Nat.zero_add]
        simpa using hleft
      simp only [Option.map_some, Option.bind_some, Prod.map_apply, id_eq,
        hafter.afterMark?_append (fun u hu => hp u (by simp [hu])), Option.map_map]
      rfl

/-- What stands in front of a closed part is found in the part. -/
theorem Rules.site?_append_of_closes {r : Rules} (h : Closes d ts) (hp : ∀ u ∈ ts, u.Proper)
    {zs : List Token} (hz : Halts zs) (t : Token) :
    r.site? t (ts ++ zs) = (r.site? t ts).map (Prod.map id (· ++ zs)) := by
  unfold site?
  split
  · rfl
  rw [extent?_append ts hz]
  cases extent? ts with
  | some p =>
    simp only [Option.map_some, Option.map_map]
    rfl
  | none =>
    simp only [Option.map_none]
    split
    · rw [h.number?_append hp hz]
      cases number? ts with
      | none => rfl
      | some p =>
        simp only [Option.map_some, Option.bind_some, Option.map_map]
        rfl
    · cases r.reads.lookup t.text with
      | none => rfl
      | some kind =>
        simp only [Option.bind_some, h.subscripts?_append hp hz, Option.map_map]
        rfl

end Closed

/-! ## Images of parts -/

namespace Rules

variable {r : Rules}

/-- Of a closed part that stands before what no reader goes on into, the image is taken apart. -/
theorem image_append {d : Nat} {xs zs : List Token} (h : Closes d xs)
    (hp : ∀ u ∈ xs, u.Proper) (hz : Halts zs) : r.image (xs ++ zs) = r.image xs ++ r.image zs := by
  induction xs using r.induction generalizing d with
  | nil => simp
  | keep t ts hnone ih =>
    obtain ⟨n, -, hts⟩ := closes_cons.mp h
    have hpts : ∀ u ∈ ts, u.Proper := fun u hu => hp u (List.mem_cons_of_mem t hu)
    have hsite : r.site? t (ts ++ zs) = none := by
      rw [site?_append_of_closes hts hpts hz, hnone]
      rfl
    rw [List.cons_append, image_keep hsite, image_keep hnone, ih ts (Nat.le_refl _) hts hpts,
      List.cons_append]
  | site t s tail rest hkind hs ih =>
    have hpt : ∀ u ∈ t :: tail, u.Proper := fun u hu => hp u (by
      rcases List.mem_cons.mp hu with rfl | hu
      · exact List.mem_cons_self
      · simp [hu])
    have hrest : Closes d rest := by
      refine Closes.of_append (hs.balanced hkind hpt) ?_
      rwa [Nat.zero_add, List.cons_append]
    rw [List.cons_append, List.append_assoc, image_site (site?_append hkind hs (rest ++ zs)),
      image_site (site?_append hkind hs rest),
      ih rest (by simp) hrest (fun u hu => hp u (by simp [hu])), List.append_assoc]

theorem image_isSpace_append {pre : List Token} (h : ∀ u ∈ pre, u.isSpace = true)
    (xs : List Token) : r.image (pre ++ xs) = pre ++ r.image xs := by
  induction pre with
  | nil => rfl
  | cons t pre ih =>
    have ht : t.kind = .space := of_decide_eq_true (h t List.mem_cons_self)
    rw [List.cons_append, image_keep (site?_eq_none_of_kind (by rw [ht]; decide) _),
      ih fun u hu => h u (List.mem_cons_of_mem t hu), List.cons_append]

theorem image_isSpace {pre : List Token} (h : ∀ u ∈ pre, u.isSpace = true) :
    r.image pre = pre := by
  have := image_isSpace_append (r := r) h []
  simpa using this

/-- An image does not begin with a blank if the tokens do not. -/
theorem head?_image (hr : r.Sane) {ts : List Token} (hp : ∀ u ∈ ts, u.Proper)
    (h : ∀ u ∈ ts.head?, u.isSpace = false) : ∀ u ∈ (r.image ts).head?, u.isSpace = false := by
  intro u hu
  cases ts with
  | nil => simp at hu
  | cons t ts =>
    rw [image_eq] at hu
    rcases imageWith_cons_cases hr (fun b hb => clean_image hr hb) hp with
      hkeep | ⟨-, -, -, v, vs, himage, hv, -⟩
    · rw [hkeep] at hu
      exact h u hu
    · rw [himage] at hu
      obtain rfl : v = u := by simpa using hu
      simp [isSpace, hv]

/-- An image does not end with a blank if the tokens do not. -/
theorem getLast?_image (hr : r.Sane) {ts : List Token} (hp : ∀ u ∈ ts, u.Proper)
    (h : ∀ u ∈ ts.getLast?, u.isSpace = false) :
    ∀ u ∈ (r.image ts).getLast?, u.isSpace = false := by
  have hnil : ∀ us : List Token, (∀ u ∈ us, u.Proper) → (r.image us = [] ↔ us = []) := by
    intro us hus
    rw [image_eq]
    exact imageWith_eq_nil hr (fun b hb => clean_image hr hb) hus
  have hrest : ∀ us vs : List Token, (∀ u ∈ vs, u.Proper) → vs ≠ [] →
      (us ++ r.image vs).getLast? = (r.image vs).getLast? := by
    intro us vs hvs hne
    exact List.getLast?_append_of_ne_nil us fun heq => hne ((hnil vs hvs).mp heq)
  induction ts using r.induction with
  | nil => simp
  | keep t ts hnone ih =>
    intro u hu
    have hpts : ∀ u ∈ ts, u.Proper := fun u hu => hp u (List.mem_cons_of_mem t hu)
    rw [image_keep hnone] at hu
    by_cases hts : ts = []
    · subst hts
      exact h u (by simpa using hu)
    · rw [← List.singleton_append, hrest [t] ts hpts hts] at hu
      refine ih ts (Nat.le_refl _) hpts (fun v hv => h v ?_) u hu
      rwa [← List.singleton_append, List.getLast?_append_of_ne_nil _ hts]
  | site t s tail rest hkind hs ih =>
    intro u hu
    have hprest : ∀ u ∈ rest, u.Proper := fun u hu => hp u (by simp [hu])
    rw [image_site (site?_append hkind hs rest)] at hu
    by_cases hne : rest = []
    · subst hne
      -- What stands for a site ends with a parenthesis or a name.
      obtain ⟨more, v, hemit, hv⟩ :=
        (hs.firm hr (g := r.image) (fun u hu => hp u (by simp [hu])) (keeps_image hr _)).last
      rw [image_nil, List.append_nil, hemit] at hu
      obtain rfl : v = u := by simpa using hu
      rcases hv with rfl | hv
      · rfl
      · simp [isSpace, hv]
    · rw [hrest _ rest hprest hne] at hu
      refine ih rest (by simp) hprest (fun v hv => h v ?_) u hu
      rwa [← List.cons_append, List.getLast?_append_of_ne_nil _ hne]

/-- The image of a trimmed index is the trimmed image. -/
theorem image_trimBlanks (hr : r.Sane) {ts : List Token} (h : Clean ts) :
    r.image (trimBlanks ts) = trimBlanks (r.image ts) := by
  obtain ⟨pre, post, heq, hpre, hpost, hclean⟩ := h.exists_trimBlanks
  have hends := exists_trimBy isSpace ts
  have hhead : ∀ u ∈ (trimBlanks ts).head?, u.isSpace = false := by
    obtain ⟨_, _, _, _, _, hhead, _⟩ := hends
    exact hhead
  have hlast : ∀ u ∈ (trimBlanks ts).getLast?, u.isSpace = false := by
    obtain ⟨_, _, _, _, _, _, hlast⟩ := hends
    exact hlast
  have himage : r.image ts = pre ++ (r.image (trimBlanks ts) ++ post) := by
    conv => lhs; rw [heq]
    rw [image_isSpace_append hpre, image_append hclean.balanced hclean.proper
      (halts_of_isSpace hpost), image_isSpace hpost]
  rw [himage]
  exact (trimBy_eq hpre hpost (head?_image hr hclean.proper hhead)
    (getLast?_image hr hclean.proper hlast)).symm

/-- After a name at which a site starts, a point or an opening bracket is next. -/
theorem Stands.afterMark? {t : Token} {s : Site} {tail : List Token} (h : r.Stands t s tail)
    (rest : List Token) :
    ∃ c left, (c = '.' ∨ c = '[') ∧ Texelwise.afterMark? c (tail ++ rest) = some left := by
  cases h with
  | @field gap gap' f _ hgap =>
    exact ⟨'.', gap' ++ f :: rest, .inl rfl, afterMark?_eq_some_iff.mpr ⟨gap, hgap, by simp⟩⟩
  | @output gap gap' gap'' n _ _ hgap =>
    exact ⟨'[', gap' ++ n :: (gap'' ++ mark ']' :: rest), .inr rfl,
      afterMark?_eq_some_iff.mpr ⟨gap, hgap, by simp⟩⟩
  | @read kind blocks _ _ _ hlen htail =>
    have hpos : 0 < blocks.length := by
      rw [hlen]
      exact Rank.toNat_pos kind.rank
    obtain ⟨left, hleft⟩ := htail.afterMark? (List.ne_nil_of_length_pos hpos) rest
    exact ⟨'[', left, .inr rfl, hleft⟩

theorem site?_eq_none_of_afterMark? {c : Char} (hc : ¬ (c = '.' ∨ c = '[')) {ts left : List Token}
    (h : afterMark? c ts = some left) (t : Token) : r.site? t ts = none := by
  cases hs : r.site? t ts with
  | none => rfl
  | some p =>
    obtain ⟨s, rest⟩ := p
    obtain ⟨-, tail, hstands, rfl⟩ := site?_eq_some_iff.mp hs
    obtain ⟨d, left', hd, hleft⟩ := hstands.afterMark? rest
    have hcd : d ≠ c := by
      rintro rfl
      exact hc hd
    rw [afterMark?_eq_none_of hcd hleft] at h
    cases h

/-- No site starts at a name with a parenthesis after it. -/
theorem site?_paren (t : Token) (ts : List Token) : r.site? t (mark '(' :: ts) = none :=
  site?_eq_none_of_afterMark? (by decide)
    (afterMark?_eq_some_iff.mpr ⟨[], .none, (List.nil_append _).symm⟩) t

theorem image_singleton (t : Token) : r.image [t] = [t] := by
  have hparen : r.site? t ([] ++ [mark '(']) = none := site?_paren t []
  rw [image_keep (site?_eq_none_of_append hparen), image_nil]

theorem image_mark {c : Char} (ts : List Token) : r.image (mark c :: ts) = mark c :: r.image ts :=
  image_keep (site?_eq_none_of_kind (by simp [mark]) ts)

/-- Nothing goes on from an argument of a call into the arguments after it. -/
theorem halts_argumentTail (rest : List (List Token)) (zs : List Token) :
    Halts (argumentTail rest ++ mark ')' :: zs) := by
  cases rest with
  | nil => exact halts_mark (by decide) zs
  | cons a rest =>
    rw [argumentTail_cons]
    exact halts_mark (by decide) _

theorem image_argumentTail {rest : List (List Token)} (h : ∀ a ∈ rest, Clean a)
    (zs : List Token) :
    r.image (argumentTail rest ++ mark ')' :: zs) =
      argumentTail (rest.map r.image) ++ mark ')' :: r.image zs := by
  induction rest with
  | nil => exact image_mark zs
  | cons a rest ih =>
    have ha := h a List.mem_cons_self
    have hblank : r.image (blank [' '] :: (a ++ (argumentTail rest ++ mark ')' :: zs))) =
        blank [' '] :: r.image (a ++ (argumentTail rest ++ mark ')' :: zs)) :=
      image_keep (site?_eq_none_of_kind (by simp [blank]) _)
    rw [argumentTail_cons, List.cons_append, List.cons_append, List.append_assoc, image_mark,
      hblank, image_append ha.balanced ha.proper (halts_argumentTail rest zs),
      ih fun b hb => h b (List.mem_cons_of_mem a hb), List.map_cons, argumentTail_cons]
    simp

/-- The image of a call is the call of the images. -/
theorem image_call {f : Text} {first : List Token} {rest : List (List Token)}
    (hfirst : Clean first) (hrest : ∀ a ∈ rest, Clean a) (zs : List Token) :
    r.image (call f first rest ++ zs) =
      call f (r.image first) (rest.map r.image) ++ r.image zs := by
  have heq : call f first rest ++ zs =
      word f :: mark '(' :: (first ++ (argumentTail rest ++ mark ')' :: zs)) := by
    simp [call]
  rw [heq, image_keep (site?_paren _ _), image_mark,
    image_append hfirst.balanced hfirst.proper (halts_argumentTail rest zs),
    image_argumentTail hrest]
  simp [call]

theorem image_samplerTokens {name : Text} (hname : isIdentifier name = true) :
    r.image (samplerTokens name) = samplerTokens name := by
  have hcall : r.image (samplerTokens name ++ []) = _ :=
    image_call (clean_word (isIdentifier_textureName hname))
      (fun _ => clean_of_mem_samplerArguments) []
  rw [List.append_nil, image_nil, List.append_nil, List.map_singleton, image_singleton,
    image_singleton] at hcall
  exact hcall

section Sample

variable {name : Text} (hname : isIdentifier name = true) (kind : BufferKind)
  {indices : List (List Token)} (h : ∀ i ∈ indices, Clean i)

include hname h

theorem image_selectTokens :
    r.image (selectTokens name kind indices) = selectTokens name kind (indices.map r.image) := by
  have hcall : r.image (selectTokens name kind indices ++ []) = _ :=
    image_call (clean_word (isIdentifier_bufferMemberName hname (by decide)))
      (fun _ => clean_of_mem_selectArguments hname kind h) []
  rw [List.append_nil, image_nil, List.append_nil, image_singleton, List.map_append,
    List.map_map] at hcall
  simp only [Function.comp_def, image_singleton] at hcall
  exact hcall

theorem image_textureTokens (zs : List Token) :
    r.image (textureTokens name kind indices ++ zs) =
      textureTokens name kind (indices.map r.image) ++ r.image zs := by
  have hcall : r.image (textureTokens name kind indices ++ zs) = _ :=
    image_call (clean_samplerTokens hname)
      (fun _ => clean_of_mem_textureArguments hname kind h) zs
  rw [image_samplerTokens hname, List.map_cons, image_selectTokens hname kind h,
    List.map_singleton, image_singleton] at hcall
  exact hcall

/-- The image of a sample is the sample of the images. -/
theorem image_sampleTokens (zs : List Token) :
    r.image (sampleTokens name kind indices ++ zs) =
      sampleTokens name kind (indices.map r.image) ++ r.image zs := by
  have htexture := fun zs => image_textureTokens (r := r) hname kind h zs
  unfold sampleTokens
  cases kind.element with
  | float =>
    have himage := htexture []
    rw [List.append_nil, image_nil, List.append_nil] at himage
    show r.image (call "nc_decode".toList (textureTokens name kind indices) [] ++ zs) = _
    rw [image_call (clean_textureTokens hname kind h) (fun a ha => absurd ha List.not_mem_nil),
      himage]
    rfl
  | color => exact htexture zs

end Sample

end Rules

end Texelwise

import Texelwise.Proofs.Expansion.Image

/-!
# What stands behind an operator

A site is replaced by the same tokens wherever it stands. Here this is shown for a site behind a
number and a mark, such as the operand of a sum: the number, the mark and the replacement stand
together in the image of the whole list, also where all of them are part of an index.

* `Balanced.prefix_of_closes`: a balanced part that starts inside brackets ends inside them.
* `Rules.Stands.split_operand`: a site in front of a number takes nothing of it, or has the number,
  the mark and the site behind it in one of its indices.
* `Rules.infix_image`: the replacement behind the number and the mark.
-/

namespace Texelwise

open Token

/-! ## Parts of lists -/

/-- An item that is not in the first part of a list stands in the second. -/
theorem exists_of_append_cons {α : Type} {a : α} {xs ys pre post : List α}
    (h : xs ++ a :: ys = pre ++ post) (ha : a ∉ pre) :
    ∃ more, xs = pre ++ more ∧ post = more ++ a :: ys := by
  rcases List.append_eq_append_iff.mp h with ⟨more, hpre, hpost⟩ | ⟨more, hxs, hpost⟩
  · cases more with
    | nil => exact ⟨[], by simpa using hpre.symm, by simpa using hpost.symm⟩
    | cons b more =>
      obtain ⟨rfl, -⟩ := List.cons_eq_cons.mp hpost
      exact absurd (by rw [hpre]; simp) ha
  · exact ⟨more, hxs, hpost⟩

/-! ## Sites in front of an operand -/

/-- A balanced part that starts inside a bracket ends before the bracket is closed. -/
theorem Balanced.prefix_of_closes {us inside rest more : List Token} {d : Nat} (hus : Balanced us)
    (hinside : Closes d inside) (h : us ++ rest = inside ++ mark ']' :: more) :
    ∃ rest', inside = us ++ rest' := by
  rcases List.append_eq_append_iff.mp h with ⟨part, hpart, -⟩ | ⟨part, hpart, hmore⟩
  · exact ⟨part, hpart⟩
  · cases part with
    | nil => exact ⟨[], by rw [hpart]; simp⟩
    | cons c part =>
      -- The part would go over the closing bracket at depth zero.
      obtain ⟨rfl, -⟩ := List.cons_eq_cons.mp hmore
      have hwhole : blockRun 0 (inside ++ mark ']' :: part) = some (us, []) := by
        rw [← hpart]
        exact hus
      cases d with
      | zero =>
        have hstop : blockRun 0 (mark ']' :: part) = some ([], mark ']' :: part) := by
          rw [blockRun_cons_none (by rw [role_close]; rfl), if_pos rfl]
        have hrun := hinside.blockRun_append 0 (mark ']' :: part)
        rw [Nat.add_zero, hstop, hwhole] at hrun
        cases hrun
      | succ d =>
        obtain ⟨run, left, -, hne, hxs⟩ := Closes.blockRun_inside (e := 0) hinside
        rw [hxs, Option.some.injEq, Prod.mk.injEq] at hwhole
        exact absurd (List.append_eq_nil_iff.mp hwhole.2).1 hne

theorem ne_mark_of_number {n : Token} (hn : n.kind = .number) (c : Char) : n ≠ mark c := by
  rintro rfl
  cases hn

theorem Gap.not_mem_of_number {gap : List Token} (h : Gap gap) {n : Token}
    (hn : n.kind = .number) : n ∉ gap := fun hmem => by
  rw [h.kind_eq hmem] at hn
  cases hn

section Operand

variable {n z : Token} (hn : n.kind = .number) (hclose : z ≠ mark ']') {us : List Token}
  (hus : Balanced us)

include hn hclose hus

/-- Brackets with the number in them have the mark and the balanced part behind it in them, too. -/
theorem Subscripts.exists_operand {blocks : List (List Token)} {tail : List Token}
    (h : Subscripts blocks tail) {xs ys rest more : List Token} (htail : tail = xs ++ n :: ys)
    (hys : z :: (us ++ rest) = ys ++ more) :
    ∃ block ∈ blocks, ∃ pre post, block = pre ++ n :: z :: (us ++ post) := by
  have hmark := ne_mark_of_number hn
  induction h generalizing xs ys with
  | nil => exact absurd htail (by simp)
  | @cons gap block tail blocks hgap hblock hne hrest ih =>
    have hfront : n ∉ gap ++ [mark '['] := by
      intro hmem
      rcases List.mem_append.mp hmem with hmem | hmem
      · exact hgap.not_mem_of_number hn hmem
      · exact hmark '[' (List.mem_singleton.mp hmem)
    have hsplit : xs ++ n :: ys = (gap ++ [mark '[']) ++ (block ++ mark ']' :: tail) := by
      rw [← htail]
      simp
    obtain ⟨inside, -, hinside⟩ := exists_of_append_cons hsplit hfront
    rcases List.append_eq_append_iff.mp hinside with ⟨part, hpart, hlater⟩ | ⟨part, hpart, hlater⟩
    · -- behind the first brackets
      cases part with
      | nil => exact absurd (List.cons_eq_cons.mp hlater).1.symm (hmark ']')
      | cons c part =>
        obtain ⟨b, hb, hfound⟩ := ih (List.cons_eq_cons.mp hlater).2 hys
        exact ⟨b, List.mem_cons_of_mem _ hb, hfound⟩
    · -- in the first brackets
      cases part with
      | nil => exact absurd (List.cons_eq_cons.mp hlater).1 (hmark ']')
      | cons m part =>
        obtain ⟨rfl, rfl⟩ := List.cons_eq_cons.mp hlater
        cases part with
        | nil => exact absurd (List.cons_eq_cons.mp hys).1 hclose
        | cons y part =>
          obtain ⟨rfl, hafter⟩ := List.cons_eq_cons.mp hys
          have hclosed : Closes 0 ((inside ++ [n, z]) ++ part) := by
            have : (inside ++ [n, z]) ++ part = block := by rw [hpart]; simp
            rw [this]
            exact hblock
          obtain ⟨d, hd⟩ := hclosed.exists_of_append
          have hclosing : us ++ rest = part ++ mark ']' :: (tail ++ more) := by simpa using hafter
          obtain ⟨post, rfl⟩ := hus.prefix_of_closes hd hclosing
          exact ⟨block, List.mem_cons_self, inside, post, hpart⟩

/-- A site takes no part of a number, a mark and a balanced part behind it, or it has all of them in
one of its indices. -/
theorem Rules.Stands.split_operand (hz : z.kind = .punct) {r : Rules} {t : Token} {s : Site}
    {tail : List Token} (h : r.Stands t s tail) {xs rest more : List Token}
    (hts : xs ++ n :: z :: (us ++ more) = tail ++ rest) :
    (∃ ys, xs = tail ++ ys ∧ rest = ys ++ n :: z :: (us ++ more)) ∨
      ∃ kind blocks, s = .read kind blocks ∧ ∃ block ∈ blocks, ∃ pre post,
        block = pre ++ n :: z :: (us ++ post) := by
  have hmark := ne_mark_of_number hn
  have hgap : ∀ {gap : List Token}, Gap gap → n ∉ gap := fun hgap => hgap.not_mem_of_number hn
  rcases List.append_eq_append_iff.mp hts with ⟨part, hpart, hlater⟩ | ⟨part, hpart, hlater⟩
  · cases part with
    | nil => exact .inl ⟨[], by simpa using hpart.symm, by simpa using hlater.symm⟩
    | cons m part =>
      obtain ⟨rfl, hbehind⟩ := List.cons_eq_cons.mp hlater
      right
      cases h with
      | @field gap gap' f w hg hg' hf _ _ =>
        have hmem : n ∈ gap ++ mark '.' :: (gap' ++ [f]) := by rw [hpart]; simp
        have hname : n ≠ f := by
          rintro rfl
          rw [hf] at hn
          cases hn
        simp [hgap hg, hgap hg', hmark, hname] at hmem
      | @output gap gap' gap'' m w _ hg hg' hg'' _ _ =>
        have hfront : n ∉ gap ++ mark '[' :: gap' := by simp [hgap hg, hgap hg', hmark]
        have hsplit : xs ++ n :: part =
            (gap ++ mark '[' :: gap') ++ m :: (gap'' ++ [mark ']']) := by
          rw [← hpart]
          simp
        obtain ⟨between, -, hafter⟩ := exists_of_append_cons hsplit hfront
        cases between with
        | cons b between =>
          have hmem : n ∈ gap'' ++ [mark ']'] := by rw [(List.cons_eq_cons.mp hafter).2]; simp
          simp [hgap hg'', hmark] at hmem
        | nil =>
          -- Behind the number stands a blank or a bracket, and not the mark.
          rw [← (List.cons_eq_cons.mp hafter).2] at hbehind
          cases hg'' with
          | none => exact absurd (List.cons_eq_cons.mp hbehind).1 hclose
          | blank hb =>
            rw [← (List.cons_eq_cons.mp hbehind).1, hz] at hb
            cases hb
      | @read kind blocks _ _ _ _ htail =>
        exact ⟨kind, blocks, rfl, htail.exists_operand hn hclose hus hpart hbehind⟩
  · exact .inl ⟨part, hpart, hlater⟩

end Operand

/-! ## The image -/

/-- Trimming takes nothing of a number, a mark and firm tokens behind it. -/
theorem Firm.infix_trimBlanks {n z : Token} (hn : n.kind = .number) {us ts : List Token}
    (hus : Firm us) (h : n :: z :: us <:+: ts) : n :: z :: us <:+: trimBlanks ts := by
  obtain ⟨more, last, rfl, hlast⟩ := hus.last
  refine infix_trimBy h (fun u hu => ?_) fun u hu => ?_
  · obtain rfl : n = u := by simpa using hu
    exact decide_eq_false (by rw [hn]; decide)
  · obtain rfl : last = u := by simpa [List.getLast?_cons] using hu
    refine decide_eq_false ?_
    rcases hlast with rfl | hkind
    · decide
    · rw [hkind]
      decide

namespace Rules

variable {r : Rules} {n z w : Token} {site : Site} {tail : List Token}

/-- The image of a site on its own is what stands for it. -/
theorem Stands.image_eq (hs : r.Stands w site tail) (hw : w.kind = .ident) :
    r.image (w :: tail) = emit w r.image site := by
  have himage := image_site (site?_append hw hs [])
  rwa [List.append_nil, image_nil, List.append_nil] at himage

theorem Stands.firm_image (hr : r.Sane) (hs : r.Stands w site tail) (hw : w.kind = .ident)
    (hp : ∀ u ∈ tail, u.Proper) : Firm (r.image (w :: tail)) := by
  rw [hs.image_eq hw]
  exact hs.firm hr hp (keeps_image hr _)

/-- Behind a number and a mark a site is replaced by the same tokens wherever it stands. -/
theorem infix_image (hr : r.Sane) (hn : n.kind = .number) (hz : z.kind = .punct)
    (hclose : z ≠ mark ']') (hw : w.kind = .ident) (hs : r.Stands w site tail)
    {xs rest : List Token} (hp : ∀ u ∈ xs ++ n :: z :: (w :: tail ++ rest), u.Proper) :
    n :: z :: r.image (w :: tail) <:+: r.image (xs ++ n :: z :: (w :: tail ++ rest)) := by
  have hpw : ∀ u ∈ w :: tail, u.Proper := fun u hu => hp u (by simp at hu ⊢; tauto)
  have hbalanced : Balanced (w :: tail) := hs.balanced hw hpw
  have hsite := site?_append hw hs
  have halone := hs.image_eq hw
  have hfirm := hs.firm_image hr hw fun u hu => hpw u (List.mem_cons_of_mem w hu)
  have hnumber : ∀ ts, r.site? n ts = none := site?_eq_none_of_kind (by rw [hn]; decide)
  have hoperator : ∀ ts, r.site? z ts = none := site?_eq_none_of_kind (by rw [hz]; decide)
  generalize hts : xs ++ n :: z :: (w :: tail ++ rest) = ts at hp
  induction ts using r.induction generalizing xs rest with
  | nil => exact absurd hts (by simp)
  | keep t ts hnone ih =>
    cases xs with
    | nil =>
      rw [← hts, List.nil_append, image_keep (hnumber _), image_keep (hoperator _),
        List.cons_append, image_site (hsite rest), halone]
      exact (List.prefix_append (n :: z :: emit w r.image site) _).isInfix
    | cons x xs =>
      obtain ⟨rfl, hbehind⟩ := List.cons_eq_cons.mp hts
      rw [image_keep hnone]
      exact (ih ts (Nat.le_refl _) hbehind fun u hu => hp u (List.mem_cons_of_mem x hu)).trans
        (List.suffix_cons x _).isInfix
  | site t s tail' rest' hkind hs' ih =>
    cases xs with
    | nil =>
      rw [(List.cons_eq_cons.mp hts).1.symm, hn] at hkind
      cases hkind
    | cons x xs =>
      obtain ⟨rfl, hbehind⟩ := List.cons_eq_cons.mp hts
      rw [image_site (site?_append hkind hs' rest')]
      rcases hs'.split_operand hn hclose hbalanced hz hbehind with
        ⟨ys, -, hrest⟩ | ⟨kind, blocks, rfl, block, hblock, pre, post, hoperand⟩
      · refine (ih rest' (by simp) hrest.symm fun u hu => hp u ?_).trans
          (List.suffix_append _ _).isInfix
        simp [hu]
      · have hlength := hs'.length_lt hblock
        have hclean := hs'.clean (fun u hu => hp u (by simp [hu])) hblock
        -- The image of the index stands trimmed in what is put for the read.
        have hin := ih block (by rw [List.length_append]; omega) hoperand.symm hclean.proper
        refine List.IsInfix.trans ?_ (List.prefix_append _ _).isInfix
        refine List.IsInfix.trans ?_ (infix_sampleTokens (List.mem_map_of_mem hblock))
        exact hfirm.infix_trimBlanks hn hin

end Rules

end Texelwise

import Texelwise.Proofs.Expansion.Patterns
import Texelwise.Proofs.Kernel.Sites

/-!
# Replacing reads reaches a fixpoint

In a round every read that is found becomes a sample, and every other token stays, except that a
name right before a read may grow into the first name of the sample. So what is read after a round
was read before it, and each sample that is put in takes away a place where the name of the buffer
stands before a bracket.

* `Swap`: the tokens of a read and the tokens that stand for them; `Rewritten`: a whole round.
* `Rewritten.subscripts?_eq_some`, `Rewritten.exists_tail`: a round makes nothing readable.
* `Rewritten.length_bracketTails_le`: every sample takes a place away.
* `rewritten_round`: a round over a text rewrites its tokens.
* `SampleAllRounds.fixpoint`: the rounds for one name after another leave no read.
-/

namespace Texelwise

open Token

/-! ## Tokens before and after a round -/

/-- The tokens `new` may stand for a read of `name` that begins with `t` and goes on with `tail`,
and for `lead` right before it. -/
structure Swap (name : Text) (lead : List Token) (t : Token) (tail new : List Token) : Prop where
  text_eq : t.text = name
  bracket : ∀ zs, (afterMark? '[' (tail ++ zs)).isSome
  balanced_old : Balanced (lead ++ t :: tail)
  balanced_new : Balanced new
  head : ∃ u us, new = u :: us ∧ u.role = .other ∧ u.kind ≠ .space
  tails : ∀ q, IsName q → ∃ base, Carries q base tail ∧ Carries q base new

namespace Swap

variable {name : Text} {lead tail new : List Token} {t : Token} (h : Swap name lead t tail new)

include h

/-- What stands for a read starts with a word. -/
theorem next?_mark_eq_none {c : Char} (hc : (mark c).role ≠ .other) (us : List Token) :
    next? (· = mark c) (new ++ us) = none := by
  obtain ⟨u, more, rfl, hrole, -⟩ := h.head
  have hne : u ≠ mark c := fun heq => hc (heq ▸ hrole)
  simp [next?, hne]

theorem skipBlank_eq (us : List Token) : skipBlank (new ++ us) = new ++ us := by
  obtain ⟨u, more, rfl, -, hkind⟩ := h.head
  rw [List.cons_append, skipBlank, if_neg hkind]

end Swap

/-- The tokens before and after a round that puts in so many samples for reads of `name`. -/
inductive Rewritten (name : Text) : Nat → List Token → List Token → Prop
  | nil : Rewritten name 0 [] []
  | keep {k : Nat} {ts us : List Token} (t : Token) (h : Rewritten name k ts us) :
      Rewritten name k (t :: ts) (t :: us)
  | swap {k : Nat} {ts us lead tail new : List Token} {t : Token}
      (hswap : Swap name lead t tail new) (h : Rewritten name k ts us) :
      Rewritten name (k + 1) (lead ++ t :: (tail ++ ts)) (new ++ us)

namespace Rewritten

variable {name : Text} {k : Nat} {ts us : List Token}

/-! ## A round makes nothing readable -/

/-- A block that is found after the round was found before it. -/
theorem blockRun_eq_some (h : Rewritten name k ts us) {d : Nat} {run rest : List Token}
    (hrun : blockRun d us = some (run, rest)) :
    ∃ run' rest' k', blockRun d ts = some (run', rest') ∧ Rewritten name k' rest' rest ∧
      (run' = [] → run = []) := by
  induction h generalizing d run rest with
  | nil => exact ⟨run, rest, 0, hrun, by
      obtain ⟨rfl, rfl⟩ := List.append_eq_nil_iff.mp (blockRun_append hrun)
      exact .nil, id⟩
  | @keep k ts us t h ih =>
    cases hn : t.role.depthAfter d with
    | none =>
      rw [blockRun_cons_none hn] at hrun
      split at hrun
      · cases hrun
        exact ⟨[], t :: ts, k, by rw [blockRun_cons_none hn, if_pos ‹_›], .keep t h, id⟩
      · cases hrun
    | some n =>
      rw [blockRun_cons hn] at hrun
      obtain ⟨⟨r, l⟩, hr, heq⟩ := Option.map_eq_some_iff.mp hrun
      cases heq
      obtain ⟨r', l', k', hr', hl, -⟩ := ih hr
      exact ⟨t :: r', l', k', by rw [blockRun_cons hn, hr']; rfl, hl, fun hnil => nomatch hnil⟩
  | @swap k ts us lead tail new t hswap h ih =>
    rw [hswap.balanced_new.blockRun_append] at hrun
    obtain ⟨⟨r, l⟩, hr, heq⟩ := Option.map_eq_some_iff.mp hrun
    cases heq
    obtain ⟨r', l', k', hr', hl, -⟩ := ih hr
    refine ⟨lead ++ t :: tail ++ r', l', k', ?_, hl, fun hnil => ?_⟩
    · have hassoc : lead ++ t :: (tail ++ ts) = lead ++ t :: tail ++ ts := by simp
      rw [hassoc, hswap.balanced_old.blockRun_append, hr']
      rfl
    · simp at hnil

/-- A bracket that is next after the round was next before it. -/
theorem next?_mark_eq_some (h : Rewritten name k ts us) {c : Char} (hc : (mark c).role ≠ .other)
    {u : Token} {rest : List Token} (hnext : next? (· = mark c) us = some (u, rest)) :
    ∃ rest' k', next? (· = mark c) ts = some (u, rest') ∧ Rewritten name k' rest' rest := by
  cases h with
  | nil => cases hnext
  | @keep k ts us t h =>
    obtain ⟨hu, hus⟩ := next?_eq_some_iff.mp hnext
    obtain ⟨rfl, rfl⟩ := List.cons.inj hus
    exact ⟨ts, k, next?_eq_some_iff.mpr ⟨hu, rfl⟩, h⟩
  | swap hswap h => cases (hswap.next?_mark_eq_none hc _).symm.trans hnext

theorem afterMark?_eq_some (h : Rewritten name k ts us) {c : Char} (hc : (mark c).role ≠ .other)
    {rest : List Token} (hafter : afterMark? c us = some rest) :
    ∃ rest' k', afterMark? c ts = some rest' ∧ Rewritten name k' rest' rest := by
  unfold afterMark? at hafter ⊢
  obtain ⟨⟨u, l⟩, hnext, rfl⟩ := Option.map_eq_some_iff.mp hafter
  suffices hnext' : ∃ rest' k', next? (· = mark c) (skipBlank ts) = some (u, rest') ∧
      Rewritten name k' rest' l by
    obtain ⟨rest', k', hrest, hl⟩ := hnext'
    exact ⟨rest', k', by rw [hrest]; rfl, hl⟩
  cases h with
  | nil => cases hnext
  | @keep k ts us t h =>
    rw [skipBlank] at hnext ⊢
    split at hnext
    · rw [if_pos ‹_›]
      exact h.next?_mark_eq_some hc hnext
    · rw [if_neg ‹_›]
      exact (Rewritten.keep t h).next?_mark_eq_some hc hnext
  | swap hswap h =>
    rw [hswap.skipBlank_eq] at hnext
    cases (hswap.next?_mark_eq_none hc _).symm.trans hnext

theorem enclosed?_eq_some (h : Rewritten name k ts us) {block rest : List Token}
    (hs : enclosed? '[' ']' us = some (block, rest)) :
    ∃ block' rest' k', enclosed? '[' ']' ts = some (block', rest') ∧
      Rewritten name k' rest' rest := by
  unfold enclosed? at hs ⊢
  obtain ⟨inside, hin, hs⟩ := Option.bind_eq_some_iff.mp hs
  obtain ⟨⟨run, left⟩, hrun, hs⟩ := Option.bind_eq_some_iff.mp hs
  obtain ⟨inside', k₁, hin', h₁⟩ := h.afterMark?_eq_some (by decide) hin
  obtain ⟨run', left', k₂, hrun', h₂, hempty⟩ := h₁.blockRun_eq_some hrun
  simp only [Option.ite_none_left_eq_some, List.isEmpty_iff] at hs
  obtain ⟨hne, hs⟩ := hs
  obtain ⟨⟨u, l⟩, hnext, heq⟩ := Option.map_eq_some_iff.mp hs
  cases heq
  obtain ⟨l', k₃, hnext', h₃⟩ := h₂.next?_mark_eq_some (by decide) hnext
  refine ⟨run', l', k₃, ?_, h₃⟩
  have hne' : run' ≠ [] := fun hnil => hne (hempty hnil)
  rw [hin', Option.bind_some, hrun', Option.bind_some]
  simp [hne', hnext']

/-- Subscripts that are read after the round were read before it. -/
theorem subscripts?_eq_some (h : Rewritten name k ts us) {n : Nat} {blocks : List (List Token)}
    {rest : List Token} (hs : subscripts? n us = some (blocks, rest)) :
    ∃ blocks' rest' k', subscripts? n ts = some (blocks', rest') ∧
      Rewritten name k' rest' rest := by
  induction n generalizing k ts us blocks with
  | zero =>
    cases hs
    exact ⟨[], ts, k, rfl, h⟩
  | succ n ih =>
    obtain ⟨⟨block, left⟩, hblock, hs⟩ := Option.bind_eq_some_iff.mp hs
    obtain ⟨⟨more, l⟩, hmore, heq⟩ := Option.map_eq_some_iff.mp hs
    cases heq
    obtain ⟨block', left', k₁, hblock', h₁⟩ := h.enclosed?_eq_some hblock
    obtain ⟨more', l', k₂, hmore', h₂⟩ := ih h₁ hmore
    refine ⟨block' :: more', l', k₂, ?_, h₂⟩
    simp [subscripts?, hblock', hmore']

/-! ## Places before brackets -/

/-- Every sample takes a place of the name away. -/
theorem length_bracketTails_le (hname : IsName name) (h : Rewritten name k ts us) :
    (bracketTails name us).length + k ≤ (bracketTails name ts).length := by
  induction h with
  | nil => exact Nat.le_refl _
  | @keep k ts us t h ih =>
    by_cases hsite : t.text = name ∧ (afterMark? '[' us).isSome
    · obtain ⟨ht, hus⟩ := hsite
      obtain ⟨rest, hrest⟩ := Option.isSome_iff_exists.mp hus
      obtain ⟨rest', -, hts, -⟩ := h.afterMark?_eq_some (by decide) hrest
      rw [bracketTails_cons ht hus, bracketTails_cons ht (by rw [hts]; rfl), List.length_cons,
        List.length_cons]
      omega
    · have hadds := (bracketTails_sublist (q := name) [t] ts).length_le
      rw [List.singleton_append] at hadds
      rw [bracketTails, if_neg hsite]
      omega
  | @swap k ts us lead tail new t hswap h ih =>
    obtain ⟨base, hold, hnew⟩ := hswap.tails name hname
    obtain ⟨l, hl, hbase⟩ := hold ts
    obtain ⟨l', hl', hbase'⟩ := hnew us
    have hadds := (bracketTails_sublist (q := name) lead (t :: (tail ++ ts))).length_le
    rw [bracketTails_cons hswap.text_eq (hswap.bracket ts), List.length_cons, hl,
      List.length_append, ← hbase.length_eq] at hadds
    rw [hl', List.length_append, ← hbase'.length_eq]
    omega

/-- Where a name is read after the round, it was read before it. -/
theorem exists_tail {q : Text} (hq : IsName q) (h : Rewritten name k ts us) {n : Nat}
    {xs : List Token} (hxs : xs ∈ bracketTails q us) (hs : (subscripts? n xs).isSome) :
    ∃ ys ∈ bracketTails q ts, (subscripts? n ys).isSome := by
  induction h with
  | nil => cases hxs
  | @keep k ts us t h ih =>
    have hrest : xs ∈ bracketTails q us →
        ∃ ys ∈ bracketTails q (t :: ts), (subscripts? n ys).isSome := by
      intro hmem
      obtain ⟨ys, hys, hread⟩ := ih hmem
      exact ⟨ys, (bracketTails_sublist [t] ts).subset hys, hread⟩
    by_cases hsite : t.text = q ∧ (afterMark? '[' us).isSome
    · obtain ⟨ht, hus⟩ := hsite
      rw [bracketTails_cons ht hus] at hxs
      rcases List.mem_cons.mp hxs with rfl | hmem
      · obtain ⟨rest, hafter⟩ := Option.isSome_iff_exists.mp hus
        obtain ⟨rest', -, hafter', -⟩ := h.afterMark?_eq_some (by decide) hafter
        obtain ⟨⟨blocks, left⟩, hread⟩ := Option.isSome_iff_exists.mp hs
        obtain ⟨blocks', left', -, hread', -⟩ := h.subscripts?_eq_some hread
        refine ⟨ts, ?_, by rw [hread']; rfl⟩
        rw [bracketTails_cons ht (by rw [hafter']; rfl)]
        exact List.mem_cons_self
      · exact hrest hmem
    · rw [bracketTails, if_neg hsite] at hxs
      exact hrest hxs
  | @swap k ts us lead tail new t hswap h ih =>
    have hadds : (bracketTails q (tail ++ ts)).Sublist
        (bracketTails q (lead ++ t :: (tail ++ ts))) := by
      have hsub := bracketTails_sublist (q := q) (lead ++ [t]) (tail ++ ts)
      simpa using hsub
    obtain ⟨base, hold, hnew⟩ := hswap.tails q hq
    obtain ⟨l, hl, hbase⟩ := hold ts
    obtain ⟨l', hl', hbase'⟩ := hnew us
    rw [hl'] at hxs
    rw [hl] at hadds
    rcases List.mem_append.mp hxs with hmem | hmem
    · -- in an index, which has its subscripts before and after the round
      obtain ⟨b, hb, hfollowed⟩ := exists_of_forall₂ hbase' hmem
      obtain ⟨ys, hys, hfollowed'⟩ := exists_of_forall₂ hbase.flip hb
      refine ⟨ys, hadds.subset (List.mem_append_left _ hys), ?_⟩
      rw [hfollowed'.isSome_subscripts?, ← hfollowed.isSome_subscripts?]
      exact hs
    · obtain ⟨ys, hys, hread⟩ := ih hmem
      exact ⟨ys, hadds.subset (List.mem_append_right _ hys), hread⟩

end Rewritten

/-! ## Samples in place of reads -/

theorem Subscripts.isSome_afterMark? {blocks : List (List Token)} {tail : List Token}
    (h : Subscripts blocks tail) {rank : Rank} (hlength : blocks.length = rank.toNat)
    (zs : List Token) : (Texelwise.afterMark? '[' (tail ++ zs)).isSome := by
  have hne : blocks ≠ [] := by
    rintro rfl
    exact absurd hlength (Nat.ne_of_lt rank.toNat_pos)
  obtain ⟨left, hleft⟩ := h.afterMark? hne zs
  rw [hleft]
  rfl

/-- An occurrence of a read, with the tokens of its indices. -/
structure IsRead (name : Text) (rank : Rank) (o : Occurrence) (t : Token) (tail : List Token)
    (blocks : List (List Token)) : Prop where
  taken : o.taken = t :: tail
  text_eq : t.text = name
  subscripts : Subscripts blocks tail
  length_eq : blocks.length = rank.toNat
  captures : o.captures = blocks.map textOf

theorem exists_isRead {name : Text} {rank : Rank} {ts : List Token} (hp : ∀ u ∈ ts, u.Proper)
    {m : Match} (h : (Pattern.bufferRead name rank).match? ts = some m) :
    ∃ t tail blocks, IsRead name rank ⟨m.taken, m.captures⟩ t tail blocks := by
  have happ := Pattern.match?_append h
  have hread : (Pattern.bufferRead name rank).read? ts = some (m.captures, m.rest) := by
    rw [Pattern.read?, h, Option.map_some]
  cases ts with
  | nil => cases (Pattern.match?_nil (p := Pattern.bufferRead name rank) rfl).symm.trans h
  | cons t ts =>
    rw [Pattern.read?_bufferRead (fun u hu => hp u (List.mem_cons_of_mem t hu))] at hread
    obtain ⟨htext, hread⟩ := Option.ite_none_right_eq_some.mp hread
    obtain ⟨⟨blocks, rest⟩, hs, heq⟩ := Option.map_eq_some_iff.mp hread
    obtain ⟨tail, htail, hlength, rfl⟩ := subscripts?_eq_some_iff.mp hs
    simp only [Prod.mk.injEq] at heq
    obtain ⟨hcaptures, hrest⟩ := heq
    rw [← hrest, ← List.cons_append] at happ
    exact ⟨t, tail, blocks, List.append_cancel_right happ, htext, htail, hlength, hcaptures.symm⟩

section

variable {ts : List Token} (h : ∀ u ∈ ts, u.Proper ∧ (u.kind = .ident ∨ u.kind = .number))

include h

theorem bare_textOf : Bare (textOf ts) := by
  induction ts with
  | nil => exact bare_of_isBare rfl
  | cons u ts ih =>
    obtain ⟨hu, hts⟩ := List.forall_mem_cons.mp h
    exact (hu.1.bare hu.2).append (ih hts)

theorem balanced_of_kind : Balanced ts := by
  refine balanced_of_other fun u hu => ?_
  obtain ⟨hproper, hkind⟩ := h u hu
  refine hproper.role_eq fun hpunct => ?_
  rcases hkind with hkind | hkind <;> cases hpunct.symm.trans hkind

end

section

variable {name : Text} (hname : IsName name) (kind : BufferKind) {o : Occurrence} {t : Token}
  {tail : List Token} {blocks : List (List Token)}

theorem IsRead.clean (h : IsRead name kind.rank o t tail blocks) (hs : Separated o.taken) :
    ∀ b ∈ blocks, Clean b ∧ Separated b := by
  intro b hb
  obtain ⟨pre, post, heq⟩ := h.subscripts.exists_of_mem hb
  rw [h.taken, heq, ← List.cons_append] at hs
  have hb' := (separatedBy_append.mp (separatedBy_append.mp hs).2.1).1
  exact ⟨⟨(h.subscripts.of_mem hb).1, fun u hu => hb'.proper hu⟩, hb'⟩

include hname

/-- What follows a sample is split into tokens of its own. -/
theorem IsRead.tokenize_append (h : IsRead name kind.rank o t tail blocks)
    (hs : Separated o.taken) (x y : Text) :
    tokenize (x ++ (sampleText name kind o.captures ++ y)) =
      tokenize (x ++ sampleText name kind o.captures) ++ tokenize y := by
  obtain ⟨f, a, htext, -⟩ := exists_sampleText_eq hname kind (h.clean kind hs)
  have happ := tokenize_append_of_mark (c := ')') (by decide) (x ++ f ++ '(' :: a) y
  rw [h.captures, htext]
  simpa using happ

/-- A sample stands for a read and for a name right before it. -/
theorem IsRead.swap (h : IsRead name kind.rank o t tail blocks) (hs : Separated o.taken)
    {lead : List Token}
    (hlead : ∀ u ∈ lead, u.Proper ∧ (u.kind = .ident ∨ u.kind = .number)) :
    Swap name lead t tail (tokenize (textOf lead ++ sampleText name kind o.captures)) := by
  obtain ⟨f, x, htext, hf, hbare, hx⟩ := exists_sampleText_eq hname kind (h.clean kind hs)
  have hp : ∀ u ∈ t :: tail, u.Proper := by
    rw [← h.taken]
    exact fun u hu => hs.proper hu
  have ht : t.Proper ∧ (t.kind = .ident ∨ t.kind = .number) :=
    ⟨hp t List.mem_cons_self, hname.kind (hp t List.mem_cons_self) h.text_eq⟩
  have htail : ∀ u ∈ tail, u.Proper := fun u hu => hp u (List.mem_cons_of_mem t hu)
  have hold : Balanced (lead ++ ([t] ++ tail)) := (balanced_of_kind hlead).append
    ((balanced_of_kind (by simpa using ht)).append (h.subscripts.balanced htail))
  have hfront : Bare (textOf lead ++ f) := (bare_textOf hlead).append hbare
  have hsample : textOf lead ++ sampleText name kind o.captures =
      (textOf lead ++ f) ++ '(' :: (x ++ [')']) := by
    rw [h.captures, htext, List.append_assoc]
  have hne : textOf lead ++ f ≠ [] := by
    rintro hnil
    rw [(List.append_eq_nil_iff.mp hnil).2] at hf
    cases hf
  rw [hsample]
  exact {
    text_eq := h.text_eq
    bracket := h.subscripts.isSome_afterMark? h.length_eq
    balanced_old := hold
    balanced_new := (hx name hname).balanced_call hfront
    head := by
      obtain ⟨u, us, hu, hother, hspace⟩ := hfront.exists_tokenize_eq hne
      rw [tokenize_call, hu]
      exact ⟨u, _, rfl, hother, hspace⟩
    tails := fun q hq =>
      ⟨indexTails q blocks, h.subscripts.carries hq htail, (hx q hq).carries hq hfront⟩ }

end

section

variable {name : Text} (hname : IsName name) (kind : BufferKind)

include hname

/-- A read that is found is rewritten, together with a name right before it. -/
theorem rewritten_found (lead : List Token) {o : Occurrence} {pieces : List Piece}
    (hs : Separated (lead ++ (o.taken ++ Piece.tokensOf pieces)))
    (hread : ∃ t tail blocks, IsRead name kind.rank o t tail blocks)
    (hlead : ∀ u ∈ lead, u.kind = .ident ∨ u.kind = .number) {k : Nat} {x : Text}
    (h : Rewritten name k (Piece.tokensOf pieces) (tokenize x)) :
    Rewritten name (k + 1) (lead ++ (o.taken ++ Piece.tokensOf pieces))
      (tokenize (textOf lead ++ (sampleText name kind o.captures ++ x))) := by
  obtain ⟨t, tail, blocks, hread⟩ := hread
  obtain ⟨hlead', hrest, -⟩ := separatedBy_append.mp hs
  have htaken := (separatedBy_append.mp hrest).1
  have hswap := hread.swap hname kind htaken fun u hu => ⟨hlead'.proper hu, hlead u hu⟩
  rw [hread.tokenize_append hname kind htaken, hread.taken]
  exact .swap hswap h

/-- Putting in samples rewrites the tokens of the pieces. A kept token may grow into the sample
after it. -/
theorem rewritten_emit {pieces : List Piece} (hs : Separated (Piece.tokensOf pieces))
    (hreads : ∀ o, .found o ∈ pieces → ∃ t tail blocks, IsRead name kind.rank o t tail blocks) :
    Rewritten name (pieces.filterMap Piece.occurrence?).length (Piece.tokensOf pieces)
      (tokenize (pieces.flatMap (Piece.emit fun o => sampleText name kind o.captures))) := by
  revert hreads
  refine Piece.growth_induction ?_ ?_ ?_ pieces hs fun o _ =>
    startsName_sampleText name kind o.captures
  · intro _
    simpa [Piece.tokensOf] using Rewritten.nil
  · intro t pieces hs hends ih hreads
    have hkeep := Rewritten.keep t (ih fun o ho => hreads o (List.mem_cons_of_mem _ ho))
    rwa [← tokenize_token_append hs.1 hends] at hkeep
  · intro lead o pieces hkind hs ih hreads
    have hrest := ih fun o' ho => hreads o' (by simp [ho])
    have hlead : ∀ u ∈ lead.toList, u.kind = .ident ∨ u.kind = .number := by simpa using hkind
    have hfound := rewritten_found hname kind lead.toList hs (hreads o (by simp)) hlead hrest
    cases lead with
    | none => exact hfound
    | some t =>
      rw [Option.toList_some, textOf_cons, textOf_nil, List.append_nil] at hfound
      exact hfound

/-! ## Rounds -/

/-- A round over a text rewrites its tokens. -/
theorem rewritten_round {code next : Text} {os : List Occurrence}
    (hos : (Pattern.bufferRead name kind.rank).occurrences code = .ok os)
    (hnext : (Pattern.bufferRead name kind.rank).replaceAll
      (fun o => sampleText name kind o.captures) code = .ok next) :
    Rewritten name os.length (tokenize code) (tokenize next) := by
  have hconsumes : (Pattern.bufferRead name kind.rank).Consumes = true := rfl
  have htokens := Pattern.tokensOf_walk hconsumes (tokenize code)
  rw [Pattern.occurrences_eq_walk hconsumes] at hos
  rw [Pattern.replaceAll_eq_walk hconsumes] at hnext
  cases hos
  cases hnext
  have hrewritten := rewritten_emit hname kind (htokens.symm ▸ separated_tokenize code)
    fun o ho => by
      obtain ⟨us, m, hus, hm, rfl⟩ := Pattern.match?_of_mem_walk ho
      exact exists_isRead (fun u hu => proper_tokenize u (hus.subset hu)) hm
  rwa [htokens] at hrewritten

/-- A round with a read takes places before brackets away. -/
theorem bracketSites_lt_of_round {code next : Text} {o : Occurrence} {os : List Occurrence}
    (hos : (Pattern.bufferRead name kind.rank).occurrences code = .ok (o :: os))
    (hnext : (Pattern.bufferRead name kind.rank).replaceAll
      (fun o => sampleText name kind o.captures) code = .ok next) :
    bracketSites name next < bracketSites name code := by
  have hle := (rewritten_round hname kind hos hnext).length_bracketTails_le hname
  rw [List.length_cons] at hle
  unfold bracketSites
  omega

end

/-- Whether a buffer is read is told by what follows its name before brackets. -/
theorem occurrences_bufferRead_eq_nil_iff {q : Text} {rank : Rank} {code : Text} :
    (Pattern.bufferRead q rank).occurrences code = .ok [] ↔
      ∀ xs ∈ bracketTails q (tokenize code), subscripts? rank.toNat xs = none := by
  have hconsumes : (Pattern.bufferRead q rank).Consumes = true := rfl
  have hmatch : ∀ t xs, t :: xs <:+ tokenize code →
      ((Pattern.bufferRead q rank).match? (t :: xs) = none ↔
        (t.text = q → subscripts? rank.toNat xs = none)) := by
    intro t xs hsuffix
    have hp : ∀ u ∈ xs, u.Proper := fun u hu =>
      proper_tokenize u (hsuffix.subset (List.mem_cons_of_mem t hu))
    have hread := Pattern.read?_bufferRead hp t q rank
    rw [← Option.map_eq_none_iff (f := fun m => (m.captures, m.rest)), ← Pattern.read?, hread]
    by_cases ht : t.text = q <;> simp [ht]
  rw [Pattern.occurrences_eq_walk hconsumes, Except.ok.injEq]
  constructor
  · intro h xs hxs
    obtain ⟨t, ht, hsuffix, -⟩ := mem_bracketTails_iff.mp hxs
    exact (hmatch t xs hsuffix).mp (Pattern.match?_eq_none_of_walk hconsumes h hsuffix) ht
  · intro h
    refine Pattern.walk_eq_nil_of_match? fun us hus => ?_
    cases us with
    | nil => exact Pattern.match?_nil hconsumes
    | cons t xs =>
      refine (hmatch t xs hus).mpr fun ht => Option.eq_none_iff_forall_ne_some.mpr ?_
      rintro ⟨blocks, rest⟩ hs
      obtain ⟨tail, htail, hlength, rfl⟩ := subscripts?_eq_some_iff.mp hs
      have hnone := h _ (mem_bracketTails_iff.mpr
        ⟨t, ht, hus, htail.isSome_afterMark? hlength rest⟩)
      cases hnone.symm.trans hs

/-! ## All rounds -/

section

variable {name : Text} (hname : IsName name) (kind : BufferKind)

include hname

/-- A buffer that is read nowhere is read nowhere after a round for another one of the same rank. -/
theorem occurrences_of_round {code next : Text} {os : List Occurrence}
    (hos : (Pattern.bufferRead name kind.rank).occurrences code = .ok os)
    (hnext : (Pattern.bufferRead name kind.rank).replaceAll
      (fun o => sampleText name kind o.captures) code = .ok next) {q : Text} (hq : IsName q)
    (h : (Pattern.bufferRead q kind.rank).occurrences code = .ok []) :
    (Pattern.bufferRead q kind.rank).occurrences next = .ok [] := by
  have hround := rewritten_round hname kind hos hnext
  rw [occurrences_bufferRead_eq_nil_iff] at h ⊢
  intro xs hxs
  rw [← Option.not_isSome_iff_eq_none]
  intro hsome
  obtain ⟨ys, hys, hread⟩ := hround.exists_tail hq hxs hsome
  rw [h ys hys] at hread
  cases hread

/-- The rounds for a buffer leave no read of it and bring none of another one. -/
theorem SampleRounds.fixpoint {code out : Text} (h : SampleRounds name kind code out) :
    (Pattern.bufferRead name kind.rank).occurrences out = .ok [] ∧
      ∀ q, IsName q → (Pattern.bufferRead q kind.rank).occurrences code = .ok [] →
        (Pattern.bufferRead q kind.rank).occurrences out = .ok [] := by
  induction h with
  | done h => exact ⟨h, fun _ _ hq => hq⟩
  | round hos hnext _ _ ih =>
    exact ⟨ih.1, fun q hq hnone => ih.2 q hq (occurrences_of_round hname kind hos hnext hq hnone)⟩

end

/-- The rounds for one buffer after another leave no read of any of them. -/
theorem SampleAllRounds.fixpoint {kind : BufferKind} {names : List Text} {code out : Text}
    (h : SampleAllRounds kind names code out) (hnames : ∀ name ∈ names, IsName name) :
    (∀ name ∈ names, (Pattern.bufferRead name kind.rank).occurrences out = .ok []) ∧
      ∀ q, IsName q → (Pattern.bufferRead q kind.rank).occurrences code = .ok [] →
        (Pattern.bufferRead q kind.rank).occurrences out = .ok [] := by
  induction h with
  | nil => exact ⟨fun name hmem => absurd hmem List.not_mem_nil, fun _ _ hq => hq⟩
  | cons hrounds _ ih =>
    obtain ⟨hname, hrest⟩ := List.forall_mem_cons.mp hnames
    obtain ⟨hnone, hkeeps⟩ := hrounds.fixpoint hname kind
    obtain ⟨hall, hkeeps'⟩ := ih hrest
    exact ⟨List.forall_mem_cons.mpr ⟨hkeeps' _ hname hnone, hall⟩,
      fun q hq h => hkeeps' q hq (hkeeps q hq h)⟩

/-- For every text and every kind of buffer, whatever the declared names are: the result comes from
the text by the rounds for one name after another, and in it there is no read of any of the names
that the text declares with this kind. On every text the rounds for a name end, each of them leaving
fewer tokens of the name that stand before an opening bracket, with at most one blank between. -/
theorem sampleAllReads_fixpoint (kind : BufferKind) (code : Text) :
    ∃ names out, declaredNames kind.word code = .ok names ∧ sampleAllReads kind code = .ok out ∧
      SampleAllRounds kind names code out ∧
      (∀ name ∈ names, ∀ text,
        (∃ hname result, sampleReads name hname kind text = .ok result ∧
          SampleRounds name kind text result) ∧
        ∀ o os next, (Pattern.bufferRead name kind.rank).occurrences text = .ok (o :: os) →
          (Pattern.bufferRead name kind.rank).replaceAll
            (fun o => sampleText name kind o.captures) text = .ok next →
          bracketSites name next < bracketSites name text) ∧
      ∀ name ∈ names, (Pattern.bufferRead name kind.rank).occurrences out = .ok [] := by
  obtain ⟨names, hok, hnames⟩ := exists_isName_declaredNames kind.word code
  obtain ⟨out, hout, hrounds⟩ := sampleAllReads_rounds hok
  refine ⟨names, out, hok, hout, hrounds, fun name hmem text => ⟨?_, fun o os next hos hnext => ?_⟩,
    (hrounds.fixpoint hnames).1⟩
  · have hbracket := not_mem_of_declaredNames hok name hmem
    exact ⟨hbracket, sampleReads_rounds hbracket kind text⟩
  · exact bracketSites_lt_of_round (hnames name hmem) kind hos hnext

/-- A buffer with a number for its name, whose sample grows together with the name before it, and
which is read in its own index. -/
theorem sampleAllReads_fixpoint_number :
    ∃ out next, sampleAllReads ⟨.float, .one⟩ "uniform Float1D .5; a.5[.5[0]]".toList = .ok out ∧
      (Pattern.bufferRead ".5".toList .one).occurrences out = .ok [] ∧
      (Pattern.bufferRead ".5".toList .one).replaceAll
        (fun o => sampleText ".5".toList ⟨.float, .one⟩ o.captures)
        "uniform Float1D .5; a.5[.5[0]]".toList = .ok next ∧
      bracketSites ".5".toList next <
        bracketSites ".5".toList "uniform Float1D .5; a.5[.5[0]]".toList := by
  obtain ⟨names, out, hnames, hout, -, hrounds, hnone⟩ :=
    sampleAllReads_fixpoint ⟨.float, .one⟩ "uniform Float1D .5; a.5[.5[0]]".toList
  have hdeclared : (declaredNames "Float1D".toList
      "uniform Float1D .5; a.5[.5[0]]".toList).toOption = some [".5".toList] := by decide +kernel
  have hfound : ((Pattern.bufferRead ".5".toList .one).occurrences
      "uniform Float1D .5; a.5[.5[0]]".toList).toOption.map List.length = some 1 := by
    decide +kernel
  have hword : BufferKind.word ⟨.float, .one⟩ = "Float1D".toList := by decide
  rw [hword] at hnames
  rw [hnames] at hdeclared
  obtain rfl : names = [".5".toList] := Option.some.inj hdeclared
  obtain ⟨next, hnext⟩ := (Pattern.Built.bufferRead ".5".toList .one).exists_replaceAll
    (fun o => sampleText ".5".toList ⟨.float, .one⟩ o.captures)
    "uniform Float1D .5; a.5[.5[0]]".toList
  obtain ⟨os, hos⟩ := (Pattern.Built.bufferRead ".5".toList .one).exists_occurrences
    "uniform Float1D .5; a.5[.5[0]]".toList
  rw [hos] at hfound
  cases os with
  | nil => cases hfound
  | cons o os =>
    exact ⟨out, next, hout, hnone _ List.mem_cons_self, hnext,
      (hrounds _ List.mem_cons_self _).2 o os next hos hnext⟩

end Texelwise

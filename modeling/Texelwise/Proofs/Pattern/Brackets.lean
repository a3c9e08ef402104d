import Texelwise.Proofs.Pattern.Greedy

/-!
# Brackets of code blocks

A code block is found with one count of open brackets, so a closing bracket of either kind closes
the last open one. Blocks are described here without that count: by a grammar of nested brackets
that is told which closing bracket may close a bracket.

* `Nested`: the grammar. `nested_iff` says that a stack of open brackets decides it.
* `IsBlock`: a run with nested brackets that ends where no block can go on.
* `split?_codeBlock_eq_some_iff`: what is found are the blocks in which kinds do not matter.
* `Crossed`: a bracket is closed by one of the other kind. `isBlock_sameKind_iff` says that this is
  all that kinds take away.
* `blockStop?_bracketed_iff`: just where no brackets are crossed, what is found is the one block in
  which every bracket is closed by one of its own kind.
-/

namespace Texelwise

open Token

/-! ## Nested brackets -/

/-- A round bracket is closed by a round one and a square bracket by a square one. -/
def SameKind (o c : Token) : Prop :=
  (o.text = ['('] ∧ c.text = [')']) ∨ (o.text = ['['] ∧ c.text = [']'])

instance : DecidableRel SameKind := fun _ _ => inferInstanceAs (Decidable (_ ∨ _))

/-- Any closing bracket closes any bracket. -/
def AnyKind (_ _ : Token) : Prop := True

instance : DecidableRel AnyKind := fun _ _ => inferInstanceAs (Decidable True)

/-- The brackets among the tokens are well nested: each one that opens has a closing one behind it
that is its partner, with nested brackets between the two. -/
inductive Nested (partners : Token → Token → Prop) : List Token → Prop
  | nil : Nested partners []
  | plain {t : Token} {ts : List Token} (ho : t.role ≠ .opener) (hc : t.role ≠ .closer)
      (h : Nested partners ts) : Nested partners (t :: ts)
  | pair {o c : Token} {inner rest : List Token} (ho : o.role = .opener) (hc : c.role = .closer)
      (hp : partners o c) (hi : Nested partners inner) (hr : Nested partners rest) :
      Nested partners (o :: (inner ++ c :: rest))

theorem Nested.anyKind {partners : Token → Token → Prop} {ts : List Token}
    (h : Nested partners ts) : Nested AnyKind ts := by
  induction h with
  | nil => exact .nil
  | plain ho hc _ ih => exact .plain ho hc ih
  | pair ho hc _ _ _ ihi ihr => exact .pair ho hc trivial ihi ihr

/-! ## A stack of open brackets -/

section

variable (partners : Token → Token → Prop) [DecidableRel partners]

/-- The brackets that are open after a token, the last one in front; `none` if the token closes a
bracket that it is no partner of. -/
def openAfter? (stack : List Token) (t : Token) : Option (List Token) :=
  match t.role, stack with
  | .opener, _ => some (t :: stack)
  | .closer, [] => none
  | .closer, o :: more => if partners o t then some more else none
  | _, _ => some stack

/-- The brackets that are open after some tokens. -/
def openBrackets? (stack ts : List Token) : Option (List Token) :=
  ts.foldlM (openAfter? partners) stack

theorem openBrackets?_append (stack xs ys : List Token) :
    openBrackets? partners stack (xs ++ ys) =
      (openBrackets? partners stack xs).bind fun next => openBrackets? partners next ys :=
  List.foldlM_append

variable {partners} {stack ts : List Token} {t : Token}

theorem openBrackets?_opener (ht : t.role = .opener) :
    openBrackets? partners stack (t :: ts) = openBrackets? partners (t :: stack) ts := by
  simp [openBrackets?, openAfter?, ht]

theorem openBrackets?_closer_cons {o : Token} (ht : t.role = .closer) :
    openBrackets? partners (o :: stack) (t :: ts) =
      if partners o t then openBrackets? partners stack ts else none := by
  by_cases hp : partners o t <;> simp [openBrackets?, openAfter?, ht, hp]

theorem openBrackets?_plain (ho : t.role ≠ .opener) (hc : t.role ≠ .closer) :
    openBrackets? partners stack (t :: ts) = openBrackets? partners stack ts := by
  cases ht : t.role <;> simp_all [openBrackets?, openAfter?]

/-- A token opens a bracket, closes the last open one as its partner, or leaves the stack alone. -/
theorem openBrackets?_cons_eq_some {next : List Token} :
    openBrackets? partners stack (t :: ts) = some next ↔
      (t.role = .opener ∧ openBrackets? partners (t :: stack) ts = some next) ∨
      (t.role = .closer ∧ ∃ o more, stack = o :: more ∧ partners o t ∧
        openBrackets? partners more ts = some next) ∨
      (t.role ≠ .opener ∧ t.role ≠ .closer ∧ openBrackets? partners stack ts = some next) := by
  by_cases ho : t.role = .opener
  · simp [openBrackets?_opener ho, ho]
  · by_cases hc : t.role = .closer
    · cases stack with
      | nil => simp [openBrackets?, openAfter?, hc]
      | cons o stack => simp [openBrackets?_closer_cons hc, hc]
    · simp [openBrackets?_plain ho hc, ho, hc]

/-- Nested brackets leave the stack as it was. -/
theorem Nested.openBrackets?_eq (h : Nested partners ts) (stack : List Token) :
    openBrackets? partners stack ts = some stack := by
  induction h generalizing stack with
  | nil => rfl
  | plain ho hc _ ih => rw [openBrackets?_plain ho hc, ih]
  | @pair o c inner rest ho hc hp _ _ ihi ihr =>
    rw [openBrackets?_opener ho, openBrackets?_append, ihi, Option.bind_some,
      openBrackets?_closer_cons hc, if_pos hp, ihr]

/-- Where all brackets are closed in the end, the last open one has a partner. -/
theorem exists_partner {o : Token} {stack ts : List Token}
    (h : openBrackets? partners (o :: stack) ts = some []) :
    ∃ inner c rest, ts = inner ++ c :: rest ∧ c.role = .closer ∧ partners o c ∧
      Nested partners inner ∧ openBrackets? partners stack rest = some [] := by
  match ts with
  | [] => cases h
  | t :: ts =>
    rcases openBrackets?_cons_eq_some.mp h with ⟨ho, h⟩ | ⟨hc, o', more, hstack, hp, h⟩ |
      ⟨ho, hc, h⟩
    · -- the partner of `t` comes first, then the one of `o`
      obtain ⟨inner, c, rest, rfl, hc, hp, hi, hrest⟩ := exists_partner h
      obtain ⟨inner', c', rest', rfl, hc', hp', hi', hrest'⟩ := exists_partner hrest
      exact ⟨t :: (inner ++ c :: inner'), c', rest', by simp, hc', hp', .pair ho hc hp hi hi',
        hrest'⟩
    · cases hstack
      exact ⟨[], t, ts, rfl, hc, hp, .nil, h⟩
    · obtain ⟨inner, c, rest, rfl, hc', hp, hi, hrest⟩ := exists_partner h
      exact ⟨t :: inner, c, rest, rfl, hc', hp, .plain ho hc hi, hrest⟩
termination_by ts.length

theorem nested_of_openBrackets? {ts : List Token} (h : openBrackets? partners [] ts = some []) :
    Nested partners ts := by
  match ts with
  | [] => exact .nil
  | t :: ts =>
    rcases openBrackets?_cons_eq_some.mp h with ⟨ho, h⟩ | ⟨-, o, more, hstack, -⟩ | ⟨ho, hc, h⟩
    · obtain ⟨inner, c, rest, rfl, hc, hp, hi, hrest⟩ := exists_partner h
      exact .pair ho hc hp hi (nested_of_openBrackets? hrest)
    · cases hstack
    · exact .plain ho hc (nested_of_openBrackets? h)
termination_by ts.length

/-- Brackets are nested where the stack is empty in the end. -/
theorem nested_iff : Nested partners ts ↔ openBrackets? partners [] ts = some [] :=
  ⟨fun h => h.openBrackets?_eq [], nested_of_openBrackets?⟩

instance : DecidablePred (Nested partners) := fun _ => decidable_of_iff' _ nested_iff

/-- In `([)]` the brackets are nested only where kinds do not matter. -/
example : Nested AnyKind [mark '(', mark '[', mark ')', mark ']'] ∧
    ¬Nested SameKind [mark '(', mark '[', mark ')', mark ']'] := by
  decide

/-- The stack grows by what is opened and shrinks by what is closed. -/
theorem length_openBrackets? {next : List Token} (h : openBrackets? partners stack ts = some next) :
    next.length + closers ts = stack.length + openers ts := by
  induction ts generalizing stack with
  | nil =>
    cases h
    rfl
  | cons t ts ih =>
    rw [openers_cons, closers_cons]
    rcases openBrackets?_cons_eq_some.mp h with ⟨ht, h⟩ | ⟨ht, o, more, rfl, -, h⟩ | ⟨ho, hc, h⟩
    · have hrest := ih h
      simp only [ht, List.length_cons, reduceCtorEq, if_true, if_false] at hrest ⊢
      omega
    · have hrest := ih h
      simp only [ht, List.length_cons, reduceCtorEq, if_true, if_false] at hrest ⊢
      omega
    · rw [if_neg ho, if_neg hc]
      exact ih h

/-- Nested brackets close as many as they open. -/
theorem Nested.closers_eq (h : Nested partners ts) : closers ts = openers ts := by
  simpa using length_openBrackets? (h.openBrackets?_eq [])

/-- A part of nested brackets from the front on leaves as many brackets open as it opens more than
it closes, and the rest closes them. -/
theorem Nested.exists_open {before after : List Token} (h : Nested partners (before ++ after)) :
    ∃ stack, openBrackets? partners [] before = some stack ∧
      openBrackets? partners stack after = some [] ∧
      stack.length + closers before = openers before := by
  rw [nested_iff, openBrackets?_append, Option.bind_eq_some_iff] at h
  obtain ⟨stack, hbefore, hafter⟩ := h
  exact ⟨stack, hbefore, hafter, by simpa using length_openBrackets? hbefore⟩

end

/-! ## Blocks -/

/-- The closing bracket `c` behind a run is the partner of a bracket in it that is still open. -/
def HasPartner (partners : Token → Token → Prop) (run : List Token) (c : Token) : Prop :=
  ∃ before o inner, run = before ++ o :: inner ∧ o.role = .opener ∧ partners o c ∧
    Nested partners inner

/-- The run is a code block and `rest` comes behind it: there is a token in the run, its brackets
are nested, there is no brace in it and no semicolon outside of all its brackets, and it goes as far
as it can: behind it there is nothing, a closing bracket without a partner in it, a brace or a
semicolon. A token is outside of all brackets where nested brackets stand before it. -/
structure IsBlock (partners : Token → Token → Prop) (run rest : List Token) : Prop where
  nonempty : run ≠ []
  nested : Nested partners run
  no_brace : ∀ t ∈ run, t.role ≠ .brace
  no_semicolon : ∀ before t after, run = before ++ t :: after → Nested partners before →
    t.role ≠ .semicolon
  maximal : ∀ t ∈ rest.head?, (t.role = .closer ∧ ¬HasPartner partners run t) ∨
    t.role = .brace ∨ t.role = .semicolon

section

variable {partners : Token → Token → Prop} [DecidableRel partners] {run rest : List Token}

/-- No bracket of nested ones is still open at the end. -/
theorem Nested.not_hasPartner (h : Nested partners run) (c : Token) :
    ¬HasPartner partners run c := by
  rintro ⟨before, o, inner, rfl, ho, -, hi⟩
  obtain ⟨stack, -, hstack, -⟩ := h.exists_open
  rw [openBrackets?_opener ho, hi.openBrackets?_eq] at hstack
  cases hstack

theorem depthAfter_zero_eq_none_iff {role : BlockRole} :
    role.depthAfter 0 = none ↔ role = .closer ∨ role = .brace ∨ role = .semicolon := by
  cases role <;> simp [BlockRole.depthAfter]

/-- Behind nested brackets the tokens with which a block cannot go on are the ones that stop the
count at zero. -/
theorem Nested.maximal_iff (h : Nested partners run) {t : Token} :
    (t.role = .closer ∧ ¬HasPartner partners run t) ∨ t.role = .brace ∨ t.role = .semicolon ↔
      t.role.depthAfter 0 = none := by
  rw [depthAfter_zero_eq_none_iff, and_iff_left (h.not_hasPartner t)]

/-- A block is in order by its counts, too. -/
theorem IsBlock.wellNested (h : IsBlock partners run rest) : WellNested 0 run := by
  refine ⟨fun before after heq => ?_, ?_, h.no_brace, fun before t after heq ht => ?_⟩
  · obtain ⟨stack, -, -, hcount⟩ := Nested.exists_open (heq ▸ h.nested)
    omega
  · rw [h.nested.closers_eq, Nat.zero_add]
  · obtain ⟨stack, hbefore, -, hcount⟩ := Nested.exists_open (heq ▸ h.nested)
    -- With nothing open the semicolon would be outside of all brackets.
    have hopen : stack ≠ [] := by
      rintro rfl
      exact h.no_semicolon before t after heq (nested_iff.mpr hbefore) ht
    have hpos := List.length_pos_iff.mpr hopen
    omega

/-- A run that closes its brackets by count empties a stack that does not tell kinds apart. -/
theorem Closes.openBrackets?_eq {depth : Nat} {run : List Token} (h : Closes depth run)
    {stack : List Token} (hstack : stack.length = depth) :
    openBrackets? AnyKind stack run = some [] := by
  induction run generalizing depth stack with
  | nil =>
    obtain rfl : stack = [] := List.length_eq_zero_iff.mp (hstack.trans (closes_nil.mp h))
    rfl
  | cons t run ih =>
    obtain ⟨next, hnext, hrun⟩ := closes_cons.mp h
    obtain ⟨-, -, hdepth⟩ := depthAfter_eq_some_iff.mp hnext
    subst hstack
    rw [openBrackets?_cons_eq_some]
    by_cases ho : t.role = .opener
    · exact .inl ⟨ho, ih hrun (by simpa [ho] using hdepth.symm)⟩
    · by_cases hc : t.role = .closer
      · cases stack with
        | nil => simp [hc] at hdepth
        | cons o more =>
          exact .inr (.inl ⟨hc, o, more, rfl, trivial, ih hrun (by simpa [hc] using hdepth.symm)⟩)
      · exact .inr (.inr ⟨ho, hc, ih hrun (by simpa [ho, hc] using hdepth.symm)⟩)

/-- Whatever closing brackets are partners, a block is found. -/
theorem IsBlock.split?_eq (h : IsBlock partners run rest) :
    Atom.codeBlock.split? (run ++ rest) = some (run, rest) := by
  have hrun := (closes_iff.mpr h.wellNested).blockRun_eq fun t ht =>
    h.nested.maximal_iff.mp (h.maximal t ht)
  simp [Atom.split?, hrun, h.nonempty]

/-- What a code block takes at the front of some tokens are the blocks in which kinds do not
matter. -/
theorem split?_codeBlock_eq_some_iff {ts : List Token} :
    Atom.codeBlock.split? ts = some (run, rest) ↔ run ++ rest = ts ∧ IsBlock AnyKind run rest := by
  constructor
  · intro h
    obtain ⟨hrun, hne⟩ := Option.filter_eq_some_iff.mp h
    obtain ⟨hclose, hstop⟩ := blockRun_eq_some hrun
    have hcounts := closes_iff.mp hclose
    have hnested : Nested AnyKind run := nested_iff.mpr (hclose.openBrackets?_eq rfl)
    refine ⟨Atom.split?_append h, by simpa using hne, hnested, hcounts.no_brace, ?_,
      fun t ht => hnested.maximal_iff.mpr (hstop t ht)⟩
    intro before t after heq hbefore ht
    have hlt := hcounts.semicolon before t after heq ht
    rw [hbefore.closers_eq] at hlt
    omega
  · rintro ⟨rfl, h⟩
    exact h.split?_eq

end

/-! ## Crossed brackets -/

/-- A bracket of the run is closed by one of the other kind. -/
def Crossed (run : List Token) : Prop :=
  ∃ before o inner c after, run = before ++ o :: (inner ++ c :: after) ∧ o.role = .opener ∧
    c.role = .closer ∧ Nested SameKind inner ∧ ¬SameKind o c

theorem Crossed.append {run : List Token} (h : Crossed run) (xs ys : List Token) :
    Crossed (xs ++ (run ++ ys)) := by
  obtain ⟨before, o, inner, c, after, rfl, ho, hc, hi, hp⟩ := h
  exact ⟨xs ++ before, o, inner, c, after ++ ys, by simp, ho, hc, hi, hp⟩

theorem Nested.not_crossed {run : List Token} (h : Nested SameKind run) : ¬Crossed run := by
  rintro ⟨before, o, inner, c, after, rfl, ho, hc, hi, hp⟩
  obtain ⟨stack, -, hstack, -⟩ := h.exists_open
  rw [openBrackets?_opener ho, openBrackets?_append, hi.openBrackets?_eq, Option.bind_some,
    openBrackets?_closer_cons hc, if_neg hp] at hstack
  cases hstack

/-- Brackets that are nested without regard to kinds have all their partners of their own kind, or
some of them are crossed. -/
theorem Nested.sameKind_or_crossed {run : List Token} (h : Nested AnyKind run) :
    Nested SameKind run ∨ Crossed run := by
  induction h with
  | nil => exact .inl .nil
  | @plain t ts ho hc _ ih =>
    rcases ih with hnested | hcrossed
    · exact .inl (.plain ho hc hnested)
    · exact .inr (by simpa using hcrossed.append [t] [])
  | @pair o c inner rest ho hc _ _ _ ihi ihr =>
    rcases ihi with hinner | hcrossed
    · rcases ihr with hrest | hcrossed
      · by_cases hp : SameKind o c
        · exact .inl (.pair ho hc hp hinner hrest)
        · exact .inr ⟨[], o, inner, c, rest, rfl, ho, hc, hinner, hp⟩
      · exact .inr (by simpa using hcrossed.append (o :: (inner ++ [c])) [])
    · exact .inr (by simpa using hcrossed.append [o] (c :: rest))

theorem Nested.sameKind_iff {run : List Token} (h : Nested AnyKind run) :
    Nested SameKind run ↔ ¬Crossed run :=
  ⟨Nested.not_crossed, h.sameKind_or_crossed.resolve_right⟩

/-- With kinds the blocks are the ones in which no brackets are crossed. -/
theorem isBlock_sameKind_iff {run rest : List Token} :
    IsBlock SameKind run rest ↔ IsBlock AnyKind run rest ∧ ¬Crossed run := by
  constructor
  · intro h
    exact ⟨(split?_codeBlock_eq_some_iff.mp h.split?_eq).2, h.nested.not_crossed⟩
  · rintro ⟨h, hcrossed⟩
    have hnested := h.nested.sameKind_iff.mpr hcrossed
    exact ⟨h.nonempty, hnested, h.no_brace,
      fun before t after heq hbefore => h.no_semicolon before t after heq hbefore.anyKind,
      fun t ht => hnested.maximal_iff.mpr (h.nested.maximal_iff.mp (h.maximal t ht))⟩

/-! ## Positions -/

/-- The tokens from position `start` to position `stop` are a code block. -/
def BlockAt (partners : Token → Token → Prop) (ts : List Token) (start stop : Nat) : Prop :=
  ∃ before run rest, ts = before ++ (run ++ rest) ∧ before.length = start ∧
    start + run.length = stop ∧ IsBlock partners run rest

/-- Brackets are crossed in the block that starts at position `start`, where kinds do not matter for
what a block is. -/
def CrossedAt (ts : List Token) (start : Nat) : Prop :=
  ∃ before run rest, ts = before ++ (run ++ rest) ∧ before.length = start ∧
    IsBlock AnyKind run rest ∧ Crossed run

/-- Where the code block that is found at position `start` ends. -/
def blockStop? (ts : List Token) (start : Nat) : Option Nat :=
  (Atom.codeBlock.split? (ts.drop start)).map fun (run, _) => start + run.length

theorem blockStop?_eq_some_iff {ts : List Token} {start stop : Nat} :
    blockStop? ts start = some stop ↔ BlockAt AnyKind ts start stop := by
  constructor
  · intro h
    obtain ⟨⟨run, rest⟩, hsplit, rfl⟩ := Option.map_eq_some_iff.mp h
    obtain ⟨heq, hblock⟩ := split?_codeBlock_eq_some_iff.mp hsplit
    have hlt : start < ts.length := by
      by_contra hge
      rw [List.drop_eq_nil_of_le (Nat.le_of_not_lt hge), List.append_eq_nil_iff] at heq
      exact hblock.nonempty heq.1
    exact ⟨ts.take start, run, rest, by rw [heq, List.take_append_drop],
      by rw [List.length_take, Nat.min_eq_left hlt.le], rfl, hblock⟩
  · rintro ⟨before, run, rest, rfl, rfl, rfl, hblock⟩
    rw [blockStop?, List.drop_left, hblock.split?_eq]
    rfl

/-- At a position a block in which kinds match is a block there with no brackets crossed. -/
theorem BlockAt.sameKind_iff {ts : List Token} {start stop : Nat} :
    BlockAt SameKind ts start stop ↔ BlockAt AnyKind ts start stop ∧ ¬CrossedAt ts start := by
  constructor
  · rintro ⟨before, run, rest, rfl, rfl, rfl, hblock⟩
    obtain ⟨hany, hcrossed⟩ := isBlock_sameKind_iff.mp hblock
    refine ⟨⟨before, run, rest, rfl, rfl, rfl, hany⟩, ?_⟩
    rintro ⟨before', run', rest', heq, hlength, hany', hcrossed'⟩
    -- One block starts at the position, so the crossed one is the one in which kinds match.
    obtain ⟨-, heq⟩ := List.append_inj heq hlength.symm
    have hsplit := hany.split?_eq
    rw [heq, hany'.split?_eq] at hsplit
    cases hsplit
    exact hcrossed hcrossed'
  · rintro ⟨⟨before, run, rest, rfl, rfl, rfl, hany⟩, hcrossed⟩
    refine ⟨before, run, rest, rfl, rfl, rfl, isBlock_sameKind_iff.mpr ⟨hany, fun h => ?_⟩⟩
    exact hcrossed ⟨before, run, rest, rfl, rfl, hany, h⟩

/-- The block that is found at a position is the one block there in which every bracket is closed by
one of its own kind, and none is found just where there is no such block; this holds exactly where
no brackets are crossed. Crossed or not, such a block is never missed, and what is found is always a
block but for the kinds. -/
theorem blockStop?_bracketed_iff (ts : List Token) (start : Nat) :
    ((∀ stop, blockStop? ts start = some stop → BlockAt SameKind ts start stop) ∧
        (blockStop? ts start = none ↔ ¬∃ stop, BlockAt SameKind ts start stop) ↔
      ¬CrossedAt ts start) ∧
    (∀ stop, BlockAt SameKind ts start stop → blockStop? ts start = some stop) ∧
    (∀ stop, blockStop? ts start = some stop ↔ BlockAt AnyKind ts start stop) := by
  refine ⟨⟨fun ⟨hfound, _⟩ hcrossed => ?_, fun hcrossed => ?_⟩,
    fun stop h => blockStop?_eq_some_iff.mpr (BlockAt.sameKind_iff.mp h).1,
    fun stop => blockStop?_eq_some_iff⟩
  · obtain ⟨before, run, rest, heq, hlength, hany, -⟩ := id hcrossed
    have hstop := blockStop?_eq_some_iff.mpr ⟨before, run, rest, heq, hlength, rfl, hany⟩
    exact (BlockAt.sameKind_iff.mp (hfound _ hstop)).2 hcrossed
  · have hiff : ∀ stop, blockStop? ts start = some stop ↔ BlockAt SameKind ts start stop := by
      intro stop
      rw [blockStop?_eq_some_iff, BlockAt.sameKind_iff, and_iff_left hcrossed]
    refine ⟨fun stop => (hiff stop).mp, ?_⟩
    simp only [← hiff, ← Option.isSome_iff_exists, Option.not_isSome_iff_eq_none]

/-- In `(]` a round bracket is closed by a square one, so there is no block in which kinds match.
One is found all the same, and so a read of `a` takes `(x]` for its index. -/
theorem blockStop?_crossed :
    blockStop? (tokenize "(]".toList) 0 = some 2 ∧
    (¬∃ stop, BlockAt SameKind (tokenize "(]".toList) 0 stop) ∧
    (Pattern.bufferRead ['a'] .one).matchAt? (tokenize "a[(x]]".toList) 0 =
      some (6, ["(x]".toList]) := by
  have htokens : tokenize "(]".toList = [mark '(', mark ']'] := by decide +kernel
  refine ⟨by decide +kernel, ?_, by decide +kernel⟩
  rintro ⟨stop, before, run, rest, heq, hlength, -, hblock⟩
  obtain rfl := List.length_eq_zero_iff.mp hlength
  have hfound : Atom.codeBlock.split? [mark '(', mark ']'] = some ([mark '(', mark ']'], []) := by
    decide
  rw [List.nil_append, htokens] at heq
  have hsplit := hblock.split?_eq
  rw [← heq, hfound] at hsplit
  cases hsplit
  exact absurd hblock.nested (by decide)

end Texelwise

import Texelwise.Kernel.Compile
import Texelwise.Proofs.Token.Block

/-!
# Expanding a body in one pass

The compiler goes over a program many times. Here is the same in one pass over the tokens of a
body, from left to right: where a read, a field, an extent or a write stands, its shader text is
emitted, the indices of a read expanded in turn, and every other token is kept.

* `Rules`: what is known about names; `Interface.rules` are the rules of a program.
* `Rules.site?`: what stands at a token; `Rules.Stands` is the same as a relation.
* `Rules.expand`: the shader text of a token list.
-/

namespace Texelwise

open Token

/-! ## Reading tokens -/

/-- The first token, if it passes a test, and the tokens after it. -/
def next? (test : Token → Bool) : List Token → Option (Token × List Token)
  | [] => none
  | t :: ts => if test t then some (t, ts) else none

/-- The tokens after a blank, if one stands first. -/
def skipBlank : List Token → List Token
  | [] => []
  | t :: ts => if t.kind = .space then ts else t :: ts

/-- The tokens after the mark `c`, which may have a blank before it. -/
def afterMark? (c : Char) (ts : List Token) : Option (List Token) :=
  (next? (· = mark c) (skipBlank ts)).map (·.2)

/-- A code block between the marks `o` and `c`, and the tokens after it. -/
def enclosed? (o c : Char) (ts : List Token) : Option (List Token × List Token) :=
  (afterMark? o ts).bind fun inside =>
    (blockRun 0 inside).bind fun (block, left) =>
      if block.isEmpty then none
      else (next? (· = mark c) left).map fun (_, rest) => (block, rest)

/-- So many code blocks in brackets and the tokens after them. -/
def subscripts? : Nat → List Token → Option (List (List Token) × List Token)
  | 0, ts => some ([], ts)
  | n + 1, ts =>
    (enclosed? '[' ']' ts).bind fun (block, left) =>
      (subscripts? n left).map fun (blocks, rest) => (block :: blocks, rest)

/-- A point with the name of an extent after it, and the tokens after that. -/
def extent? (ts : List Token) : Option (Text × List Token) :=
  (afterMark? '.' ts).bind fun left =>
    (next? (fun t => t.kind = .ident ∧ t.text ∈ extentFields) (skipBlank left)).map
      fun (t, rest) => (t.text, rest)

/-- A number in brackets and the tokens after it. -/
def number? (ts : List Token) : Option (Text × List Token) :=
  (afterMark? '[' ts).bind fun left =>
    (next? (·.kind = .number) (skipBlank left)).bind fun (t, left) =>
      (afterMark? ']' left).map fun rest => (t.text, rest)

/-! ## Rules -/

/-- What is known about the names in a body. -/
structure Rules where
  /-- The buffers whose reads are expanded. -/
  reads : List (Text × BufferKind)
  /-- What stands for a field of a name. -/
  fields : List ((Text × Text) × Text)
  /-- What stands for the output of a number. -/
  output? : Text → Option Text

/-- What stands at a token. -/
inductive Site where
  /-- A read of a buffer with its indices. -/
  | read (kind : BufferKind) (indices : List (List Token))
  /-- A field, an extent or a write, with what stands for it. -/
  | word (replacement : Text)
  deriving DecidableEq

namespace Rules

/-- What stands at the token `t` that has `ts` after it, with the tokens after the site. -/
def site? (r : Rules) (t : Token) (ts : List Token) : Option (Site × List Token) :=
  if t.kind ≠ .ident then none
  else
    match extent? ts with
    | some (field, rest) => (r.fields.lookup (t.text, field)).map fun w => (.word w, rest)
    | none =>
      if t.text = threadWord then
        (number? ts).bind fun (number, rest) =>
          (r.output? number).map fun w => (.word w, rest)
      else
        (r.reads.lookup t.text).bind fun kind =>
          (subscripts? kind.rank.toNat ts).map fun (indices, rest) => (.read kind indices, rest)

end Rules

/-! ## What is read, as relations -/

/-- At most one blank. -/
inductive Gap : List Token → Prop
  | none : Gap []
  | blank {b : Token} (h : b.kind = .space) : Gap [b]

/-- The tokens of code blocks in brackets. -/
inductive Subscripts : List (List Token) → List Token → Prop
  | nil : Subscripts [] []
  | cons {gap block tail : List Token} {blocks : List (List Token)} (hgap : Gap gap)
      (hblock : Balanced block) (hne : block ≠ []) (hrest : Subscripts blocks tail) :
      Subscripts (block :: blocks) (gap ++ mark '[' :: (block ++ mark ']' :: tail))

/-- The tokens of a site after its first one. -/
inductive Rules.Stands (r : Rules) (t : Token) : Site → List Token → Prop
  | field {gap gap' : List Token} {f : Token} {w : Text} (hgap : Gap gap) (hgap' : Gap gap')
      (hkind : f.kind = .ident) (hf : f.text ∈ extentFields)
      (hw : r.fields.lookup (t.text, f.text) = some w) :
      r.Stands t (.word w) (gap ++ mark '.' :: (gap' ++ [f]))
  | output {gap gap' gap'' : List Token} {n : Token} {w : Text} (ht : t.text = threadWord)
      (hgap : Gap gap) (hgap' : Gap gap') (hgap'' : Gap gap'') (hn : n.kind = .number)
      (hw : r.output? n.text = some w) :
      r.Stands t (.word w) (gap ++ mark '[' :: (gap' ++ n :: (gap'' ++ [mark ']'])))
  | read {kind : BufferKind} {blocks : List (List Token)} {tail : List Token}
      (ht : t.text ≠ threadWord) (hkind : r.reads.lookup t.text = some kind)
      (hlen : blocks.length = kind.rank.toNat) (htail : Subscripts blocks tail) :
      r.Stands t (.read kind blocks) tail

theorem next?_eq_some_iff {test : Token → Bool} {ts rest : List Token} {t : Token} :
    next? test ts = some (t, rest) ↔ test t = true ∧ ts = t :: rest := by
  cases ts with
  | nil => simp [next?]
  | cons u us =>
    simp only [next?, Option.ite_none_right_eq_some, Option.some.injEq, Prod.mk.injEq,
      List.cons.injEq]
    constructor
    · rintro ⟨h, rfl, rfl⟩
      exact ⟨h, rfl, rfl⟩
    · rintro ⟨h, rfl, rfl⟩
      exact ⟨h, rfl, rfl⟩

/-- A token that is no blank is read after a gap. -/
theorem next?_skipBlank_eq_some_iff {test : Token → Bool}
    (htest : ∀ t, t.kind = .space → test t = false) {ts rest : List Token} {t : Token} :
    next? test (skipBlank ts) = some (t, rest) ↔
      test t = true ∧ ∃ gap, Gap gap ∧ ts = gap ++ t :: rest := by
  constructor
  · intro h
    obtain ⟨ht, h⟩ := next?_eq_some_iff.mp h
    refine ⟨ht, ?_⟩
    cases ts with
    | nil => cases h
    | cons u us =>
      simp only [skipBlank] at h
      split at h
      · exact ⟨[u], .blank ‹_›, by rw [h]; rfl⟩
      · exact ⟨[], .none, h⟩
  · rintro ⟨ht, gap, hgap, rfl⟩
    refine next?_eq_some_iff.mpr ⟨ht, ?_⟩
    have hkind : t.kind ≠ .space := fun hk => by rw [htest t hk] at ht; cases ht
    cases hgap with
    | none => simp [skipBlank, hkind]
    | blank hb => simp [skipBlank, hb]

theorem afterMark?_eq_some_iff {c : Char} {ts rest : List Token} :
    afterMark? c ts = some rest ↔ ∃ gap, Gap gap ∧ ts = gap ++ mark c :: rest := by
  have hmark : ∀ t : Token, t.kind = .space → decide (t = mark c) = false := by
    rintro t ht
    exact decide_eq_false fun h => by rw [h] at ht; cases ht
  unfold afterMark?
  rw [Option.map_eq_some_iff]
  constructor
  · rintro ⟨⟨t, l⟩, h, rfl⟩
    obtain ⟨ht, gap, hgap, hts⟩ := (next?_skipBlank_eq_some_iff hmark).mp h
    obtain rfl : t = mark c := by simpa using ht
    exact ⟨gap, hgap, hts⟩
  · rintro ⟨gap, hgap, hts⟩
    exact ⟨(mark c, rest),
      (next?_skipBlank_eq_some_iff hmark).mpr ⟨decide_eq_true rfl, gap, hgap, hts⟩, rfl⟩

theorem role_close : (mark ']').role = .closer := by decide

theorem enclosed?_eq_some_iff {o c : Char} (hc : (mark c).role = .closer)
    {ts block rest : List Token} :
    enclosed? o c ts = some (block, rest) ↔
      Balanced block ∧ block ≠ [] ∧
        ∃ gap, Gap gap ∧ ts = gap ++ mark o :: (block ++ mark c :: rest) := by
  unfold enclosed?
  rw [Option.bind_eq_some_iff]
  constructor
  · rintro ⟨inside, hin, h⟩
    obtain ⟨⟨run, left⟩, hrun, h⟩ := Option.bind_eq_some_iff.mp h
    obtain ⟨gap, hgap, rfl⟩ := afterMark?_eq_some_iff.mp hin
    simp only [Option.ite_none_left_eq_some, List.isEmpty_iff] at h
    obtain ⟨hne, h⟩ := h
    obtain ⟨⟨t, l⟩, hl, heq⟩ := Option.map_eq_some_iff.mp h
    cases heq
    obtain ⟨ht, rfl⟩ := next?_eq_some_iff.mp hl
    obtain rfl : t = mark c := by simpa using ht
    refine ⟨(blockRun_eq_some hrun).1, hne, gap, hgap, ?_⟩
    rw [Texelwise.blockRun_append hrun]
  · rintro ⟨hbal, hne, gap, hgap, rfl⟩
    refine ⟨_, afterMark?_eq_some_iff.mpr ⟨gap, hgap, rfl⟩, ?_⟩
    have hrun : blockRun 0 (block ++ mark c :: rest) = some (block, mark c :: rest) := by
      apply Closes.blockRun_eq hbal
      rintro t ⟨⟩
      rw [hc]
      rfl
    rw [hrun]
    simp [hne, next?]

theorem subscripts?_eq_some_iff {n : Nat} {ts rest : List Token} {blocks : List (List Token)} :
    subscripts? n ts = some (blocks, rest) ↔
      ∃ tail, Subscripts blocks tail ∧ blocks.length = n ∧ ts = tail ++ rest := by
  induction n generalizing ts blocks with
  | zero =>
    simp only [subscripts?, Option.some.injEq, Prod.mk.injEq]
    constructor
    · rintro ⟨rfl, rfl⟩
      exact ⟨[], .nil, rfl, rfl⟩
    · rintro ⟨tail, htail, hlen, rfl⟩
      cases htail with
      | nil => exact ⟨rfl, rfl⟩
      | cons => cases hlen
  | succ n ih =>
    simp only [subscripts?, Option.bind_eq_some_iff, Option.map_eq_some_iff, Prod.exists]
    constructor
    · rintro ⟨block, left, hs, more, l, hm, heq⟩
      cases heq
      obtain ⟨hbal, hne, gap, hgap, rfl⟩ := (enclosed?_eq_some_iff role_close).mp hs
      obtain ⟨tail, htail, hlen, rfl⟩ := ih.mp hm
      exact ⟨_, .cons hgap hbal hne htail, by simp [hlen], by simp⟩
    · rintro ⟨tail, htail, hlen, rfl⟩
      cases htail with
      | nil => cases hlen
      | @cons gap block tail more hgap hbal hne htail =>
        refine ⟨block, tail ++ rest, ?_, more, rest, ih.mpr ⟨tail, htail, by simpa using hlen, rfl⟩,
          rfl⟩
        exact (enclosed?_eq_some_iff role_close).mpr ⟨hbal, hne, gap, hgap, by simp⟩

theorem extent?_eq_some_iff {ts rest : List Token} {field : Text} :
    extent? ts = some (field, rest) ↔
      ∃ gap gap' f, Gap gap ∧ Gap gap' ∧ f.kind = .ident ∧ f.text ∈ extentFields ∧
        f.text = field ∧ ts = gap ++ mark '.' :: (gap' ++ f :: rest) := by
  have hspace : ∀ t : Token, t.kind = .space →
      decide (t.kind = .ident ∧ t.text ∈ extentFields) = false := by
    rintro t ht
    simp [ht]
  simp only [extent?, Option.bind_eq_some_iff, Option.map_eq_some_iff, Prod.exists]
  constructor
  · rintro ⟨left, hleft, f, l, hf, heq⟩
    cases heq
    obtain ⟨gap, hgap, rfl⟩ := afterMark?_eq_some_iff.mp hleft
    obtain ⟨htest, gap', hgap', rfl⟩ := (next?_skipBlank_eq_some_iff hspace).mp hf
    obtain ⟨hkind, hmem⟩ := of_decide_eq_true htest
    exact ⟨gap, gap', f, hgap, hgap', hkind, hmem, rfl, rfl⟩
  · rintro ⟨gap, gap', f, hgap, hgap', hkind, hmem, rfl, rfl⟩
    refine ⟨_, afterMark?_eq_some_iff.mpr ⟨gap, hgap, rfl⟩, f, rest, ?_, rfl⟩
    exact (next?_skipBlank_eq_some_iff hspace).mpr
      ⟨decide_eq_true ⟨hkind, hmem⟩, gap', hgap', rfl⟩

theorem number?_eq_some_iff {ts rest : List Token} {number : Text} :
    number? ts = some (number, rest) ↔
      ∃ gap gap' gap'' n, Gap gap ∧ Gap gap' ∧ Gap gap'' ∧ n.kind = .number ∧ n.text = number ∧
        ts = gap ++ mark '[' :: (gap' ++ n :: (gap'' ++ mark ']' :: rest)) := by
  have hspace : ∀ t : Token, t.kind = .space → decide (t.kind = .number) = false := by
    rintro t ht
    simp [ht]
  simp only [number?, Option.bind_eq_some_iff, Option.map_eq_some_iff, Prod.exists]
  constructor
  · rintro ⟨left, hleft, n, l, hn, l', hl', heq⟩
    cases heq
    obtain ⟨gap, hgap, rfl⟩ := afterMark?_eq_some_iff.mp hleft
    obtain ⟨htest, gap', hgap', rfl⟩ := (next?_skipBlank_eq_some_iff hspace).mp hn
    obtain ⟨gap'', hgap'', rfl⟩ := afterMark?_eq_some_iff.mp hl'
    exact ⟨gap, gap', gap'', n, hgap, hgap', hgap'', of_decide_eq_true htest, rfl, rfl⟩
  · rintro ⟨gap, gap', gap'', n, hgap, hgap', hgap'', hkind, rfl, rfl⟩
    refine ⟨_, afterMark?_eq_some_iff.mpr ⟨gap, hgap, rfl⟩, n, gap'' ++ mark ']' :: rest, ?_,
      rest, afterMark?_eq_some_iff.mpr ⟨gap'', hgap'', rfl⟩, rfl⟩
    exact (next?_skipBlank_eq_some_iff hspace).mpr ⟨decide_eq_true hkind, gap', hgap', rfl⟩

/-- A point and an opening bracket are not both next. -/
theorem afterMark?_eq_none_of {c d : Char} (h : c ≠ d) {ts rest : List Token}
    (hc : afterMark? c ts = some rest) : afterMark? d ts = none := by
  unfold afterMark? at hc ⊢
  obtain ⟨⟨t, l⟩, ht, -⟩ := Option.map_eq_some_iff.mp hc
  obtain ⟨htest, hts⟩ := next?_eq_some_iff.mp ht
  obtain rfl : t = mark c := by simpa using htest
  simp [hts, next?, mark, h]

theorem extent?_eq_none_of {ts rest : List Token} (h : afterMark? '[' ts = some rest) :
    extent? ts = none := by
  rw [extent?, afterMark?_eq_none_of (by decide) h]
  rfl

theorem Subscripts.afterMark? {blocks : List (List Token)} {tail : List Token}
    (h : Subscripts blocks tail) (hne : blocks ≠ []) (rest : List Token) :
    ∃ left, Texelwise.afterMark? '[' (tail ++ rest) = some left := by
  cases h with
  | nil => exact absurd rfl hne
  | cons hgap =>
    exact ⟨_, afterMark?_eq_some_iff.mpr ⟨_, hgap, by simp [List.append_assoc]; rfl⟩⟩

/-- What is read at a word is what stands there, and the tokens after it are left. -/
theorem Rules.stands_of_site? {r : Rules} {t : Token} {ts rest : List Token} {site : Site}
    (hkind : t.kind = .ident) (h : r.site? t ts = some (site, rest)) :
    ∃ tail, r.Stands t site tail ∧ ts = tail ++ rest := by
  simp only [Rules.site?, hkind, ne_eq, not_true_eq_false, ↓reduceIte] at h
  split at h
  · rename_i field left hext
    obtain ⟨w, hw, heq⟩ := Option.map_eq_some_iff.mp h
    cases heq
    obtain ⟨gap, gap', f, hgap, hgap', hf, hmem, rfl, rfl⟩ := extent?_eq_some_iff.mp hext
    exact ⟨_, .field hgap hgap' hf hmem hw, by simp⟩
  · split at h
    · obtain ⟨⟨number, left⟩, hn, h⟩ := Option.bind_eq_some_iff.mp h
      obtain ⟨w, hw, heq⟩ := Option.map_eq_some_iff.mp h
      cases heq
      obtain ⟨gap, gap', gap'', n, hgap, hgap', hgap'', hnum, rfl, rfl⟩ :=
        number?_eq_some_iff.mp hn
      exact ⟨_, .output ‹_› hgap hgap' hgap'' hnum hw, by simp⟩
    · obtain ⟨kind, hread, h⟩ := Option.bind_eq_some_iff.mp h
      obtain ⟨⟨blocks, left⟩, hs, heq⟩ := Option.map_eq_some_iff.mp h
      cases heq
      obtain ⟨tail, htail, hlen, rfl⟩ := subscripts?_eq_some_iff.mp hs
      exact ⟨tail, .read ‹_› hread hlen htail, rfl⟩

/-- What stands at a word is read there, whatever follows. -/
theorem Rules.Stands.site? {r : Rules} {t : Token} {site : Site} {tail : List Token}
    (h : r.Stands t site tail) (hkind : t.kind = .ident) (rest : List Token) :
    r.site? t (tail ++ rest) = some (site, rest) := by
  simp only [Rules.site?, hkind, ne_eq, not_true_eq_false, ↓reduceIte]
  cases h with
  | @field gap gap' f w hgap hgap' hf hmem hw =>
    have hext : extent? (gap ++ mark '.' :: (gap' ++ [f]) ++ rest) = some (f.text, rest) :=
      extent?_eq_some_iff.mpr ⟨gap, gap', f, hgap, hgap', hf, hmem, rfl, by simp⟩
    rw [hext]
    simp [hw]
  | @output gap gap' gap'' n w ht hgap hgap' hgap'' hn hw =>
    have hassoc : gap ++ mark '[' :: (gap' ++ n :: (gap'' ++ [mark ']'])) ++ rest =
        gap ++ mark '[' :: (gap' ++ n :: (gap'' ++ mark ']' :: rest)) := by simp
    have hnum := number?_eq_some_iff.mpr
      ⟨gap, gap', gap'', n, hgap, hgap', hgap'', hn, rfl, hassoc⟩
    rw [extent?_eq_none_of (afterMark?_eq_some_iff.mpr ⟨gap, hgap, hassoc⟩)]
    simp only [ht, if_true, hnum, hw, Option.bind_some, Option.map_some]
  | @read kind blocks tail ht hread hlen htail =>
    have hne : blocks ≠ [] := by
      rintro rfl
      exact absurd hlen (Nat.ne_of_lt (Rank.toNat_pos _))
    obtain ⟨left, hleft⟩ := htail.afterMark? hne rest
    have hs : subscripts? kind.rank.toNat (tail ++ rest) = some (blocks, rest) :=
      subscripts?_eq_some_iff.mpr ⟨tail, htail, hlen, rfl⟩
    rw [extent?_eq_none_of hleft]
    simp [ht, hread, hs]

/-- What stands at a token is read as far as it reaches, whatever follows. -/
theorem Rules.site?_eq_some_iff {r : Rules} {t : Token} {ts rest : List Token} {site : Site} :
    r.site? t ts = some (site, rest) ↔
      t.kind = .ident ∧ ∃ tail, r.Stands t site tail ∧ ts = tail ++ rest := by
  by_cases hkind : t.kind = .ident
  · constructor
    · exact fun h => ⟨hkind, stands_of_site? hkind h⟩
    · rintro ⟨-, tail, hstands, rfl⟩
      exact hstands.site? hkind rest
  · simp [Rules.site?, hkind]

/-- No site starts at a token that the rules do not name. -/
theorem Rules.site?_eq_none_of_unnamed {r : Rules} {t : Token}
    (hreads : r.reads.lookup t.text = none) (hfields : ∀ f, r.fields.lookup (t.text, f) = none)
    (houtput : t.text = threadWord → ∀ n, r.output? n = none) (ts : List Token) :
    r.site? t ts = none := by
  rw [Rules.site?]
  split
  · rfl
  · split
    · simp [hfields]
    · split
      · rename_i hthread
        simp [houtput hthread]
      · simp [hreads]

/-! ## The pass -/

theorem Subscripts.length_lt {blocks : List (List Token)} {tail block : List Token}
    (h : Subscripts blocks tail) (hmem : block ∈ blocks) : block.length < tail.length := by
  induction h with
  | nil => cases hmem
  | cons _ _ _ _ ih =>
    simp only [List.length_append, List.length_cons]
    rcases List.mem_cons.mp hmem with rfl | hmem
    · omega
    · have := ih hmem
      omega

theorem Rules.length_of_site? {r : Rules} {t : Token} {ts rest : List Token} {site : Site}
    (h : r.site? t ts = some (site, rest)) : rest.length ≤ ts.length := by
  obtain ⟨-, tail, -, rfl⟩ := Rules.site?_eq_some_iff.mp h
  simp

theorem Rules.length_index_of_site? {r : Rules} {t : Token} {ts rest block : List Token}
    {kind : BufferKind} {indices : List (List Token)}
    (h : r.site? t ts = some (.read kind indices, rest)) (hmem : block ∈ indices) :
    block.length < ts.length := by
  obtain ⟨-, tail, hstands, rfl⟩ := Rules.site?_eq_some_iff.mp h
  cases hstands with
  | read _ _ _ htail =>
    have := htail.length_lt hmem
    simp only [List.length_append]
    omega

namespace Rules

/-- The shader text of a token list. -/
def expand (r : Rules) : List Token → Text
  | [] => []
  | t :: ts =>
    match _h : r.site? t ts with
    | none => t.text ++ r.expand ts
    | some (.read kind indices, rest) =>
      sampleText t.text kind (indices.attach.map fun ⟨i, _⟩ => r.expand i) ++ r.expand rest
    | some (.word w, rest) => w ++ r.expand rest
termination_by ts => ts.length
decreasing_by
  · simp
  · have := length_index_of_site? _h ‹_›
    simp only [List.length_cons]
    omega
  · have := length_of_site? _h
    simp only [List.length_cons]
    omega
  · have := length_of_site? _h
    simp only [List.length_cons]
    omega

variable {r : Rules} {t : Token} {ts rest : List Token}

@[simp] theorem expand_nil : r.expand [] = [] := by
  simp [expand]

theorem expand_keep (h : r.site? t ts = none) : r.expand (t :: ts) = t.text ++ r.expand ts := by
  rw [expand]
  split
  · rfl
  · rename_i h'
    rw [h] at h'
    cases h'
  · rename_i h'
    rw [h] at h'
    cases h'

theorem expand_read {kind : BufferKind} {indices : List (List Token)}
    (h : r.site? t ts = some (.read kind indices, rest)) :
    r.expand (t :: ts) = sampleText t.text kind (indices.map r.expand) ++ r.expand rest := by
  rw [expand]
  split
  · rename_i h'
    rw [h] at h'
    cases h'
  · rename_i h'
    rw [h] at h'
    cases h'
    rw [← @List.attach_map_val _ _ indices]
  · rename_i h'
    rw [h] at h'
    cases h'

theorem expand_word {w : Text} (h : r.site? t ts = some (.word w, rest)) :
    r.expand (t :: ts) = w ++ r.expand rest := by
  rw [expand]
  split
  · rename_i h'
    rw [h] at h'
    cases h'
  · rename_i h'
    rw [h] at h'
    cases h'
  · rename_i h'
    rw [h] at h'
    cases h'
    rfl

end Rules

end Texelwise

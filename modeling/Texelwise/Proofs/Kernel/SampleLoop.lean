import Texelwise.Kernel.BufferAccess
import Texelwise.Proofs.Pattern.Ranges

/-!
# The reads of buffers are replaced in rounds

A round replaces the reads of a buffer that do not overlap; a read inside an index is left for a
later round. After the rounds for one buffer come those for the next one.

* `SampleRounds`: rounds one after another until no read is left.
* `sampleReads_rounds`: replacing the reads of a buffer is just these rounds.
* `SampleAllRounds`: the rounds for one buffer after another; `SampleAllRounds.keeps` says that what
  the rounds for each buffer keep is kept.
* `sampleAllReads_rounds`: replacing the reads of all buffers of a kind is just these rounds.
-/

namespace Texelwise

/-! ## One buffer -/

/-- Rounds one after another, each replacing all reads that do not overlap, until no read is left.
Each round takes opening brackets away. -/
inductive SampleRounds (name : Text) (kind : BufferKind) : Text → Text → Prop
  | done {code : Text} (h : (Pattern.bufferRead name kind.rank).occurrences code = .ok []) :
    SampleRounds name kind code code
  | round {code next out : Text} {o : Occurrence} {os : List Occurrence}
    (h : (Pattern.bufferRead name kind.rank).occurrences code = .ok (o :: os))
    (hnext : (Pattern.bufferRead name kind.rank).replaceAll
      (fun o => sampleText name kind o.captures) code = .ok next)
    (hless : next.count '[' < code.count '[') (hrest : SampleRounds name kind next out) :
    SampleRounds name kind code out

/-- Replacing the reads of a buffer comes to an end, and is just rounds one after another until no
read is left. -/
theorem sampleReads_rounds {name : Text} (hname : '[' ∉ name) (kind : BufferKind) (code : Text) :
    ∃ out, sampleReads name hname kind code = .ok out ∧ SampleRounds name kind code out := by
  have hscan : ∀ code : Text, ∃ pieces,
      (Pattern.bufferRead name kind.rank).pieces code = .ok pieces :=
    fun code => ⟨_, Pattern.pieces_eq_walk rfl code⟩
  -- A round that replaces a read leaves fewer opening brackets.
  induction hn : code.count '[' using Nat.strongRecOn generalizing code with
  | ind n ih =>
    obtain ⟨pieces, hpieces⟩ := hscan code
    have hoccurrences : (Pattern.bufferRead name kind.rank).occurrences code =
        .ok (pieces.filterMap Piece.occurrence?) := by
      rw [Pattern.occurrences, hpieces]
      rfl
    cases hfound : pieces.filterMap Piece.occurrence? with
    | nil =>
      rw [hfound] at hoccurrences
      exact ⟨code, sampleReads_of_none hpieces hfound, .done hoccurrences⟩
    | cons o os =>
      have hsome : pieces.filterMap Piece.occurrence? ≠ [] := hfound ▸ List.cons_ne_nil o os
      have hless := count_round_lt hname kind hpieces hsome
      obtain ⟨out, hout, hrounds⟩ := ih _ (hn ▸ hless) _ rfl
      rw [hfound] at hoccurrences
      refine ⟨out, (sampleReads_of_some hpieces hsome).trans hout,
        .round hoccurrences ?_ hless hrounds⟩
      rw [Pattern.replaceAll, hpieces]
      rfl

/-! ## One buffer after another -/

/-- The rounds for one buffer after another. -/
inductive SampleAllRounds (kind : BufferKind) : List Text → Text → Text → Prop
  | nil {code : Text} : SampleAllRounds kind [] code code
  | cons {name : Text} {names : List Text} {code next out : Text}
    (h : SampleRounds name kind code next) (hrest : SampleAllRounds kind names next out) :
    SampleAllRounds kind (name :: names) code out

/-- What the rounds for each buffer keep is kept. -/
theorem SampleAllRounds.keeps {kind : BufferKind} {names : List Text} {code out : Text}
    {P : Text → Prop} (h : SampleAllRounds kind names code out)
    (hrounds : ∀ name ∈ names, ∀ code out, SampleRounds name kind code out → P code → P out)
    (hcode : P code) : P out := by
  induction h with
  | nil => exact hcode
  | cons hname _ ih =>
    exact ih (fun name hmem => hrounds name (List.mem_cons_of_mem _ hmem))
      (hrounds _ List.mem_cons_self _ _ hname hcode)

theorem sampleEach_rounds (kind : BufferKind) {names : List Text}
    (hnames : ∀ name ∈ names, '[' ∉ name) (code : Text) :
    ∃ out, sampleEach kind names hnames code = .ok out ∧ SampleAllRounds kind names code out := by
  induction names generalizing code with
  | nil => exact ⟨code, rfl, .nil⟩
  | cons name names ih =>
    obtain ⟨next, hnext, hrounds⟩ := sampleReads_rounds (hnames name List.mem_cons_self) kind code
    obtain ⟨out, hout, hrest⟩ := ih (fun n hn => hnames n (List.mem_cons_of_mem name hn)) next
    refine ⟨out, ?_, .cons hrounds hrest⟩
    rw [sampleEach, hnext]
    exact hout

/-- Replacing the reads of all buffers of a kind comes to an end, and is just the rounds for one
buffer after another. -/
theorem sampleAllReads_rounds {kind : BufferKind} {code : Text} {names : List Text}
    (h : declaredNames kind.word code = .ok names) :
    ∃ out, sampleAllReads kind code = .ok out ∧ SampleAllRounds kind names code out := by
  rw [sampleAllReads_eq h]
  exact sampleEach_rounds kind _ code

end Texelwise

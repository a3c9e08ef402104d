import Texelwise.Proofs.Pattern.Scanning
import Texelwise.Proofs.Result

/-!
# Where captures lie

The captures of a match come as a list of texts. This module says which capture of the pattern each
text belongs to, which tokens of the match it is the text of, and how these runs lie in one another.

* `Pattern.nodesFrom`: the captures of a pattern in the order of their numbers.
* `Pattern.record`: matching with one list of captures for all depths, where the place of a capture
  is reserved before its inside is matched and filled in afterwards.
* `Pattern.Laid`: where the runs of the captures of a match lie; `Pattern.exists_laid` has it for
  every match.
* `Pattern.captures_laid`: all of this for matches at one place and for the occurrences in a text.
-/

namespace Texelwise

open Token Text

/-! ## Numbers -/

/-- A capture of a pattern. -/
structure CaptureNode where
  /-- What it captures. -/
  inner : Pattern
  /-- The number of the capture that it stands directly inside of. -/
  parent : Option Nat
  deriving DecidableEq, Repr

namespace Pattern

/-- The captures of a pattern by their numbers, which start with `next`. The pattern itself stands
directly inside of `parent`. -/
def nodesFrom (parent : Option Nat) (next : Nat) : Pattern → List CaptureNode
  | .nil => []
  | .atom _ p => p.nodesFrom parent next
  | .capture inner p =>
    ⟨inner, parent⟩ ::
      (inner.nodesFrom (some next) (next + 1) ++ p.nodesFrom parent (next + inner.captureCount + 1))

theorem length_nodesFrom (p : Pattern) (parent : Option Nat) (next : Nat) :
    (p.nodesFrom parent next).length = p.captureCount := by
  induction p generalizing parent next with
  | nil => rfl
  | atom a p ih => exact ih parent next
  | capture inner p ihi ihp =>
    rw [nodesFrom, List.length_cons, List.length_append, ihi, ihp, captureCount]
    omega

/-! ## One list for all depths -/

/-- Matches a pattern and appends its captures to `captures`, with the tokens after the match. The
place of a capture is taken before the captures inside of it are. -/
def record : Pattern → List Token → List Text → Option (List Token × List Text)
  | .nil, ts, captures => some (ts, captures)
  | .atom a p, ts, captures => do
    let (_, left) ← a.split? ts
    p.record left captures
  | .capture inner p, ts, captures => do
    let (left, filled) ← inner.record ts (captures ++ [[]])
    p.record left (filled.set captures.length (textOf (ts.take (ts.length - left.length))))

/-- What a match takes is the front of the tokens. -/
theorem take_of_match? {p : Pattern} {ts : List Token} {m : Match} (h : p.match? ts = some m) :
    ts.take (ts.length - m.rest.length) = m.taken := by
  rw [← match?_append h, List.length_append, Nat.add_sub_cancel, List.take_left]

/-- The reserved places are filled with the captures of the match, in their order. -/
theorem record_eq (p : Pattern) (ts : List Token) (captures : List Text) :
    p.record ts captures = (p.match? ts).map fun m => (m.rest, captures ++ m.captures) := by
  induction p generalizing ts captures with
  | nil => simp [record, match?]
  | atom a p ih =>
    cases ha : a.split? ts with
    | none => simp [record, match?, ha]
    | some split =>
      simp only [record, match?, ha, ih, Option.bind_eq_bind, Option.bind_some]
      cases p.match? split.2 <;> rfl
  | capture inner p ihi ihp =>
    cases hi : inner.match? ts with
    | none => simp [record, match?, hi, ihi]
    | some i =>
      have hset : (captures ++ [[]] ++ i.captures).set captures.length (textOf i.taken) =
          captures ++ textOf i.taken :: i.captures := by
        simp
      simp only [record, match?, ihi, hi, ihp, Option.map_some, Option.bind_eq_bind,
        Option.bind_some, take_of_match? hi, hset]
      cases p.match? i.rest <;> simp

end Pattern

/-! ## Runs -/

/-- The tokens of a capture, by how many tokens stand before its start and its end. -/
structure CaptureRun where
  node : CaptureNode
  start : Nat
  stop : Nat
  deriving DecidableEq, Repr

/-- The tokens of a run in `all`. -/
def CaptureRun.tokens (r : CaptureRun) (all : List Token) : List Token :=
  (all.drop r.start).take (r.stop - r.start)

namespace Pattern

/-- Where the captures of a match of `p` lie. The match takes the tokens of `all` from `start` to
`stop`, its captures are numbered from `next`, and it stands directly inside of `parent`. -/
structure Laid (p : Pattern) (parent : Option Nat) (next : Nat) (all : List Token)
    (start stop : Nat) (captures : List Text) (runs : List CaptureRun) : Prop where
  /-- The runs are those of the captures of the pattern, in the order of their numbers. -/
  nodes : runs.map CaptureRun.node = p.nodesFrom parent next
  /-- Each captured text is the text of a run of tokens. -/
  texts : captures = runs.map fun r => textOf (r.tokens all)
  /-- The runs lie in the match. -/
  bounds : ∀ r ∈ runs, start ≤ r.start ∧ r.start ≤ r.stop ∧ r.stop ≤ stop
  /-- What a capture captures, matched at the start of its run, takes just the run. -/
  exact : ∀ r ∈ runs, (r.node.inner.match? (all.drop r.start)).map Match.taken = some (r.tokens all)
  /-- A capture that does not stand at the top comes after the one around it and lies in its
  run. -/
  nested : ∀ i r, runs[i]? = some r → r.node.parent = parent ∨
    ∃ k q, r.node.parent = some (next + k) ∧ k < i ∧ runs[k]? = some q ∧
      q.start ≤ r.start ∧ r.stop ≤ q.stop
  /-- Of two captures directly inside of the same one, the first ends before the second starts. -/
  ordered : runs.Pairwise fun r s => r.node.parent = s.node.parent → r.stop ≤ s.start

section

variable {inner p : Pattern} {parent : Option Nat} {next start mid stop : Nat} {all : List Token}
  {captures more : List Text} {runs later : List CaptureRun}

theorem Laid.length_runs (h : p.Laid parent next all start stop captures runs) :
    runs.length = p.captureCount := by
  rw [← p.length_nodesFrom parent next, ← h.nodes, List.length_map]

/-- Captures have the number around them that comes last before them. -/
theorem Laid.parent_of_mem (h : p.Laid parent next all start stop captures runs) {r : CaptureRun}
    (hr : r ∈ runs) : r.node.parent = parent ∨ ∃ k, r.node.parent = some (next + k) := by
  obtain ⟨i, hi⟩ := List.getElem?_of_mem hr
  exact (h.nested i r hi).imp_right fun ⟨k, _, hk, _⟩ => ⟨k, hk⟩

theorem laid_nil : Pattern.nil.Laid parent next all start start [] [] where
  nodes := rfl
  texts := rfl
  bounds := by simp
  exact := by simp
  nested := by simp
  ordered := .nil

/-- An atom adds no capture. -/
theorem Laid.atom (a : Atom) (h : p.Laid parent next all mid stop captures runs)
    (hle : start ≤ mid) : (Pattern.atom a p).Laid parent next all start stop captures runs where
  nodes := h.nodes
  texts := h.texts
  bounds r hr := by
    have := h.bounds r hr
    omega
  exact := h.exact
  nested := h.nested
  ordered := h.ordered

/-- A capture comes before the captures inside of it, and these before the ones behind it. -/
theorem Laid.capture (hi : inner.Laid (some next) (next + 1) all start mid captures runs)
    (hp : p.Laid parent (next + inner.captureCount + 1) all mid stop more later)
    (hparent : ∀ k ∈ parent, k < next) (hstart : start ≤ mid) (hmid : mid ≤ stop)
    (hexact : (inner.match? (all.drop start)).map Match.taken =
      some (CaptureRun.tokens ⟨⟨inner, parent⟩, start, mid⟩ all)) :
    (Pattern.capture inner p).Laid parent next all start stop
      (textOf (CaptureRun.tokens ⟨⟨inner, parent⟩, start, mid⟩ all) :: (captures ++ more))
      (⟨⟨inner, parent⟩, start, mid⟩ :: (runs ++ later)) where
  nodes := by rw [List.map_cons, List.map_append, hi.nodes, hp.nodes, nodesFrom]
  texts := by rw [List.map_cons, List.map_append, ← hi.texts, ← hp.texts]
  bounds r hr := by
    rcases List.mem_cons.mp hr with rfl | hr
    · exact ⟨Nat.le_refl _, hstart, hmid⟩
    · rcases List.mem_append.mp hr with hr | hr
      · have := hi.bounds r hr
        omega
      · have := hp.bounds r hr
        omega
  exact r hr := by
    rcases List.mem_cons.mp hr with rfl | hr
    · exact hexact
    · exact (List.mem_append.mp hr).elim (hi.exact r) (hp.exact r)
  nested i r hr := by
    have hlen := hi.length_runs
    cases i with
    | zero =>
      obtain rfl : _ = r := by simpa using hr
      exact .inl rfl
    | succ i =>
      rw [List.getElem?_cons_succ] at hr
      by_cases hlt : i < runs.length
      · rw [List.getElem?_append_left hlt] at hr
        right
        rcases hi.nested i r hr with hnode | ⟨k, q, hnode, hk, hq, hin⟩
        · -- directly inside of the capture itself
          have := hi.bounds r (List.mem_of_getElem? hr)
          exact ⟨0, _, hnode, Nat.succ_pos i, rfl, this.1, this.2.2⟩
        · refine ⟨k + 1, q, by rw [hnode]; congr 1; omega, by omega, ?_, hin⟩
          rwa [List.getElem?_cons_succ, List.getElem?_append_left (by omega)]
      · rw [List.getElem?_append_right (by omega)] at hr
        refine (hp.nested _ r hr).imp_right ?_
        rintro ⟨k, q, hnode, hk, hq, hin⟩
        refine ⟨runs.length + k + 1, q, by rw [hnode]; congr 1; omega, by omega, ?_, hin⟩
        rw [List.getElem?_cons_succ, List.getElem?_append_right (by omega)]
        simpa using hq
  ordered := by
    refine .cons (fun r hr hsame => ?_) (List.pairwise_append.mpr
      ⟨hi.ordered, hp.ordered, fun r hr s hs _ => ?_⟩)
    · rcases List.mem_append.mp hr with hr | hr
      · -- what stands inside of the capture does not stand beside it
        have hlt : ∀ k, parent = some k → k < next := hparent
        rcases hi.parent_of_mem hr with hnode | ⟨k, hnode⟩
        · have := hlt next (hsame.trans hnode)
          omega
        · have := hlt _ (hsame.trans hnode)
          omega
      · exact (hp.bounds r hr).1
    · exact (hi.bounds r hr).2.2.trans (hp.bounds s hs).1

end

/-- The captures of every match lie in it. -/
theorem exists_laid {p : Pattern} {ts : List Token} {m : Match} (h : p.match? ts = some m)
    (parent : Option Nat) (next : Nat) (hparent : ∀ k ∈ parent, k < next) (before : List Token) :
    ∃ runs, p.Laid parent next (before ++ ts) before.length (before.length + m.taken.length)
      m.captures runs := by
  induction p generalizing ts m parent next before with
  | nil =>
    cases h
    exact ⟨[], laid_nil⟩
  | atom a p ih =>
    obtain ⟨run, left, n, ha, hn, rfl⟩ := exists_of_match?_atom h
    obtain ⟨runs, hruns⟩ := ih hn parent next hparent (before ++ run)
    have hstop : (before ++ run).length + n.taken.length =
        before.length + (run ++ n.taken).length := by
      simp only [List.length_append]
      omega
    rw [List.append_assoc, Atom.split?_append ha, hstop] at hruns
    exact ⟨runs, hruns.atom a (by simp)⟩
  | capture inner p ihi ihp =>
    obtain ⟨i, n, hi, hn, rfl⟩ := exists_of_match?_capture h
    have happ := match?_append hi
    -- The captures inside get the next numbers and have this one as their parent.
    obtain ⟨runs, hruns⟩ := ihi hi (some next) (next + 1) (by simp) before
    obtain ⟨later, hlater⟩ := ihp hn parent (next + inner.captureCount + 1)
      (fun k hk => by have := hparent k hk; omega) (before ++ i.taken)
    have hmid : (before ++ i.taken).length = before.length + i.taken.length := List.length_append
    have hstop : before.length + i.taken.length + n.taken.length =
        before.length + (i.taken ++ n.taken).length := by
      rw [List.length_append, Nat.add_assoc]
    rw [List.append_assoc, happ, hmid, hstop] at hlater
    have htokens : CaptureRun.tokens ⟨⟨inner, parent⟩, before.length,
        before.length + i.taken.length⟩ (before ++ ts) = i.taken := by
      rw [CaptureRun.tokens, List.drop_left, Nat.add_sub_cancel_left, ← happ, List.take_left]
    have hlaid := hruns.capture hlater hparent (Nat.le_add_right _ _) (by simp)
      (by rw [List.drop_left, hi, htokens]; rfl)
    rw [htokens] at hlaid
    exact ⟨_, hlaid⟩

theorem exists_laid_match {p : Pattern} {ts : List Token} {m : Match} (h : p.match? ts = some m) :
    ∃ runs, p.Laid none 0 ts 0 m.taken.length m.captures runs := by
  obtain ⟨runs, hruns⟩ := exists_laid h none 0 (by simp) []
  rw [List.nil_append, List.length_nil, Nat.zero_add] at hruns
  exact ⟨runs, hruns⟩

/-! ## Occurrences -/

/-- The pieces of a scan that succeeds are those of a walk. -/
theorem eq_walk_of_scan {p : Pattern} {ts : List Token} {ps : List Piece}
    (h : p.scan ts = .ok ps) : ps = p.walk ts := by
  fun_induction scan p ts generalizing ps with
  | case1 =>
    cases h
    simp
  | case2 t ts hm ih =>
    obtain ⟨qs, hqs, rfl⟩ := ok_of_map h
    rw [walk_keep hm, ← ih hqs]
  | case3 t ts m hm hlt ih =>
    obtain ⟨qs, hqs, rfl⟩ := ok_of_map h
    rw [walk, hm, ih hqs]
    exact (if_pos hlt).symm
  | case4 => cases h

/-- A match has as many captured texts as the pattern has captures at all depths, numbered outer
before inner and left before right, and they lie in one another as the captures of the pattern do.
So it is for a match at one place, for the list that is filled on the way, and for every occurrence
in a text. -/
theorem captures_laid (p : Pattern) :
    (∀ ts m, p.match? ts = some m → m.captures.length = p.captureCount ∧
      ∃ runs, p.Laid none 0 ts 0 m.taken.length m.captures runs) ∧
    (∀ ts captures, p.record ts captures =
      (p.match? ts).map fun m => (m.rest, captures ++ m.captures)) ∧
    (∀ code found, p.findAll code = .ok found → ∀ f ∈ found,
      f.occurrence.captures.length = p.captureCount ∧
      ∃ before after runs, tokenize code = before ++ (f.occurrence.taken ++ after) ∧
        f.start = byteLength (textOf before) ∧
        p.Laid none 0 (f.occurrence.taken ++ after) 0 f.occurrence.taken.length
          f.occurrence.captures runs) := by
  refine ⟨fun ts m h => ⟨length_captures h, exists_laid_match h⟩, p.record_eq,
    fun code found h f hf => ?_⟩
  obtain ⟨ps, hps, rfl⟩ := ok_of_map h
  rw [eq_walk_of_scan hps] at hf
  obtain ⟨before, after, hts, hstart, -, hmatch⟩ := exists_of_mem_locate_walk hf
  rw [Nat.zero_add] at hstart
  obtain ⟨runs, hruns⟩ := exists_laid_match hmatch
  exact ⟨length_captures hmatch, before, after, runs, hts, hstart, hruns⟩

/-- In `f(u.w, 1)` the captures `f`, `u.w, 1`, `u`, `w` and `1` are numbered in this order. -/
theorem captures_laid_call :
    let p := group alphanumeric ++ mark '(' ++ group (group alphanumeric ++ mark '.' ++
      group alphanumeric ++ mark ',' ++ spaceOptional ++ group numeric) ++ mark ')'
    ∃ f, p.findAll "f(u.w, 1)".toList = .ok [f] ∧
      f.occurrence.captures = [['f'], "u.w, 1".toList, ['u'], ['w'], ['1']] ∧
      ∃ before after runs, tokenize "f(u.w, 1)".toList = before ++ (f.occurrence.taken ++ after) ∧
        p.Laid none 0 (f.occurrence.taken ++ after) 0 f.occurrence.taken.length
          f.occurrence.captures runs := by
  intro p
  have hfound : p.findAll "f(u.w, 1)".toList = .ok [⟨⟨tokenize "f(u.w, 1)".toList,
      [['f'], "u.w, 1".toList, ['u'], ['w'], ['1']]⟩, 0, 9⟩] := by decide +kernel
  obtain ⟨-, before, after, runs, hts, -, hruns⟩ :=
    (captures_laid p).2.2 _ _ hfound _ List.mem_cons_self
  exact ⟨_, hfound, rfl, before, after, runs, hts, hruns⟩

end Pattern

end Texelwise

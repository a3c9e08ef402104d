import Texelwise.Kernel.ThreadAccess
import Texelwise.Proofs.Expansion.Sample
import Texelwise.Proofs.Pattern.Sweep
import Texelwise.Proofs.Token.Block

/-!
# Greedy matching loses nothing

What a pattern may stand for, as a relation that knows nothing of greed: an optional space is no
token or one, and a code block is any run with its brackets in order. For a pattern in general the
matcher finds less, since it never takes back a token. It finds everything where each optional
space and each code block has a guard: the next atom takes no token that they would go on with.

* `WellNested`: brackets in order, stated by counts; `closes_iff` says that it is what `blockRun`
  takes.
* `Pattern.Fits`: the relation; `fits_of_match?` says that every match is in it.
* `Pattern.Guarded`: the guards; `match?_of_fits` says that then the matcher finds the run, so that
  there is one at most.
* `Pattern.Composed`: the patterns of the compiler, which are all guarded.
-/

namespace Texelwise

open Token

/-! ## Brackets in order -/

/-- The number of opening brackets among some tokens. -/
def openers (ts : List Token) : Nat := ts.countP (·.role = .opener)

/-- The number of closing brackets among some tokens. -/
def closers (ts : List Token) : Nat := ts.countP (·.role = .closer)

/-- Inside `depth` open brackets, the run closes them all and every bracket of its own: no part from
the front on closes more than is open, there is no brace, and a semicolon stands inside brackets. -/
structure WellNested (depth : Nat) (run : List Token) : Prop where
  prefixes : ∀ before after, run = before ++ after → closers before ≤ depth + openers before
  total : closers run = depth + openers run
  no_brace : ∀ t ∈ run, t.role ≠ .brace
  semicolon : ∀ before t after, run = before ++ t :: after → t.role = .semicolon →
    closers before < depth + openers before

theorem openers_cons (t : Token) (ts : List Token) :
    openers (t :: ts) = openers ts + if t.role = .opener then 1 else 0 := by
  simp [openers, List.countP_cons]

theorem closers_cons (t : Token) (ts : List Token) :
    closers (t :: ts) = closers ts + if t.role = .closer then 1 else 0 := by
  simp [closers, List.countP_cons]

/-- The depth after a token in terms of what it opens and closes. -/
theorem depthAfter_eq_some_iff {role : BlockRole} {depth next : Nat} :
    role.depthAfter depth = some next ↔
      role ≠ .brace ∧ (role = .semicolon → 0 < depth) ∧
        next + (if role = .closer then 1 else 0) = depth + if role = .opener then 1 else 0 := by
  cases role <;> simp [BlockRole.depthAfter] <;> omega

theorem wellNested_nil {depth : Nat} : WellNested depth [] ↔ depth = 0 := by
  constructor
  · intro h
    have htotal := h.total
    simp only [openers, closers, List.countP_nil, Nat.add_zero] at htotal
    exact htotal.symm
  · rintro rfl
    refine ⟨fun before after h => ?_, rfl, by simp, fun before t after h => by simp at h⟩
    obtain ⟨rfl, -⟩ := List.append_eq_nil_iff.mp h.symm
    exact Nat.le_refl 0

/-- The first token of a run in order is taken, and the rest is in order at the depth after it. -/
theorem WellNested.of_cons {depth : Nat} {t : Token} {ts : List Token}
    (h : WellNested depth (t :: ts)) :
    ∃ next, t.role.depthAfter depth = some next ∧ WellNested next ts := by
  have hfirst : (if t.role = .closer then 1 else 0) ≤
      depth + if t.role = .opener then 1 else 0 := by
    simpa [openers, closers] using h.prefixes [t] ts rfl
  obtain ⟨next, hnext⟩ := Nat.exists_eq_add_of_le' hfirst
  have hdepth : t.role.depthAfter depth = some next :=
    depthAfter_eq_some_iff.mpr ⟨h.no_brace t List.mem_cons_self, h.semicolon [] t ts rfl,
      hnext.symm⟩
  refine ⟨next, hdepth, ?_, ?_, fun u hu => h.no_brace u (List.mem_cons_of_mem t hu), ?_⟩
  · intro before after heq
    have hpart := h.prefixes (t :: before) after (by rw [heq]; rfl)
    rw [openers_cons, closers_cons] at hpart
    omega
  · have htotal := h.total
    rw [openers_cons, closers_cons] at htotal
    omega
  · intro before u after heq hu
    have hpart := h.semicolon (t :: before) u after (by rw [heq]; rfl) hu
    rw [openers_cons, closers_cons] at hpart
    omega

/-- A token that is taken at a depth stands before a run in order at the depth after it. -/
theorem WellNested.cons {depth next : Nat} {t : Token} {ts : List Token}
    (hnext : t.role.depthAfter depth = some next) (h : WellNested next ts) :
    WellNested depth (t :: ts) := by
  obtain ⟨hbrace, hsemicolon, hdepth⟩ := depthAfter_eq_some_iff.mp hnext
  refine ⟨?_, ?_, ?_, ?_⟩
  · intro before after heq
    cases before with
    | nil => exact Nat.zero_le _
    | cons u before =>
      obtain ⟨rfl, rfl⟩ := List.cons_eq_cons.mp heq
      have hpart := h.prefixes before after rfl
      rw [openers_cons, closers_cons]
      omega
  · have htotal := h.total
    rw [openers_cons, closers_cons]
    omega
  · intro u hu
    rcases List.mem_cons.mp hu with rfl | hu
    · exact hbrace
    · exact h.no_brace u hu
  · intro before u after heq hu
    cases before with
    | nil =>
      obtain ⟨rfl, rfl⟩ := List.cons_eq_cons.mp heq
      exact hsemicolon hu
    | cons v before =>
      obtain ⟨rfl, rfl⟩ := List.cons_eq_cons.mp heq
      have hpart := h.semicolon before u after rfl hu
      rw [openers_cons, closers_cons]
      omega

theorem wellNested_cons {depth : Nat} {t : Token} {ts : List Token} :
    WellNested depth (t :: ts) ↔
      ∃ next, t.role.depthAfter depth = some next ∧ WellNested next ts :=
  ⟨WellNested.of_cons, fun ⟨_, hnext, h⟩ => h.cons hnext⟩

/-- The runs with brackets in order are the ones that a block of this depth can be. -/
theorem closes_iff {depth : Nat} {run : List Token} : Closes depth run ↔ WellNested depth run := by
  induction run generalizing depth with
  | nil => rw [closes_nil, wellNested_nil]
  | cons t run ih => simp only [closes_cons, wellNested_cons, ih]

/-! ## What a pattern may stand for -/

/-- What an atom may stand for: one token that it takes, no token for an optional space, and for a
code block some tokens with their brackets in order. -/
inductive Atom.Fits : Atom → List Token → Prop
  | single {a : Atom} {t : Token} (h : a.accepts t = true) : Fits a [t]
  | noSpace : Fits .spaceOptional []
  | block {run : List Token} (hne : run ≠ []) (h : WellNested 0 run) : Fits .codeBlock run

/-- What a pattern may stand for, with the captured texts: its parts one after another. -/
inductive Pattern.Fits : Pattern → List Token → List Text → Prop
  | nil : Fits .nil [] []
  | atom {a : Atom} {p : Pattern} {first run : List Token} {captures : List Text}
      (ha : a.Fits first) (hp : Fits p run captures) : Fits (.atom a p) (first ++ run) captures
  | capture {inner p : Pattern} {part run : List Token} {inside captures : List Text}
      (hi : Fits inner part inside) (hp : Fits p run captures) :
      Fits (.capture inner p) (part ++ run) (textOf part :: (inside ++ captures))

/-- The pattern may stand for the tokens from position `start` to position `stop`. -/
def Pattern.Admits (p : Pattern) (ts : List Token) (start stop : Nat) (captures : List Text) :
    Prop :=
  ∃ before run after, ts = before ++ (run ++ after) ∧ before.length = start ∧
    start + run.length = stop ∧ p.Fits run captures

/-- Where the match at position `start` ends, with its captures. -/
def Pattern.matchAt? (p : Pattern) (ts : List Token) (start : Nat) : Option (Nat × List Text) :=
  (p.match? (ts.drop start)).map fun m => (start + m.taken.length, m.captures)

/-! ## Every match fits -/

theorem Atom.fits_of_split? {a : Atom} {ts run rest : List Token}
    (h : a.split? ts = some (run, rest)) : a.Fits run := by
  unfold Atom.split? at h
  split at h
  · obtain ⟨hrun, hne⟩ := Option.filter_eq_some_iff.mp h
    exact .block (by simpa using hne) (closes_iff.mp (blockRun_eq_some hrun).1)
  · cases h
    exact .noSpace
  · split at h
    · cases h
      exact .single ‹_›
    · cases h
      exact .noSpace
  · cases h
  · split at h
    · cases h
      exact .single ‹_›
    · cases h

/-- A match is one of the runs that the pattern may stand for. -/
theorem Pattern.fits_of_match? {p : Pattern} {ts : List Token} {m : Match}
    (h : p.match? ts = some m) : p.Fits m.taken m.captures := by
  induction p generalizing ts m with
  | nil =>
    cases h
    exact .nil
  | atom a p ih =>
    obtain ⟨run, left, n, ha, hn, rfl⟩ := exists_of_match?_atom h
    exact .atom (Atom.fits_of_split? ha) (ih hn)
  | capture inner p ihi ihp =>
    obtain ⟨i, n, hi, hn, rfl⟩ := exists_of_match?_capture h
    exact .capture (ihi hi) (ihp hn)

/-! ## Guards -/

/-- The marks before which every code block stops. -/
def blockStops : List Char := [')', ']', '\x7b', '\x7d', ';']

/-- Whether the atom takes no more than it should if `next` comes after it: an optional space before
a token that is no space, and a code block before a mark that stops it. -/
def Atom.stopsBefore (next : Option Atom) : Atom → Bool
  | .spaceOptional =>
    match next with
    | some (.literal w) => !w.isAllBlank
    | some .alphanumeric | some .numeric => true
    | _ => false
  | .codeBlock =>
    match next with
    | some (.literal w) => blockStops.any fun c => w = [c]
    | _ => false
  | _ => true

namespace Pattern

/-- The first atom at any depth. -/
def firstAtom? : Pattern → Option Atom
  | .nil => none
  | .atom a _ => some a
  | .capture inner p => inner.firstAtom?.or p.firstAtom?

/-- Whether every atom stops before the one after it, where `next` comes after the pattern. -/
def Guarded (next : Option Atom) : Pattern → Bool
  | .nil => true
  | .atom a p => a.stopsBefore (p.firstAtom?.or next) && p.Guarded next
  | .capture inner p => inner.Guarded (p.firstAtom?.or next) && p.Guarded next

end Pattern

/-- Where an atom comes next, the tokens start with a run that it may stand for. -/
def Leads (next : Option Atom) (rest : List Token) : Prop :=
  ∀ a ∈ next, ∃ run after, a.Fits run ∧ rest = run ++ after

theorem leads_none (rest : List Token) : Leads none rest := by
  intro a ha
  cases ha

/-- What follows is led by the first atom of the pattern, or by what comes after the pattern. -/
theorem Pattern.Fits.leads {p : Pattern} {run : List Token} {captures : List Text}
    (h : p.Fits run captures) {next : Option Atom} {rest : List Token} (hrest : Leads next rest) :
    Leads (p.firstAtom?.or next) (run ++ rest) := by
  induction h generalizing next rest with
  | nil => exact hrest
  | @atom a p first run captures ha hp ih =>
    rintro b hb
    cases hb
    exact ⟨first, run ++ rest, ha, List.append_assoc _ _ _⟩
  | @capture inner p part run inside captures hi hp ihi ihp =>
    rw [firstAtom?, Option.or_assoc, List.append_assoc]
    exact ihi (ihp hrest)

/-! ## Guarded patterns -/

section

variable {next : Option Atom} {rest : List Token}

/-- No space comes after an optional space that has a guard. -/
theorem Leads.kind_ne (hlead : Leads next rest) (hstop : Atom.spaceOptional.stopsBefore next = true)
    (hblank : ∀ t ∈ rest, t.kind = .space → t.text.isAllBlank = true) :
    ∀ t ∈ rest.head?, t.kind ≠ .space := by
  intro t ht hspace
  have htext := hblank t (List.mem_of_mem_head? ht) hspace
  cases next with
  | none => cases hstop
  | some a =>
    obtain ⟨run, after, ha, rfl⟩ := hlead a rfl
    cases ha with
    | noSpace => cases hstop
    | block => cases hstop
    | @single a u hu =>
      obtain rfl : u = t := by simpa using ht
      cases a <;> simp_all [Atom.accepts, Atom.stopsBefore]

/-- No token comes after a code block that has a guard with which the block could go on. -/
theorem Leads.depthAfter_eq_none (hlead : Leads next rest)
    (hstop : Atom.codeBlock.stopsBefore next = true) :
    ∀ t ∈ rest.head?, t.role.depthAfter 0 = none := by
  intro t ht
  cases next with
  | none => cases hstop
  | some a =>
    obtain ⟨run, after, ha, rfl⟩ := hlead a rfl
    cases ha with
    | noSpace => cases hstop
    | block => cases hstop
    | @single a u hu =>
      obtain rfl : u = t := by simpa using ht
      cases a with
      | literal w =>
        obtain ⟨c, hc, hw⟩ := List.any_eq_true.mp hstop
        have htext : u.text = [c] := (of_decide_eq_true hu).trans (of_decide_eq_true hw)
        have hall : blockStops.all fun c => (Token.role ⟨.punct, [c]⟩).depthAfter 0 = none := by
          decide
        have hrole : u.role = Token.role ⟨.punct, [c]⟩ := by
          unfold Token.role
          rw [htext]
        rw [hrole]
        exact of_decide_eq_true (List.all_eq_true.mp hall c hc)
      | _ => cases hstop

/-- An atom with a guard takes just the run that it stands for. -/
theorem Atom.Fits.split?_eq {a : Atom} {run : List Token} (h : a.Fits run)
    (hstop : a.stopsBefore next = true) (hlead : Leads next rest)
    (hblank : ∀ t ∈ rest, t.kind = .space → t.text.isAllBlank = true) :
    a.split? (run ++ rest) = some (run, rest) := by
  cases h with
  | @single a t ht => cases a <;> simp_all [Atom.split?, Atom.accepts]
  | noSpace =>
    have hkind := hlead.kind_ne hstop hblank
    cases rest with
    | nil => rfl
    | cons t rest => simp [Atom.split?, Atom.accepts, hkind t rfl]
  | block hne hnested =>
    have hrun := (closes_iff.mpr hnested).blockRun_eq (hlead.depthAfter_eq_none hstop)
    simp [Atom.split?, hrun, hne]

end

/-- A guarded pattern takes just the run that it stands for, whatever it is led by. -/
theorem Pattern.match?_of_fits {p : Pattern} {run : List Token} {captures : List Text}
    (h : p.Fits run captures) {next : Option Atom} (hguard : p.Guarded next = true)
    {rest : List Token} (hlead : Leads next rest)
    (hblank : ∀ t ∈ run ++ rest, t.kind = .space → t.text.isAllBlank = true) :
    p.match? (run ++ rest) = some ⟨run, captures, rest⟩ := by
  induction h generalizing next rest with
  | nil => rfl
  | @atom a p first run captures ha hp ih =>
    rw [Guarded, Bool.and_eq_true] at hguard
    have hblank' : ∀ t ∈ run ++ rest, t.kind = .space → t.text.isAllBlank = true :=
      fun t ht => hblank t (by simp_all)
    have hfirst := ha.split?_eq hguard.1 (hp.leads hlead) hblank'
    rw [List.append_assoc, match?, hfirst]
    simp [ih hguard.2 hlead hblank']
  | @capture inner p part run inside captures hi hp ihi ihp =>
    rw [Guarded, Bool.and_eq_true] at hguard
    have hblank' : ∀ t ∈ run ++ rest, t.kind = .space → t.text.isAllBlank = true :=
      fun t ht => hblank t (by simp_all)
    have hinner := ihi hguard.1 (hp.leads hlead) fun t ht => hblank t (by simp_all)
    rw [List.append_assoc, match?, hinner]
    simp [ihp hguard.2 hlead hblank']

/-- Without a guard a block takes the token that the next atom needs. -/
example :
    (Pattern.codeBlock ++ Pattern.mark 'b' : Pattern).match? [word ['a'], word ['b']] = none := by
  decide

/-- A guarded pattern matches where it may stand for some tokens, and then takes those. -/
theorem Pattern.admits_iff_of_guarded {p : Pattern} (hguard : p.Guarded none = true)
    (hp : p.Consumes = true) {ts : List Token}
    (hblank : ∀ t ∈ ts, t.kind = .space → t.text.isAllBlank = true) (start stop : Nat)
    (captures : List Text) :
    p.Admits ts start stop captures ↔ p.matchAt? ts start = some (stop, captures) := by
  constructor
  · rintro ⟨before, run, after, rfl, rfl, rfl, hfits⟩
    have hmatch := match?_of_fits hfits hguard (leads_none after) fun t ht =>
      hblank t (List.mem_append_right before ht)
    rw [matchAt?, List.drop_left, hmatch]
    rfl
  · intro h
    obtain ⟨m, hm, heq⟩ := Option.map_eq_some_iff.mp h
    cases heq
    have hlt : start < ts.length := by
      by_contra hge
      rw [List.drop_eq_nil_of_le (Nat.le_of_not_lt hge)] at hm
      exact absurd (length_lt_of_match? hp hm) (Nat.not_lt_zero _)
    refine ⟨ts.take start, m.taken, m.rest, ?_, ?_, rfl, fits_of_match? hm⟩
    · rw [match?_append hm, List.take_append_drop]
    · rw [List.length_take, Nat.min_eq_left hlt.le]

/-! ## The patterns of the compiler -/

namespace Pattern

/-- The patterns of the compiler: headers, declarations with any type or a given one, reads of a
buffer of any name and rank, extents of anything, and outputs. -/
inductive Composed : Pattern → Prop
  | header : Composed .header
  | emptyHeader : Composed .emptyHeader
  | anyDeclaration : Composed .anyDeclaration
  | declaration (type : Text) : Composed (.declaration (.literal type))
  | bufferRead (name : Text) (rank : Rank) : Composed (.bufferRead name rank)
  | field (name : Text) {field : Text} (h : field ∈ extentFields) : Composed (.field name field)
  | output : Composed .output

namespace Composed

variable {p : Pattern}

theorem consumes (h : p.Composed) : p.Consumes = true := by
  cases h <;> rfl

/-- After a code block every one of them has a closing bracket, and after an optional space a mark,
a word or a number. -/
theorem guarded (h : p.Composed) : p.Guarded none = true := by
  cases h with
  | header => decide
  | emptyHeader => decide
  | anyDeclaration => decide
  | declaration type => rfl
  | bufferRead name rank => cases rank <;> rfl
  | @field name f h =>
    have hall : ∀ f ∈ extentFields, f.isAllBlank = false := by decide
    simp [Pattern.field, Guarded, spaceOptional, mark, literal, Atom.stopsBefore, firstAtom?,
      hall f h]
    decide
  | output => decide

/-- Greedy matching is complete for the patterns of the compiler: from a position on, such a pattern
may stand for one run at most, the match at the position takes that run with the same captures, and
there is no match only where there is no such run. Tokens that are blank by their kind have to be
blank by their text, as all tokens of a text are (`isAllBlank_of_mem_tokenize`). -/
theorem matchAt?_complete (h : p.Composed) {ts : List Token}
    (hblank : ∀ t ∈ ts, t.kind = .space → t.text.isAllBlank = true) (start : Nat) :
    (∀ stop stop' captures captures', p.Admits ts start stop captures →
      p.Admits ts start stop' captures' → stop = stop' ∧ captures = captures') ∧
    (∀ stop captures, p.Admits ts start stop captures →
      p.matchAt? ts start = some (stop, captures)) ∧
    (p.matchAt? ts start = none ↔ ∀ stop captures, ¬p.Admits ts start stop captures) := by
  have hiff := admits_iff_of_guarded h.guarded h.consumes hblank start
  refine ⟨fun stop stop' captures captures' hadmit hadmit' => ?_,
    fun stop captures => (hiff stop captures).mp, ?_⟩
  · have heq := ((hiff stop captures).mp hadmit).symm.trans ((hiff stop' captures').mp hadmit')
    simpa using heq
  · simp only [hiff]
    cases p.matchAt? ts start with
    | none => simp
    | some s => exact ⟨fun h => (by cases h), fun h => absurd rfl (h s.1 s.2)⟩

/-- In `v = m [f(i;)] [j]];` the read of `m` stands for the tokens from 4 to 17 and for no
others. -/
theorem matchAt?_complete_read :
    (Pattern.bufferRead ['m'] .two).Admits (tokenize "v = m [f(i;)] [j]];".toList) 4 17
      ["f(i;)".toList, ['j']] ∧
    ∀ stop captures,
      (Pattern.bufferRead ['m'] .two).Admits (tokenize "v = m [f(i;)] [j]];".toList) 4 stop
          captures →
        stop = 17 ∧ captures = ["f(i;)".toList, ['j']] := by
  obtain ⟨-, hfound, hnone⟩ :=
    matchAt?_complete (.bufferRead ['m'] .two) isAllBlank_of_mem_tokenize 4
  have hvalue : (Pattern.bufferRead ['m'] .two).matchAt? (tokenize "v = m [f(i;)] [j]];".toList) 4 =
      some (17, ["f(i;)".toList, ['j']]) := by decide +kernel
  have honly : ∀ stop captures, (Pattern.bufferRead ['m'] .two).Admits
      (tokenize "v = m [f(i;)] [j]];".toList) 4 stop captures →
        stop = 17 ∧ captures = ["f(i;)".toList, ['j']] := by
    intro stop captures hadmit
    have heq := (hfound stop captures hadmit).symm.trans hvalue
    simpa using heq
  refine ⟨?_, honly⟩
  by_contra hno
  have hmissing := hnone.mpr fun stop captures hadmit => by
    obtain ⟨rfl, rfl⟩ := honly stop captures hadmit
    exact hno hadmit
  rw [hvalue] at hmissing
  cases hmissing

end Composed

end Pattern

end Texelwise

import Mathlib.Data.List.TakeWhile
import Texelwise.Pattern.Scan
import Texelwise.Proofs.Expansion.Rules

/-!
# Sweeps

Listing and replacing go over a text in the same way. A sweep says what is collected on the way, and
a sweep over a text is put together from sweeps over its parts.

* `Pattern.walk`: the pieces of a scan, which cannot fail for a pattern that takes a token.
* `Pattern.read?`: what a pattern captures, in terms of the readers of sites.
* `Sweep`: what is collected from the pieces; `Sweep.Turns`: what a text contributes, whatever
  follows it.
-/

namespace Texelwise

open Token

namespace Pattern

/-! ## Progress -/

theorem split?_ne_nil {a : Atom} (ha : a ≠ .spaceOptional) {ts run rest : List Token}
    (h : a.split? ts = some (run, rest)) : run ≠ [] := by
  unfold Atom.split? at h
  split at h
  · obtain ⟨-, hne⟩ := Option.filter_eq_some_iff.mp h
    simpa using hne
  · exact absurd rfl ha
  · exact absurd rfl ha
  · cases h
  · split at h
    · cases h
      simp
    · cases h

/-- A pattern that consumes takes a token. -/
theorem length_lt_of_match? {p : Pattern} (hp : p.Consumes = true) {ts : List Token} {m : Match}
    (h : p.match? ts = some m) : m.rest.length < ts.length := by
  have hle : ∀ {p : Pattern} {ts : List Token} {m : Match}, p.match? ts = some m →
      m.rest.length ≤ ts.length := by
    intro p ts m h
    rw [← match?_append h, List.length_append]
    omega
  induction p generalizing ts m with
  | nil => cases hp
  | atom a p ih =>
    obtain ⟨run, left, n, ha, hn, rfl⟩ := exists_of_match?_atom h
    have happ := congrArg List.length (Atom.split?_append ha)
    rw [List.length_append] at happ
    show n.rest.length < ts.length
    by_cases hspace : a = .spaceOptional
    · have hrest : n.rest.length < left.length := ih (by simpa [Consumes, hspace] using hp) hn
      omega
    · have hrest : n.rest.length ≤ left.length := hle hn
      have hrun := List.length_pos_of_ne_nil (split?_ne_nil hspace ha)
      omega
  | capture inner p ihi ihp =>
    obtain ⟨i, n, hi, hn, rfl⟩ := exists_of_match?_capture h
    show n.rest.length < ts.length
    rw [Consumes, Bool.or_eq_true] at hp
    rcases hp with hp | hp
    · have hinner := ihi hp hi
      have hrest := hle hn
      omega
    · have hinner := hle hi
      have hrest := ihp hp hn
      omega

/-! ## Walks -/

/-- The pieces of a scan. -/
def walk (p : Pattern) : List Token → List Piece
  | [] => []
  | t :: ts =>
    match p.match? (t :: ts) with
    | none => .kept t :: walk p ts
    | some m =>
      if m.rest.length < (t :: ts).length then .found ⟨m.taken, m.captures⟩ :: walk p m.rest
      else []
termination_by ts => ts.length
decreasing_by
  · exact Nat.lt_succ_self ts.length
  · assumption

@[simp] theorem walk_nil (p : Pattern) : p.walk [] = [] := by
  simp [walk]

theorem walk_keep {p : Pattern} {t : Token} {ts : List Token} (h : p.match? (t :: ts) = none) :
    p.walk (t :: ts) = .kept t :: p.walk ts := by
  rw [walk, h]

theorem walk_found {p : Pattern} (hp : p.Consumes = true) {ts : List Token} {m : Match}
    (h : p.match? ts = some m) :
    p.walk ts = .found ⟨m.taken, m.captures⟩ :: p.walk m.rest := by
  have hlt := length_lt_of_match? hp h
  cases ts with
  | nil => cases hlt
  | cons t ts =>
    rw [walk, h]
    exact if_pos hlt

/-- A scan with a pattern that consumes succeeds. -/
theorem scan_eq_walk {p : Pattern} (hp : p.Consumes = true) (ts : List Token) :
    p.scan ts = .ok (p.walk ts) := by
  fun_induction scan p ts with
  | case1 => simp
  | case2 t ts hm ih =>
    rw [ih, walk_keep hm]
    rfl
  | case3 t ts m hm hlt ih =>
    rw [ih, walk_found hp hm]
    rfl
  | case4 t ts m hm hlt => exact absurd (length_lt_of_match? hp hm) hlt

theorem tokensOf_walk {p : Pattern} (hp : p.Consumes = true) (ts : List Token) :
    Piece.tokensOf (p.walk ts) = ts :=
  tokensOf_scan (scan_eq_walk hp ts)

theorem pieces_eq_walk {p : Pattern} (hp : p.Consumes = true) (t : Text) :
    p.pieces t = .ok (p.walk (tokenize t)) :=
  scan_eq_walk hp (tokenize t)

/-! ## What a pattern reads -/

/-- The captures of a match at the front of a token list, and the tokens after the match. -/
def read? (p : Pattern) (ts : List Token) : Option (List Text × List Token) :=
  (p.match? ts).map fun m => (m.captures, m.rest)

theorem read?_nil (ts : List Token) : Pattern.nil.read? ts = some ([], ts) := rfl

theorem read?_atom (a : Atom) (p : Pattern) (ts : List Token) :
    (Pattern.atom a p).read? ts = (a.split? ts).bind fun (_, left) => p.read? left := by
  unfold read?
  simp only [match?, Option.bind_eq_bind]
  cases a.split? ts with
  | none => rfl
  | some s =>
    obtain ⟨run, left⟩ := s
    cases h : p.match? left with
    | none => simp [h]
    | some m => simp [h]

theorem read?_capture (i p : Pattern) (ts : List Token) :
    (Pattern.capture i p).read? ts =
      (i.match? ts).bind fun m =>
        (p.read? m.rest).map fun (cs, rest) => (textOf m.taken :: (m.captures ++ cs), rest) := by
  unfold read?
  simp only [match?, Option.bind_eq_bind]
  cases i.match? ts with
  | none => rfl
  | some m =>
    cases h : p.match? m.rest with
    | none => simp [h]
    | some n => simp [h]

theorem read?_append (p q : Pattern) (ts : List Token) :
    (p ++ q).read? ts =
      (p.read? ts).bind fun (cs, left) =>
        (q.read? left).map fun (ds, rest) => (cs ++ ds, rest) := by
  induction p generalizing ts with
  | nil => simp [read?_nil]
  | atom a p ih =>
    rw [atom_append, read?_atom, read?_atom]
    cases a.split? ts with
    | none => rfl
    | some s => exact ih s.2
  | capture i p _ ih =>
    rw [capture_append, read?_capture, read?_capture]
    cases i.match? ts with
    | none => rfl
    | some m =>
      simp only [Option.bind_some, ih]
      cases p.read? m.rest with
      | none => rfl
      | some s =>
        simp only [Option.bind_some, Option.map_some]
        cases q.read? s.2 with
        | none => rfl
        | some r => simp

/-! ## What the building blocks read -/

theorem read?_literal (w : Text) (ts : List Token) :
    (literal w).read? ts = (next? (·.text = w) ts).map fun (_, rest) => ([], rest) := by
  cases ts with
  | nil => rfl
  | cons t ts =>
    simp only [literal, read?_atom, Atom.split?, Atom.accepts, next?]
    split <;> simp [read?_nil, *]

theorem read?_spaceOptional (ts : List Token) :
    spaceOptional.read? ts = some ([], skipBlank ts) := by
  cases ts with
  | nil => rfl
  | cons t ts =>
    simp only [spaceOptional, read?_atom, Atom.split?, Atom.accepts, skipBlank]
    by_cases ht : t.kind = .space
    · simp [ht, read?_nil]
    · simp [ht, read?_nil]

theorem read?_spaceMandated (ts : List Token) :
    spaceMandated.read? ts = (next? (·.kind = .space) ts).map fun (_, rest) => ([], rest) := by
  cases ts with
  | nil => rfl
  | cons t ts =>
    simp only [spaceMandated, read?_atom, Atom.split?, Atom.accepts, next?]
    split <;> simp [read?_nil, *]

theorem read?_group_alphanumeric (ts : List Token) :
    (group alphanumeric).read? ts =
      (next? (fun t => t.kind = .ident || t.kind = .number) ts).map
        fun (t, rest) => ([t.text], rest) := by
  cases ts with
  | nil => rfl
  | cons t ts =>
    simp only [group, alphanumeric, read?_capture, match?, Atom.split?, Atom.accepts, next?]
    split <;> simp [read?_nil, *]

theorem read?_group_numeric (ts : List Token) :
    (group numeric).read? ts =
      (next? (·.kind = .number) ts).map fun (t, rest) => ([t.text], rest) := by
  cases ts with
  | nil => rfl
  | cons t ts =>
    simp only [group, numeric, read?_capture, match?, Atom.split?, Atom.accepts, next?]
    split <;> simp [read?_nil, *]

theorem read?_group_codeBlock (ts : List Token) :
    (group codeBlock).read? ts =
      (blockRun 0 ts).bind fun (block, rest) =>
        if block.isEmpty then none else some ([textOf block], rest) := by
  simp only [group, codeBlock, read?_capture, match?, Atom.split?]
  cases blockRun 0 ts with
  | none => rfl
  | some s =>
    obtain ⟨block, rest⟩ := s
    cases block with
    | nil => rfl
    | cons b bs => simp [Option.filter, read?_nil]

theorem walk_of_read?_none {p : Pattern} {t : Token} {ts : List Token}
    (h : p.read? (t :: ts) = none) : p.walk (t :: ts) = .kept t :: p.walk ts :=
  walk_keep (Option.map_eq_none_iff.mp h)

theorem exists_walk_of_read? {p : Pattern} (hp : p.Consumes = true) {ts rest : List Token}
    {cs : List Text} (h : p.read? ts = some (cs, rest)) :
    ∃ taken, taken ++ rest = ts ∧ p.walk ts = .found ⟨taken, cs⟩ :: p.walk rest := by
  obtain ⟨m, hm, heq⟩ := Option.map_eq_some_iff.mp h
  cases heq
  exact ⟨m.taken, match?_append hm, walk_found hp hm⟩

end Pattern

/-- Pieces without occurrences leave the text of their tokens. -/
theorem Piece.flatMap_emit_of_none {ps : List Piece} (h : ps.filterMap Piece.occurrence? = [])
    (f : Occurrence → Text) : ps.flatMap (Piece.emit f) = textOf (Piece.tokensOf ps) := by
  induction ps with
  | nil => rfl
  | cons p ps ih =>
    cases p with
    | found o => cases h
    | kept t =>
      rw [List.flatMap_cons, ih h]
      rfl

/-! ## Sweeps -/

/-- What is collected when a pattern goes over a text. -/
structure Sweep (β : Type) where
  pattern : Pattern
  /-- What a character of a kept token gives. -/
  keep : Char → List β
  /-- What an occurrence gives. -/
  found : Occurrence → List β

namespace Sweep

variable {β : Type} (s : Sweep β)

/-- What a piece gives. -/
def piece : Piece → List β
  | .kept t => t.text.flatMap s.keep
  | .found o => s.found o

/-- What the tokens give. -/
def along (ts : List Token) : List β := (s.pattern.walk ts).flatMap s.piece

/-- What a text gives. -/
def of (t : Text) : List β := s.along (tokenize t)

/-- The sweep that lists occurrences. -/
def list (p : Pattern) : Sweep Occurrence := ⟨p, fun _ => [], fun o => [o]⟩

/-- The sweep that replaces occurrences. -/
def replace (p : Pattern) (substitute : Occurrence → Text) : Sweep Char :=
  ⟨p, fun c => [c], substitute⟩

theorem emit_eq_piece (p : Pattern) (substitute : Occurrence → Text) :
    Piece.emit substitute = (replace p substitute).piece := by
  funext piece
  cases piece with
  | kept t => simp [Piece.emit, Sweep.piece, Sweep.replace]
  | found o => rfl

end Sweep

theorem Pattern.occurrences_eq {p : Pattern} (hp : p.Consumes = true) (t : Text) :
    p.occurrences t = .ok ((Sweep.list p).of t) := by
  have hpieces : ∀ ps : List Piece,
      ps.filterMap Piece.occurrence? = ps.flatMap (Sweep.list p).piece := by
    intro ps
    induction ps with
    | nil => rfl
    | cons piece ps ih =>
      cases piece with
      | kept t =>
        have hkept : (Sweep.list p).piece (.kept t) = [] :=
          List.flatMap_eq_nil_iff.mpr fun _ _ => rfl
        rw [List.filterMap_cons_none rfl, ih, List.flatMap_cons, hkept, List.nil_append]
      | found o =>
        have hfound : Piece.occurrence? (.found o) = some o := rfl
        rw [List.filterMap_cons_some hfound, ih, List.flatMap_cons]
        rfl
  rw [occurrences, pieces_eq_walk hp]
  exact congrArg Except.ok (hpieces _)

theorem Pattern.replaceAll_eq_walk {p : Pattern} (hp : p.Consumes = true)
    (substitute : Occurrence → Text) (t : Text) :
    p.replaceAll substitute t =
      .ok ((p.walk (tokenize t)).flatMap (Piece.emit substitute)) := by
  rw [replaceAll, pieces_eq_walk hp]
  rfl

theorem Pattern.replaceAll_eq {p : Pattern} (hp : p.Consumes = true)
    (substitute : Occurrence → Text) (t : Text) :
    p.replaceAll substitute t = .ok ((Sweep.replace p substitute).of t) := by
  rw [replaceAll_eq_walk hp, Sweep.emit_eq_piece p]
  rfl

namespace Sweep

variable {β : Type} {s : Sweep β}

@[simp] theorem along_nil : s.along [] = [] := by
  simp [along]

theorem along_keep {t : Token} {ts : List Token} (h : s.pattern.read? (t :: ts) = none) :
    s.along (t :: ts) = t.text.flatMap s.keep ++ s.along ts := by
  rw [along, Pattern.walk_of_read?_none h]
  rfl

theorem exists_along_found (hp : s.pattern.Consumes = true) {ts rest : List Token} {cs : List Text}
    (h : s.pattern.read? ts = some (cs, rest)) :
    ∃ taken, taken ++ rest = ts ∧ s.along ts = s.found ⟨taken, cs⟩ ++ s.along rest := by
  obtain ⟨taken, happ, hwalk⟩ := Pattern.exists_walk_of_read? hp h
  refine ⟨taken, happ, ?_⟩
  rw [along, hwalk]
  rfl

/-- Tokens at which nothing starts are kept. -/
theorem along_append {us : List Token} (zs : List Token)
    (h : ∀ pre t post, us = pre ++ t :: post → s.pattern.read? (t :: (post ++ zs)) = none) :
    s.along (us ++ zs) = (textOf us).flatMap s.keep ++ s.along zs := by
  induction us with
  | nil => rfl
  | cons u us ih =>
    have hrest := ih fun pre t post heq => h (u :: pre) t post (by rw [heq]; rfl)
    rw [List.cons_append, along_keep (h [] u us rfl), hrest, textOf_cons, List.flatMap_append,
      List.append_assoc]

/-- Whatever follows it, the text gives this first. -/
def Turns (s : Sweep β) (c : Text) (out : List β) : Prop :=
  ∀ x, s.of (c ++ x) = out ++ s.of x

theorem Turns.nil : s.Turns [] [] := fun _ => rfl

theorem Turns.append {c d : Text} {out more : List β} (hc : s.Turns c out) (hd : s.Turns d more) :
    s.Turns (c ++ d) (out ++ more) := by
  intro x
  rw [List.append_assoc, hc, hd, List.append_assoc]

theorem Turns.flatMap {ι : Type} {l : List ι} {c : ι → Text} {out : ι → List β}
    (h : ∀ i ∈ l, s.Turns (c i) (out i)) : s.Turns (l.flatMap c) (l.flatMap out) := by
  induction l with
  | nil => exact Turns.nil
  | cons i l ih =>
    rw [List.flatMap_cons, List.flatMap_cons]
    exact (h i List.mem_cons_self).append (ih fun j hj => h j (List.mem_cons_of_mem i hj))

/-- Blanks are kept, also where they join the blanks that follow. -/
theorem Turns.blank (hs : ∀ t ts, (∀ u ∈ t :: ts, u.Proper) → t.kind = .space →
      s.pattern.read? (t :: ts) = none) {w : Text} (hw : ∀ c ∈ w, Text.isBlank c = true) :
    s.Turns w (w.flatMap s.keep) := by
  -- A run of blanks is one token in front of a text that does not start with one.
  have hrun : ∀ v y : Text, (∀ c ∈ v, Text.isBlank c = true) →
      (∀ c ∈ y.head?, Text.isBlank c = false) → s.of (v ++ y) = v.flatMap s.keep ++ s.of y := by
    intro v y hv hy
    by_cases hne : v = []
    · rw [hne]
      rfl
    · have hproper : ∀ u ∈ Token.blank v :: tokenize y, u.Proper := by
        intro u hu
        rcases List.mem_cons.mp hu with rfl | hu
        · exact proper_blank hne hv
        · exact (separated_tokenize y).proper hu
      rw [of, tokenize_blank hne hv hy, along_keep (hs _ _ hproper rfl)]
      rfl
  intro x
  have hfront : ∀ c ∈ x.takeWhile Text.isBlank, Text.isBlank c = true :=
    fun c hc => List.mem_takeWhile_imp hc
  have hback : ∀ c ∈ (x.dropWhile Text.isBlank).head?, Text.isBlank c = false := by
    intro c hc
    have := List.head?_dropWhile_not Text.isBlank x
    rw [hc] at this
    simpa using this
  have hx := hrun _ _ hfront hback
  have hwx := hrun (w ++ x.takeWhile Text.isBlank) _ (fun c hc => by
    rcases List.mem_append.mp hc with hc | hc
    · exact hw c hc
    · exact hfront c hc) hback
  rw [List.append_assoc, List.takeWhile_append_dropWhile] at hwx
  rw [List.takeWhile_append_dropWhile] at hx
  rw [hwx, hx, List.flatMap_append, List.append_assoc]

/-- A text that ends with a mark gives what its tokens give. -/
theorem Turns.of_tokens {x : Text} {c : Char} (hc : isCut c = true) {out : List β}
    (h : ∀ zs, (∀ u ∈ zs, u.Proper) →
      s.along (tokenize (x ++ [c]) ++ zs) = out ++ s.along zs) : s.Turns (x ++ [c]) out := by
  intro y
  rw [of, tokenize_append_of_mark hc, h _ fun u hu => (separated_tokenize y).proper hu]
  rfl

/-- A text that ends with a mark is kept if nothing starts at its tokens. -/
theorem Turns.keep {x : Text} {c : Char} (hc : isCut c = true)
    (h : ∀ zs, (∀ u ∈ zs, u.Proper) → ∀ pre t post, tokenize (x ++ [c]) = pre ++ t :: post →
      s.pattern.read? (t :: (post ++ zs)) = none) :
    s.Turns (x ++ [c]) ((x ++ [c]).flatMap s.keep) := by
  refine Turns.of_tokens hc fun zs hzs => ?_
  rw [along_append zs (h zs hzs), textOf_tokenize]

end Sweep

end Texelwise

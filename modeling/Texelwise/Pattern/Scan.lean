import Texelwise.Pattern.Match
import Texelwise.Pattern.Display
import Texelwise.Token.Lexer

/-!
# Scanning a text for a pattern

A scan walks the tokens from left to right and cuts them into pieces: tokens that no occurrence
takes, and occurrences. Listing and replacing are two views of the pieces.

* `Pattern.scan`: the pieces of a token list; `tokensOf_scan` says that they make up the list.
* `Pattern.findAll`: the occurrences in a text with their byte ranges.
* `Pattern.replaceAll`: the text with every occurrence replaced.
* `Pattern.replaceAllM`: the same for a replacement with effects; `replaceAllM_pure` says that
  without effects it is `replaceAll`.

An occurrence that takes no token would keep the scan in place, so it ends the scan with
`PatternError.zeroLength`.
-/

namespace Texelwise

/-- Why a scan fails. -/
inductive PatternError where
  /-- The pattern, here in its printed form, matched without taking a token. -/
  | zeroLength (display : Text)
  deriving DecidableEq, Repr

/-- The wording of a scan failure. -/
def PatternError.message : PatternError → String
  | .zeroLength display =>
    let shown := String.ofList display
    s!"zero length match for pattern `{shown}`"

/-- One place where a pattern matches. -/
structure Occurrence where
  /-- The tokens of the place. -/
  taken : List Token
  /-- The captured texts, outer before inner and left before right. -/
  captures : List Text
  deriving DecidableEq, Repr

namespace Occurrence

/-- The full text of the occurrence. -/
def text (o : Occurrence) : Text := Token.textOf o.taken

/-- The `i`-th captured text; empty if there are not that many. -/
def capture (o : Occurrence) (i : Nat) : Text := o.captures.getD i []

end Occurrence

/-- A part of a scanned token list. -/
inductive Piece where
  /-- A token that belongs to no occurrence. -/
  | kept (token : Token)
  | found (occurrence : Occurrence)
  deriving DecidableEq, Repr

namespace Piece

/-- The tokens of a piece. -/
def tokens : Piece → List Token
  | .kept t => [t]
  | .found o => o.taken

/-- The occurrence, if the piece is one. -/
def occurrence? : Piece → Option Occurrence
  | .kept _ => none
  | .found o => some o

/-- The text that a piece leaves when `substitute` stands in for every occurrence. -/
def emit (substitute : Occurrence → Text) : Piece → Text
  | .kept t => t.text
  | .found o => substitute o

/-- The tokens of all pieces. -/
def tokensOf (pieces : List Piece) : List Token := pieces.flatMap tokens

end Piece

/-- An occurrence with the byte range it takes in its text. -/
structure Found where
  occurrence : Occurrence
  start : Nat
  stop : Nat
  deriving DecidableEq, Repr

/-- The occurrences among pieces that start at byte `start`, each with its range. -/
def Piece.locate (start : Nat) : List Piece → List Found
  | [] => []
  | .kept t :: rest => locate (start + Text.byteLength t.text) rest
  | .found o :: rest =>
    let stop := start + Text.byteLength o.text
    ⟨o, start, stop⟩ :: locate stop rest

/-- What `Piece.emit` leaves of pieces that start at byte `start`, for a replacement with effects.
It is asked once for each occurrence, from left to right. -/
def Piece.emitM {m : Type → Type} [Monad m] (replace : Found → m Text) (start : Nat) :
    List Piece → m Text
  | [] => pure []
  | .kept t :: rest => do
    let out ← emitM replace (start + Text.byteLength t.text) rest
    return t.text ++ out
  | .found o :: rest => do
    let stop := start + Text.byteLength o.text
    let new ← replace ⟨o, start, stop⟩
    let out ← emitM replace stop rest
    return new ++ out

theorem Piece.emitM_pure {m : Type → Type} [Monad m] [LawfulMonad m]
    (substitute : Occurrence → Text) (start : Nat) (pieces : List Piece) :
    Piece.emitM (fun f => (pure (substitute f.occurrence) : m Text)) start pieces =
      pure (pieces.flatMap (Piece.emit substitute)) := by
  induction pieces generalizing start with
  | nil => rfl
  | cons piece pieces ih => cases piece <;> simp [emitM, ih, emit]

namespace Pattern

/-- Cuts a token list into occurrences of the pattern and the tokens between them. -/
def scan (p : Pattern) : List Token → Except PatternError (List Piece)
  | [] => .ok []
  | t :: ts =>
    match p.match? (t :: ts) with
    | none => (scan p ts).map (.kept t :: ·)
    | some m =>
      if m.rest.length < (t :: ts).length then
        (scan p m.rest).map (.found ⟨m.taken, m.captures⟩ :: ·)
      else .error (.zeroLength p.display)
termination_by ts => ts.length
decreasing_by
  · exact Nat.lt_succ_self ts.length
  · assumption

/-- The pieces of a text. -/
def pieces (p : Pattern) (t : Text) : Except PatternError (List Piece) := p.scan (tokenize t)

/-- The occurrences in a text, from left to right and without overlap. -/
def occurrences (p : Pattern) (t : Text) : Except PatternError (List Occurrence) :=
  (p.pieces t).map (·.filterMap Piece.occurrence?)

/-- The occurrences in a text with their byte ranges. -/
def findAll (p : Pattern) (t : Text) : Except PatternError (List Found) :=
  (p.pieces t).map (Piece.locate 0)

/-- The text with every occurrence replaced and every other token as it was. -/
def replaceAll (p : Pattern) (substitute : Occurrence → Text) (t : Text) :
    Except PatternError Text :=
  (p.pieces t).map (·.flatMap (Piece.emit substitute))

/-- The text with every occurrence replaced by what `replace` gives for it, and its effects one
after another. If the scan fails, there are none. -/
def replaceAllM {m : Type → Type} [Monad m] (p : Pattern) (replace : Found → m Text) (t : Text) :
    Except PatternError (m Text) :=
  (p.pieces t).map (Piece.emitM replace 0)

theorem replaceAllM_pure {m : Type → Type} [Monad m] [LawfulMonad m] (p : Pattern)
    (substitute : Occurrence → Text) (t : Text) :
    p.replaceAllM (fun f => (pure (substitute f.occurrence) : m Text)) t =
      (p.replaceAll substitute t).map pure := by
  unfold replaceAllM replaceAll
  cases p.pieces t with
  | error e => rfl
  | ok pieces => exact congrArg Except.ok (Piece.emitM_pure substitute 0 pieces)

/-- The pieces of a scan make up the token list. -/
theorem tokensOf_scan {p : Pattern} {ts : List Token} {ps : List Piece} (h : p.scan ts = .ok ps) :
    Piece.tokensOf ps = ts := by
  fun_induction scan p ts generalizing ps with
  | case1 => cases h; rfl
  | case2 t ts hm ih =>
    cases hs : p.scan ts with
    | error e => rw [hs] at h; cases h
    | ok qs => rw [hs] at h; cases h; simpa [Piece.tokensOf, Piece.tokens] using ih hs
  | case3 t ts m hm hlt ih =>
    cases hs : p.scan m.rest with
    | error e => rw [hs] at h; cases h
    | ok qs =>
      rw [hs] at h
      cases h
      have := ih hs
      simp only [Piece.tokensOf, List.flatMap_cons, Piece.tokens] at this ⊢
      rw [this, match?_append hm]
  | case4 => cases h

/-- What a scan finds is a match at one of its places. -/
theorem match?_of_mem_scan {p : Pattern} {ts : List Token} {ps : List Piece}
    (h : p.scan ts = .ok ps) {o : Occurrence} (ho : .found o ∈ ps) :
    ∃ us m, us <:+ ts ∧ p.match? us = some m ∧ o = ⟨m.taken, m.captures⟩ := by
  fun_induction scan p ts generalizing ps with
  | case1 =>
    cases h
    cases ho
  | case2 t ts hm ih =>
    cases hs : p.scan ts with
    | error e => rw [hs] at h; cases h
    | ok qs =>
      rw [hs] at h
      cases h
      rcases List.mem_cons.mp ho with ho | ho
      · cases ho
      · obtain ⟨us, m, hus, hmatch⟩ := ih hs ho
        exact ⟨us, m, hus.trans (List.suffix_cons t ts), hmatch⟩
  | case3 t ts m hm hlt ih =>
    cases hs : p.scan m.rest with
    | error e => rw [hs] at h; cases h
    | ok qs =>
      rw [hs] at h
      cases h
      rcases List.mem_cons.mp ho with ho | ho
      · cases ho
        exact ⟨t :: ts, m, List.suffix_rfl, hm, rfl⟩
      · obtain ⟨us, m', hus, hmatch⟩ := ih hs ho
        exact ⟨us, m', hus.trans ⟨m.taken, match?_append hm⟩, hmatch⟩
  | case4 => cases h

end Pattern

end Texelwise

import Texelwise.Proofs.Expansion.Sample
import Texelwise.Proofs.Pattern.Sweep

/-!
# When a scan is stuck

A scan fails where the pattern matches without taking a token, so only a pattern of optional spaces
can fail. It never refuses a place, so it fails at the first token unless that is a space that it
can take; and then at the token after it, since no two spaces of a text stand side by side.

* `Pattern.exists_match?_of_consumes`: what such a pattern takes.
* `Pattern.scan_eq_error`, `Pattern.scan_eq_of_consumes`: scanning a list of tokens.
* `Pattern.Stuck`: when scanning a text fails; `Pattern.zeroLength_iff` says that this is exact.
-/

namespace Texelwise

open Token

/-! ## Blanks of a text -/

/-- The token after a space of a text is no space. -/
theorem skipBlank_tokenize (code : Text) :
    skipBlank (skipBlank (tokenize code)) = skipBlank (tokenize code) := by
  have hsep := separated_tokenize code
  cases hts : tokenize code with
  | nil => rfl
  | cons t ts =>
    rw [hts] at hsep
    by_cases hspace : t.kind = .space
    · cases ts with
      | nil => simp [skipBlank, hspace]
      | cons u us =>
        have hu : u.kind ≠ .space := by
          obtain ⟨c, more, htext, hkind, -⟩ := hsep.tail.1
          have hends := (hsep.2.1 c (by simp [htext])).1
          rw [hspace] at hends
          rw [← hkind, ne_eq, TokenKind.ofStart_eq_space_iff]
          simpa [TokenKind.continues] using hends
        simp [skipBlank, hspace, hu]
    · simp [skipBlank, hspace]

/-- Only a text of blanks is a space and nothing else. -/
theorem skipBlank_tokenize_eq_nil_iff {code : Text} (hne : code ≠ []) :
    skipBlank (tokenize code) = [] ↔ code.isAllBlank = true := by
  constructor
  · intro h
    have htext := textOf_tokenize code
    cases hts : tokenize code with
    | nil =>
      rw [hts] at htext
      exact absurd htext.symm hne
    | cons t ts =>
      rw [hts] at h htext
      by_cases hspace : t.kind = .space
      · obtain rfl : ts = [] := by simpa [skipBlank, hspace] using h
        obtain rfl : t.text = code := by simpa using htext
        exact isAllBlank_of_mem_tokenize t (by rw [hts]; exact List.mem_cons_self) hspace
      · simp [skipBlank, hspace] at h
  · intro h
    have hblank := tokenize_blank hne (List.all_eq_true.mp h) (x := []) (by simp)
    rw [List.append_nil] at hblank
    simp [hblank, blank, skipBlank]

/-! ## Patterns of optional spaces -/

namespace Pattern

/-- Whether an optional space stands in the pattern at some depth. -/
def HasSpaceOptional : Pattern → Bool
  | .nil => false
  | .atom a p => a = .spaceOptional || p.HasSpaceOptional
  | .capture inner p => inner.HasSpaceOptional || p.HasSpaceOptional

variable {p : Pattern}

/-- A pattern of optional spaces matches everywhere. It takes the space in front if it has an
optional space, and otherwise nothing. -/
theorem exists_match?_of_consumes (hp : p.Consumes = false) {ts : List Token}
    (hts : skipBlank (skipBlank ts) = skipBlank ts) :
    ∃ m, p.match? ts = some m ∧ m.rest = if p.HasSpaceOptional then skipBlank ts else ts := by
  induction p generalizing ts with
  | nil => exact ⟨_, rfl, rfl⟩
  | atom a p ih =>
    obtain ⟨ha, hp⟩ : a = .spaceOptional ∧ p.Consumes = false := by simpa [Consumes] using hp
    obtain ⟨m, hm, hrest⟩ := ih hp (congrArg skipBlank hts)
    have hsplit : ∃ run, Atom.spaceOptional.split? ts = some (run, skipBlank ts) := by
      cases ts with
      | nil => exact ⟨[], rfl⟩
      | cons t ts => by_cases hspace : t.kind = .space <;>
          simp [Atom.split?, Atom.accepts, skipBlank, hspace]
    obtain ⟨run, hrun⟩ := hsplit
    refine ⟨⟨run ++ m.taken, m.captures, m.rest⟩, by simp [match?, ha, hrun, hm], ?_⟩
    simp [hrest, HasSpaceOptional, ha, hts]
  | capture inner p ihi ihp =>
    obtain ⟨hi, hp⟩ : inner.Consumes = false ∧ p.Consumes = false := by simpa [Consumes] using hp
    obtain ⟨i, hinner, hleft⟩ := ihi hi hts
    have hagain : skipBlank (skipBlank i.rest) = skipBlank i.rest := by
      rw [hleft]
      split <;> simp [hts]
    obtain ⟨m, hm, hrest⟩ := ihp hp hagain
    refine ⟨⟨i.taken ++ m.taken, textOf i.taken :: (i.captures ++ m.captures), m.rest⟩,
      by simp [match?, hinner, hm], ?_⟩
    show m.rest = _
    rw [hrest, hleft, HasSpaceOptional]
    cases inner.HasSpaceOptional <;> cases p.HasSpaceOptional <;> simp [hts]

/-! ## Scans that fail -/

/-- A match that takes nothing ends the scan. -/
theorem scan_eq_error {t : Token} {ts : List Token} {m : Match} (hm : p.match? (t :: ts) = some m)
    (hrest : m.rest = t :: ts) : p.scan (t :: ts) = .error (.zeroLength p.display) := by
  rw [scan, hm]
  simp [hrest]

/-- A pattern of optional spaces gets past one space, if it has an optional space, and past no other
token. -/
theorem scan_eq_of_consumes (hp : p.Consumes = false) {ts : List Token}
    (hts : skipBlank (skipBlank ts) = skipBlank ts) (hne : ts ≠ []) :
    (p.HasSpaceOptional = true ∧ skipBlank ts = [] → ∃ pieces, p.scan ts = .ok pieces) ∧
    (¬(p.HasSpaceOptional = true ∧ skipBlank ts = []) →
      p.scan ts = .error (.zeroLength p.display)) := by
  cases ts with
  | nil => exact absurd rfl hne
  | cons t ts =>
    obtain ⟨m, hm, hrest⟩ := exists_match?_of_consumes hp hts
    by_cases hspace : p.HasSpaceOptional = true ∧ t.kind = .space
    · have hskip : skipBlank (t :: ts) = ts := by simp [skipBlank, hspace.2]
      rw [hskip] at hts
      rw [if_pos hspace.1, hskip] at hrest
      have hscan : p.scan (t :: ts) = (p.scan ts).map (.found ⟨m.taken, m.captures⟩ :: ·) := by
        rw [scan, hm]
        simp [hrest]
      rw [hskip, hscan]
      cases ts with
      | nil => exact ⟨fun _ => ⟨_, by rw [scan]; rfl⟩, fun h => absurd ⟨hspace.1, rfl⟩ h⟩
      | cons u us =>
        -- After the space there is nothing more that an optional space could take.
        have hagain : skipBlank (skipBlank (u :: us)) = skipBlank (u :: us) := by rw [hts, hts]
        obtain ⟨n, hn, hleft⟩ := exists_match?_of_consumes hp hagain
        have hstop : n.rest = u :: us := by rw [hleft, hts, ite_self]
        refine ⟨fun h => absurd h.2 (List.cons_ne_nil u us), fun _ => ?_⟩
        rw [scan_eq_error hn hstop]
        rfl
    · have hstop : m.rest = t :: ts := by
        rw [hrest]
        split
        · have hkind : t.kind ≠ .space := fun h => hspace ⟨‹_›, h⟩
          simp [skipBlank, hkind]
        · rfl
      refine ⟨fun h => ?_, fun _ => scan_eq_error hm hstop⟩
      have hkind : t.kind ≠ .space := fun hk => hspace ⟨h.1, hk⟩
      simp [skipBlank, hkind] at h

/-! ## Texts -/

/-- Scanning the text with the pattern fails: the pattern can match without taking a token, there is
a token, and it is not so that one optional space takes the whole text. -/
def Stuck (p : Pattern) (code : Text) : Prop :=
  p.Consumes = false ∧ code ≠ [] ∧ ¬(code.isAllBlank = true ∧ p.HasSpaceOptional = true)

instance (p : Pattern) (code : Text) : Decidable (p.Stuck code) :=
  inferInstanceAs (Decidable (_ ∧ _ ∧ _))

theorem pieces_of_stuck {code : Text} (h : p.Stuck code) :
    p.pieces code = .error (.zeroLength p.display) := by
  obtain ⟨hp, hne, hblank⟩ := h
  have hts : tokenize code ≠ [] := fun hnil => hne (by rw [← textOf_tokenize code, hnil]; rfl)
  refine (scan_eq_of_consumes hp (skipBlank_tokenize code) hts).2 fun h => hblank ⟨?_, h.1⟩
  exact (skipBlank_tokenize_eq_nil_iff hne).mp h.2

theorem exists_pieces_of_not_stuck {code : Text} (h : ¬p.Stuck code) :
    ∃ pieces, p.pieces code = .ok pieces := by
  cases hp : p.Consumes with
  | true => exact ⟨_, pieces_eq_walk hp code⟩
  | false =>
    by_cases hne : code = []
    · exact ⟨[], by rw [pieces, hne, tokenize_nil, scan]⟩
    · have hts : tokenize code ≠ [] := fun hnil => hne (by rw [← textOf_tokenize code, hnil]; rfl)
      have hblank : code.isAllBlank = true ∧ p.HasSpaceOptional = true := by
        by_contra hno
        exact h ⟨hp, hne, hno⟩
      exact (scan_eq_of_consumes hp (skipBlank_tokenize code) hts).1
        ⟨hblank.2, (skipBlank_tokenize_eq_nil_iff hne).mpr hblank.1⟩

/-- Whatever is made of the pieces, making it fails where the pattern is stuck. -/
theorem map_pieces_eq_error_iff {β : Type} (f : List Piece → β) {code : Text} :
    (p.pieces code).map f = .error (.zeroLength p.display) ↔ p.Stuck code := by
  constructor
  · intro h
    by_contra hstuck
    obtain ⟨ps, hps⟩ := exists_pieces_of_not_stuck hstuck
    rw [hps] at h
    cases h
  · intro h
    rw [pieces_of_stuck h]
    rfl

theorem exists_map_pieces {β : Type} (f : List Piece → β) {code : Text} (h : ¬p.Stuck code) :
    ∃ out, (p.pieces code).map f = .ok out := by
  obtain ⟨ps, hps⟩ := exists_pieces_of_not_stuck h
  exact ⟨f ps, by rw [hps]; rfl⟩

/-- A scan of a text fails with `PatternError.zeroLength` just where the pattern is stuck, whether
the scan lists occurrences or replaces them, and succeeds everywhere else. With a pattern that takes
a token it never fails. -/
theorem zeroLength_iff (p : Pattern) (code : Text) :
    (p.findAll code = .error (.zeroLength p.display) ↔ p.Stuck code) ∧
    (∀ substitute, p.replaceAll substitute code = .error (.zeroLength p.display) ↔ p.Stuck code) ∧
    (∀ {m : Type → Type} [Monad m] (replace : Found → m Text),
      p.replaceAllM replace code = .error (.zeroLength p.display) ↔ p.Stuck code) ∧
    (¬p.Stuck code → (∃ found, p.findAll code = .ok found) ∧
      (∀ substitute, ∃ out, p.replaceAll substitute code = .ok out) ∧
      ∀ {m : Type → Type} [Monad m] (replace : Found → m Text),
        ∃ run, p.replaceAllM replace code = .ok run) ∧
    (p.Consumes = true → ¬p.Stuck code) := by
  refine ⟨map_pieces_eq_error_iff _, fun _ => map_pieces_eq_error_iff _,
    fun _ => map_pieces_eq_error_iff _, fun h => ?_, fun hp h => ?_⟩
  · exact ⟨exists_map_pieces _ h, fun _ => exists_map_pieces _ h, fun _ => exists_map_pieces _ h⟩
  · rw [h.1] at hp
    cases hp

/-- A captured optional space takes a text of blanks and is stuck at a word. -/
theorem zeroLength_iff_space :
    (∃ found, (group spaceOptional).findAll " \t".toList = .ok found) ∧
    (group spaceOptional).findAll " x".toList =
      .error (.zeroLength (group spaceOptional).display) :=
  ⟨((zeroLength_iff (group spaceOptional) " \t".toList).2.2.2.1 (by decide)).1,
    (zeroLength_iff (group spaceOptional) " x".toList).1.mpr (by decide)⟩

end Pattern

end Texelwise

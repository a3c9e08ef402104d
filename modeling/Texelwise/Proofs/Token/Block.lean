import Mathlib.Data.List.Basic
import Texelwise.Pattern.Match
import Texelwise.Proofs.Token.Separation

/-!
# Runs of code blocks

How `blockRun` reads runs of tokens that are put together.

* `Closes`: read from some depth, the brackets of a run are all closed at its end and not before.
* `Balanced`: the runs that a code block can be, up to emptiness. A run at any depth passes over a
  balanced part (`Balanced.blockRun_append`).
* `blockRun_eq_some`: a run that is found closes, and stops before a token that no block takes.
* `Closes.blockRun_inside`: inside brackets a run stops before the end, whatever follows.
-/

namespace Texelwise

open Token

/-! ## Roles -/

theorem depthAfter_add {role : BlockRole} {d n : Nat} (h : role.depthAfter d = some n) (e : Nat) :
    role.depthAfter (d + e) = some (n + e) := by
  cases role with
  | opener => simp only [BlockRole.depthAfter, Option.some.injEq] at h ⊢; omega
  | other => simp only [BlockRole.depthAfter, Option.some.injEq] at h ⊢; omega
  | brace => cases h
  | semicolon =>
    simp only [BlockRole.depthAfter] at h ⊢
    split at h
    · cases h
    · rw [if_neg (by omega)]
      simp only [Option.some.injEq] at h ⊢
      omega
  | closer =>
    simp only [BlockRole.depthAfter] at h ⊢
    split at h
    · cases h
    · rw [if_neg (by omega)]
      simp only [Option.some.injEq] at h ⊢
      omega

/-- Where a token is taken inside brackets but not outside, it is a closer or a semicolon. -/
theorem depthAfter_eq_none {role : BlockRole} {d e n : Nat}
    (h : role.depthAfter (d + 1 + e) = some n) (hnone : role.depthAfter e = none) : e = 0 := by
  cases role <;> simp_all [BlockRole.depthAfter]

theorem blockRun_cons {d n : Nat} {t : Token} (h : t.role.depthAfter d = some n)
    (ts : List Token) :
    blockRun d (t :: ts) = (blockRun n ts).map fun (run, rest) => (t :: run, rest) := by
  simp [blockRun, h]

theorem blockRun_cons_none {d : Nat} {t : Token} (h : t.role.depthAfter d = none)
    (ts : List Token) : blockRun d (t :: ts) = if d = 0 then some ([], t :: ts) else none := by
  simp [blockRun, h]

/-! ## Closed runs -/

/-- From depth `d` the brackets of the run are closed at its end, and no token stops it. -/
def Closes (d : Nat) (ts : List Token) : Prop := blockRun d ts = some (ts, [])

theorem closes_iff_blockRun {d : Nat} {ts : List Token} :
    Closes d ts ↔ blockRun d ts = some (ts, []) := Iff.rfl

theorem closes_nil {d : Nat} : Closes d [] ↔ d = 0 := by
  simp [closes_iff_blockRun, blockRun]

theorem closes_cons {d : Nat} {t : Token} {ts : List Token} :
    Closes d (t :: ts) ↔ ∃ n, t.role.depthAfter d = some n ∧ Closes n ts := by
  simp only [closes_iff_blockRun]
  cases h : t.role.depthAfter d with
  | none => simp [blockRun_cons_none h]
  | some n => simp [blockRun_cons h, Option.map_eq_some_iff, Prod.ext_iff]

/-- A closed run is passed over in a run from a depth that is larger by `e`. -/
theorem Closes.blockRun_append {d : Nat} {run : List Token} (h : Closes d run) (e : Nat)
    (xs : List Token) :
    blockRun (d + e) (run ++ xs) = (blockRun e xs).map fun (r, rest) => (run ++ r, rest) := by
  induction run generalizing d with
  | nil =>
    rw [closes_nil.mp h]
    simp
  | cons t run ih =>
    obtain ⟨n, hn, hrun⟩ := closes_cons.mp h
    rw [List.cons_append, blockRun_cons (depthAfter_add hn e), ih hrun, Option.map_map]
    rfl

theorem Closes.append {d e : Nat} {xs ys : List Token} (hx : Closes d xs) (hy : Closes e ys) :
    Closes (d + e) (xs ++ ys) := by
  rw [closes_iff_blockRun] at hy ⊢
  rw [hx.blockRun_append, hy, Option.map_some]

/-- What follows a closed part of a closed run is closed. -/
theorem Closes.of_append {d e : Nat} {xs ys : List Token} (hx : Closes d xs)
    (h : Closes (d + e) (xs ++ ys)) : Closes e ys := by
  rw [closes_iff_blockRun] at h ⊢
  rw [hx.blockRun_append] at h
  obtain ⟨⟨r, rest⟩, hr, heq⟩ := Option.map_eq_some_iff.mp h
  simp only [Prod.mk.injEq, List.append_cancel_left_eq] at heq
  rw [hr, heq.1, heq.2]

/-- What stands at the end of a closed run is closed from some depth. -/
theorem Closes.exists_of_append {d : Nat} {xs ys : List Token} (h : Closes d (xs ++ ys)) :
    ∃ e, Closes e ys := by
  induction xs generalizing d with
  | nil => exact ⟨d, h⟩
  | cons x xs ih =>
    obtain ⟨n, -, hxs⟩ := closes_cons.mp h
    exact ih hxs

/-- A run that is found is closed, and the token after it is none that a block takes at depth
zero. -/
theorem blockRun_eq_some {d : Nat} {ts run rest : List Token}
    (h : blockRun d ts = some (run, rest)) :
    Closes d run ∧ ∀ t ∈ rest.head?, t.role.depthAfter 0 = none := by
  induction ts generalizing d run rest with
  | nil =>
    rw [blockRun] at h
    split at h
    · cases h
      exact ⟨closes_nil.mpr ‹_›, by simp⟩
    · cases h
  | cons t ts ih =>
    cases hn : t.role.depthAfter d with
    | none =>
      rw [blockRun_cons_none hn] at h
      split at h
      · subst_vars
        cases h
        exact ⟨closes_nil.mpr rfl, by simpa using hn⟩
      · cases h
    | some n =>
      rw [blockRun_cons hn] at h
      obtain ⟨⟨r, l⟩, hr, heq⟩ := Option.map_eq_some_iff.mp h
      cases heq
      obtain ⟨hclose, hstop⟩ := ih hr
      exact ⟨closes_cons.mpr ⟨n, hn, hclose⟩, hstop⟩

/-- A closed run that no block can go on from is found whatever follows. -/
theorem Closes.blockRun_eq {d : Nat} {run rest : List Token} (h : Closes d run)
    (hstop : ∀ t ∈ rest.head?, t.role.depthAfter 0 = none) :
    blockRun d (run ++ rest) = some (run, rest) := by
  have hrest : blockRun 0 rest = some ([], rest) := by
    cases rest with
    | nil => rfl
    | cons t rest => rw [blockRun_cons_none (hstop t rfl), if_pos rfl]
  have := h.blockRun_append 0 rest
  rw [Nat.add_zero, hrest] at this
  simpa using this

/-- Inside brackets a run ends before the end of the brackets, whatever follows them. -/
theorem Closes.blockRun_inside {d e : Nat} {ts : List Token} (h : Closes (d + 1 + e) ts) :
    ∃ run rest, blockRun e ts = some (run, rest) ∧ rest ≠ [] ∧
      ∀ xs, blockRun e (ts ++ xs) = some (run, rest ++ xs) := by
  induction ts generalizing e with
  | nil => rw [closes_nil] at h; omega
  | cons t ts ih =>
    obtain ⟨n, hn, hts⟩ := closes_cons.mp h
    cases he : t.role.depthAfter e with
    | none =>
      obtain rfl := depthAfter_eq_none hn he
      refine ⟨[], t :: ts, by rw [blockRun_cons_none he, if_pos rfl], by simp, fun xs => ?_⟩
      rw [List.cons_append, blockRun_cons_none he, if_pos rfl]
    | some m =>
      have hm : n = d + 1 + m := by
        have := depthAfter_add he (d + 1)
        rw [Nat.add_comm e, hn] at this
        cases this
        omega
      rw [hm] at hts
      obtain ⟨run, rest, hrun, hne, hxs⟩ := ih hts
      refine ⟨t :: run, rest, by rw [blockRun_cons he, hrun]; rfl, hne, fun xs => ?_⟩
      rw [List.cons_append, blockRun_cons he, hxs]
      rfl

/-! ## Balanced runs -/

/-- A run that opens no bracket without closing it, from depth zero. -/
abbrev Balanced (ts : List Token) : Prop := Closes 0 ts

/-- A run at any depth passes over a balanced part. -/
theorem Balanced.blockRun_append {u : List Token} (h : Balanced u) (d : Nat) (xs : List Token) :
    blockRun d (u ++ xs) = (blockRun d xs).map fun (run, rest) => (u ++ run, rest) := by
  have := Closes.blockRun_append h d xs
  rwa [Nat.zero_add] at this

theorem Balanced.append {xs ys : List Token} (hx : Balanced xs) (hy : Balanced ys) :
    Balanced (xs ++ ys) := Closes.append hx hy

theorem balanced_nil : Balanced [] := closes_nil.mpr rfl

theorem balanced_of_other {ts : List Token} (h : ∀ t ∈ ts, t.role = .other) : Balanced ts := by
  induction ts with
  | nil => exact balanced_nil
  | cons t ts ih =>
    refine closes_cons.mpr ⟨0, ?_, ih fun u hu => h u (List.mem_cons_of_mem t hu)⟩
    rw [h t List.mem_cons_self]
    rfl

/-- A balanced run in brackets is balanced. -/
theorem Balanced.enclosed {o c : Token} {ts : List Token} (h : Balanced ts)
    (ho : o.role = .opener) (hc : c.role = .closer) : Balanced (o :: ts ++ [c]) := by
  refine closes_cons.mpr ⟨1, by rw [ho]; rfl, ?_⟩
  have hclose : Closes 1 [c] := closes_cons.mpr ⟨0, by rw [hc]; rfl, closes_nil.mpr rfl⟩
  have := Closes.append h hclose
  rwa [Nat.zero_add] at this

end Texelwise

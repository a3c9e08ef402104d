import Mathlib.Data.List.Chain
import Texelwise.Proofs.Expansion.Spacing
import Texelwise.Proofs.Pattern.Splice

/-!
# Tidy texts

In a tidy text no word follows a closing bracket directly. Then what stands for a write or a read,
both of which end with a bracket, goes together with nothing that follows, and passes leave the
text tidy.

* `Tidy`: no letter, digit or underscore is right behind a closing bracket.
* `spaced_tokenize`, `Spaced.tidy`: the same in terms of tokens.
* `Pattern.tidy_replaceAll`: a pass that puts in tidy texts leaves a tidy text.
-/

namespace Texelwise

open Token

/-- No letter, digit or underscore stands right behind a closing bracket. -/
def Tidy (x : Text) : Prop := x.IsChain fun a b => a = ']' → isWordChar b = false

instance (x : Text) : Decidable (Tidy x) :=
  inferInstanceAs (Decidable (x.IsChain fun a b => a = ']' → isWordChar b = false))

theorem tidy_nil : Tidy [] := .nil

theorem tidy_append {x y : Text} : Tidy (x ++ y) ↔
    Tidy x ∧ Tidy y ∧ (']' ∈ x.getLast? → ∀ c ∈ y.head?, isWordChar c = false) := by
  unfold Tidy
  rw [List.isChain_append]
  refine and_congr_right fun _ => and_congr_right fun _ => ⟨fun h hx c hc => h _ hx c hc rfl, ?_⟩
  rintro h _ hx c hc rfl
  exact h hx c hc

theorem tidy_of_not_mem {x : Text} (h : ']' ∉ x) : Tidy x := by
  induction x with
  | nil => exact tidy_nil
  | cons c x ih =>
    rw [List.mem_cons, not_or] at h
    have hsingle : Tidy [c] := .singleton c
    refine tidy_append.mpr ⟨hsingle, ih h.2, fun hc => absurd ?_ h.1⟩
    simpa using hc.symm

/-! ## Tokens of tidy texts -/

theorem Token.Proper.eq_mark_of_getLast? {t : Token} (ht : t.Proper) (h : ']' ∈ t.text.getLast?) :
    t = mark ']' :=
  ht.eq_mark (by decide) (ht.text_eq_of_mem (by decide) (List.mem_of_mem_getLast? h))

theorem Token.Proper.tidy {t : Token} (ht : t.Proper) : Tidy t.text := by
  by_cases hmem : ']' ∈ t.text
  · rw [ht.text_eq_of_mem (by decide) hmem]
    exact .singleton ']'
  · exact tidy_of_not_mem hmem

/-- The text of spaced tokens is tidy. -/
theorem Spaced.tidy {ts : List Token} (h : Spaced ts) : Tidy (textOf ts) := by
  induction ts with
  | nil => exact tidy_nil
  | cons t ts ih =>
    refine tidy_append.mpr ⟨h.1.tidy, ih h.tail, fun hlast c hc => ?_⟩
    exact (h.2.1 c hc).2 (h.1.eq_mark_of_getLast? hlast)

theorem spaced_of_tidy {ts : List Token} (h : Separated ts) (htidy : Tidy (textOf ts)) :
    Spaced ts := by
  induction ts with
  | nil => trivial
  | cons t ts ih =>
    obtain ⟨-, hts, hlast⟩ := tidy_append.mp htidy
    refine ⟨h.1, fun c hc => ⟨h.2.1 c hc, ?_⟩, ih h.tail hts⟩
    rintro rfl
    exact hlast rfl c hc

/-- The tokens of a tidy text are spaced. -/
theorem spaced_tokenize {x : Text} (h : Tidy x) : Spaced (tokenize x) :=
  spaced_of_tidy (separated_tokenize x) (by rwa [textOf_tokenize])

/-! ## Passes -/

/-- The text may stand for one that starts with a word: it is empty, or it is tidy and does not end
with a bracket. -/
def TidyIn (w : Text) : Prop := w = [] ∨ Tidy w ∧ ']' ∉ w.getLast?

/-- Pieces of a tidy text leave a tidy text if what is put in is tidy. -/
theorem Piece.tidy_emit {substitute : Occurrence → Text} {pieces : List Piece}
    (h : ∀ o, .found o ∈ pieces →
      StartsName o.text ∧ TidyIn (substitute o))
    {x : Text} (hx : Tidy (x ++ textOf (tokensOf pieces))) :
    Tidy (x ++ pieces.flatMap (emit substitute)) := by
  induction pieces generalizing x with
  | nil => exact hx
  | cons piece pieces ih =>
    have hrest := @ih fun o ho => h o (List.mem_cons_of_mem piece ho)
    cases piece with
    | kept t =>
      have hkept := @hrest (x ++ t.text) (by rw [List.append_assoc]; exact hx)
      rwa [List.append_assoc] at hkept
    | found o =>
      obtain ⟨⟨c, more, htext, hc⟩, hin⟩ := h o List.mem_cons_self
      have hsplit : x ++ textOf (tokensOf (.found o :: pieces)) =
          x ++ (o.text ++ textOf (tokensOf pieces)) := by
        rw [Occurrence.text, ← textOf_append]
        rfl
      rw [hsplit] at hx
      obtain ⟨hfront, hback, hlast⟩ := tidy_append.mp hx
      have hafter := (tidy_append.mp hback).2.1
      -- An occurrence starts with a word, so there is no bracket right before it.
      have hbracket : ']' ∉ x.getLast? := by
        intro hmem
        have hnot := hlast hmem c (by rw [htext]; rfl)
        rw [isWordChar_of_isAlpha hc] at hnot
        cases hnot
      rw [List.flatMap_cons, emit]
      rcases hin with hnil | ⟨hput, hend⟩
      · rw [hnil, List.nil_append]
        exact hrest (tidy_append.mpr ⟨hfront, hafter, fun hmem => absurd hmem hbracket⟩)
      · rw [← List.append_assoc]
        refine hrest (tidy_append.mpr ⟨tidy_append.mpr
          ⟨hfront, hput, fun hmem => absurd hmem hbracket⟩, hafter, fun hmem => ?_⟩)
        by_cases hnil : substitute o = []
        · rw [hnil, List.append_nil] at hmem
          exact absurd hmem hbracket
        · rw [List.getLast?_append_of_ne_nil x hnil] at hmem
          exact absurd hmem hend

/-- A pass that puts in tidy texts leaves a tidy text. -/
theorem Pattern.tidy_replaceAll {p : Pattern} (hp : p.Consumes = true)
    {substitute : Occurrence → Text} {x y : Text}
    (h : ∀ us m, us <:+ tokenize x → p.match? us = some m →
      StartsName (textOf m.taken) ∧ TidyIn (substitute ⟨m.taken, m.captures⟩))
    (hy : p.replaceAll substitute x = .ok y) (hx : Tidy x) : Tidy y := by
  rw [replaceAll_eq_walk hp] at hy
  obtain rfl := Except.ok.inj hy
  refine @Piece.tidy_emit substitute _ (fun o ho => ?_) [] ?_
  · obtain ⟨us, m, hus, hm, rfl⟩ := match?_of_mem_walk ho
    exact h us m hus hm
  · rwa [tokensOf_walk hp, textOf_tokenize]

end Texelwise

import Texelwise.Proofs.Text.Lines

/-!
# Slices by bytes

A place in a text is given by the number of UTF-8 bytes before it. A slice from one place to
another exists only if both places lie in the text, in this order and between characters.

* `Text.slice?`: the slice between two places, if there is one.
* `slice?_eq_some_iff`: a slice is a part of the text with so many bytes before it.
-/

namespace Texelwise.Text

/-- The text after its first `n` bytes; none if it has fewer or they end inside a character. -/
def dropBytes? : Nat → Text → Option Text
  | 0, t => some t
  | _ + 1, [] => none
  | n + 1, c :: t => if c.utf8Size ≤ n + 1 then dropBytes? (n + 1 - c.utf8Size) t else none

/-- The first `n` bytes of a text; none if it has fewer or they end inside a character. -/
def takeBytes? : Nat → Text → Option Text
  | 0, _ => some []
  | _ + 1, [] => none
  | n + 1, c :: t =>
    if c.utf8Size ≤ n + 1 then (takeBytes? (n + 1 - c.utf8Size) t).map (c :: ·) else none

/-- The part of a text from byte `start` up to byte `stop`, if there is one. -/
def slice? (t : Text) (start stop : Nat) : Option Text :=
  if start ≤ stop then (dropBytes? start t).bind (takeBytes? (stop - start)) else none

theorem dropBytes?_cons {n : Nat} {c : Char} (h : c.utf8Size ≤ n) (t : Text) :
    dropBytes? n (c :: t) = dropBytes? (n - c.utf8Size) t := by
  cases n with
  | zero => exact absurd h (Nat.not_le.mpr c.utf8Size_pos)
  | succ n => exact if_pos h

theorem takeBytes?_cons {n : Nat} {c : Char} (h : c.utf8Size ≤ n) (t : Text) :
    takeBytes? n (c :: t) = (takeBytes? (n - c.utf8Size) t).map (c :: ·) := by
  cases n with
  | zero => exact absurd h (Nat.not_le.mpr c.utf8Size_pos)
  | succ n => exact if_pos h

theorem dropBytes?_append (a b : Text) : dropBytes? (byteLength a) (a ++ b) = some b := by
  induction a with
  | nil => simp [dropBytes?]
  | cons c a ih =>
    rw [List.cons_append, byteLength_cons, dropBytes?_cons (Nat.le_add_right _ _),
      Nat.add_sub_cancel_left, ih]

theorem takeBytes?_append (a b : Text) : takeBytes? (byteLength a) (a ++ b) = some a := by
  induction a with
  | nil => simp [takeBytes?]
  | cons c a ih =>
    rw [List.cons_append, byteLength_cons, takeBytes?_cons (Nat.le_add_right _ _),
      Nat.add_sub_cancel_left, ih, Option.map_some]

theorem exists_of_dropBytes? {n : Nat} {t b : Text} (h : dropBytes? n t = some b) :
    ∃ a, t = a ++ b ∧ byteLength a = n := by
  fun_induction dropBytes? n t with
  | case1 t =>
    cases h
    exact ⟨[], rfl, rfl⟩
  | case2 => cases h
  | case3 n c t hle ih =>
    obtain ⟨a, rfl, ha⟩ := ih h
    exact ⟨c :: a, rfl, by rw [byteLength_cons]; omega⟩
  | case4 => cases h

theorem exists_of_takeBytes? {n : Nat} {t a : Text} (h : takeBytes? n t = some a) :
    ∃ b, t = a ++ b ∧ byteLength a = n := by
  fun_induction takeBytes? n t generalizing a with
  | case1 t =>
    cases h
    exact ⟨t, rfl, rfl⟩
  | case2 => cases h
  | case3 n c t hle ih =>
    obtain ⟨a, ha, rfl⟩ := Option.map_eq_some_iff.mp h
    obtain ⟨b, rfl, hlen⟩ := ih ha
    exact ⟨b, rfl, by rw [byteLength_cons]; omega⟩
  | case4 => cases h

/-- A slice is what stands between two places of the text. -/
theorem slice?_eq_some_iff {t s : Text} {start stop : Nat} :
    slice? t start stop = some s ↔
      ∃ a c, t = a ++ (s ++ c) ∧ byteLength a = start ∧ byteLength a + byteLength s = stop := by
  unfold slice?
  constructor
  · intro h
    split at h
    · obtain ⟨rest, hrest, hs⟩ := Option.bind_eq_some_iff.mp h
      obtain ⟨a, rfl, ha⟩ := exists_of_dropBytes? hrest
      obtain ⟨c, rfl, hlen⟩ := exists_of_takeBytes? hs
      exact ⟨a, c, rfl, ha, by omega⟩
    · cases h
  · rintro ⟨a, c, rfl, rfl, rfl⟩
    rw [if_pos (Nat.le_add_right _ _), dropBytes?_append, Option.bind_some, Nat.add_sub_cancel_left,
      takeBytes?_append]

theorem slice?_append (a s c : Text) :
    slice? (a ++ (s ++ c)) (byteLength a) (byteLength a + byteLength s) = some s :=
  slice?_eq_some_iff.mpr ⟨a, c, rfl, rfl, rfl⟩

/-! ## Comments -/

/-- What stands before a comment is a slice of the line. -/
theorem slice?_beforeComment (t : Text) :
    slice? t 0 (byteLength (beforeComment t)) = some (beforeComment t) := by
  obtain ⟨comment, h⟩ := beforeComment_prefix t
  exact slice?_eq_some_iff.mpr ⟨[], comment, h, rfl, Nat.zero_add _⟩

end Texelwise.Text

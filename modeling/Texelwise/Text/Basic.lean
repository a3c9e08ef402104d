/-!
# Text

Source text is a list of characters. This module has the classes of characters that separate
words, and the cuts that reading a program needs.

* `isBlank`: the characters with the Unicode property `White_Space`.
* `trim`: drops blanks at both ends.
* `cut`: splits at every occurrence of one character; `intercalate_cut` gives the text back.
* `byteLength`: the length in UTF-8 bytes, additive over `++`.
-/

namespace Texelwise

/-- Source text as the characters it consists of. -/
abbrev Text := List Char

instance : LawfulBEq Text := inferInstance

namespace Text

/-! ## Blanks -/

/-- First and last code point of each range with the property `White_Space`. -/
def blankRanges : List (Nat × Nat) :=
  [(0x09, 0x0D), (0x20, 0x20), (0x85, 0x85), (0xA0, 0xA0), (0x1680, 0x1680), (0x2000, 0x200A),
    (0x2028, 0x2029), (0x202F, 0x202F), (0x205F, 0x205F), (0x3000, 0x3000)]

/-- Whether a character has the Unicode property `White_Space`. -/
def isBlank (c : Char) : Bool :=
  blankRanges.any fun (lo, hi) => lo ≤ c.toNat && c.toNat ≤ hi

/-- Drops the blanks at both ends. -/
def trim (t : Text) : Text :=
  ((t.dropWhile isBlank).reverse.dropWhile isBlank).reverse

/-- Whether nothing but blanks stands in the text. -/
def isAllBlank (t : Text) : Bool := t.all isBlank

/-! ## Cuts -/

/-- The parts between the occurrences of `separator`; always at least one part. -/
def cut (separator : Char) : Text → List Text
  | [] => [[]]
  | c :: rest =>
    if c = separator then [] :: cut separator rest
    else (cut separator rest).modifyHead (c :: ·)

theorem cut_ne_nil (separator : Char) (t : Text) : cut separator t ≠ [] := by
  induction t with
  | nil => simp [cut]
  | cons c rest ih =>
    unfold cut
    split
    · simp
    · cases h : cut separator rest with
      | nil => exact absurd h ih
      | cons p ps => simp

/-- Joining the parts with the separator gives the text back. -/
theorem intercalate_cut (separator : Char) (t : Text) :
    [separator].intercalate (cut separator t) = t := by
  induction t with
  | nil => rfl
  | cons c rest ih =>
    unfold cut
    have hne := cut_ne_nil separator rest
    cases h : cut separator rest with
    | nil => exact absurd h hne
    | cons p ps =>
      rw [h] at ih
      split
      · subst_vars
        simp_all [List.intercalate, List.intersperse]
      · cases ps <;> simp_all [List.intercalate, List.intersperse]

/-! ## Length in bytes -/

/-- The length of the UTF-8 encoding. -/
def byteLength : Text → Nat
  | [] => 0
  | c :: rest => c.utf8Size + byteLength rest

@[simp] theorem byteLength_nil : byteLength [] = 0 := rfl

@[simp] theorem byteLength_cons (c : Char) (t : Text) :
    byteLength (c :: t) = c.utf8Size + byteLength t := rfl

@[simp] theorem byteLength_append (s t : Text) :
    byteLength (s ++ t) = byteLength s + byteLength t := by
  induction s with
  | nil => simp
  | cons c s ih => simp [ih, Nat.add_assoc]

end Text

end Texelwise

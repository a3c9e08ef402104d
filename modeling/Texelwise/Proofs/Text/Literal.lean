import Mathlib.Data.List.Infix
import Texelwise.Text.Basic

/-!
# Long literals

A long string is slow to read character by character. These lemmas say what holds of the characters
of a string if they are given as a list.
-/

namespace Texelwise

variable {c : Char} {x y : Text} {s s' : String} {l : List Char}

theorem not_mem_toList (hs : s = String.ofList l) (h : c ∉ l) : c ∉ s.toList := by
  rwa [hs, String.toList_ofList]

theorem not_mem_toList_append (hs : c ∉ s.toList) (hs' : c ∉ s'.toList) :
    c ∉ (s ++ s').toList := by
  rw [String.toList_append, List.mem_append, not_or]
  exact ⟨hs, hs'⟩

theorem infix_toList (hs : s = String.ofList l) (h : x <:+: l) : x <:+: s.toList := by
  rwa [hs, String.toList_ofList]

theorem suffix_toList (hs : s = String.ofList l) (h : x <:+ l) : x <:+ s.toList := by
  rwa [hs, String.toList_ofList]

end Texelwise

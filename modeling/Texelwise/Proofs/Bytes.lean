import Texelwise.Bytes

/-!
# Ranges and sizes of bytes

* `getElem?_overwrite`: a list with a part written over, item by item.
* `writeRange_append`: a range is written over where it lies inside.
* `toNat_divCeil`: rounding up in 32 bits is exact.
-/

namespace Texelwise

/-! ## Writing over a part of a list -/

section List

variable {α : Type} {xs ys : List α} {i : Nat}

theorem overwrite_nil (xs : List α) (i : Nat) : overwrite xs i [] = xs := by
  simp [overwrite]

theorem length_overwrite (h : i + ys.length ≤ xs.length) :
    (overwrite xs i ys).length = xs.length := by
  simp only [overwrite, List.length_append, List.length_take, List.length_drop]
  omega

theorem getElem?_overwrite (h : i + ys.length ≤ xs.length) (k : Nat) :
    (overwrite xs i ys)[k]? = if i ≤ k ∧ k < i + ys.length then ys[k - i]? else xs[k]? := by
  have htake : (xs.take i).length = i := List.length_take_of_le (by omega)
  rw [overwrite, List.append_assoc, List.getElem?_append, htake]
  split
  · rw [if_neg (by omega), List.getElem?_take_of_lt (by assumption)]
  · rw [List.getElem?_append]
    split
    · rw [if_pos (by omega)]
    · rw [if_neg (by omega), List.getElem?_drop]
      congr 1
      omega

theorem drop_overwrite (h : i + ys.length ≤ xs.length) {n : Nat} (hn : i + ys.length ≤ n) :
    (overwrite xs i ys).drop n = xs.drop n := by
  apply List.ext_getElem?
  intro k
  rw [List.getElem?_drop, List.getElem?_drop, getElem?_overwrite h, if_neg (by omega)]

/-- The first item can be written before the others. -/
theorem overwrite_cons {y : α} (h : i < xs.length) :
    overwrite xs i (y :: ys) = overwrite (xs.set i y) (i + 1) ys := by
  have htake : (xs.set i y).take (i + 1) = xs.take i ++ [y] := by
    have hlen : (xs.take i).length = i := List.length_take_of_le (Nat.le_of_lt h)
    rw [List.take_set, List.take_succ_eq_append_getElem h, List.set_append_right _ _ (by omega),
      hlen, Nat.sub_self, List.set_cons_zero]
  have hdrop : (xs.set i y).drop (i + 1 + ys.length) = xs.drop (i + (y :: ys).length) := by
    rw [List.drop_set_of_lt (by omega), List.length_cons, Nat.add_assoc, Nat.add_comm 1]
  rw [overwrite, overwrite, htake, hdrop, List.append_assoc, List.append_assoc, List.append_assoc]
  rfl

theorem set_eq_overwrite {y : α} (h : i < xs.length) : xs.set i y = overwrite xs i [y] := by
  rw [overwrite_cons h, overwrite_nil]

end List

/-! ## Ranges -/

/-- A range that lies inside is written over. -/
theorem writeRange_append {before old new after : List UInt8} (h : new.length = old.length) :
    writeRange (before ++ old ++ after) before.length new = .ok (before ++ new ++ after) := by
  have hstop : before.length + new.length ≤ (before ++ old ++ after).length := by
    simp only [List.length_append]
    omega
  have htake : (before ++ old ++ after).take before.length = before := by
    rw [List.append_assoc, List.take_left]
  have hdrop : (before ++ old ++ after).drop (before.length + new.length) = after := by
    rw [h, ← List.length_append, List.drop_left]
  simp only [writeRange, if_pos hstop, overwrite, htake, hdrop]

/-! ## Sizes -/

/-- Rounding up does not go past 32 bits. -/
theorem toNat_divCeil (n : UInt32) {d : UInt32} (h : d ≠ 0) :
    (divCeil n d).toNat = (n.toNat + d.toNat - 1) / d.toNat := by
  have hd : 0 < d.toNat := Nat.pos_of_ne_zero fun h0 => h (UInt32.toNat_inj.mp h0)
  have hzero : n % d = 0 ↔ n.toNat % d.toNat = 0 := by
    rw [← UInt32.toNat_inj, UInt32.toNat_mod]
    rfl
  have hn := n.toNat_lt
  have hsplit := Nat.div_add_mod n.toNat d.toNat
  have hmod := Nat.mod_lt n.toNat hd
  unfold divCeil
  by_cases hr : n.toNat % d.toNat = 0
  · rw [if_pos (hzero.mpr hr), UInt32.toNat_div]
    refine (Nat.div_eq_of_lt_le ?_ ?_).symm
    · rw [Nat.mul_comm]
      omega
    · rw [Nat.succ_mul, Nat.mul_comm]
      omega
  · -- The divisor is not 1, so that the quotient is not the largest number.
    have hquot : n.toNat / d.toNat + 1 < 2 ^ 32 := by
      have hd1 : d.toNat ≠ 1 := fun h1 => hr (by rw [h1, Nat.mod_one])
      have hd2 : 2 ≤ d.toNat := by omega
      have := Nat.div_le_div_left hd2 (by decide : 0 < 2) (a := n.toNat)
      omega
    rw [if_neg (mt hzero.mp hr), UInt32.toNat_add, UInt32.toNat_div,
      show (1 : UInt32).toNat = 1 from rfl, Nat.mod_eq_of_lt hquot]
    refine (Nat.div_eq_of_lt_le ?_ ?_).symm
    · rw [Nat.succ_mul, Nat.mul_comm]
      omega
    · rw [Nat.succ_mul, Nat.succ_mul, Nat.mul_comm]
      omega

end Texelwise

import Texelwise.Buffer.Staging
import Texelwise.Proofs.Bytes

/-!
# Bytes of texels

Texels are written over as their bytes are, at the fourfold place; and writing bytes to staging
memory, wherever they start, writes over just these bytes.

* `flatMap_bytes_overwrite`: texels written over are their bytes written over.
* `Staging.bytes_write`: bytes written to staging memory are written over its bytes.
-/

namespace Texelwise

/-! ## The bytes of texels -/

theorem Texel.length_bytes (t : Texel) : t.bytes.length = 4 := rfl

theorem length_flatMap_texels (ts : List Texel) :
    (ts.flatMap Texel.bytes).length = 4 * ts.length := by
  induction ts with
  | nil => rfl
  | cons t ts ih =>
    rw [List.flatMap_cons, List.length_append, ih, Texel.length_bytes, List.length_cons]
    omega

theorem take_flatMap_texels (ts : List Texel) (k : Nat) :
    (ts.flatMap Texel.bytes).take (4 * k) = (ts.take k).flatMap Texel.bytes := by
  induction k generalizing ts with
  | zero => rfl
  | succ k ih =>
    cases ts with
    | nil => simp
    | cons t ts =>
      rw [List.flatMap_cons, Nat.mul_succ, Nat.add_comm, ← Texel.length_bytes t,
        List.take_length_add_append, Texel.length_bytes, ih]
      rfl

theorem drop_flatMap_texels (ts : List Texel) (k : Nat) :
    (ts.flatMap Texel.bytes).drop (4 * k) = (ts.drop k).flatMap Texel.bytes := by
  induction k generalizing ts with
  | zero => rfl
  | succ k ih =>
    cases ts with
    | nil => simp
    | cons t ts =>
      rw [List.flatMap_cons, Nat.mul_succ, Nat.add_comm, ← Texel.length_bytes t,
        List.drop_length_add_append, Texel.length_bytes, ih]
      rfl

/-- Texels that are written over are their bytes written over. -/
theorem flatMap_bytes_overwrite (ts us : List Texel) (i : Nat) :
    (overwrite ts i us).flatMap Texel.bytes =
      overwrite (ts.flatMap Texel.bytes) (4 * i) (us.flatMap Texel.bytes) := by
  rw [overwrite, overwrite, List.flatMap_append, List.flatMap_append, take_flatMap_texels,
    length_flatMap_texels, ← Nat.mul_add, drop_flatMap_texels]

/-- The four bytes of one texel. -/
theorem take_drop_flatMap_texels (ts : List Texel) (k : Nat) :
    ((ts.flatMap Texel.bytes).drop (4 * k)).take 4 = (ts[k]?.map Texel.bytes).getD [] := by
  rw [drop_flatMap_texels]
  cases hk : ts[k]? with
  | none =>
    rw [List.drop_eq_nil_of_le (List.getElem?_eq_none_iff.mp hk)]
    rfl
  | some t =>
    obtain ⟨hlt, rfl⟩ := List.getElem?_eq_some_iff.mp hk
    rw [List.drop_eq_getElem_cons hlt]
    rfl

theorem flatMap_bytes_modify (ts : List Texel) (i : Nat) (value : UInt8) :
    (ts.modify (i / 4) (Texel.setByte (i % 4) value)).flatMap Texel.bytes =
      (ts.flatMap Texel.bytes).set i value := by
  induction ts generalizing i with
  | nil => simp
  | cons t ts ih =>
    rcases Nat.lt_or_ge i 4 with hi | hi
    · rw [Nat.div_eq_of_lt hi, Nat.mod_eq_of_lt hi]
      match i, hi with
      | 0, _ | 1, _ | 2, _ | 3, _ => rfl
    · obtain ⟨j, rfl⟩ := Nat.exists_eq_add_of_le' hi
      rw [Nat.add_div_right j (by decide), Nat.add_mod_right, List.modify_succ_cons,
        List.flatMap_cons, ih, List.flatMap_cons, List.set_append_right _ _ hi]
      rfl

/-! ## Staging memory -/

namespace Staging

variable {kind : BufferKind}

theorem length_bytes (m : Staging kind) : m.bytes.length = 4 * m.texels.size :=
  length_flatMap_texels _

theorem bytes_setByte (m : Staging kind) (i : Nat) (value : UInt8) :
    (m.setByte i value).bytes = m.bytes.set i value := by
  rw [setByte, bytes, Array.toList_modify, flatMap_bytes_modify]
  rfl

/-- Bytes within the memory are written over, wherever they start. -/
theorem bytes_write {m : Staging kind} {offset : Nat} {values : List UInt8}
    (h : offset + values.length ≤ 4 * m.texels.size) :
    (m.write offset values).bytes = overwrite m.bytes offset values := by
  induction values generalizing m offset with
  | nil => exact (overwrite_nil _ _).symm
  | cons value rest ih =>
    rw [List.length_cons] at h
    have hsize : (m.setByte offset value).texels.size = m.texels.size := Array.size_modify
    have hlt : offset < m.bytes.length := by
      rw [length_bytes]
      omega
    rw [write, ih (by omega), bytes_setByte, overwrite_cons hlt]

theorem size_write (m : Staging kind) (offset : Nat) (values : List UInt8) :
    (m.write offset values).texels.size = m.texels.size := by
  induction values generalizing m offset with
  | nil => rfl
  | cons value rest ih => exact (ih _ _).trans Array.size_modify

theorem shape_write (m : Staging kind) (offset : Nat) (values : List UInt8) :
    (m.write offset values).shape = m.shape := by
  induction values generalizing m offset with
  | nil => rfl
  | cons value rest ih => exact ih _ _

end Staging

end Texelwise

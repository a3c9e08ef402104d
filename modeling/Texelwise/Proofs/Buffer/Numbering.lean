import Mathlib.Algebra.BigOperators.Group.List.Basic
import Mathlib.Data.List.Forall2
import Texelwise.Buffer.Shape

/-!
# The numbers of the elements

Elements are numbered row by row: the coordinates inside a shape have the numbers below the number
of elements, in row-major order, and coordinates are found from numbers by division and remainder.
The two ways undo each other.

* `Shape.InRange`: the coordinates inside a shape, component by component.
* `Coord.Before`: row-major order.
* `Shape.coordAt_index`, `Shape.exists_coordAt_of_lt`: the two ways undo each other.
* `Shape.index_lt_index_iff`: numbers rise in row-major order.
* `Shape.offset_eq_ok_iff_coordAt`: the whole of it, for shapes that are counted in 64 bits.
-/

namespace Texelwise

/-- Row-major order: the last component decides, and where it is the same, the one before it. -/
def Coord.Before {r : Rank} (c c' : Coord r) : Prop := c.toList.reverse < c'.toList.reverse

/-! ## Two digits -/

section Digits

variable {w x x' q q' : Nat}

theorem add_mul_mod_of_lt (hx : x < w) : (x + q * w) % w = x := by
  rw [Nat.add_mul_mod_self_right, Nat.mod_eq_of_lt hx]

theorem add_mul_div_of_lt (hx : x < w) : (x + q * w) / w = q := by
  rw [Nat.add_mul_div_right x q (Nat.zero_lt_of_lt hx), Nat.div_eq_of_lt hx, Nat.zero_add]

/-- A larger second digit outweighs the first one. -/
theorem add_mul_lt_of_lt (hx : x < w) (hq : q < q') : x + q * w < x' + q' * w := by
  have hle : (q + 1) * w ≤ q' * w := Nat.mul_le_mul_right w hq
  rw [Nat.succ_mul] at hle
  omega

theorem add_mul_lt_iff (hx : x < w) (hx' : x' < w) :
    x + q * w < x' + q' * w ↔ q < q' ∨ q = q' ∧ x < x' := by
  rcases Nat.lt_trichotomy q q' with hq | rfl | hq
  · simp [add_mul_lt_of_lt hx hq, hq]
  · simp
  · have := @add_mul_lt_of_lt w x' x q' q hx' hq
    omega

theorem add_mul_eq_iff (hx : x < w) (hx' : x' < w) :
    x + q * w = x' + q' * w ↔ q = q' ∧ x = x' := by
  constructor
  · intro h
    have hdiv := congrArg (· / w) h
    have hmod := congrArg (· % w) h
    simp only [add_mul_div_of_lt hx, add_mul_div_of_lt hx'] at hdiv
    simp only [add_mul_mod_of_lt hx, add_mul_mod_of_lt hx'] at hmod
    exact ⟨hdiv, hmod⟩
  · rintro ⟨rfl, rfl⟩
    rfl

end Digits

namespace Shape

variable {r : Rank}

/-- The dimensions of a shape. -/
def dims : Shape r → List Nat
  | .line width => [width]
  | .plane width height => [width, height]
  | .volume width height depth => [width, height, depth]

theorem volumeOf_eq_prod (s : Shape r) : s.volumeOf = s.dims.prod := by
  cases s <;> simp [volumeOf, dims, Nat.mul_assoc]

/-! ## Coordinates inside a shape -/

/-- Each component is below the dimension that it belongs to. -/
def InRange (s : Shape r) (c : Coord r) : Prop := List.Forall₂ (· < ·) c.toList s.dims

theorem contains_iff_inRange {s : Shape r} {c : Coord r} : s.Contains c ↔ s.InRange c := by
  cases s <;> cases c <;> simp [Contains, InRange, dims, Coord.toList]

theorem offset_eq_ok_iff {s : Shape r} {c : Coord r} {i : Nat} :
    s.offset c = .ok i ↔ s.Contains c ∧ s.index c % UInt64.size = i := by
  unfold offset
  split <;> simp_all

/-- A number of 64 bits is exact. -/
theorem offset_of_index_lt {s : Shape r} {c : Coord r} (h : s.Contains c)
    (hlt : s.index c < UInt64.size) : s.offset c = .ok (s.index c) :=
  offset_eq_ok_iff.mpr ⟨h, Nat.mod_eq_of_lt hlt⟩

theorem offset_eq_error_iff {s : Shape r} {c : Coord r} {e : AccessError r} :
    s.offset c = .error e ↔ ¬s.Contains c ∧ e = .outside s c := by
  unfold offset
  split <;> simp_all [eq_comm]

/-- The number of a coordinate of a volume has the digits `x`, `y` and `z`. -/
theorem index_volume (w h d x y z : Nat) :
    (Shape.volume w h d).index (.volume x y z) = x + (y + z * h) * w := by
  rw [index, Nat.add_mul, Nat.mul_right_comm, Nat.add_assoc]

/-! ## There and back -/

/-- The coordinate is found again from its number. -/
theorem coordAt_index {s : Shape r} {c : Coord r} (h : s.Contains c) :
    s.coordAt (s.index c) = .ok c := by
  cases s with
  | line w =>
    cases c with
    | line x => rfl
  | plane w h =>
    cases c with
    | plane x y =>
      obtain ⟨hx, -⟩ := h
      rw [coordAt, if_neg (Nat.ne_of_gt (Nat.zero_lt_of_lt hx)), index, add_mul_mod_of_lt hx,
        add_mul_div_of_lt hx]
  | volume w h d =>
    cases c with
    | volume x y z =>
      obtain ⟨hx, hy, -⟩ := h
      rw [coordAt, if_neg (by omega), index_volume, ← Nat.div_div_eq_div_mul, add_mul_mod_of_lt hx,
        add_mul_div_of_lt hx, add_mul_mod_of_lt hy, add_mul_div_of_lt hy]

/-- The number is that of the coordinate that is found from it. -/
theorem exists_coordAt_of_lt {s : Shape r} {i : Nat} (h : i < s.volumeOf) :
    ∃ c, s.coordAt i = .ok c ∧ s.Contains c ∧ s.index c = i := by
  cases s with
  | line w => exact ⟨.line i, rfl, h, rfl⟩
  | plane w h' =>
    have hw : 0 < w := Nat.pos_of_mul_pos_right (Nat.zero_lt_of_lt h)
    exact ⟨.plane (i % w) (i / w), if_neg (Nat.ne_of_gt hw),
      ⟨Nat.mod_lt i hw, Nat.div_lt_of_lt_mul h⟩, Nat.mod_add_div' i w⟩
  | volume w h' d =>
    have hlayer : 0 < w * h' := Nat.pos_of_mul_pos_right (Nat.zero_lt_of_lt h)
    have hw : 0 < w := Nat.pos_of_mul_pos_right hlayer
    have hh : 0 < h' := Nat.pos_of_mul_pos_left hlayer
    refine ⟨.volume (i % w) (i / w % h') (i / (w * h')), if_neg (by omega),
      ⟨Nat.mod_lt i hw, Nat.mod_lt _ hh, Nat.div_lt_of_lt_mul h⟩, ?_⟩
    rw [index_volume, ← Nat.div_div_eq_div_mul, Nat.mod_add_div', Nat.mod_add_div']

/-- Division and remainder lead outside the shape for numbers past the last element. -/
theorem lt_volumeOf_of_coordAt {s : Shape r} {i : Nat} {c : Coord r} (hc : s.coordAt i = .ok c)
    (h : s.Contains c) : i < s.volumeOf := by
  cases s with
  | line w =>
    cases hc
    exact h
  | plane w h' =>
    rw [coordAt] at hc
    split at hc
    · cases hc
    · rename_i hw
      cases hc
      have hlt := (Nat.div_lt_iff_lt_mul (Nat.pos_of_ne_zero hw)).mp h.2
      rwa [Nat.mul_comm] at hlt
  | volume w h' d =>
    rw [coordAt] at hc
    split at hc
    · cases hc
    · rename_i hpos
      cases hc
      have hlayer : 0 < w * h' := Nat.mul_pos (by omega) (by omega)
      have hlt := (Nat.div_lt_iff_lt_mul hlayer).mp h.2.2
      rwa [Nat.mul_comm] at hlt

theorem index_lt_volumeOf {s : Shape r} {c : Coord r} (h : s.Contains c) :
    s.index c < s.volumeOf := lt_volumeOf_of_coordAt (coordAt_index h) h

theorem coordAt_eq_error_iff {s : Shape r} {i : Nat} {e : AccessError r} :
    s.coordAt i = .error e ↔ 0 ∈ s.dims.dropLast ∧ e = .zeroDivisor := by
  cases s with
  | line w => simp [coordAt, dims]
  | plane w h =>
    rw [coordAt]
    split <;> simp_all [dims, eq_comm]
  | volume w h d =>
    rw [coordAt]
    split <;> simp_all [dims, eq_comm]

/-! ## Order -/

/-- Numbers rise in row-major order. -/
theorem index_lt_index_iff {s : Shape r} {c c' : Coord r} (h : s.Contains c)
    (h' : s.Contains c') : s.index c < s.index c' ↔ c.Before c' := by
  cases s with
  | line w =>
    cases c with
    | line x =>
      cases c' with
      | line x' => simp [index, Coord.Before, Coord.toList, List.cons_lt_cons_iff]
  | plane w h =>
    cases c with
    | plane x y =>
      cases c' with
      | plane x' y' =>
        rw [index, index, add_mul_lt_iff h.1 h'.1]
        simp [Coord.Before, Coord.toList, List.cons_lt_cons_iff]
  | volume w h d =>
    cases c with
    | volume x y z =>
      cases c' with
      | volume x' y' z' =>
        rw [index_volume, index_volume, add_mul_lt_iff h.1 h'.1, add_mul_lt_iff h.2.1 h'.2.1,
          add_mul_eq_iff h.2.1 h'.2.1]
        simp [Coord.Before, Coord.toList, List.cons_lt_cons_iff, and_or_left, or_assoc, and_assoc]

/-! ## All coordinates in their order -/

/-- The coordinates of `count` numbers from number `i` on, as far as there are any. -/
def coordsFrom (s : Shape r) (i count : Nat) : List (Coord r) :=
  (List.range' i count).filterMap fun k => (s.coordAt k).toOption

/-- The coordinates of all elements in the order of their numbers. -/
def coords (s : Shape r) : List (Coord r) := s.coordsFrom 0 s.count

theorem coordsFrom_succ {s : Shape r} {i : Nat} {c : Coord r} (h : s.coordAt i = .ok c)
    (count : Nat) : s.coordsFrom i (count + 1) = c :: s.coordsFrom (i + 1) count := by
  rw [coordsFrom, List.range'_succ, List.filterMap_cons, h]
  rfl

/-- The coordinates of numbers inside a shape lie inside it, and each has its number. -/
theorem map_index_coordsFrom {s : Shape r} {i count : Nat} (h : i + count ≤ s.volumeOf) :
    (s.coordsFrom i count).map s.index = List.range' i count ∧
      ∀ c ∈ s.coordsFrom i count, s.Contains c := by
  induction count generalizing i with
  | zero => exact ⟨rfl, fun c hc => absurd hc List.not_mem_nil⟩
  | succ count ih =>
    obtain ⟨c, hc, hinside, hindex⟩ := exists_coordAt_of_lt (s := s) (i := i) (by omega)
    obtain ⟨hmap, hall⟩ := @ih (i + 1) (by omega)
    rw [coordsFrom_succ hc]
    refine ⟨?_, List.forall_mem_cons.mpr ⟨hinside, hall⟩⟩
    rw [List.map_cons, hindex, hmap, List.range'_succ]

theorem map_index_coords (s : Shape r) : s.coords.map s.index = List.range' 0 s.count :=
  (map_index_coordsFrom (by rw [Nat.zero_add]; exact Nat.min_le_left _ _)).1

theorem contains_of_mem_coords {s : Shape r} {c : Coord r} (h : c ∈ s.coords) : s.Contains c :=
  (map_index_coordsFrom (by rw [Nat.zero_add]; exact Nat.min_le_left _ _)).2 c h

theorem length_coords (s : Shape r) : s.coords.length = s.count := by
  rw [← List.length_map (f := s.index), map_index_coords, List.length_range']

/-- The coordinate at a place of the list has the number of the place. -/
theorem offset_of_getElem?_coords {s : Shape r} {k : Nat} {c : Coord r}
    (h : s.coords[k]? = some c) : s.offset c = .ok k := by
  have hk : (s.coords.map s.index)[k]? = some (s.index c) := by rw [List.getElem?_map, h]; rfl
  obtain ⟨hlt, hindex⟩ := List.getElem?_eq_some_iff.mp hk
  simp only [map_index_coords, List.getElem_range', Nat.zero_add, Nat.one_mul] at hindex
  have hcount : k < s.count := by
    rw [← length_coords]
    exact (List.getElem?_eq_some_iff.mp h).1
  have hsize : s.count < UInt64.size := Nat.lt_of_le_of_lt (Nat.min_le_right _ _) (by decide)
  rw [offset_of_index_lt (contains_of_mem_coords (List.mem_of_getElem? h)) (by omega), hindex]

/-- The list is in row-major order, so that it has no coordinate twice. -/
theorem pairwise_coords (s : Shape r) : s.coords.Pairwise Coord.Before := by
  have hindex : s.coords.Pairwise fun c c' => s.index c < s.index c' := by
    rw [← List.pairwise_map, map_index_coords]
    exact List.pairwise_lt_range'
  refine hindex.imp_of_mem fun hc hc' hlt => ?_
  exact (index_lt_index_iff (contains_of_mem_coords hc) (contains_of_mem_coords hc')).mp hlt

/-- The list has every coordinate inside a shape whose elements are counted exactly. -/
theorem mem_coords_iff {s : Shape r} (hs : s.count = s.volumeOf) {c : Coord r} :
    c ∈ s.coords ↔ s.InRange c := by
  rw [← contains_iff_inRange]
  refine ⟨contains_of_mem_coords, fun h => ?_⟩
  have hmem : s.index c ∈ s.coords.map s.index := by
    rw [map_index_coords, List.mem_range'_1, hs]
    exact ⟨Nat.zero_le _, by rw [Nat.zero_add]; exact index_lt_volumeOf h⟩
  obtain ⟨c', hc', hindex⟩ := List.mem_map.mp hmem
  have hsame := coordAt_index (contains_of_mem_coords hc')
  rw [hindex, coordAt_index h] at hsame
  exact Except.ok.inj hsame ▸ hc'

/-! ## Counting in 64 bits -/

/-- The elements of a shape are counted in 64 bits, and so are those of one layer of a volume. -/
def Counted : Shape r → Prop
  | .volume w h d => w * h ≤ maxCount ∧ w * h * d ≤ maxCount
  | s => s.volumeOf ≤ maxCount

/-- The products and sums on the way from a coordinate to its number and back, in their order. -/
def arithmetic : Shape r → Coord r → List Nat
  | .line _, .line x => [x]
  | .plane w _, .plane x y => [y * w, x + y * w]
  | .volume w h _, .volume x y z =>
    [w * h, y * w, x + y * w, z * w, z * w * h, x + y * w + z * w * h]

theorem Counted.count_eq {s : Shape r} (hs : s.Counted) : s.count = s.volumeOf := by
  cases s with
  | line w => exact Nat.min_eq_left hs
  | plane w h => exact Nat.min_eq_left hs
  | volume w h d => exact Nat.min_eq_left hs.2

/-- The number of a coordinate is exact. -/
theorem Counted.offset_eq_ok_iff {s : Shape r} (hs : s.Counted) {c : Coord r} {i : Nat} :
    s.offset c = .ok i ↔ s.Contains c ∧ s.index c = i := by
  rw [Shape.offset_eq_ok_iff]
  refine and_congr_right fun h => ?_
  have hlt := index_lt_volumeOf h
  have hcount : s.volumeOf ≤ maxCount := hs.count_eq ▸ Nat.min_le_right _ _
  have hmax : maxCount + 1 = UInt64.size := by decide
  rw [Nat.mod_eq_of_lt (by omega)]

/-- Nothing on the way between a coordinate and its number leaves 64 bits. -/
theorem Counted.arithmetic_le {s : Shape r} (hs : s.Counted) {c : Coord r} (h : s.Contains c) :
    ∀ n ∈ s.arithmetic c, n ≤ maxCount := by
  have hlt := index_lt_volumeOf h
  cases s with
  | line w =>
    cases c with
    | line x =>
      have hmax : w ≤ maxCount := hs
      simp only [index, volumeOf] at hlt
      simp only [arithmetic, List.forall_mem_singleton]
      omega
  | plane w h' =>
    cases c with
    | plane x y =>
      have hmax : w * h' ≤ maxCount := hs
      simp only [index, volumeOf] at hlt
      simp only [arithmetic, List.forall_mem_cons, List.not_mem_nil, false_imp_iff, implies_true,
        and_true]
      omega
  | volume w h' d =>
    cases c with
    | volume x y z =>
      obtain ⟨hlayer, hmax⟩ := hs
      -- `z * w` is no part of the number, but with the height as a further factor it is.
      have hrow : z * w ≤ z * w * h' := Nat.le_mul_of_pos_right _ (Nat.zero_lt_of_lt h.2.1)
      simp only [index, volumeOf] at hlt
      simp only [arithmetic, List.forall_mem_cons, List.not_mem_nil, false_imp_iff, implies_true,
        and_true]
      omega

/-! ## The numbering -/

/-- The coordinates inside a shape that is counted in 64 bits, and no others, have numbers. These
are the numbers below the number of elements, each that of one coordinate, and they rise in
row-major order; the coordinate of a number is found again from it. The numbers past the last
element lead outside the shape, if they lead to a coordinate at all: none can be found where a
dimension other than the last one is zero, and only there. On the way nothing leaves 64 bits. -/
theorem offset_eq_ok_iff_coordAt {s : Shape r} (hs : s.Counted) :
    s.count = s.dims.prod ∧
      (∀ c i, s.offset c = .ok i ↔ i < s.count ∧ s.coordAt i = .ok c) ∧
      (∀ i < s.count, ∃ c, s.coordAt i = .ok c) ∧
      (∀ c, (∃ i, s.offset c = .ok i) ↔ s.InRange c) ∧
      (∀ c e, s.offset c = .error e ↔ ¬s.InRange c ∧ e = .outside s c) ∧
      (∀ c c' i i', s.offset c = .ok i → s.offset c' = .ok i' → (i < i' ↔ c.Before c')) ∧
      (∀ i, (∃ c, s.coordAt i = .ok c ∧ s.InRange c) ↔ i < s.count) ∧
      (∀ i e, s.coordAt i = .error e ↔ 0 ∈ s.dims.dropLast ∧ e = .zeroDivisor) ∧
      ∀ c, s.InRange c → ∀ n ∈ s.arithmetic c, n ≤ maxCount := by
  have hcount := hs.count_eq
  simp only [← contains_iff_inRange, hcount]
  refine ⟨s.volumeOf_eq_prod, fun c i => ?_, fun i hi => ?_, fun c => ?_,
    fun c e => offset_eq_error_iff, fun c c' i i' hi hi' => ?_, fun i => ?_,
    fun i e => coordAt_eq_error_iff, fun c hc => hs.arithmetic_le hc⟩
  · constructor
    · intro hi
      obtain ⟨hc, rfl⟩ := hs.offset_eq_ok_iff.mp hi
      exact ⟨index_lt_volumeOf hc, coordAt_index hc⟩
    · rintro ⟨hi, hc⟩
      obtain ⟨c', hc', hinside, hindex⟩ := exists_coordAt_of_lt hi
      obtain rfl : c' = c := Except.ok.inj (hc'.symm.trans hc)
      exact hs.offset_eq_ok_iff.mpr ⟨hinside, hindex⟩
  · obtain ⟨c, hc, -⟩ := exists_coordAt_of_lt hi
    exact ⟨c, hc⟩
  · simp [hs.offset_eq_ok_iff]
  · obtain ⟨hc, rfl⟩ := hs.offset_eq_ok_iff.mp hi
    obtain ⟨hc', rfl⟩ := hs.offset_eq_ok_iff.mp hi'
    exact index_lt_index_iff hc hc'
  · constructor
    · rintro ⟨c, hc, hinside⟩
      exact lt_volumeOf_of_coordAt hc hinside
    · intro hi
      obtain ⟨c, hc, hinside, -⟩ := exists_coordAt_of_lt hi
      exact ⟨c, hc, hinside⟩

/-- A volume of one layer with as many elements as 64 bits can count. -/
theorem offset_eq_ok_iff_coordAt_largest :
    let s := Shape.volume (2 ^ 32 - 1) (2 ^ 32 + 1) 1
    s.Counted ∧ s.count = maxCount ∧
      s.coordAt (maxCount - 1) = .ok (.volume (2 ^ 32 - 2) (2 ^ 32) 0) ∧
      ¬ (∃ c, s.coordAt maxCount = .ok c ∧ s.InRange c) ∧
      s.offset (.volume (2 ^ 32 - 2) (2 ^ 32) 1) =
        .error (.outside s (.volume (2 ^ 32 - 2) (2 ^ 32) 1)) := by
  intro s
  have hs : s.Counted := ⟨by decide, by decide⟩
  obtain ⟨-, hoffset, -, -, herror, -, hpast, -⟩ := offset_eq_ok_iff_coordAt hs
  have hcount : s.count = maxCount := by decide
  have hlast : s.offset (.volume (2 ^ 32 - 2) (2 ^ 32) 0) = .ok (maxCount - 1) :=
    hs.offset_eq_ok_iff.mpr ⟨by decide, by decide⟩
  refine ⟨hs, hcount, ((hoffset _ _).mp hlast).2, ?_, (herror _ _).mpr ⟨?_, rfl⟩⟩
  · rw [hpast, hcount]
    exact Nat.lt_irrefl _
  · rw [← contains_iff_inRange]
    decide

end Shape

end Texelwise

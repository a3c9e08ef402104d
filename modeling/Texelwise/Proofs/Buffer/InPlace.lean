import Texelwise.Proofs.Buffer.Bytes
import Texelwise.Proofs.Buffer.Numbering

/-!
# What operations on staging memory do

Each operation either stops, at a coordinate outside the shape or past the end of the memory, or
reads or writes single texels. What it does is said here in terms of texels that are written over,
for memory of any size.

* `Staging.overwrite`: memory with texels written over.
* `InPlace.run_read`, `InPlace.run_put`, `InPlace.run_write`: the single operations.
* `callAll`: what the calls of a generator give, up to the first that does not say what to write.
* `InPlace.run_fill`: filling calls its generator for the coordinates in their order and writes over
  the elements with what it says; one that stops leaves those that it has written.
-/

namespace Texelwise

/-- What calls one after another give, each with the state that the one before it has left, up to
the first call that gives nothing; and the state that the last one leaves, or why there is none. -/
def callAll {σ α β ε : Type} (next : σ → α → Except ε (β × σ)) : List α → σ → List β × Except ε σ
  | [], s => ([], .ok s)
  | a :: rest, s =>
    match next s a with
    | .error e => ([], .error e)
    | .ok (b, s) =>
      let (bs, last) := callAll next rest s
      (b :: bs, last)

theorem callAll_cons_of_ok {σ α β ε : Type} {next : σ → α → Except ε (β × σ)} {a : α} {s s' : σ}
    {b : β} (h : next s a = .ok (b, s')) (rest : List α) :
    callAll next (a :: rest) s = (b :: (callAll next rest s').1, (callAll next rest s').2) := by
  rw [callAll, h]

theorem callAll_cons_of_error {σ α β ε : Type} {next : σ → α → Except ε (β × σ)} {a : α} {s : σ}
    {e : ε} (h : next s a = .error e) (rest : List α) :
    callAll next (a :: rest) s = ([], .error e) := by
  rw [callAll, h]

namespace Staging

variable {kind : BufferKind}

/-- The memory with these texels from number `i` on. -/
def overwrite (m : Staging kind) (i : Nat) (ts : List Texel) : Staging kind :=
  { m with texels := (Texelwise.overwrite m.texels.toList i ts).toArray }

@[simp] theorem shape_overwrite (m : Staging kind) (i : Nat) (ts : List Texel) :
    (m.overwrite i ts).shape = m.shape := rfl

theorem overwrite_nil (m : Staging kind) (i : Nat) : m.overwrite i [] = m := by
  rw [overwrite, Texelwise.overwrite_nil, Array.toArray_toList]

theorem size_overwrite {m : Staging kind} {i : Nat} {ts : List Texel}
    (h : i + ts.length ≤ m.texels.size) : (m.overwrite i ts).texels.size = m.texels.size :=
  length_overwrite h

theorem setIfInBounds_eq_overwrite {m : Staging kind} {i : Nat} (h : i < m.texels.size)
    (t : Texel) : { m with texels := m.texels.setIfInBounds i t } = m.overwrite i [t] := by
  rw [overwrite, ← set_eq_overwrite h, ← Array.toList_setIfInBounds, Array.toArray_toList]

/-- The first texel can be written before the others. -/
theorem overwrite_cons {m : Staging kind} {i : Nat} (h : i < m.texels.size) (t : Texel)
    (ts : List Texel) : (m.overwrite i [t]).overwrite (i + 1) ts = m.overwrite i (t :: ts) := by
  have hcons : Texelwise.overwrite m.texels.toList i (t :: ts) =
      Texelwise.overwrite (Texelwise.overwrite m.texels.toList i [t]) (i + 1) ts := by
    rw [Texelwise.overwrite_cons h, set_eq_overwrite h]
  rw [overwrite, overwrite, overwrite, hcons]

theorem bytes_overwrite (m : Staging kind) (i : Nat) (ts : List Texel) :
    (m.overwrite i ts).bytes = Texelwise.overwrite m.bytes (4 * i) (ts.flatMap Texel.bytes) :=
  flatMap_bytes_overwrite _ _ _

end Staging

namespace InPlace

variable {kind : BufferKind}

/-! ## Single elements -/

section Run

variable (m : Staging kind)

theorem run_load (i : Nat) :
    (load i : InPlace kind Texel).run m = match m.texels[i]? with
      | some t => .ok t m
      | none => .error (.beyond m.texels.size i) m := by
  simp only [load, EStateM.run_bind, EStateM.run_get]
  cases m.texels[i]? <;> rfl

theorem run_store (i : Nat) (t : Texel) :
    (store i t : InPlace kind Unit).run m =
      if i < m.texels.size then .ok () (m.overwrite i [t])
      else .error (.beyond m.texels.size i) m := by
  show (if i < m.texels.size then _ else _) = _
  by_cases h : i < m.texels.size
  · rw [if_pos h, if_pos h, Staging.setIfInBounds_eq_overwrite h]
  · rw [if_neg h, if_neg h]

theorem run_read (c : Coord kind.rank) :
    (read c).run m = match m.shape.offset c with
      | .error e => .error (.access e) m
      | .ok i => match m.texels[i]? with
        | some t => .ok (t.element kind.element) m
        | none => .error (.beyond m.texels.size i) m := by
  simp only [read, EStateM.run_bind, EStateM.run_get]
  cases m.shape.offset c with
  | error e => rfl
  | ok i =>
    simp only [require, EStateM.run_pure, run_load]
    cases m.texels[i]? <;> rfl

theorem run_put (c : Coord kind.rank) (e : Element) :
    (put c e).run m = match m.shape.offset c with
      | .error e => .error (.access e) m
      | .ok i =>
        if i < m.texels.size then .ok () (m.overwrite i [e.texel])
        else .error (.beyond m.texels.size i) m := by
  simp only [put, EStateM.run_bind, EStateM.run_get]
  cases m.shape.offset c with
  | error e => rfl
  | ok i => simp only [require, EStateM.run_pure, run_store]

theorem run_write (offset : Nat) (values : List UInt8) :
    (write offset values).run m =
      if offset + values.length ≤ 4 * m.texels.size then .ok () (m.write offset values)
      else .error (.range ⟨offset + values.length, 4 * m.texels.size⟩) m := rfl

theorem run_elements :
    (elements : InPlace kind (List Element)).run m =
      if m.shape.count ≤ m.texels.size then .ok m.data m
      else .error (.range ⟨m.shape.count, m.texels.size⟩) m := by
  simp only [elements, EStateM.run_bind, EStateM.run_get]
  split <;> rfl

end Run

/-! ## All elements -/

variable {σ : Type}

/-- How filling ends: at the end of the memory, or where the generator does not say what to write,
or after the last element. -/
def filled (m : Staging kind) (i : Nat) (calls : List Element × Except String σ) :
    EStateM.Result (StagingFault kind.rank) (Staging kind) σ :=
  if m.texels.size < i + calls.1.length then
    .error (.beyond m.texels.size m.texels.size)
      (m.overwrite i ((calls.1.take (m.texels.size - i)).map Element.texel))
  else
    match calls.2 with
    | .error reason => .error (.generator reason) (m.overwrite i (calls.1.map Element.texel))
    | .ok s => .ok s (m.overwrite i (calls.1.map Element.texel))

/-- An element that has its place is written before the others. -/
theorem filled_cons {m : Staging kind} {i : Nat} (h : i < m.texels.size) (e : Element)
    (calls : List Element × Except String σ) :
    filled (m.overwrite i [e.texel]) (i + 1) calls = filled m i (e :: calls.1, calls.2) := by
  have hsize : (m.overwrite i [e.texel]).texels.size = m.texels.size := Staging.size_overwrite h
  have hlength : i + 1 + calls.1.length = i + (e :: calls.1).length := by
    rw [List.length_cons, Nat.add_assoc, Nat.add_comm 1]
  have hrest : m.texels.size - i = m.texels.size - (i + 1) + 1 := by omega
  simp only [filled, hsize, hlength, Staging.overwrite_cons h, hrest, List.take_succ_cons,
    List.map_cons]

/-- Filling calls the generator for the coordinates in their order and writes over the elements with
what it says. -/
theorem run_fillFrom (next : Generator kind σ) {count i : Nat} {m : Staging kind}
    (hcount : i + count ≤ m.shape.count) (hi : i ≤ m.texels.size) (s : σ) :
    (fillFrom next count i s).run m =
      filled m i (callAll next (m.shape.coordsFrom i count) s) := by
  -- The rest is filled in the memory that has the first element, which has the same shape.
  induction count generalizing i m s with
  | zero =>
    have hwithin : ¬ m.texels.size < i + 0 := Nat.not_lt.mpr hi
    show EStateM.Result.ok s m = filled m i ([], .ok s)
    simp only [filled, List.length_nil, if_neg hwithin, List.map_nil, Staging.overwrite_nil]
  | succ count ih =>
    have hvolume : m.shape.count ≤ m.shape.volumeOf := Nat.min_le_left _ _
    have hmax : m.shape.count < UInt64.size := Nat.lt_of_le_of_lt (Nat.min_le_right _ _) (by decide)
    obtain ⟨c, hc, hinside, hindex⟩ := Shape.exists_coordAt_of_lt (s := m.shape) (i := i) (by omega)
    have hoffset : m.shape.offset c = .ok i := by
      rw [Shape.offset_of_index_lt hinside (by omega), hindex]
    rw [Shape.coordsFrom_succ hc]
    cases hnext : next s c with
    | error reason =>
      have hwithin : ¬ m.texels.size < i + 0 := Nat.not_lt.mpr hi
      rw [callAll_cons_of_error hnext]
      simp only [fillFrom, EStateM.run_bind, EStateM.run_get, hc, require, EStateM.run_pure, hnext,
        filled, List.length_nil, if_neg hwithin, List.map_nil, Staging.overwrite_nil]
      rfl
    | ok r =>
      obtain ⟨e, s'⟩ := r
      rw [callAll_cons_of_ok hnext]
      simp only [fillFrom, EStateM.run_bind, EStateM.run_get, hc, require, EStateM.run_pure, hnext,
        run_put, hoffset]
      rcases Nat.lt_or_ge i m.texels.size with hlt | hge
      · have hsize : (m.overwrite i [e.texel]).texels.size = m.texels.size :=
          Staging.size_overwrite hlt
        have hrest := @ih (i + 1) (m.overwrite i [e.texel])
          (by rw [Staging.shape_overwrite]; omega) (by omega) s'
        rw [if_pos hlt, ← filled_cons hlt]
        exact hrest
      · -- The memory ends before this element.
        obtain rfl : i = m.texels.size := by omega
        have hpast : ∀ (es : List Element), m.texels.size < m.texels.size + (e :: es).length :=
          fun es => Nat.lt_add_of_pos_right (Nat.succ_pos es.length)
        rw [if_neg (Nat.lt_irrefl _), filled, if_pos (hpast _), Nat.sub_self, List.take_zero,
          List.map_nil, Staging.overwrite_nil]

/-- Filling all elements. -/
theorem run_fill (next : Generator kind σ) (m : Staging kind) (s : σ) :
    (fill next s).run m = filled m 0 (callAll next m.shape.coords s) := by
  rw [fill, EStateM.run_bind, EStateM.run_get]
  exact run_fillFrom next (Nat.le_of_eq (Nat.zero_add m.shape.count)) (Nat.zero_le _) s

end InPlace

end Texelwise

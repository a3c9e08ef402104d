import Mathlib.Data.Nat.Digits.Defs
import Texelwise.Proofs.Buffer.Filling
import Texelwise.Proofs.Buffer.Identity

/-!
# Elements and bytes of staging memory

Staging memory is read and written by elements and by bytes. The two never drift apart: whatever is
done to it, element `k` is what the four bytes from `4 * k` on are. A step that stops changes
nothing, except for filling, which leaves what it has written until then.

* `Element.ofBytes?`: the element that four bytes are.
* `StagingStep`: what can be done to staging memory; `Staging.run` does it step by step.
* `Staging.views_agree_of_run`: the two views after any steps, and what each further step changes,
  also where it stops.
* `Staging.changed_of_stopped_fill`: filling a plane that its texture cuts off.
-/

namespace Texelwise

/-! ## Elements by their bytes -/

/-- The element that four bytes are: a color has them as they stand, and the bits of a float are the
number that has them as its digits to base 256, the lowest first. -/
def Element.ofBytes? : ElementKind → List UInt8 → Option Element
  | .color, [r, g, b, a] => some (.color r g b a)
  | .float, [b₀, b₁, b₂, b₃] =>
    some (.float (UInt32.ofNat (Nat.ofDigits 256 ([b₀, b₁, b₂, b₃].map UInt8.toNat))))
  | _, _ => none

theorem Element.ofBytes?_bytes (t : Texel) (k : ElementKind) :
    ofBytes? k t.bytes = some (t.element k) := by
  cases k with
  | color => rfl
  | float =>
    simp only [Texel.bytes, ofBytes?, Texel.element, Texel.bits, List.map_cons, List.map_nil,
      Nat.ofDigits_cons, Nat.ofDigits_nil]
    congr 3
    omega

namespace Staging

variable {kind : BufferKind}

/-- The element that a texel holds, also past the last element. -/
def element? (m : Staging kind) (k : Nat) : Option Element :=
  m.texels[k]?.map (·.element kind.element)

/-- Each element is what its four bytes are. -/
theorem element?_eq_ofBytes? (m : Staging kind) (k : Nat) :
    m.element? k = Element.ofBytes? kind.element ((m.bytes.drop (4 * k)).take 4) := by
  rw [bytes, take_drop_flatMap_texels, Array.getElem?_toList, element?]
  cases m.texels[k]? with
  | none => cases kind.element <;> rfl
  | some t => exact (Element.ofBytes?_bytes t kind.element).symm

/-- The elements in row-major order are the first ones in memory. -/
theorem getElem?_data {m : Staging kind} {k : Nat} (h : k < m.shape.count) :
    m.data[k]? = m.element? k := by
  rw [data, List.getElem?_map, Array.toList_extract, List.extract_eq_take_drop, List.drop_zero,
    Nat.sub_zero, List.getElem?_take_of_lt h, Array.getElem?_toList, element?]

/-- Only the texels that are written over have other elements. -/
theorem element?_overwrite {m : Staging kind} {i : Nat} {ts : List Texel}
    (h : i + ts.length ≤ m.texels.size) (k : Nat) : (m.overwrite i ts).element? k =
      if i ≤ k ∧ k < i + ts.length then ts[k - i]?.map (·.element kind.element)
      else m.element? k := by
  rw [element?, overwrite, List.getElem?_toArray, getElem?_overwrite h]
  split
  · rfl
  · rw [Array.getElem?_toList, element?]

theorem element?_overwrite_singleton {m : Staging kind} {i : Nat} (h : i < m.texels.size)
    (t : Texel) (k : Nat) : (m.overwrite i [t]).element? k =
      if k = i then some (t.element kind.element) else m.element? k := by
  have hlength : i + [t].length ≤ m.texels.size := h
  rw [element?_overwrite hlength, List.length_singleton]
  by_cases hk : k = i
  · rw [if_pos hk, if_pos (by omega), hk, Nat.sub_self]
    rfl
  · rw [if_neg hk, if_neg (by omega)]

theorem element?_zeros {shape : Shape kind.rank} {k : Nat} (hk : k < shape.textureSize.area) :
    (zeros shape : Staging kind).element? k = some (Texel.zero.element kind.element) := by
  rw [element?, zeros, Array.getElem?_replicate, if_pos hk]
  rfl

/-- Elements whose bytes are not written over stay. -/
theorem element?_write {m : Staging kind} {offset : Nat} {values : List UInt8}
    (h : offset + values.length ≤ 4 * m.texels.size) {k : Nat}
    (hk : 4 * k + 4 ≤ offset ∨ offset + values.length ≤ 4 * k) :
    (m.write offset values).element? k = m.element? k := by
  have hbytes : ((m.write offset values).bytes.drop (4 * k)).take 4 =
      (m.bytes.drop (4 * k)).take 4 := by
    rw [bytes_write h]
    apply List.ext_getElem?
    intro j
    rw [List.getElem?_take, List.getElem?_take]
    split
    · rw [List.getElem?_drop, List.getElem?_drop,
        getElem?_overwrite (by rw [length_bytes]; exact h), if_neg (by omega)]
    · rfl
  rw [element?_eq_ofBytes?, element?_eq_ofBytes?, hbytes]

end Staging

/-! ## Steps -/

/-- What can be done to staging memory. -/
inductive StagingStep (kind : BufferKind) : Type 1 where
  | get (c : Coord kind.rank)
  | set (c : Coord kind.rank) (e : Element)
  /-- Fills all elements from a generator. -/
  | fill {σ : Type} (next : InPlace.Generator kind σ) (s : σ)
  /-- Replaces the bytes from `offset` on. -/
  | write (offset : Nat) (values : List UInt8)

namespace InPlace

variable {kind : BufferKind}

/-- A step on the memory as the host has it. -/
def perform : StagingStep kind → InPlace kind Unit
  | .get c => do let _ ← read c
  | .set c e => put c e
  | .fill next s => do let _ ← fill next s
  | .write offset values => write offset values

theorem keeps_perform_shaped {shape : Shape kind.rank} {size : Nat} (step : StagingStep kind) :
    Keeps (Staging.Shaped shape size) (perform step) := by
  cases step with
  | get c => exact (keeps_read c).bind fun _ => keeps_pure ()
  | set c e => exact Staging.keeps_put_shaped c e
  | fill next s => exact (keeps_fill Staging.keeps_put_shaped next s).bind fun _ => keeps_pure ()
  | write offset values =>
    intro m hm
    rw [perform, memory, run_write]
    by_cases h : offset + values.length ≤ 4 * m.texels.size
    · rw [if_pos h]
      exact hm.write offset values
    · rw [if_neg h]
      exact hm

/-! ## What each operation changes -/

section Effects

variable (m : Staging kind)

/-- Reading changes nothing, and gives the element with the number of the coordinate. -/
theorem read_effect (c : Coord kind.rank) :
    match (read c).run m with
    | .ok e m' => m' = m ∧ ∃ i, m.shape.offset c = .ok i ∧ m.element? i = some e
    | .error _ m' => m' = m ∧ ∀ i, m.shape.offset c = .ok i → m.texels.size ≤ i := by
  rw [run_read]
  cases hc : m.shape.offset c with
  | error e => exact ⟨rfl, fun i hi => nomatch hi⟩
  | ok i =>
    dsimp only
    cases ht : m.texels[i]? with
    | none =>
      refine ⟨rfl, fun j hj => ?_⟩
      obtain rfl := Except.ok.inj hj
      exact Array.getElem?_eq_none_iff.mp ht
    | some t => exact ⟨rfl, i, rfl, by rw [Staging.element?, ht]; rfl⟩

/-- An element that was put at a coordinate is read there. -/
theorem run_read_overwrite {c : Coord kind.rank} {i : Nat} {e : Element}
    (hc : m.shape.offset c = .ok i) (hi : i < m.texels.size) (he : e.kind = kind.element) :
    (read c).run (m.overwrite i [e.texel]) = .ok e (m.overwrite i [e.texel]) := by
  have helement := Staging.element?_overwrite_singleton hi e.texel i
  rw [if_pos rfl, ← he, Element.element_texel, Staging.element?] at helement
  obtain ⟨t, ht, helement⟩ := Option.map_eq_some_iff.mp helement
  rw [run_read, Staging.shape_overwrite, hc]
  simp only [ht, helement]

/-- Putting an element changes its four bytes and no other, or nothing at all. -/
theorem put_effect (c : Coord kind.rank) (e : Element) :
    match (put c e).run m with
    | .ok _ m' => ∃ i, m.shape.offset c = .ok i ∧ i < m.texels.size ∧
        m'.bytes = overwrite m.bytes (4 * i) e.texel.bytes ∧
        (∀ k, k ≠ i → m'.element? k = m.element? k) ∧
        (e.kind = kind.element → (read c).run m' = .ok e m')
    | .error _ m' => m' = m ∧ ∀ i, m.shape.offset c = .ok i → m.texels.size ≤ i := by
  rw [run_put]
  cases hc : m.shape.offset c with
  | error e => exact ⟨rfl, fun i hi => nomatch hi⟩
  | ok i =>
    dsimp only
    by_cases hi : i < m.texels.size
    · rw [if_pos hi]
      refine ⟨i, rfl, hi, ?_, fun k hk => ?_, fun he => run_read_overwrite m hc hi he⟩
      · rw [Staging.bytes_overwrite, List.flatMap_singleton]
      · rw [Staging.element?_overwrite_singleton hi, if_neg hk]
    · rw [if_neg hi]
      refine ⟨rfl, fun j hj => ?_⟩
      obtain rfl := Except.ok.inj hj
      exact Nat.not_lt.mp hi

/-- Writing bytes changes these bytes and the elements that they overlap, or nothing at all. -/
theorem write_effect (offset : Nat) (values : List UInt8) :
    match (write offset values).run m with
    | .ok _ m' => offset + values.length ≤ 4 * m.texels.size ∧ m' = m.write offset values ∧
        m'.bytes = overwrite m.bytes offset values ∧
        ∀ k, 4 * k + 4 ≤ offset ∨ offset + values.length ≤ 4 * k → m'.element? k = m.element? k
    | .error _ m' => m' = m ∧ 4 * m.texels.size < offset + values.length := by
  rw [run_write]
  by_cases h : offset + values.length ≤ 4 * m.texels.size
  · rw [if_pos h]
    exact ⟨h, rfl, Staging.bytes_write h, fun k hk => Staging.element?_write h hk⟩
  · rw [if_neg h]
    exact ⟨rfl, Nat.not_le.mp h⟩

/-- Filling writes what its generator says over the first elements in row-major order, as many as
there are texels and up to the first call that says nothing. It stops where there is no texel or
where there is such a call, and leaves what it has written. -/
theorem fill_effect {σ : Type} (next : Generator kind σ) (s : σ) :
    let calls := callAll next m.shape.coords s
    (fill next s).memory m =
        m.overwrite 0 ((calls.1.take m.texels.size).map Element.texel) ∧
      match (fill next s).run m with
      | .ok s' _ => calls.2 = .ok s' ∧ calls.1.length ≤ m.texels.size
      | .error _ _ => m.texels.size < calls.1.length ∨ ∃ reason, calls.2 = .error reason := by
  intro calls
  rw [memory, run_fill, filled, Nat.zero_add, Nat.sub_zero]
  by_cases hpast : m.texels.size < calls.1.length
  · rw [if_pos hpast]
    exact ⟨rfl, .inl hpast⟩
  · have hall : calls.1.take m.texels.size = calls.1 := List.take_of_length_le (Nat.not_lt.mp hpast)
    rw [if_neg hpast, hall]
    cases hlast : calls.2 with
    | error reason => exact ⟨rfl, .inr ⟨reason, rfl⟩⟩
    | ok s' => exact ⟨rfl, rfl, Nat.not_lt.mp hpast⟩

/-- Filling with one element leaves it at the front, also where it stops later on. -/
theorem element?_fill_const {e : Element} (he : e.kind = kind.element) (hcount : 0 < m.shape.count)
    (hsize : 0 < m.texels.size) :
    ((fill (always fun (_ : Unit) (_ : Coord kind.rank) => (e, ())) ()).memory m).element? 0 =
      some e := by
  let next (_ : Unit) (_ : Coord kind.rank) : Element × Unit := (e, ())
  obtain ⟨hmemory, -⟩ := fill_effect m (always next) ()
  have hlength : (replies next m.shape.coords ()).1.length = m.shape.count :=
    (length_replies _ ()).trans m.shape.length_coords
  have hall : ∀ reply ∈ (replies next m.shape.coords ()).1, reply = e :=
    forall_mem_replies (fun s c => (rfl : (next s c).1 = e)) m.shape.coords ()
  rw [hmemory, callAll_always]
  cases hreplies : (replies next m.shape.coords ()).1 with
  | nil =>
    rw [hreplies, List.length_nil] at hlength
    omega
  | cons first rest =>
    obtain rfl : first = e := hall first (hreplies ▸ List.mem_cons_self)
    obtain ⟨n, hn⟩ := Nat.exists_eq_succ_of_ne_zero (Nat.ne_of_gt hsize)
    rw [hn, List.take_succ_cons, List.map_cons, Staging.element?_overwrite ?_, if_pos ?_]
    · simp only [Nat.sub_self, List.getElem?_cons_zero, Option.map_some, ← he,
        Element.element_texel]
    · simp
    · simp only [List.length_cons, List.length_map, List.length_take, hn]
      omega

end Effects

end InPlace

namespace Staging

variable {kind : BufferKind}

/-- The memory after steps one after another, of which each may stop on the way. -/
def run (m : Staging kind) (steps : List (StagingStep kind)) : Staging kind :=
  steps.foldl (fun m step => (InPlace.perform step).memory m) m

theorem shaped_run {shape : Shape kind.rank} {size : Nat} {m : Staging kind}
    (hm : Shaped shape size m) (steps : List (StagingStep kind)) :
    Shaped shape size (m.run steps) := by
  induction steps generalizing m with
  | nil => exact hm
  | cons step rest ih => exact ih (InPlace.keeps_perform_shaped step m hm)

/-- After any steps on fresh staging memory of any shape, of which some may have stopped, there are
four bytes for each texel of the texture, and element `k` is what the bytes from `4 * k` on are.

A further step that reads or puts an element or writes bytes changes nothing if it stops, which it
does only outside the shape or past the end of the memory. Else reading changes nothing as well and
gives the element with the number of the coordinate; putting an element changes its four bytes, and
it is read there from then on; and writing changes the bytes that are written, and so only the
elements that they overlap.

A further step that fills the elements writes, in row-major order, what its generator says, until
the generator does not say what to write or the memory ends. Only in these two cases it stops, and
it leaves the elements that it has written until then and all others as they were. The memory does
not end before the last element unless a side of the texture is cut off at the largest number of 32
bits. -/
theorem views_agree_of_run (shape : Shape kind.rank) (before : List (StagingStep kind)) :
    let m : Staging kind := (zeros shape).run before
    let texelCount := shape.textureSize.area
    (m.shape = shape ∧ m.bytes.length = 4 * texelCount ∧
      ∀ k, m.element? k = Element.ofBytes? kind.element ((m.bytes.drop (4 * k)).take 4)) ∧
    (∀ c, match (InPlace.read c).run m with
      | .ok e m' => m' = m ∧ ∃ i, shape.offset c = .ok i ∧ m.element? i = some e
      | .error _ m' => m' = m ∧ ∀ i, shape.offset c = .ok i → texelCount ≤ i) ∧
    (∀ c e, match (InPlace.put c e).run m with
      | .ok _ m' => ∃ i, shape.offset c = .ok i ∧ i < texelCount ∧
          m'.bytes = Texelwise.overwrite m.bytes (4 * i) e.texel.bytes ∧
          (∀ k, k ≠ i → m'.element? k = m.element? k) ∧
          (e.kind = kind.element → (InPlace.read c).run m' = .ok e m')
      | .error _ m' => m' = m ∧ ∀ i, shape.offset c = .ok i → texelCount ≤ i) ∧
    (∀ offset values, match (InPlace.write offset values).run m with
      | .ok _ m' => offset + values.length ≤ 4 * texelCount ∧ m' = m.write offset values ∧
          m'.bytes = Texelwise.overwrite m.bytes offset values ∧
          ∀ k, 4 * k + 4 ≤ offset ∨ offset + values.length ≤ 4 * k → m'.element? k = m.element? k
      | .error _ m' => m' = m ∧ 4 * texelCount < offset + values.length) ∧
    (∀ (σ : Type) (next : InPlace.Generator kind σ) (s : σ),
      let calls := callAll next shape.coords s
      let written := calls.1.take texelCount
      let m' := (InPlace.fill next s).memory m
      m'.bytes = Texelwise.overwrite m.bytes 0 ((written.map Element.texel).flatMap Texel.bytes) ∧
        (∀ k, m'.element? k =
          if k < written.length then written[k]?.map (·.texel.element kind.element)
          else m.element? k) ∧
        match (InPlace.fill next s).run m with
        | .ok s' _ => calls.2 = .ok s' ∧ calls.1.length ≤ texelCount
        | .error _ _ => texelCount < calls.1.length ∨ ∃ reason, calls.2 = .error reason) ∧
    (shape.textureSize.width < maxSide → shape.textureSize.height < maxSide →
      shape.count ≤ texelCount) ∧
    (shape.count ≤ texelCount →
      (∀ (σ : Type) (next : σ → Coord kind.rank → Element × σ) (s : σ), ∃ s' m',
        (InPlace.fill (always next) s).run m = .ok s' m') ∧
      InPlace.elements.run m = .ok m.data m ∧ ∀ k < shape.count, m.data[k]? = m.element? k) := by
  intro m texelCount
  -- Of the steps before only shape and size matter, which no step changes.
  obtain ⟨hshape, hsize⟩ : Shaped shape texelCount m :=
    shaped_run ⟨rfl, Array.size_replicate⟩ before
  have hread := InPlace.read_effect m
  have hput := InPlace.put_effect m
  have hwrite := InPlace.write_effect m
  rw [hshape, hsize] at hread hput
  rw [hsize] at hwrite
  refine ⟨⟨hshape, ?_, m.element?_eq_ofBytes?⟩, hread, hput, hwrite, fun σ next s => ?_,
    Shape.count_le_area, fun hroom => ?_⟩
  · rw [length_bytes, hsize]
  · obtain ⟨hmemory, hend⟩ := InPlace.fill_effect m next s
    rw [hshape, hsize] at hmemory hend
    intro calls written m'
    have hm' : m' = m.overwrite 0 (written.map Element.texel) := hmemory
    have hwithin : 0 + (written.map Element.texel).length ≤ m.texels.size := by
      rw [Nat.zero_add, List.length_map, hsize]
      exact List.length_take_le _ _
    refine ⟨?_, fun k => ?_, hend⟩
    · rw [hm', bytes_overwrite, Nat.mul_zero]
    · rw [hm', element?_overwrite hwithin]
      simp only [Nat.zero_le, true_and, Nat.zero_add, Nat.sub_zero, List.length_map,
        List.getElem?_map, Option.map_map, Function.comp_def]
  · have hroom' : m.shape.count ≤ m.texels.size := by rwa [hshape, hsize]
    refine ⟨fun σ next s => ⟨_, _, InPlace.run_fill_always next hroom' s⟩, ?_,
      fun k hk => getElem?_data (by rwa [hshape])⟩
    rw [InPlace.run_elements, if_pos hroom']

/-- A plane with one column more than 32 bits can name has one element more than its texture has
texels. Filling it with sevens stops there, and leaves sevens where there were zeros. -/
theorem changed_of_stopped_fill :
    let plane : Shape .two := .plane (2 ^ 32) 1
    let m : Staging ⟨.float, .two⟩ := .zeros plane
    let sevens : InPlace ⟨.float, .two⟩ Unit := InPlace.fill (always fun _ _ => (.float 7, ())) ()
    (∃ fault m', sevens.run m = .error fault m') ∧
      m.element? 0 = some (.float 0) ∧ (sevens.memory m).element? 0 = some (.float 7) := by
  intro plane m sevens
  have harea : plane.textureSize.area = 2 ^ 32 - 1 := by decide
  have hcount : m.shape.count = 2 ^ 32 := by decide
  have hsize : m.texels.size = 2 ^ 32 - 1 := harea ▸ Array.size_replicate
  have hpast : m.texels.size < m.shape.count := by
    rw [hsize, hcount]
    decide
  obtain ⟨m', hrun⟩ := InPlace.exists_run_fill_always (fun (_ : Unit) _ => (.float 7, ())) hpast ()
  refine ⟨⟨_, m', hrun⟩, element?_zeros ?_, InPlace.element?_fill_const m rfl ?_ ?_⟩
  · rw [harea]
    decide
  · rw [hcount]
    decide
  · rw [hsize]
    decide

end Staging

end Texelwise

import Texelwise.Proofs.Buffer.InPlace
import Texelwise.Proofs.Session.Capacity

/-!
# Filling a buffer

Filling a buffer that a device has room for stops only where the generator does. A generator that
always says what to write is called once for every coordinate inside the shape, in row-major order,
and its results are the elements of the buffer from then on; the texels past the last element stay
as they are. So it is on every device whose largest side is below the largest that 32 bits can name,
where no side of a texture is cut off.

* `always`, `noting`: generators that do not fail, and that also note what they are called for.
* `fill_rowMajor`: what filling does, for every generator and whatever was in memory before.
* `fill_stops_of_cutOff`: a plane with a side that is cut off, where it stops.
-/

namespace Texelwise

/-! ## Calls -/

section Calls

variable {σ α β ε : Type} {next : σ → α → β × σ}

/-- The generator that always says what to write. -/
def always (next : σ → α → β × σ) : σ → α → Except ε (β × σ) := fun s a => .ok (next s a)

/-- The generator that also notes what it is called for. -/
def noting (next : σ → α → β × σ) : σ × List α → α → β × (σ × List α)
  | (s, noted), a => ((next s a).1, ((next s a).2, noted ++ [a]))

/-- What calls one after another give, and the state that the last one leaves. -/
def replies (next : σ → α → β × σ) : List α → σ → List β × σ
  | [], s => ([], s)
  | a :: rest, s =>
    let (b, s) := next s a
    let (bs, s) := replies next rest s
    (b :: bs, s)

theorem callAll_always (calls : List α) (s : σ) :
    callAll (always (ε := ε) next) calls s =
      ((replies next calls s).1, .ok (replies next calls s).2) := by
  induction calls generalizing s with
  | nil => rfl
  | cons a rest ih => rw [callAll_cons_of_ok rfl, ih, replies]

theorem replies_noting (calls : List α) (s : σ) (noted : List α) :
    replies (noting next) calls (s, noted) =
      ((replies next calls s).1, ((replies next calls s).2, noted ++ calls)) := by
  induction calls generalizing s noted with
  | nil => rw [List.append_nil]; rfl
  | cons a rest ih =>
    simp only [replies, noting, ih, List.append_assoc, List.cons_append, List.nil_append]

theorem length_replies (calls : List α) (s : σ) :
    (replies next calls s).1.length = calls.length := by
  induction calls generalizing s with
  | nil => rfl
  | cons a rest ih => simp only [replies, List.length_cons, ih]

theorem forall_mem_replies {p : β → Prop} (h : ∀ s a, p (next s a).1) (calls : List α) (s : σ) :
    ∀ b ∈ (replies next calls s).1, p b := by
  induction calls generalizing s with
  | nil => exact fun b hb => absurd hb List.not_mem_nil
  | cons a rest ih => exact List.forall_mem_cons.mpr ⟨h s a, ih _⟩

end Calls

/-! ## Elements that are written over -/

namespace Staging

variable {kind : BufferKind} {m : Staging kind} {es : List Element}

theorem map_element_texel (hkind : ∀ e ∈ es, e.kind = kind.element) :
    (es.map Element.texel).map (·.element kind.element) = es := by
  rw [List.map_map]
  refine (List.map_congr_left fun e he => ?_).trans (List.map_id es)
  rw [Function.comp_apply, ← hkind e he, Element.element_texel]
  rfl

/-- The elements are those that were written over them. -/
theorem data_overwrite (hlength : es.length = m.shape.count)
    (hkind : ∀ e ∈ es, e.kind = kind.element) :
    (m.overwrite 0 (es.map Element.texel)).data = es := by
  have htake : (Texelwise.overwrite m.texels.toList 0 (es.map Element.texel)).take m.shape.count =
      es.map Element.texel := by
    rw [Texelwise.overwrite, List.take_zero, List.nil_append,
      List.take_left' ((List.length_map _).trans hlength)]
  rw [data, shape_overwrite, Array.toList_extract, List.extract_eq_take_drop, List.drop_zero,
    Nat.sub_zero, overwrite, htake, map_element_texel hkind]

/-- The element at a coordinate is the one that was written over its number. -/
theorem run_read_overwrite {c : Coord kind.rank} {k : Nat} {e : Element}
    (hroom : es.length ≤ m.texels.size) (hkind : ∀ e ∈ es, e.kind = kind.element)
    (hc : m.shape.offset c = .ok k) (he : es[k]? = some e) :
    (InPlace.read c).run (m.overwrite 0 (es.map Element.texel)) =
      .ok e (m.overwrite 0 (es.map Element.texel)) := by
  have hlt : k < es.length := (List.getElem?_eq_some_iff.mp he).1
  have htexel : (m.overwrite 0 (es.map Element.texel)).texels[k]? = some e.texel := by
    rw [overwrite, List.getElem?_toArray, getElem?_overwrite (by simpa using hroom),
      if_pos (by rw [List.length_map]; omega), Nat.sub_zero, List.getElem?_map, he]
    rfl
  have hplace : (m.overwrite 0 (es.map Element.texel)).shape.offset c = .ok k := hc
  have helement : e.texel.element kind.element = e := by
    rw [← hkind e (List.mem_of_getElem? he), Element.element_texel]
  rw [InPlace.run_read, hplace]
  simp only [htexel, helement]

end Staging

/-! ## Filling -/

/-- Where the memory has a texel for each element, a generator that always says what to write fills
it. -/
theorem InPlace.run_fill_always {kind : BufferKind} {m : Staging kind} {σ : Type}
    (next : σ → Coord kind.rank → Element × σ) (hroom : m.shape.count ≤ m.texels.size) (s : σ) :
    (fill (always next) s).run m = .ok (replies next m.shape.coords s).2
      (m.overwrite 0 ((replies next m.shape.coords s).1.map Element.texel)) := by
  have hwithin : ¬ m.texels.size < 0 + (replies next m.shape.coords s).1.length := by
    rw [length_replies, m.shape.length_coords]
    omega
  rw [run_fill, callAll_always, filled, if_neg hwithin]

/-- So filling from words ends there. -/
theorem InPlace.exists_result_fillWords {kind : BufferKind} {m : Staging kind}
    (hroom : m.shape.count ≤ m.texels.size) (start step : UInt32) :
    ∃ filled, (fillWords start step).result m = .ok filled := by
  have hwords : (words step : Generator kind _) =
      always fun s c => ((Texel.ofBits s.1).element kind.element, (s.1 + step, c :: s.2)) := rfl
  rw [result, fillWords, EStateM.run_bind, hwords, run_fill_always _ hroom]
  exact ⟨_, rfl⟩

/-- Where it has not, such a generator is stopped at the end of the memory. -/
theorem InPlace.exists_run_fill_always {kind : BufferKind} {m : Staging kind} {σ : Type}
    (next : σ → Coord kind.rank → Element × σ) (hpast : m.texels.size < m.shape.count) (s : σ) :
    ∃ m', (fill (always next) s).run m = .error (.beyond m.texels.size m.texels.size) m' := by
  have hcalls : m.texels.size < 0 + (replies next m.shape.coords s).1.length := by
    rw [length_replies, m.shape.length_coords]
    omega
  rw [run_fill, callAll_always, filled, if_pos hcalls]
  exact ⟨_, rfl⟩

/-- On a device whose largest side is below the largest that 32 bits can name, a buffer that is made
is filled, whatever is in its staging memory, by calling the generator for every coordinate inside
the shape, once each and in row-major order. No access is refused or goes past the memory. The
elements are then the results of the calls in their order, the element at a coordinate is the result
of the call for it, and all bytes past the last element are as they were. -/
theorem fill_rowMajor {device : Device} (hlimit : device.limits.maxTextureSide < maxSide)
    {id : BufferId} {kind : BufferKind} {shape : Shape kind.rank} {b : Buffer}
    (hb : Buffer.create device id kind shape = .ok b) {m : Staging kind} (hshape : m.shape = shape)
    (hsize : m.texels.size = shape.textureSize.area) {σ : Type}
    {next : σ → Coord kind.rank → Element × σ} (hkind : ∀ s c, (next s c).1.kind = kind.element)
    (s : σ) :
    let calls := replies next shape.coords s
    (shape.coords.Pairwise Coord.Before ∧ ∀ c, c ∈ shape.coords ↔ shape.InRange c) ∧
      ∃ m', (InPlace.fill (always next) s).run m = .ok calls.2 m' ∧
        (InPlace.fill (always (noting next)) (s, [])).run m = .ok (calls.2, shape.coords) m' ∧
        InPlace.elements.run m' = .ok calls.1 m' ∧
        (∀ (k : Nat) c, shape.coords[k]? = some c → ∃ e, calls.1[k]? = some e ∧
          (InPlace.read c).run m' = .ok e m') ∧
        m'.shape = shape ∧ m'.bytes.length = m.bytes.length ∧
        m'.bytes.drop (4 * shape.count) = m.bytes.drop (4 * shape.count) := by
  subst hshape
  intro calls
  have hfits : m.shape.Fits device.limits.maxTextureSide :=
    (m.shape.side_le_iff hlimit).mp (Buffer.eq_of_create hb).1
  have hcount : m.shape.count = m.shape.volumeOf := hfits.count_eq hlimit
  have hroom : m.shape.count ≤ m.texels.size := by
    rw [hcount, hsize]
    exact hfits.volumeOf_le_area hlimit
  have hlength : calls.1.length = m.shape.count :=
    (length_replies _ s).trans m.shape.length_coords
  have hkinds : ∀ e ∈ calls.1, e.kind = kind.element :=
    forall_mem_replies (p := fun e : Element => e.kind = kind.element) hkind _ s
  have hrun := InPlace.run_fill_always next hroom s
  -- The same fill with a generator that notes its calls tells which calls there are.
  have hnoting := InPlace.run_fill_always (noting next) hroom (s, [])
  rw [replies_noting, List.nil_append] at hnoting
  have hwithin : 0 + (calls.1.map Element.texel).length ≤ m.texels.size := by
    rw [List.length_map, hlength, Nat.zero_add]
    exact hroom
  have hsizes := Staging.size_overwrite hwithin
  refine ⟨⟨m.shape.pairwise_coords, fun c => Shape.mem_coords_iff hcount⟩, _, hrun, hnoting, ?_,
    fun k c hk => ?_, rfl, ?_, ?_⟩
  · have hheld : (m.overwrite 0 (calls.1.map Element.texel)).shape.count ≤
        (m.overwrite 0 (calls.1.map Element.texel)).texels.size := by
      rw [hsizes]
      exact hroom
    rw [InPlace.run_elements, if_pos hheld, Staging.data_overwrite hlength hkinds]
  · have hlt : k < calls.1.length := by
      rw [hlength, ← m.shape.length_coords]
      exact (List.getElem?_eq_some_iff.mp hk).1
    refine ⟨calls.1[k], List.getElem?_eq_getElem hlt, ?_⟩
    exact Staging.run_read_overwrite (hlength ▸ hroom) hkinds (Shape.offset_of_getElem?_coords hk)
      (List.getElem?_eq_getElem hlt)
  · rw [Staging.length_bytes, Staging.length_bytes, hsizes]
  · rw [Staging.bytes_overwrite]
    have hbytes : ((calls.1.map Element.texel).flatMap Texel.bytes).length = 4 * m.shape.count := by
      rw [length_flatMap_texels, List.length_map, hlength]
    rw [Nat.mul_zero]
    refine drop_overwrite ?_ ?_
    · rw [hbytes, Staging.length_bytes]
      omega
    · rw [hbytes]
      omega

/-- A volume in memory that is full of nines, filled by a generator that counts its calls. -/
theorem fill_rowMajor_counting :
    let m : Staging ⟨.float, .three⟩ := ⟨.volume 2 1 2, Array.replicate 16 ⟨9, 9, 9, 9⟩⟩
    let next (n : Nat) (_ : Coord .three) : Element × Nat := (.float (UInt32.ofNat n), n + 1)
    (∃ b, Buffer.create (.plain {}) ⟨1⟩ ⟨.float, .three⟩ (.volume 2 1 2) = .ok b) ∧
      m.texels.size = m.shape.textureSize.area ∧ (∀ n c, (next n c).1.kind = .float) ∧
      ∃ m', (InPlace.fill (always next) 7).run m = .ok 11 m' ∧
        (InPlace.fill (always (noting next)) (7, [])).run m =
          .ok (11, [.volume 0 0 0, .volume 1 0 0, .volume 0 0 1, .volume 1 0 1]) m' ∧
        InPlace.elements.run m' = .ok [.float 7, .float 8, .float 9, .float 10] m' ∧
        (InPlace.read (.volume 0 0 1)).run m' = .ok (.float 9) m' ∧
        m'.bytes.drop 16 = List.replicate 48 9 := by
  intro m next
  have htexture : (Shape.volume 2 1 2).textureSize = ⟨4, 4⟩ := by decide +kernel
  obtain ⟨b, hb⟩ : ∃ b, Buffer.create (.plain {}) ⟨1⟩ ⟨.float, .three⟩ (.volume 2 1 2) = .ok b := by
    refine (Buffer.exists_create_iff (Device.copies_plain {})).mpr ⟨?_, ?_, .inr ?_⟩ <;>
      rw [htexture] <;> decide
  have hsize : m.texels.size = m.shape.textureSize.area := by decide +kernel
  have hkind : ∀ n c, (next n c).1.kind = .float := fun _ _ => rfl
  obtain ⟨-, m', hfill, hnoting, hdata, hget, -, -, hpadding⟩ :=
    fill_rowMajor (by decide) hb (m := m) rfl hsize hkind 7
  obtain ⟨e, he, hread⟩ := hget 2 (.volume 0 0 1) rfl
  obtain rfl : .float 9 = e := Option.some.inj he
  exact ⟨⟨b, hb⟩, hsize, hkind, m', hfill, hnoting, hdata, hread, hpadding⟩

/-- A plane with one row more than 32 bits can name is made where that many are allowed, with a
texel less than it has elements. A generator that always says what to write is stopped at the last
element. -/
theorem fill_stops_of_cutOff :
    let device := Device.plain { maxTextureSide := 2 ^ 32 - 1 }
    let plane : Shape .two := .plane 1 (2 ^ 32)
    let next (_ : Unit) (_ : Coord .two) : Element × Unit := (.float 0, ())
    let zeros : Staging ⟨.float, .two⟩ := .zeros plane
    (∃ texture, Buffer.create device ⟨1⟩ ⟨.float, .two⟩ plane =
        .ok ⟨⟨1⟩, ⟨.float, .two⟩, zeros, texture⟩) ∧ plane.count = 2 ^ 32 ∧
      ∃ m, (InPlace.fill (always next) ()).run zeros =
        .error (.beyond (2 ^ 32 - 1) (2 ^ 32 - 1)) m := by
  intro device plane next zeros
  have harea : plane.textureSize.area = 2 ^ 32 - 1 := by decide
  have hsize : zeros.texels.size = 2 ^ 32 - 1 := harea ▸ Array.size_replicate
  have hcount : plane.count = 2 ^ 32 := by decide
  obtain ⟨b, hb⟩ : ∃ b, Buffer.create device ⟨1⟩ ⟨.float, .two⟩ plane = .ok b :=
    (Buffer.exists_create_iff (Device.copies_plain _)).mpr
      ⟨by decide, by decide, .inr (by decide)⟩
  obtain ⟨texture, -, rfl⟩ := Buffer.exists_texture_of_create hb
  refine ⟨⟨texture, hb⟩, hcount, ?_⟩
  have hpast : zeros.texels.size < plane.count := by
    rw [hsize, hcount]
    decide
  have hrun := InPlace.exists_run_fill_always (m := zeros) next hpast ()
  rwa [hsize] at hrun

end Texelwise

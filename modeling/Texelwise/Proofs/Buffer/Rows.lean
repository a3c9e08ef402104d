import Texelwise.Proofs.Buffer.Bytes
import Texelwise.Proofs.Buffer.Identity

/-!
# Rows of texels on their way to the device and back

A texture is uploaded row by row, and read back in rows that are padded. On a device that copies as
documented both leave every texel in its place, whatever the width, as long as the bytes of a row
are a number of 32 bits; past that the device refuses the copy.

* `toNat_rowBytes`, `toNat_paddedRowBytes`: the bytes of a row.
* `Staging.bytes_copyRows`: rows put one after another make up the memory.
* `Buffer.texels_of_write`, `Buffer.texels_of_pull`: what is uploaded and what is read back.
* `Buffer.exists_push_iff`, `Buffer.exists_pull`: when either ends well.
* `Buffer.exists_create_iff`: when a buffer is made.
-/

namespace Texelwise

/-! ## The bytes of a row -/

/-- The widest texture whose rows are uploaded as they are. -/
def maxRowWidth : Nat := 2 ^ 30 - 1

/-- The widest texture whose rows, with their padding, are read back. -/
def maxPaddedWidth : Nat := 2 ^ 30 - 64

theorem toNat_rowBytes {width : Nat} (h : width ≤ maxRowWidth) :
    (rowBytes width).toNat = 4 * width := by
  have hmax : maxRowWidth = 2 ^ 30 - 1 := rfl
  rw [rowBytes, UInt32.toNat_mul, UInt32.toNat_ofNat', show texelSize.toNat = 4 from rfl]
  omega

/-- The bytes of a wider row are too many for 32 bits. -/
theorem toNat_rowBytes_lt {width : Nat} (h : maxRowWidth < width) :
    (rowBytes width).toNat < 4 * width := by
  have hmax : maxRowWidth = 2 ^ 30 - 1 := rfl
  have hlt := (rowBytes width).toNat_lt
  omega

theorem toNat_paddedRowBytes {width : Nat} (h : width ≤ maxPaddedWidth) :
    (paddedRowBytes width).toNat = (4 * width + 255) / 256 * 256 := by
  have hmax : maxPaddedWidth = 2 ^ 30 - 64 := rfl
  have hrow : width ≤ maxRowWidth := Nat.le_trans h (by decide)
  rw [paddedRowBytes, UInt32.toNat_mul, toNat_divCeil _ (by decide), toNat_rowBytes hrow,
    show rowAlignment.toNat = 256 from rfl]
  show (4 * width + 255) / 256 * 256 % 2 ^ 32 = _
  omega

theorem le_paddedRowBytes {width : Nat} (h : width ≤ maxPaddedWidth) :
    4 * width ≤ (paddedRowBytes width).toNat := by
  rw [toNat_paddedRowBytes h]
  omega

/-- The bytes of a wider row with its padding are too many for 32 bits. -/
theorem toNat_paddedRowBytes_lt {width : Nat} (h : maxPaddedWidth < width) :
    (paddedRowBytes width).toNat < 4 * width := by
  have hmax : maxPaddedWidth = 2 ^ 30 - 64 := rfl
  have hlt := (paddedRowBytes width).toNat_lt
  rcases Nat.lt_or_ge maxRowWidth width with hrow | hrow
  · have hmax : maxRowWidth = 2 ^ 30 - 1 := rfl
    omega
  · have hrow := toNat_rowBytes hrow
    have hmax : maxRowWidth = 2 ^ 30 - 1 := rfl
    -- Rounded up, these bytes are just `2 ^ 32`.
    rw [paddedRowBytes, UInt32.toNat_mul, toNat_divCeil _ (by decide), hrow,
      show rowAlignment.toNat = 256 from rfl]
    show (4 * width + 255) / 256 * 256 % 2 ^ 32 < _
    omega

/-! ## Texels in bytes -/

theorem Texel.bytes_injective {t u : Texel} (h : t.bytes = u.bytes) : t = u := by
  obtain ⟨r, g, b, a⟩ := t
  obtain ⟨r', g', b', a'⟩ := u
  simpa [Texel.bytes] using h

/-- The texel at a place has the four bytes that are there. -/
theorem bytes_ofBytes {bytes : List UInt8} {i : Nat} (h : i + 4 ≤ bytes.length) :
    (Texel.ofBytes bytes.toArray i).bytes = (bytes.drop i).take 4 := by
  have hget : ∀ j < 4, (bytes.drop i)[j]? = some (bytes.toArray.getD (i + j) 0) := fun j hj => by
    have hlt : i + j < bytes.length := by omega
    simp [Array.getD_eq_getD_getElem?, List.getElem?_eq_getElem hlt]
  apply List.ext_getElem?
  intro j
  rcases Nat.lt_or_ge j 4 with hj | hj
  · rw [List.getElem?_take_of_lt hj, hget j hj]
    match j, hj with
    | 0, _ | 1, _ | 2, _ | 3, _ => rfl
  · rw [List.getElem?_eq_none (by exact hj), List.getElem?_eq_none]
    exact Nat.le_trans (List.length_take_le 4 _) hj

/-- The bytes of texels hold each texel at the fourfold place. -/
theorem ofBytes_flatMap_texels {ts : List Texel} {k : Nat} {t : Texel} (h : ts[k]? = some t) :
    Texel.ofBytes (ts.flatMap Texel.bytes).toArray (4 * k) = t := by
  have hk := (List.getElem?_eq_some_iff.mp h).1
  apply Texel.bytes_injective
  rw [bytes_ofBytes (by rw [length_flatMap_texels]; omega), take_drop_flatMap_texels, h]
  rfl

/-- Bytes in which texels are found one after another are the bytes of these texels. -/
theorem take_drop_eq_flatMap {bytes : List UInt8} {us : List Texel} {start : Nat}
    (hroom : start + 4 * us.length ≤ bytes.length)
    (h : ∀ (k : Nat) u, us[k]? = some u → Texel.ofBytes bytes.toArray (start + 4 * k) = u) :
    (bytes.drop start).take (4 * us.length) = us.flatMap Texel.bytes := by
  induction us generalizing start with
  | nil => rfl
  | cons u us ih =>
    rw [List.length_cons] at hroom
    have hfirst : (bytes.drop start).take 4 = u.bytes := by
      rw [← bytes_ofBytes (by omega), ← h 0 u rfl]
      rfl
    have hrest := @ih (start + 4) (by omega) fun k v hv => by
      rw [← h (k + 1) v hv]
      congr 1
      omega
    rw [List.flatMap_cons, ← hrest, ← hfirst, List.length_cons, Nat.mul_succ, Nat.add_comm,
      List.take_add, List.drop_drop]

/-- The bytes of texels tell the texels. -/
theorem flatMap_bytes_injective {ts us : List Texel}
    (h : ts.flatMap Texel.bytes = us.flatMap Texel.bytes) : ts = us := by
  have hlength : ts.length = us.length := by
    have hbytes := congrArg List.length h
    rw [length_flatMap_texels, length_flatMap_texels] at hbytes
    omega
  refine List.ext_getElem hlength fun k hk hk' => ?_
  rw [← ofBytes_flatMap_texels (List.getElem?_eq_getElem hk), h,
    ofBytes_flatMap_texels (List.getElem?_eq_getElem hk')]

/-- A list is made up of its rows. -/
theorem flatMap_rows {α : Type} {l : List α} {width height : Nat} (h : l.length = height * width) :
    ((List.range height).flatMap fun y => (l.drop (y * width)).take width) = l := by
  induction height generalizing l with
  | zero =>
    rw [Nat.zero_mul, List.length_eq_zero_iff] at h
    rw [h]
    rfl
  | succ height ih =>
    have hrest : (l.drop width).length = height * width := by
      rw [List.length_drop, h, Nat.succ_mul, Nat.add_sub_cancel]
    have hrows : ∀ y, (l.drop ((y + 1) * width)).take width =
        ((l.drop width).drop (y * width)).take width := by
      intro y
      rw [List.drop_drop, Nat.succ_mul, Nat.add_comm]
    rw [List.range_succ_eq_map, List.flatMap_cons, List.flatMap_map]
    simp only [Nat.zero_mul, List.drop_zero, hrows]
    rw [ih hrest, List.take_append_drop]

/-! ## Textures -/

namespace Texture

/-- All bytes of a texture, row by row. -/
def bytes (t : Texture) : List UInt8 := t.texels.toList.flatMap Texel.bytes

/-- The texel at a place is the one of its number. -/
theorem getElem?_texels {t : Texture} {x y : Nat} (hx : x < t.size.width) (hy : y < t.size.height) :
    t.texels.toList[y * t.size.width + x]? = some (t.texel x y) := by
  have hlt : y * t.size.width + x < t.texels.size := by
    rw [t.area, TextureSize.area]
    calc y * t.size.width + x < y * t.size.width + t.size.width := Nat.add_lt_add_left hx _
      _ = (y + 1) * t.size.width := (Nat.succ_mul y _).symm
      _ ≤ t.size.height * t.size.width := Nat.mul_le_mul_right _ hy
      _ = t.size.width * t.size.height := Nat.mul_comm _ _
  rw [Array.getElem?_toList, Array.getElem?_eq_getElem hlt, texel, Array.getD_eq_getD_getElem?,
    Array.getElem?_eq_getElem hlt, Option.getD_some]

/-- A texture that is painted with the texels of an array holds the array. -/
theorem texels_paint {t : Texture} {texel : TexelAt} {texels : Array Texel}
    (hsize : texels.size = t.size.area)
    (h : ∀ x < t.size.width, ∀ y < t.size.height,
      texels[y * t.size.width + x]? = some (texel x y)) : (t.paint texel).texels = texels := by
  apply Array.ext
  · rw [hsize, paint, ofTexels]
    exact Array.size_ofFn
  · intro i hi hi'
    rw [hsize, TextureSize.area] at hi'
    have hwidth : 0 < t.size.width := Nat.pos_of_mul_pos_right (Nat.zero_lt_of_lt hi')
    have hplace := h _ (Nat.mod_lt i hwidth) _ (Nat.div_lt_of_lt_mul hi')
    rw [Nat.mul_comm, Nat.div_add_mod] at hplace
    obtain ⟨_, hplace⟩ := Array.getElem?_eq_some_iff.mp hplace
    rw [hplace]
    simp [paint, ofTexels]

end Texture

/-! ## Rows that are put one after another -/

theorem overwrite_append {α : Type} {xs ys zs : List α} {i : Nat}
    (h : i + ys.length + zs.length ≤ xs.length) :
    overwrite (overwrite xs i ys) (i + ys.length) zs = overwrite xs i (ys ++ zs) := by
  apply List.ext_getElem?
  intro k
  have hys : i + ys.length ≤ xs.length := by omega
  rw [getElem?_overwrite (by rw [length_overwrite hys]; exact h), getElem?_overwrite hys,
    getElem?_overwrite (by rw [List.length_append]; omega), List.length_append]
  rcases Nat.lt_or_ge k (i + ys.length) with hk | hk
  · rw [if_neg (by omega)]
    by_cases hi : i ≤ k
    · rw [if_pos (by omega), if_pos (by omega), List.getElem?_append_left (by omega)]
    · rw [if_neg (by omega), if_neg (by omega)]
  · rw [if_neg (show ¬ (i ≤ k ∧ k < i + ys.length) by omega)]
    by_cases hlast : k < i + ys.length + zs.length
    · rw [if_pos (by omega), if_pos (by omega), List.getElem?_append_right (by omega)]
      congr 1
      omega
    · rw [if_neg (by omega), if_neg (by omega)]

theorem overwrite_eq_of_length {α : Type} {xs ys : List α} (h : ys.length = xs.length) :
    overwrite xs 0 ys = ys := by
  rw [overwrite, List.take_zero, List.nil_append, Nat.zero_add, h, List.drop_length,
    List.append_nil]

theorem takeChunks_eq (size count : Nat) (bytes : List UInt8) :
    takeChunks size count bytes =
      (List.range count).map fun y => (bytes.drop (y * size)).take size := by
  induction count generalizing bytes with
  | zero => rfl
  | succ count ih =>
    rw [takeChunks, ih, List.range_succ_eq_map, List.map_cons, List.map_map, Nat.zero_mul,
      List.drop_zero]
    congr 1
    refine List.map_congr_left fun y _ => ?_
    simp only [Function.comp_apply, Nat.succ_mul, List.drop_drop, Nat.add_comm]

namespace Staging

variable {kind : BufferKind}

theorem length_flatMap_take {row : Nat} {chunks : List (List UInt8)}
    (h : ∀ c ∈ chunks, row ≤ c.length) :
    (chunks.flatMap (List.take row)).length = chunks.length * row := by
  induction chunks with
  | nil => exact (Nat.zero_mul row).symm
  | cons chunk chunks ih =>
    rw [List.flatMap_cons, List.length_append, List.length_cons, Nat.succ_mul, Nat.add_comm,
      List.length_take_of_le (h chunk List.mem_cons_self),
      ih fun c hc => h c (List.mem_cons_of_mem _ hc)]

/-- Rows put one after another from row `y` on are written over the bytes there. -/
theorem bytes_copyRows {row y : Nat} {chunks : List (List UInt8)} {m : Staging kind}
    (hchunks : ∀ c ∈ chunks, row ≤ c.length)
    (hroom : (y + chunks.length) * row ≤ 4 * m.texels.size) :
    ∃ m', copyRows row (((List.range' y chunks.length).map (· * row)).zip chunks) m = .ok m' ∧
      m'.bytes = Texelwise.overwrite m.bytes (y * row) (chunks.flatMap (List.take row)) := by
  induction chunks generalizing y m with
  | nil => exact ⟨m, rfl, (Texelwise.overwrite_nil _ _).symm⟩
  | cons chunk chunks ih =>
    have hchunk : (chunk.take row).length = row :=
      List.length_take_of_le (hchunks chunk List.mem_cons_self)
    have hrest : (chunks.flatMap (List.take row)).length = chunks.length * row :=
      length_flatMap_take fun c hc => hchunks c (List.mem_cons_of_mem _ hc)
    rw [List.length_cons, Nat.add_mul, Nat.succ_mul] at hroom
    have hwithin : y * row + (chunk.take row).length ≤ 4 * m.texels.size := by
      rw [hchunk]
      omega
    obtain ⟨m', hm', hbytes⟩ := @ih (y + 1) (m.write (y * row) (chunk.take row))
      (fun c hc => hchunks c (List.mem_cons_of_mem _ hc)) (by
        rw [size_write, Nat.add_mul, Nat.succ_mul]
        omega)
    refine ⟨m', ?_, ?_⟩
    · rw [List.length_cons, List.range'_succ, List.map_cons, List.zip_cons_cons, copyRows,
        if_neg (Nat.not_lt.mpr (hchunks chunk List.mem_cons_self))]
      exact hm'
    · have hnext : (y + 1) * row = y * row + (chunk.take row).length := by
        rw [hchunk, Nat.succ_mul]
      rw [hbytes, bytes_write hwithin, hnext, overwrite_append, List.flatMap_cons]
      rw [length_bytes, hchunk, hrest]
      omega

/-- Memory that takes the rows of padded bytes holds these rows. -/
theorem bytes_takeRows {m : Staging kind} {width height padded : Nat} {mapped : List UInt8}
    (hwidth : 0 < width) (hsize : m.texels.size = height * width) (hpadded : 4 * width ≤ padded)
    (hmapped : mapped.length = padded * height) :
    ∃ m', m.takeRows (4 * width) padded mapped = .ok m' ∧ m'.bytes =
      (List.range height).flatMap fun y => (mapped.drop (y * padded)).take (4 * width) := by
  have hnonzero : ¬ (4 * width = 0 ∨ padded = 0) := by omega
  have hrows : 4 * m.texels.size / (4 * width) = height := by
    rw [hsize, Nat.mul_div_mul_left _ _ (by decide), Nat.mul_div_cancel _ hwidth]
  have hcount : mapped.length / padded = height := by
    rw [hmapped, Nat.mul_div_cancel_left _ (by omega)]
  have hchunks : chunksExact padded mapped =
      (List.range height).map fun y => (mapped.drop (y * padded)).take padded := by
    rw [chunksExact, hcount, takeChunks_eq]
  have hlength : (chunksExact padded mapped).length = height := by
    rw [hchunks, List.length_map, List.length_range]
  have hwhole : ∀ c ∈ chunksExact padded mapped, 4 * width ≤ c.length := by
    intro c hc
    rw [hchunks] at hc
    obtain ⟨y, hy, rfl⟩ := List.mem_map.mp hc
    have hrow : (y + 1) * padded ≤ padded * height := by
      rw [Nat.mul_comm]
      exact Nat.mul_le_mul_left padded (List.mem_range.mp hy)
    rw [Nat.succ_mul] at hrow
    rw [List.length_take, List.length_drop, hmapped]
    omega
  have hroom : height * (4 * width) = 4 * m.texels.size := by rw [hsize, Nat.mul_left_comm]
  obtain ⟨m', hm', hbytes⟩ := @bytes_copyRows _ (4 * width) 0 (chunksExact padded mapped) m hwhole
    (Nat.le_of_eq (by rw [hlength, Nat.zero_add, hroom]))
  rw [hlength, ← List.range_eq_range', ← hrows] at hm'
  refine ⟨m', ?_, ?_⟩
  · unfold takeRows
    rw [if_neg hnonzero]
    exact congrArg (Except.mapError RangeFault.message) hm'
  · have htake : ∀ y, ((mapped.drop (y * padded)).take padded).take (4 * width) =
        (mapped.drop (y * padded)).take (4 * width) := by
      intro y
      rw [List.take_take, Nat.min_eq_left hpadded]
    have hall : ((chunksExact padded mapped).flatMap (List.take (4 * width))).length =
        m.bytes.length := by
      rw [length_flatMap_take hwhole, hlength, length_bytes, hroom]
    rw [hbytes, Nat.zero_mul, overwrite_eq_of_length hall, hchunks, List.flatMap_map]
    simp only [htake]

end Staging

/-! ## Uploads -/

theorem TextureSize.isEmpty_eq_false_iff {size : TextureSize} :
    size.isEmpty = false ↔ 0 < size.width ∧ 0 < size.height := by
  simp [isEmpty, Nat.pos_iff_ne_zero]

theorem TextureSize.allocated_eq {size : TextureSize} (h : size.isEmpty = false) :
    size.allocated = size := by
  obtain ⟨width, height⟩ := size
  obtain ⟨hwidth, hheight⟩ := isEmpty_eq_false_iff.mp h
  rw [allocated, Nat.max_eq_left hwidth, Nat.max_eq_left hheight]

/-- A copy of all of a texture lies inside it. -/
theorem TextureSize.inside_of_eq {size : TextureSize} {t : Texture} (h : t.size = size) :
    size.Inside t := by
  subst h
  exact ⟨Nat.le_refl _, Nat.le_refl _⟩

namespace Buffer

variable {device : Device} (hd : device.Copies) {b : Buffer}
  (hempty : b.textureSize.isEmpty = false) (hsize : b.texture.size = b.textureSize)
  (hstaging : b.staging.texels.size = b.textureSize.area)

include hd hempty

/-- An upload that the device takes has rows that 32 bits can name. -/
theorem width_le_of_write {texel : TexelAt}
    (h : device.write b.texture b.staging.bytes b.textureSize.layout b.textureSize = .ok texel) :
    b.textureSize.width ≤ maxRowWidth := by
  refine Nat.not_lt.mp fun hlt => ?_
  obtain ⟨reason, hreason⟩ := hd.write_refuses b.texture b.staging.bytes b.textureSize.layout
    b.textureSize hempty (toNat_rowBytes_lt hlt)
  rw [hreason] at h
  cases h

/-- So has a readback that the device carries out, with their padding. -/
theorem width_le_of_read {mapped : List UInt8}
    (h : device.read b.texture b.textureSize.paddedLayout b.textureSize b.textureSize.paddedBytes =
      .ok mapped) : b.textureSize.width ≤ maxPaddedWidth := by
  refine Nat.not_lt.mp fun hlt => ?_
  obtain ⟨reason, hreason⟩ := hd.read_refuses b.texture b.textureSize.paddedLayout b.textureSize
    b.textureSize.paddedBytes hempty (toNat_paddedRowBytes_lt hlt)
  rw [hreason] at h
  cases h

include hsize

section

include hstaging

/-- Each texel of the staging memory is uploaded to its place. -/
theorem exists_write (hwidth : b.textureSize.width ≤ maxRowWidth) :
    ∃ texel, device.write b.texture b.staging.bytes b.textureSize.layout b.textureSize = .ok texel ∧
      (b.paint texel).texture.texels = b.staging.texels := by
  have hrow : b.textureSize.layout.bytesPerRow.toNat = 4 * b.textureSize.width :=
    toNat_rowBytes hwidth
  obtain ⟨hpos, hheight⟩ := TextureSize.isEmpty_eq_false_iff.mp hempty
  have hplace : ∀ x y, b.textureSize.layout.place x y = 4 * (y * b.texture.size.width + x) := by
    intro x y
    rw [CopyLayout.place, hrow, hsize, Nat.mul_left_comm, Nat.mul_add]
    exact congrArg (· + 4 * x) (Nat.zero_add _)
  have hlast : b.textureSize.layout.place b.textureSize.width (b.textureSize.height - 1) ≤
      b.staging.bytes.length := by
    have hall : (b.textureSize.height - 1) * b.textureSize.width + b.textureSize.width =
        b.textureSize.width * b.textureSize.height := by
      rw [← Nat.succ_mul, Nat.succ_eq_add_one, Nat.sub_add_cancel hheight, Nat.mul_comm]
    rw [hplace, hsize, hall, Staging.length_bytes, hstaging]
    exact Nat.le_refl _
  obtain ⟨texel, htexel, hrows⟩ := hd.write_rows b.texture b.staging.bytes b.textureSize.layout
    b.textureSize hempty (TextureSize.inside_of_eq hsize) (Nat.le_of_eq hrow.symm) hlast
  refine ⟨texel, htexel, Texture.texels_paint (by rw [hstaging, hsize]) fun x hx y hy => ?_⟩
  have hlt : y * b.texture.size.width + x < b.staging.texels.size := by
    have htexels := Texture.getElem?_texels hx hy
    rw [Array.getElem?_toList] at htexels
    rw [hstaging, ← hsize, ← b.texture.area]
    exact (Array.getElem?_eq_some_iff.mp htexels).1
  have hinside : x < b.textureSize.width ∧ y < b.textureSize.height := by
    rw [← hsize]
    exact ⟨hx, hy⟩
  rw [hrows x hx y hy, if_pos hinside, hplace, Array.getElem?_eq_getElem hlt]
  refine congrArg some (ofBytes_flatMap_texels ?_).symm
  rw [Array.getElem?_toList, Array.getElem?_eq_getElem hlt]

/-- What is uploaded is the staging memory. -/
theorem texels_of_write {texel : TexelAt}
    (h : device.write b.texture b.staging.bytes b.textureSize.layout b.textureSize = .ok texel) :
    (b.paint texel).texture.texels = b.staging.texels := by
  obtain ⟨texel', h', htexels⟩ :=
    exists_write hd hempty hsize hstaging (width_le_of_write hd hempty h)
  obtain rfl : texel' = texel := Except.ok.inj (h'.symm.trans h)
  exact htexels

end

/-! ## Readbacks -/

/-- A row of what is read back has the texels of that row of the texture in front. -/
theorem row_of_read {mapped : List UInt8}
    (h : device.read b.texture b.textureSize.paddedLayout b.textureSize b.textureSize.paddedBytes =
      .ok mapped) {y : Nat} (hy : y < b.textureSize.height) :
    (mapped.drop (y * (paddedRowBytes b.textureSize.width).toNat)).take
        (4 * b.textureSize.width) =
      ((b.texture.texels.toList.drop (y * b.textureSize.width)).take
        b.textureSize.width).flatMap Texel.bytes := by
  obtain ⟨hlength, hrows⟩ := hd.read_rows _ _ _ _ _ hempty (TextureSize.inside_of_eq hsize) h
  have hpadded : (y + 1) * (paddedRowBytes b.textureSize.width).toNat ≤ mapped.length := by
    rw [hlength, TextureSize.paddedBytes, Nat.mul_comm]
    exact Nat.mul_le_mul_left _ hy
  have hdrop : (y + 1) * b.textureSize.width ≤ b.texture.texels.toList.length := by
    rw [Array.length_toList, b.texture.area, hsize, TextureSize.area, Nat.mul_comm]
    exact Nat.mul_le_mul_left _ hy
  rw [Nat.succ_mul] at hpadded hdrop
  have hus : ((b.texture.texels.toList.drop (y * b.textureSize.width)).take
      b.textureSize.width).length = b.textureSize.width := by
    rw [List.length_take, List.length_drop]
    omega
  have hle := le_paddedRowBytes (width_le_of_read hd hempty h)
  have hrow := @take_drop_eq_flatMap mapped _
    (y * (paddedRowBytes b.textureSize.width).toNat) (by rw [hus]; omega) fun k u hu => by
      have hk : k < b.textureSize.width := hus ▸ (List.getElem?_eq_some_iff.mp hu).1
      rw [List.getElem?_take_of_lt hk, List.getElem?_drop, ← hsize,
        Texture.getElem?_texels (by rwa [hsize]) (by rwa [hsize])] at hu
      rw [← Option.some.inj hu, ← hrows k hk y hy, CopyLayout.place]
      exact congrArg (fun n => Texel.ofBytes mapped.toArray (n + 4 * k)) (Nat.zero_add _).symm
  rwa [hus] at hrow

include hstaging

/-- What is read back are the texels of the texture, row by row. -/
theorem takeRows_of_read {mapped : List UInt8}
    (h : device.read b.texture b.textureSize.paddedLayout b.textureSize b.textureSize.paddedBytes =
      .ok mapped) :
    ∃ m : Staging b.kind, b.staging.takeRows (rowBytes b.textureSize.width).toNat
        (paddedRowBytes b.textureSize.width).toNat mapped = .ok m ∧
      m.texels = b.texture.texels := by
  obtain ⟨hpos, -⟩ := TextureSize.isEmpty_eq_false_iff.mp hempty
  have hwidth := width_le_of_read hd hempty h
  obtain ⟨hlength, -⟩ := hd.read_rows _ _ _ _ _ hempty (TextureSize.inside_of_eq hsize) h
  have harea : b.staging.texels.size = b.textureSize.height * b.textureSize.width := by
    rw [hstaging, TextureSize.area, Nat.mul_comm]
  have htexels : b.texture.texels.toList.length =
      b.textureSize.height * b.textureSize.width := by
    rw [Array.length_toList, b.texture.area, hsize, TextureSize.area, Nat.mul_comm]
  obtain ⟨m, hm, hbytes⟩ := Staging.bytes_takeRows hpos harea (le_paddedRowBytes hwidth) hlength
  rw [toNat_rowBytes (Nat.le_trans hwidth (by decide))]
  refine ⟨m, hm, ?_⟩
  have hrow : ∀ y ∈ List.range b.textureSize.height,
      (mapped.drop (y * (paddedRowBytes b.textureSize.width).toNat)).take
          (4 * b.textureSize.width) =
        ((b.texture.texels.toList.drop (y * b.textureSize.width)).take
          b.textureSize.width).flatMap Texel.bytes :=
    fun y hy => row_of_read hd hempty hsize h (List.mem_range.mp hy)
  rw [List.flatMap_congr hrow, ← List.flatMap_assoc, flatMap_rows htexels] at hbytes
  exact Array.toList_inj.mp (flatMap_bytes_injective hbytes)

/-- A readback that ends well leaves the texels of the texture in the staging memory. -/
theorem texels_of_pull {answer : WaitAnswer} {b' : Buffer} (h : b.pull device answer = .ok b') :
    ∃ m : Staging b.kind, m.shape = b.shape ∧ m.texels = b.texture.texels ∧
      b' = b.withStaging m := by
  rcases eq_of_pull h with ⟨htrue, -⟩ | ⟨-, -, mapped, m, hread, hm, rfl⟩
  · rw [hempty] at htrue
    cases htrue
  · obtain ⟨m', hm', htexels⟩ := takeRows_of_read hd hempty hsize hstaging hread
    obtain rfl : m' = m := Except.ok.inj (hm'.symm.trans hm)
    exact ⟨m', (b.staging.shaped_self.takeRows hm).1, htexels, rfl⟩

omit hempty hsize in
/-- Uploading ends well just if the texture is empty or its rows can be named in 32 bits. -/
theorem exists_push_iff (hsize : b.texture.size = b.textureSize.allocated) :
    (∃ b', b.push device = .ok b') ↔
      b.textureSize.isEmpty = true ∨ b.textureSize.width ≤ maxRowWidth := by
  cases hempty : b.textureSize.isEmpty with
  | true => exact ⟨fun _ => .inl rfl, fun _ => ⟨b, if_pos hempty⟩⟩
  | false =>
    have hsize := hsize.trans (TextureSize.allocated_eq hempty)
    refine ⟨?_, ?_⟩
    · rintro ⟨b', h⟩
      rcases eq_of_push h with ⟨htrue, -⟩ | ⟨-, texel, htexel, -⟩
      · rw [hempty] at htrue
        cases htrue
      · exact .inr (width_le_of_write hd hempty htexel)
    · rintro (hfalse | hwidth)
      · cases hfalse
      · obtain ⟨texel, htexel, -⟩ := exists_write hd hempty hsize hstaging hwidth
        refine ⟨b.paint texel, ?_⟩
        rw [push, if_neg (by simp [hempty]), htexel]
        rfl

omit hd hempty hsize hstaging in
/-- Uploading fails only where the device stops the program. -/
theorem eq_stopped_of_push {e : BufferError} (h : b.push device = .error e) :
    ∃ message, e = .stopped message := by
  unfold push at h
  dsimp only at h
  split at h
  · cases h
  · cases hwrite : device.write b.texture b.staging.bytes b.textureSize.layout b.textureSize with
    | ok texel => rw [hwrite] at h; cases h
    | error message =>
      rw [hwrite] at h
      cases h
      exact ⟨message, rfl⟩

end Buffer

/-! ## New buffers -/

/-- The host can hold the texels of a shape in one allocation, and its rows can be uploaded. -/
def Shape.Hosted {r : Rank} (s : Shape r) : Prop :=
  4 * s.textureSize.area ≤ maxAllocation ∧
    (s.textureSize.isEmpty = true ∨ s.textureSize.width ≤ maxRowWidth)

instance {r : Rank} (s : Shape r) : Decidable s.Hosted := inferInstanceAs (Decidable (_ ∧ _))

namespace Buffer

variable {device : Device} {id : BufferId} {kind : BufferKind} {shape : Shape kind.rank}

/-- A buffer whose texture is too large is refused with the sides of its texture. -/
theorem create_of_not_within (h : ¬shape.textureSize.Within device.limits) :
    create device id kind shape =
      .error (.tooLarge shape.textureSize device.limits.maxTextureSide) :=
  if_neg h

/-- A texture that is not too large is refused only where something stops the program. -/
theorem eq_stopped_of_create (h : shape.textureSize.Within device.limits) {e : BufferError}
    (he : create device id kind shape = .error e) : ∃ message, e = .stopped message := by
  unfold create at he
  dsimp only at he
  rw [if_pos h] at he
  split at he
  · cases he
    exact ⟨capacityMessage, rfl⟩
  · exact eq_stopped_of_push he

/-- A buffer is made just if its texture is not too large and its texels can be held. -/
theorem exists_create_iff (hd : device.Copies) : (∃ b, create device id kind shape = .ok b) ↔
    shape.textureSize.Within device.limits ∧ shape.Hosted := by
  have hpush : (∃ b, push device ⟨id, kind, .zeros shape, .zeros shape.textureSize.allocated⟩ =
      .ok b) ↔ shape.textureSize.isEmpty = true ∨ shape.textureSize.width ≤ maxRowWidth :=
    exists_push_iff hd Array.size_replicate rfl
  constructor
  · rintro ⟨b, h⟩
    obtain ⟨hwithin, hstaging, h⟩ := eq_of_create h
    refine ⟨hwithin, ?_, hpush.mp ⟨b, h⟩⟩
    unfold Staging.create? at hstaging
    split at hstaging
    · assumption
    · cases hstaging
  · rintro ⟨hwithin, hroom, hrows⟩
    obtain ⟨b, hb⟩ := hpush.mpr hrows
    refine ⟨b, ?_⟩
    unfold create
    dsimp only
    rw [if_pos hwithin, Staging.create?, if_pos hroom]
    exact hb

end Buffer

end Texelwise

import Texelwise.Kernel.Kind

/-!
# Texels and elements

A texel has four bytes. As a color they are its channels; as a float they are its bit pattern with
the lowest byte first. A float is kept as a bit pattern throughout, so that no value is changed.

* `Texel.bits`, `Texel.ofBits`: a texel as a 32-bit word and back.
* `Element.texel`, `Texel.element`: an element as a texel and back.
-/

namespace Texelwise

/-- The four bytes of a texel. -/
structure Texel where
  r : UInt8
  g : UInt8
  b : UInt8
  a : UInt8
  deriving DecidableEq, Repr

namespace Texel

/-- The texel of a fresh texture. -/
def zero : Texel := ⟨0, 0, 0, 0⟩

instance : Inhabited Texel := ⟨zero⟩

/-- The bytes in the order of memory. -/
def bytes (t : Texel) : List UInt8 := [t.r, t.g, t.b, t.a]

/-- The word whose bytes, lowest first, are those of the texel. -/
def bits (t : Texel) : UInt32 :=
  UInt32.ofNat (t.r.toNat + t.g.toNat * 0x100 + t.b.toNat * 0x10000 + t.a.toNat * 0x1000000)

/-- The texel of a word. -/
def ofBits (w : UInt32) : Texel :=
  ⟨UInt8.ofNat w.toNat, UInt8.ofNat (w.toNat / 0x100), UInt8.ofNat (w.toNat / 0x10000),
    UInt8.ofNat (w.toNat / 0x1000000)⟩

/-- Replaces byte `i`. -/
def setByte (i : Nat) (value : UInt8) (t : Texel) : Texel :=
  match i with
  | 0 => { t with r := value }
  | 1 => { t with g := value }
  | 2 => { t with b := value }
  | _ => { t with a := value }

@[simp] theorem bits_ofBits (w : UInt32) : (ofBits w).bits = w := by
  apply UInt32.toNat_inj.mp
  have := w.toNat_lt
  simp only [bits, ofBits, UInt8.toNat_ofNat', UInt32.toNat_ofNat']
  omega

@[simp] theorem ofBits_bits (t : Texel) : ofBits t.bits = t := by
  obtain ⟨r, g, b, a⟩ := t
  have := r.toNat_lt
  have := g.toNat_lt
  have := b.toNat_lt
  have := a.toNat_lt
  simp only [bits, ofBits, UInt32.toNat_ofNat', Texel.mk.injEq]
  refine ⟨?_, ?_, ?_, ?_⟩ <;>
    (apply UInt8.toNat_inj.mp; simp only [UInt8.toNat_ofNat']; omega)

end Texel

/-- An element of a buffer. -/
inductive Element where
  /-- A float by its bit pattern. -/
  | float (bits : UInt32)
  | color (r g b a : UInt8)
  deriving DecidableEq, Repr

namespace Element

/-- The kind of an element. -/
def kind : Element → ElementKind
  | .float _ => .float
  | .color _ _ _ _ => .color

/-- The texel that holds an element. -/
def texel : Element → Texel
  | .float bits => Texel.ofBits bits
  | .color r g b a => ⟨r, g, b, a⟩

end Element

/-- The element of a kind that a texel holds. -/
def Texel.element (t : Texel) : ElementKind → Element
  | .float => .float t.bits
  | .color => .color t.r t.g t.b t.a

/-- An element is read back from its texel. -/
@[simp] theorem Element.element_texel (e : Element) : e.texel.element e.kind = e := by
  cases e <;> simp [texel, kind, Texel.element]

/-- A texel is the texel of the element that it holds. -/
@[simp] theorem Texel.texel_element (t : Texel) (k : ElementKind) : (t.element k).texel = t := by
  cases k <;> simp [Texel.element, Element.texel]

end Texelwise

/-!
# Bytes

Ranges of a list of bytes, and the sizes of rows and blocks. Sizes on their way to the device are
32-bit numbers, and what goes past those is lost, as it is where a build does not check for it; a
build that does stops there.

* `overwrite`, `writeRange`: a range that is written over, in any list and in bytes that must have
  room for it.
* `divCeil`: division that rounds up.
* `chunksExact`: the chunks of one size, without what is left at the end.
-/

namespace Texelwise

/-! ## Ranges -/

/-- The list `xs` with `ys` in place of what stands there from place `i` on. -/
def overwrite {α : Type} (xs : List α) (i : Nat) (ys : List α) : List α :=
  xs.take i ++ ys ++ xs.drop (i + ys.length)

/-- A range that ends past what it is taken from. -/
structure RangeFault where
  stop : Nat
  size : Nat
  deriving DecidableEq, Repr

/-- The wording of a range that ends too late. -/
def RangeFault.message (fault : RangeFault) : String :=
  let stop := fault.stop
  let size := fault.size
  s!"range end index {stop} out of range for slice of length {size}"

/-- Bytes with others written over the range from `start` on. -/
def writeRange (bytes : List UInt8) (start : Nat) (values : List UInt8) :
    Except RangeFault (List UInt8) :=
  let stop := start + values.length
  if stop ≤ bytes.length then .ok (overwrite bytes start values) else .error ⟨stop, bytes.length⟩

/-! ## Sizes -/

/-- The least number of groups of `d` that hold `n`. -/
def divCeil (n d : UInt32) : UInt32 := if n % d = 0 then n / d else n / d + 1

/-! ## Chunks -/

/-- The first `count` chunks of `size` bytes. -/
def takeChunks (size : Nat) : (count : Nat) → List UInt8 → List (List UInt8)
  | 0, _ => []
  | count + 1, bytes => bytes.take size :: takeChunks size count (bytes.drop size)

/-- The chunks of `size` bytes, without the bytes at the end that make up less than a chunk. -/
def chunksExact (size : Nat) (bytes : List UInt8) : List (List UInt8) :=
  takeChunks size (bytes.length / size) bytes

end Texelwise

import Texelwise.Buffer.Shape
import Texelwise.Buffer.Texel
import Texelwise.Bytes

/-!
# Staging memory

Each buffer has a copy of its texture in host memory, where elements are read and written. It
holds one texel per texel of the texture, also those past the last element, so that it can be
uploaded as it is.

Operations work on the memory in place. One that stops, at a coordinate outside the shape, past the
end of the memory or because it is not told what to write, undoes nothing.

* `Staging.create?`: staging memory of zeros, where one allocation can hold it.
* `InPlace.read`, `InPlace.put`: one element by its coordinate.
* `InPlace.fill`: every element in row-major order, from a generator with a state.
* `Staging.bytes`, `InPlace.write`: the same memory byte by byte.
* `Staging.takeRows`: the memory with the rows of a device buffer in it.
-/

namespace Texelwise

/-- The staging memory of a buffer. -/
structure Staging (kind : BufferKind) where
  shape : Shape kind.rank
  texels : Array Texel
  deriving DecidableEq, Repr

/-- The largest number of bytes that one allocation can have, `2 ^ 63 - 1`. -/
def maxAllocation : Nat := 0x7fffffffffffffff

namespace Staging

variable {kind : BufferKind}

/-- Staging memory of zeros. -/
def zeros (shape : Shape kind.rank) : Staging kind :=
  ⟨shape, Array.replicate shape.textureSize.area Texel.zero⟩

/-- Staging memory of zeros, if one allocation can hold it. -/
def create? (shape : Shape kind.rank) : Option (Staging kind) :=
  if 4 * shape.textureSize.area ≤ maxAllocation then some (zeros shape) else none

/-- All bytes, also those past the last element. -/
def bytes (m : Staging kind) : List UInt8 := m.texels.toList.flatMap Texel.bytes

/-- Replaces the byte at `offset`. -/
def setByte (m : Staging kind) (offset : Nat) (value : UInt8) : Staging kind :=
  { m with texels := m.texels.modify (offset / 4) (Texel.setByte (offset % 4) value) }

/-- Replaces the bytes from `offset` on. -/
def write (m : Staging kind) (offset : Nat) : List UInt8 → Staging kind
  | [] => m
  | value :: rest => (m.setByte offset value).write (offset + 1) rest

/-- The elements in row-major order, without the texels past the last one. -/
def data (m : Staging kind) : List Element :=
  (m.texels.extract 0 m.shape.count).toList.map (·.element kind.element)

end Staging

/-! ## Faults -/

/-- Why an operation on staging memory stops. -/
inductive StagingFault (r : Rank) where
  | access (error : AccessError r)
  /-- The memory has no texel of this number. -/
  | beyond (size index : Nat)
  /-- The memory ends before the range of bytes or elements. -/
  | range (fault : RangeFault)
  /-- The caller does not say what to write. -/
  | generator (reason : String)
  deriving DecidableEq, Repr

/-- The wording of a fault. -/
def StagingFault.message {r : Rank} : StagingFault r → String
  | .access error => error.message
  | .beyond size index => s!"index out of bounds: the len is {size} but the index is {index}"
  | .range fault => fault.message
  | .generator reason => reason

/-- A computation on staging memory that may stop on the way, which undoes nothing. -/
abbrev InPlace (kind : BufferKind) := EStateM (StagingFault kind.rank) (Staging kind)

namespace InPlace

variable {kind : BufferKind} {α : Type}

/-- The memory that a computation leaves, also where it stops. -/
def memory (x : InPlace kind α) (m : Staging kind) : Staging kind :=
  match x.run m with
  | .ok _ m' => m'
  | .error _ m' => m'

/-- What a computation comes to, if it does not stop. -/
def result (x : InPlace kind α) (m : Staging kind) :
    Except (StagingFault kind.rank) (α × Staging kind) :=
  match x.run m with
  | .ok a m' => .ok (a, m')
  | .error e _ => .error e

/-! ## Elements -/

/-- Goes on with a result that is not an error. -/
def require (result : Except (AccessError kind.rank) α) : InPlace kind α :=
  match result with
  | .ok a => return a
  | .error e => throw (.access e)

/-- The texel of a number. -/
def load (i : Nat) : InPlace kind Texel := do
  let m ← get
  match m.texels[i]? with
  | some t => return t
  | none => throw (.beyond m.texels.size i)

/-- Puts a texel in the place of the one of a number. -/
def store (i : Nat) (t : Texel) : InPlace kind Unit := fun m =>
  if i < m.texels.size then .ok () { m with texels := m.texels.setIfInBounds i t }
  else .error (.beyond m.texels.size i) m

/-- Reads the element at a coordinate. -/
def read (c : Coord kind.rank) : InPlace kind Element := do
  let i ← require ((← get).shape.offset c)
  return (← load i).element kind.element

/-- Puts an element at a coordinate. -/
def put (c : Coord kind.rank) (e : Element) : InPlace kind Unit := do
  let i ← require ((← get).shape.offset c)
  store i e.texel

/-- Says what to write at a coordinate, or why it does not, and goes over to another state. -/
abbrev Generator (kind : BufferKind) (σ : Type) := σ → Coord kind.rank → Except String (Element × σ)

/-- Puts what `next` says for their coordinates at `count` elements from number `i` on. -/
def fillFrom {σ : Type} (next : Generator kind σ) : (count i : Nat) → σ → InPlace kind σ
  | 0, _, s => return s
  | count + 1, i, s => do
    let c ← require ((← get).shape.coordAt i)
    match next s c with
    | .error reason => throw (.generator reason)
    | .ok (e, s) =>
      put c e
      fillFrom next count (i + 1) s

/-- Puts what `next` says for their coordinates at all elements, in row-major order. -/
def fill {σ : Type} (next : Generator kind σ) (s : σ) : InPlace kind σ := do
  fillFrom next (← get).shape.count 0 s

/-- The generator of elements from 32-bit words, each larger by `step` than the one before; it keeps
the coordinates for which it was called, the last one first. -/
def words (step : UInt32) : Generator kind (UInt32 × List (Coord kind.rank)) :=
  fun s c => .ok ((Texel.ofBits s.1).element kind.element, (s.1 + step, c :: s.2))

/-- Fills the elements from 32-bit words, the first from `start` and each next one from a word that
is larger by `step`; gives the coordinates in the order in which they were visited. -/
def fillWords (start step : UInt32) : InPlace kind (List (Coord kind.rank)) := do
  return (← fill (words step) (start, [])).2.reverse

/-- The elements in row-major order, if the memory has all of them. -/
def elements : InPlace kind (List Element) := do
  let m ← get
  if m.shape.count ≤ m.texels.size then return m.data
  else throw (.range ⟨m.shape.count, m.texels.size⟩)

/-! ## Bytes -/

/-- Replaces the bytes from `offset` on, if they all are within the memory. -/
def write (offset : Nat) (values : List UInt8) : InPlace kind Unit := fun m =>
  let stop := offset + values.length
  if stop ≤ 4 * m.texels.size then .ok () (m.write offset values)
  else .error (.range ⟨stop, 4 * m.texels.size⟩) m

end InPlace

/-! ## Rows -/

namespace Staging

variable {kind : BufferKind}

/-- Puts the first `row` bytes of each chunk at the place that goes with it. The chunks are of one
size, so that one which is too short is the first and nothing is written. -/
def copyRows (row : Nat) : List (Nat × List UInt8) → Staging kind →
    Except RangeFault (Staging kind)
  | [], m => .ok m
  | (start, chunk) :: rest, m =>
    if chunk.length < row then .error ⟨row, chunk.length⟩
    else copyRows row rest (m.write start (chunk.take row))

/-- Goes through the memory in chunks of `row` bytes and through the bytes of a device buffer in
chunks of `padded` bytes, side by side, and puts the front of each one into the other. -/
def takeRows (m : Staging kind) (row padded : Nat) (mapped : List UInt8) :
    Except String (Staging kind) :=
  if row = 0 ∨ padded = 0 then .error "chunk size must be non-zero"
  else
    let starts := (List.range (4 * m.texels.size / row)).map (· * row)
    (copyRows row (starts.zip (chunksExact padded mapped)) m).mapError RangeFault.message

end Staging

end Texelwise

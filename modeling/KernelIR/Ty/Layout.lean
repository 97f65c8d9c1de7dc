import KernelIR.Ty.Basic

/-!
# Sizes and alignments

`Ty.extent` gives the measures of a type on a target: its size in bits, the bytes a store of it
writes and the alignment of its address; `Extent.alloc` is the distance between neighbours in an
array.  Sizes are 64-bit words: a measure that leaves the word is the fault `overflow`, and a type
that takes no room in memory (`void`, a function) has the fault `unsized`.  Of several faults, the
one met first wins.
-/

namespace KernelIR

/-- What the target fixes about memory: the width of a pointer. -/
structure DataLayout where
  pointerBits : UInt32 := 64
  deriving DecidableEq

/-- Why a measure has no value. -/
inductive LayoutFault where
  | unsized
  | overflow
  deriving DecidableEq

/-- A size or an alignment, or the reason why there is none. -/
abbrev Quantity := Except LayoutFault Nat

namespace Quantity

/-- A number as a 64-bit word. -/
def fit (n : Nat) : Quantity := if n < UInt64.size then .ok n else .error .overflow

/-- The bytes that hold a number of bits. -/
def bytes (bits : Nat) : Nat := (bits + 7) / 8

/-- The least multiple of `align` that is not below `n`. -/
def roundUp (n align : Nat) : Quantity := fit ((n + (align - 1)) / align * align)

/-- The least power of two that is not below `n`. -/
def ceilPow2 (n : Nat) : Nat := if n ≤ 1 then 1 else 1 <<< ((n - 1).log2 + 1)

end Quantity

open Quantity

/-- The measures of a type, each with its own value or fault. -/
structure Extent where
  /-- Size in bits.  Scalars and vectors have their exact width, aggregates include padding. -/
  bits : Quantity
  /-- Bytes that a store writes. -/
  store : Quantity
  /-- Alignment of the address, in bytes. -/
  align : Quantity

namespace Extent

/-- Distance in bytes between consecutive elements. -/
def alloc (e : Extent) : Quantity := do
  let store ← e.store
  let align ← e.align
  roundUp store align

/-- A type that takes no room in memory. -/
def unsized : Extent := ⟨.error .unsized, .error .unsized, .error .unsized⟩

/-- A scalar takes the least whole number of bytes, and is aligned to that number rounded up to a
power of two, at most 8. -/
def scalar (bits : UInt32) : Extent where
  bits := .ok bits.toNat
  store := .ok (bytes bits.toNat)
  align := .ok (min (ceilPow2 (max (bytes bits.toNat) 1)) 8)

/-- The size in bits of a vector: its lanes stand side by side without padding. -/
def vectorBits (lanes : UInt32) (e : Extent) : Quantity := do
  let bits ← e.bits
  fit (lanes.toNat * bits)

/-- A vector is aligned to its own size rounded up to a power of two. -/
def vector (lanes : UInt32) (e : Extent) : Extent where
  bits := vectorBits lanes e
  store := bytes <$> vectorBits lanes e
  align := (fun bits => ceilPow2 (max (bytes bits) 1)) <$> vectorBits lanes e

/-- The measures of an aggregate, from its bytes and its alignment. -/
def aggregate (store align : Quantity) : Extent where
  bits := do
    let store ← store
    fit (store * 8)
  store := store
  align := align

/-- An array sets its elements at the distance `alloc`. -/
def array (size : UInt64) (e : Extent) : Extent :=
  aggregate (do
    let stride ← e.alloc
    fit (stride * size.toNat)) e.align

/-- The alignment that a struct gives to a field. -/
def fieldAlign (packed : Bool) (e : Extent) : Quantity := if packed then .ok 1 else e.align

/-- Places one field after those before it.  The state is the end of the last field and the
largest alignment so far. -/
def place (packed : Bool) (state : Nat × Nat) (e : Extent) : Except LayoutFault (Nat × Nat) := do
  let align ← e.fieldAlign packed
  let start ← roundUp state.1 align
  let size ← e.alloc
  let stop ← fit (start + size)
  return (stop, max state.2 align)

/-- The bytes of a struct: its fields one after the other, then padding to its alignment. -/
def structStore (packed : Bool) (fields : List Extent) : Quantity := do
  let (stop, align) ← fields.foldlM (place packed) (0, 1)
  roundUp stop align

/-- The alignment of a struct: the largest of its fields', and 1 when it is packed. -/
def structAlign (packed : Bool) (fields : List Extent) : Quantity :=
  if packed then .ok 1
  else fields.foldlM (fun align e => do
    let a ← e.align
    return max align a) 1

/-- A struct of the given fields. -/
def struct (packed : Bool) (fields : List Extent) : Extent :=
  aggregate (structStore packed fields) (structAlign packed fields)

end Extent

namespace Ty

mutual

/-- The measures of a type on a target. -/
def extent (layout : DataLayout) : Ty → Extent
  | .void => .unsized
  | .int bits => .scalar bits
  | .ptr _ => .scalar layout.pointerBits
  | .array size t => .array size (t.extent layout)
  | .vector lanes t => .vector lanes (t.extent layout)
  | .function .. => .unsized
  | .struct _ fields packed => .struct packed (extents layout fields)

/-- The measures of several types. -/
def extents (layout : DataLayout) : List Ty → List Extent
  | [] => []
  | t :: ts => t.extent layout :: extents layout ts

end

theorem extents_eq_map (layout : DataLayout) (ts : List Ty) :
    extents layout ts = ts.map (extent layout) := by
  induction ts with
  | nil => rfl
  | cons t ts ih => simp [extents, ih]

end Ty

namespace DataLayout

/-- Size of a type in bits. -/
def sizeInBits (layout : DataLayout) (t : Ty) : Quantity := (t.extent layout).bits

/-- Bytes that a store of the type writes. -/
def storeSize (layout : DataLayout) (t : Ty) : Quantity := (t.extent layout).store

/-- Distance in bytes between consecutive values of the type. -/
def allocSize (layout : DataLayout) (t : Ty) : Quantity := (t.extent layout).alloc

/-- Alignment of the address of a value of the type, in bytes. -/
def abiAlign (layout : DataLayout) (t : Ty) : Quantity := (t.extent layout).align

end DataLayout

end KernelIR

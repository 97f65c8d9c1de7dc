import KernelIR.Lowering.Error

/-!
# Pointers behind a cast

The memory intrinsics take byte pointers, so their operands are casts of the pointer that the
program works with.  `Module.reinterpretation?` looks behind such a cast.
-/

namespace KernelIR

/-- A cast from one pointer type to another: the temporary it defines, the pointer it reads and
what that points to. -/
structure Reinterpretation where
  cast : TempId
  source : Value
  pointee : Ty

/-- The pointer behind a value that is a cast between pointer types. -/
def Module.reinterpretation? (m : Module) (f : Function) (v : Value) : Option Reinterpretation := do
  let cast ← v.temp?
  match ← f.findDef? cast with
  | .cast _ source ty =>
    if ty.isPtr then
      let sourceTy ← m.valueType? f source
      let pointee ← sourceTy.pointee?
      return ⟨cast, source, pointee⟩
    else none
  | _ => none

/-- A size that has to be known: a type that takes no room is no fault of the machine. -/
def Quantity.known? : Quantity → Except Fault (Option Nat)
  | .ok n => .ok (some n)
  | .error .unsized => .ok none
  | .error .overflow => .error .overflow

/-- The size of an element, which has to be known and not zero. -/
def Call.elementSize (call : Call) (element : Ty) (size : Quantity) : Except Fault Nat := do
  match ← size.known? with
  | some (n + 1) => .ok (n + 1)
  | _ => .error (call.fault (.malformed (.unsized element)))

/-- The number of elements that a number of bytes makes up. -/
def Call.elementCount (call : Call) (bytes : Nat) (element : Ty) (size : Nat) : Except Fault Nat :=
  if bytes % size = 0 then call.checkCount (bytes / size)
  else .error (call.fault (.unevenDivision bytes element size))

end KernelIR

import KernelIR.Code.Builder
import KernelIR.Lowering.Reinterpretation
import KernelIR.Lowering.Replacement

/-!
# Zero fills

A fill of `n` bytes with zero becomes a store of a zero value to each element of the destination,
whose type is that of the pointer before any cast.  Fills with another value are not supported.
-/

namespace KernelIR

namespace ZeroFill

/-- A fill: the pointer, what it points to, the cast between the two if there is one, and the
number of elements. -/
structure Fill where
  ptr : Value
  element : Ty
  cast : Option TempId
  count : Nat

/-- Whether filling with the value is filling with zero. -/
def isZero : Value → Bool
  | .const n => n == 0
  | .zero ty => ty.isInt
  | _ => false

/-- The pointer to fill, its pointee, and the cast in front of it. -/
def destination (m : Module) (call : Call) : Except Fault (Value × Ty × Option TempId) := do
  let dest ← call.arg 0
  match m.reinterpretation? call.caller dest with
  | some r => .ok (r.source, r.pointee, some r.cast)
  | none =>
    match m.valueType? call.caller dest with
    | none => .error (call.fault (.malformed .untypedDestination))
    | some (.ptr element) => .ok (dest, element, none)
    | some _ => .error (call.fault (.missingCast 0))

/-- Reads a call as a fill. -/
def ofCall (m : Module) (call : Call) : Except Fault Fill := do
  let fill ← call.arg 1
  if isZero fill then
    let bytes ← call.constArg 2
    let (ptr, element, cast) ← destination m call
    let size ← call.elementSize element (m.layout.allocSize element)
    let count ← call.elementCount bytes element size
    return ⟨ptr, element, cast, count⟩
  else .error (call.fault (.unsupportedFill fill))

/-- Builds the store to element `i`. -/
def buildStore (f : Fill) (i : Nat) : Build Unit := do
  let slot ← Build.elementPtr f.ptr [.ofCount i] (.ptr f.element)
  Build.store (.zero f.element) slot

/-- Builds the code of a fill. -/
def build (f : Fill) : Build Unit := Build.forEach (buildStore f) 0 f.count

/-- What takes the place of a fill. -/
def replace (m : Module) (call : Call) : Traced Fault Replacement := do
  let f ← .ofExcept (ofCall m call)
  Traced.report [.zeroStores f.count f.element]
  match (build f).runIn? call.caller with
  | some (_, code) => pure { code, casts := f.cast.toList }
  | none => .ofExcept (.error .overflow)

end ZeroFill

/-- Replaces every fill by stores of zero. -/
def Lowering.zeroFill : Lowering where
  family := .blockFill
  replace := ZeroFill.replace

end KernelIR

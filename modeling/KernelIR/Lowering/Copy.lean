import KernelIR.Code.Builder
import KernelIR.Lowering.Reinterpretation
import KernelIR.Lowering.Replacement
import KernelIR.Lowering.TypeMatch

/-!
# Block copies

The target copies one object at a time, by a function whose name is a base name followed by the
type of the pointer.  A copy of `n` bytes becomes a call to that function for each element, where
the element is the type that destination and source unpack to.
-/

namespace KernelIR

namespace BlockCopy

/-- A copy as the program asks for it. -/
structure Request where
  dest : Reinterpretation
  src : Reinterpretation
  bytes : Nat
  isVolatile : Nat

/-- A copy element by element. -/
structure Copy where
  request : Request
  shape : TypeMatch
  align : Nat
  count : Nat

/-- An operand that has to be a cast between pointer types. -/
def pointerArg (m : Module) (call : Call) (i : Nat) : Except Fault Reinterpretation := do
  let v ← call.arg i
  match m.reinterpretation? call.caller v with
  | some r => .ok r
  | none => .error (call.fault (.missingCast i))

/-- Reads a call as a copy. -/
def ofCall (m : Module) (call : Call) : Except Fault Request := do
  let dest ← pointerArg m call 0
  let src ← pointerArg m call 1
  let bytes ← call.constArg 2
  let isVolatile ← call.constArg 3
  return ⟨dest, src, bytes, isVolatile⟩

/-- The fault of a call whose types have no match. -/
def shapeFault (call : Call) : MatchFault → Fault
  | .stuck dest src => call.fault (.unsupportedShape dest src)
  | .overflow => .overflow

/-- The alignment of the element, 1 when it has none. -/
def requiredAlign (layout : DataLayout) (element : Ty) : Except Fault Nat := do
  return (← (layout.abiAlign element).known?).getD 1

/-- The alignment that the call promises has to be enough for the element. -/
def checkAlign (call : Call) (element : Ty) (align required : Nat) : Except Fault Unit :=
  if align < required ∨ align % required ≠ 0 then
    .error (call.fault (.misaligned align element required))
  else .ok ()

/-- Divides a copy into elements. -/
def divide (layout : DataLayout) (call : Call) (r : Request) (shape : TypeMatch) :
    Except Fault Copy := do
  let element := shape.element
  let size ← call.elementSize element ((· / 8) <$> layout.sizeInBits element)
  if r.bytes % size = 0 then
    let align := (call.align.getD 1).toNat
    let required ← requiredAlign layout element
    checkAlign call element align required
    let count ← call.checkCount (r.bytes / size)
    return ⟨r, shape, align, count⟩
  else .error (call.fault (.unevenDivision r.bytes element size))

/-- The function that copies one element. -/
def primitive (base : String) (element : Ty) : Function :=
  let ptr := Ty.ptr element
  .declare (base ++ "." ++ ptr.mangle) .void [ptr, ptr, .int 32, .int 32]

/-- The indices of element `i` below a pointer whose type was unpacked `depth` times. -/
def indices (depth i : Nat) : List Value := List.replicate depth (.ofCount 0) ++ [.ofCount i]

/-- Builds the call that copies one element. -/
def buildCall (base : String) (c : Copy) (dest src : Value) : Build Unit := do
  let function := Value.function (primitive base c.shape.element).name
  let args := [dest, src, .ofCount c.align, .ofCount c.request.isVolatile]
  let _ ← Build.call function args .void none

/-- Whether the copy is of one whole object. -/
def Copy.isWhole (c : Copy) : Bool :=
  c.shape.destDepth == 0 && c.shape.srcDepth == 0 && c.count == 1

/-- Builds the copy of element `i`, the address of the source first. -/
def buildElement (base : String) (c : Copy) (i : Nat) : Build Unit := do
  let ptr := Ty.ptr c.shape.element
  let src ← Build.elementPtr c.request.src.source (indices c.shape.srcDepth i) ptr
  let dest ← Build.elementPtr c.request.dest.source (indices c.shape.destDepth i) ptr
  buildCall base c dest src

/-- Builds the code of a copy.  A whole object needs no addresses but those of the request. -/
def build (base : String) (c : Copy) : Build Unit :=
  if c.isWhole then buildCall base c c.request.dest.source c.request.src.source
  else Build.forEach (buildElement base c) 0 c.count

/-- The function for the element, if the module has none of its name. -/
def missing? (m : Module) (f : Function) : Option Function :=
  if (m.function? f.name).isSome then none else some f

/-- What takes the place of a copy. -/
def replace (base : String) (m : Module) (call : Call) : Traced Fault Replacement := do
  let r ← .ofExcept (ofCall m call)
  let casts := [r.dest.cast, r.src.cast]
  if r.bytes = 0 then
    Traced.report [.emptyCopy]
    return { casts }
  else
    let shape ← (matchTypes m.layout r.dest.pointee r.src.pointee r.bytes).mapError
      (shapeFault call)
    let c ← .ofExcept (divide m.layout call r shape)
    Traced.report [.copies c.count shape.element shape.destDepth shape.srcDepth]
    match (build base c).runIn? call.caller with
    | some (_, code) =>
      return { code, declared := missing? m (primitive base shape.element), casts }
    | none => .ofExcept (.error .overflow)

end BlockCopy

/-- Replaces every copy by calls to the functions of the given base name. -/
def Lowering.blockCopy (base : String) : Lowering where
  family := .blockCopy
  replace := BlockCopy.replace base

end KernelIR

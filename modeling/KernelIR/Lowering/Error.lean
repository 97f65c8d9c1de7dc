import KernelIR.Intrinsic.Site

/-!
# Why a lowering fails

A `LoweringError` is a call that the target cannot express; `LoweringError.message` is its text.
A `Fault` is an error or the end of the machine's words.
-/

namespace KernelIR

/-- What is wrong with the form of a call. -/
inductive Malformation where
  /-- A funnel shift that has not three operands. -/
  | operandCount (found : Nat)
  | operandType (operand : Nat) (found expected : Ty)
  | missingOperand (operand : Nat)
  | untypedDestination
  /-- An element that takes no room. -/
  | unsized (element : Ty)
  | notACall (found : Instruction)
  deriving DecidableEq

/-- What keeps a call from being lowered. -/
inductive Obstacle where
  | unsupportedWidth (ty : Ty)
  | unsupportedFill (value : Value)
  | unevenDivision (bytes : Nat) (element : Ty) (elementSize : Nat)
  /-- Two types that unpack to nothing in common, as far as they were unpacked. -/
  | unsupportedShape (dest src : Ty)
  | misaligned (align : Nat) (element : Ty) (required : Nat)
  | missingCast (operand : Nat)
  | nonConstant (operand : Nat) (value : Value)
  | tooManyElements (count : Nat)
  | malformed (cause : Malformation)
  deriving DecidableEq

/-- Why lowering a module fails. -/
inductive LoweringError where
  /-- A call to `callee` in `caller` that cannot be lowered. -/
  | call (caller callee : String) (obstacle : Obstacle)
  /-- A name of a family that is still there in the end. -/
  | residual (name : String)
  deriving DecidableEq

/-- What stops a lowering. -/
inductive Fault where
  | error (e : LoweringError)
  /-- A size leaves 64 bits, or the counter of temporaries 32. -/
  | overflow
  /-- There is no instruction at a site. -/
  | lostSite
  deriving DecidableEq

namespace Malformation

def message : Malformation → String
  | .operandCount found => s!"expected 3 operands, found {found}"
  | .operandType operand found expected =>
    s!"operand {operand} has type {found}, expected {expected}"
  | .missingOperand operand => s!"missing operand {operand}"
  | .untypedDestination => "destination has no type"
  | .unsized element => s!"{element} has no size"
  | .notACall found => s!"expected a call, found '{found}'"

end Malformation

namespace Obstacle

/-- The text of an obstacle, given where it stands: `call to 'f' in 'g'`. -/
def message (place : String) : Obstacle → String
  | .unsupportedWidth ty => s!"Invalid integer width {ty} in {place}"
  | .unsupportedFill value => s!"Unhandled {place} with non-zero fill value {value}"
  | .unevenDivision bytes element size =>
    s!"{bytes} bytes in {place} can't be divided evenly into {element} elements of {size} bytes"
  | .unsupportedShape dest src =>
    s!"Don't know how to unpack types for {place}: got to {dest} vs {src}"
  | .misaligned align element required =>
    s!"Alignment {align} of {place} is not a multiple of the {required}-byte alignment of {element}"
  | .missingCast operand =>
    s!"Operand {operand} of {place} is not a pointer reinterpretation cast"
  | .nonConstant operand value =>
    s!"Operand {operand} of {place} must be an integer constant, got {value}"
  | .tooManyElements count =>
    s!"{count} elements in {place} do not fit a 32-bit element index"
  | .malformed cause => s!"Malformed {place}: {cause.message}"

end Obstacle

namespace LoweringError

/-- The text of an error. -/
def message : LoweringError → String
  | .call caller callee obstacle => obstacle.message s!"call to '{callee}' in '{caller}'"
  | .residual name => s!"'{name}' is still referenced after intrinsic lowering"

end LoweringError

namespace Call

/-- The fault of a call that cannot be lowered. -/
def fault (call : Call) (obstacle : Obstacle) : Fault :=
  .error (.call call.caller.name call.callee obstacle)

/-- An operand of the call. -/
def arg (call : Call) (i : Nat) : Except Fault Value :=
  match call.args[i]? with
  | some v => .ok v
  | none => .error (call.fault (.malformed (.missingOperand i)))

/-- An operand of the call that has to be a constant and not negative. -/
def constArg (call : Call) (i : Nat) : Except Fault Nat := do
  let v ← call.arg i
  match v.count? with
  | some n => .ok n
  | none => .error (call.fault (.nonConstant i v))

/-- A number of elements has to fit a 32-bit index. -/
def checkCount (call : Call) (n : Nat) : Except Fault Nat :=
  if n < UInt32.size then .ok n else .error (call.fault (.tooManyElements n))

end Call

/-- Reads the call at a site. -/
def Module.callAt (m : Module) (s : Site) : Except Fault Call :=
  match m.functionAt? s, m.instructionAt? s with
  | some f, some (.call result function args ty align) =>
    .ok ⟨s, f, function.function?.getD "", result, args, ty, align⟩
  | some f, some i => .error (.error (.call f.name "" (.malformed (.notACall i))))
  | _, _ => .error .lostSite

end KernelIR

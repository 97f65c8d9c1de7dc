import KernelIR.Code.Builder
import KernelIR.Lowering.Replacement

/-!
# Funnel shifts

A funnel shift of `hi`, `lo` by `s` sets the two words side by side, shifts them left by `s`
modulo the width and keeps the upper word.  The target has no such instruction, so a call becomes

    %amount = and  T s, w-1
    %down   = sub  T w, %amount
    %high   = shl  T hi, %amount
    %low    = lshr T lo, %down
    %result = or   T %low, %high
-/

namespace KernelIR

namespace FunnelShift

/-- The widths that the target can shift. -/
def widths : List UInt32 := [8, 16, 32, 64]

/-- The operands of a funnel shift and their width. -/
structure Shift where
  width : UInt32
  hi : Value
  lo : Value
  amount : Value

/-- The first operand, counted from `i`, that has a type other than `ty`, with the type it has.
Integers have no type of their own and take the type of the call. -/
def mistyped? (m : Module) (caller : Function) (ty : Ty) : Nat → List Value → Option (Nat × Ty)
  | _, [] => none
  | i, v :: vs =>
    match m.valueType? caller v with
    | some found => if found = ty then mistyped? m caller ty (i + 1) vs else some (i, found)
    | none => mistyped? m caller ty (i + 1) vs

/-- Reads a call as a funnel shift. -/
def ofCall (m : Module) (call : Call) : Except Fault Shift :=
  match call.ty.intBits? with
  | some width =>
    if width ∈ widths then
      match call.args with
      | [hi, lo, amount] =>
        match mistyped? m call.caller call.ty 0 call.args with
        | some (i, found) =>
          .error (call.fault (.malformed (.operandType i found call.ty)))
        | none => .ok ⟨width, hi, lo, amount⟩
      | args => .error (call.fault (.malformed (.operandCount args.length)))
    else .error (call.fault (.unsupportedWidth call.ty))
  | none => .error (call.fault (.unsupportedWidth call.ty))

/-- Builds the code of a shift.  The answer is the temporary that holds the result. -/
def build (s : Shift) : Build TempId := do
  let ty := Ty.int s.width
  let w := s.width.toNat
  let amount ← Build.binary .and s.amount (.ofCount (w - 1)) ty
  let down ← Build.binary .sub (.ofCount w) (.temp amount) ty
  let high ← Build.binary .shl s.hi (.temp amount) ty
  let low ← Build.binary .lshr s.lo (.temp down) ty
  Build.binary .or (.temp low) (.temp high) ty

/-- What takes the place of a funnel shift. -/
def replace (m : Module) (call : Call) : Except Fault Replacement := do
  let s ← ofCall m call
  match (build s).runIn? call.caller with
  | some (result, code) => .ok { code, renamed := call.result.map (·, result) }
  | none => .error .overflow

end FunnelShift

/-- Replaces every funnel shift by shifts of single words. -/
def Lowering.funnelShift : Lowering where
  family := .funnelShift
  replace m call := .ofExcept (FunnelShift.replace m call)

end KernelIR

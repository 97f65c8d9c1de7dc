/-!
# Integer operations

`BinOp.fold` is the value of an operation on constants of a given width.  Operands and result are
64-bit words cut down to the width; widths above 64 count as 64 except for the bound on shifts.
-/

namespace KernelIR

/-- An operation on two integers of one width. -/
inductive BinOp where
  | add | sub | mul | udiv | urem | and | or | xor | shl | lshr
  deriving DecidableEq

/-- Why an operation on constants has no value. -/
inductive FoldFault where
  /-- Division or remainder by zero. -/
  | divisionByZero
  /-- A shift below the operand's width, but of 64 or more. -/
  | shiftTooFar
  deriving DecidableEq

namespace BinOp

/-- All operations. -/
def all : List BinOp := [.add, .sub, .mul, .udiv, .urem, .and, .or, .xor, .shl, .lshr]

/-- The printed form. -/
def render : BinOp → String
  | .add => "add"
  | .sub => "sub"
  | .mul => "mul"
  | .udiv => "udiv"
  | .urem => "urem"
  | .and => "and"
  | .or => "or"
  | .xor => "xor"
  | .shl => "shl"
  | .lshr => "lshr"

instance : ToString BinOp := ⟨render⟩

/-- The word whose lowest `bits` bits are set. -/
def mask (bits : UInt32) : UInt64 :=
  if 64 ≤ bits then 0xFFFFFFFFFFFFFFFF else (1 <<< bits.toUInt64) - 1

/-- A shift by an amount that is cut to the width: zero from the width on. -/
def shift (bits : UInt32) (move : UInt64 → UInt64) (amount : UInt64) : Except FoldFault UInt64 :=
  if bits.toUInt64 ≤ amount then .ok 0
  else if 64 ≤ amount then .error .shiftTooFar
  else .ok (move amount)

/-- The operation on two words that are cut to the width already; the result is not. -/
def apply (op : BinOp) (bits : UInt32) (a b : UInt64) : Except FoldFault UInt64 :=
  match op with
  | .add => .ok (a + b)
  | .sub => .ok (a - b)
  | .mul => .ok (a * b)
  | .udiv => if b = 0 then .error .divisionByZero else .ok (a / b)
  | .urem => if b = 0 then .error .divisionByZero else .ok (a % b)
  | .and => .ok (a &&& b)
  | .or => .ok (a ||| b)
  | .xor => .ok (a ^^^ b)
  | .shl => shift bits (a <<< ·) b
  | .lshr => shift bits (a >>> ·) b

/-- The value of the operation on constants of the given width. -/
def fold (op : BinOp) (bits : UInt32) (lhs rhs : UInt64) : Except FoldFault UInt64 := do
  let value ← op.apply bits (lhs &&& mask bits) (rhs &&& mask bits)
  return value &&& mask bits

end BinOp

end KernelIR

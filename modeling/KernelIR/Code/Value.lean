import KernelIR.Ty.Text

/-!
# Values

The operands of instructions.
-/

namespace KernelIR

/-- The number of a temporary. -/
abbrev TempId := UInt32

/-- The number of a basic block. -/
abbrev LabelId := UInt32

/-- An operand. -/
inductive Value where
  /-- A parameter or the result of an instruction. -/
  | temp (id : TempId)
  /-- An integer.  It has no type of its own. -/
  | const (n : Int64)
  /-- The value of a type whose bits are all zero. -/
  | zero (ty : Ty)
  /-- The address of a global variable. -/
  | global (name : String)
  /-- The address of a function. -/
  | function (name : String)
  | undef
  deriving DecidableEq

namespace Value

/-- The temporary that the value reads. -/
def temp? : Value → Option TempId
  | .temp id => some id
  | _ => none

/-- The integer that the value is. -/
def const? : Value → Option Int64
  | .const n => some n
  | _ => none

/-- The function whose address the value is. -/
def function? : Value → Option String
  | .function name => some name
  | _ => none

/-- The value as a count: an integer constant that is not negative. -/
def count? (v : Value) : Option Nat := do
  let n ← v.const?
  if 0 ≤ n.toInt then some n.toInt.toNat else none

/-- A count as a constant operand: its lowest 64 bits, read as a signed word. -/
def ofCount (n : Nat) : Value := .const (Int64.ofNat n)

/-- Puts `new` in the place of the temporary `old`. -/
def subst (old : TempId) (new : Value) (v : Value) : Value :=
  if v = .temp old then new else v

/-- The same as a step of a walk that counts how often it meets `old`. -/
def replaceTemp (old : TempId) (new : Value) (v : Value) : StateM Nat Value := do
  if v = .temp old then
    modify (· + 1)
    return new
  else
    return v

/-- The printed form. -/
def render : Value → String
  | .temp id => "%" ++ toString id
  | .const n => toString n
  | .zero ty => ty.render ++ " zeroinitializer"
  | .global name => "@" ++ name
  | .function name => "@" ++ name
  | .undef => "undef"

instance : ToString Value := ⟨render⟩

@[simp] theorem subst_temp_self (old : TempId) (new : Value) : subst old new (.temp old) = new := by
  simp [subst]

theorem subst_of_ne {old : TempId} {new v : Value} (h : v ≠ .temp old) : subst old new v = v := by
  simp [subst, h]

end Value

end KernelIR

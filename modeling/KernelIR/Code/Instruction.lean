import KernelIR.Code.BinOp
import KernelIR.Code.Value

/-!
# Instructions

`Instruction.operands` lists the values that an instruction reads, in a fixed order.
`Instruction.traverseOperands` walks through them in that order and writes, and
`Instruction.mapOperands` changes them all at once; `operands_mapOperands` says that reading and
changing agree on what an operand is.
-/

namespace KernelIR

/-- An instruction. -/
inductive Instruction where
  | binary (result : TempId) (op : BinOp) (lhs rhs : Value) (ty : Ty)
  | load (result : TempId) (ptr : Value) (ty : Ty)
  | store (value ptr : Value)
  /-- The address of an element.  The first index steps over whole pointees, each further one
  selects a field, an array element or a vector lane. -/
  | elementPtr (result : TempId) (ptr : Value) (indices : List Value) (ty : Ty)
  | alloca (result : TempId) (stored : Ty) (ty : Ty)
  /-- A call; `align` is the alignment promised for its pointer arguments. -/
  | call (result : Option TempId) (function : Value) (args : List Value) (ty : Ty)
    (align : Option UInt64)
  /-- A conversion.  Between two pointer types it keeps the address. -/
  | cast (result : TempId) (value : Value) (ty : Ty)
  | ret (value : Option Value)
  | br (target : LabelId)
  | brCond (condition : Value) (ifTrue ifFalse : LabelId)
  | comment (text : String)
  deriving DecidableEq

namespace Instruction

/-- The temporary that the instruction defines. -/
def result? : Instruction → Option TempId
  | .binary result .. | .load result .. | .elementPtr result .. | .alloca result ..
  | .cast result .. => some result
  | .call result .. => result
  | _ => none

/-- The type of the temporary that the instruction defines. -/
def resultType? : Instruction → Option Ty
  | .binary _ _ _ _ ty | .load _ _ ty | .elementPtr _ _ _ ty | .alloca _ _ ty | .cast _ _ ty
  | .call (some _) _ _ ty _ => some ty
  | _ => none

/-- The name of the function that a direct call calls. -/
def callee? : Instruction → Option String
  | .call _ function .. => function.function?
  | _ => none

/-- The values that the instruction reads. -/
def operands : Instruction → List Value
  | .binary _ _ lhs rhs _ => [lhs, rhs]
  | .load _ ptr _ => [ptr]
  | .store value ptr => [value, ptr]
  | .elementPtr _ ptr indices _ => ptr :: indices
  | .alloca .. => []
  | .call _ function args _ _ => function :: args
  | .cast _ value _ => [value]
  | .ret value => value.toList
  | .br _ => []
  | .brCond condition _ _ => [condition]
  | .comment _ => []

/-- Visits every value that the instruction reads and puts the answer in its place. -/
def traverseOperands {m : Type → Type} [Monad m] (visit : Value → m Value) :
    Instruction → m Instruction
  | .binary result op lhs rhs ty => return .binary result op (← visit lhs) (← visit rhs) ty
  | .load result ptr ty => return .load result (← visit ptr) ty
  | .store value ptr => return .store (← visit value) (← visit ptr)
  | .elementPtr result ptr indices ty =>
    return .elementPtr result (← visit ptr) (← indices.mapM visit) ty
  | .alloca result stored ty => return .alloca result stored ty
  | .call result function args ty align =>
    return .call result (← visit function) (← args.mapM visit) ty align
  | .cast result value ty => return .cast result (← visit value) ty
  | .ret (some value) => return .ret (some (← visit value))
  | .ret none => return .ret none
  | .br target => return .br target
  | .brCond condition ifTrue ifFalse => return .brCond (← visit condition) ifTrue ifFalse
  | .comment text => return .comment text

/-- Changes every value that the instruction reads. -/
def mapOperands (f : Value → Value) : Instruction → Instruction
  | .binary result op lhs rhs ty => .binary result op (f lhs) (f rhs) ty
  | .load result ptr ty => .load result (f ptr) ty
  | .store value ptr => .store (f value) (f ptr)
  | .elementPtr result ptr indices ty => .elementPtr result (f ptr) (indices.map f) ty
  | .alloca result stored ty => .alloca result stored ty
  | .call result function args ty align => .call result (f function) (args.map f) ty align
  | .cast result value ty => .cast result (f value) ty
  | .ret value => .ret (value.map f)
  | .br target => .br target
  | .brCond condition ifTrue ifFalse => .brCond (f condition) ifTrue ifFalse
  | .comment text => .comment text

/-- Whether the instruction reads the temporary. -/
def usesTemp (i : Instruction) (t : TempId) : Bool := i.operands.contains (.temp t)

@[simp] theorem operands_mapOperands (f : Value → Value) (i : Instruction) :
    (i.mapOperands f).operands = i.operands.map f := by
  cases i with
  | ret value => cases value <;> rfl
  | _ => rfl

@[simp] theorem result?_mapOperands (f : Value → Value) (i : Instruction) :
    (i.mapOperands f).result? = i.result? := by
  cases i <;> rfl

@[simp] theorem resultType?_mapOperands (f : Value → Value) (i : Instruction) :
    (i.mapOperands f).resultType? = i.resultType? := by
  cases i with
  | call result => cases result <;> rfl
  | _ => rfl

/-! ### Text -/

/-- Several operands, a comma after each but the last. -/
def renderArgs (args : List Value) : String := ", ".intercalate (args.map Value.render)

/-- The printed form. -/
def render : Instruction → String
  | .binary result op lhs rhs ty => s!"%{result} = {op} {ty} {lhs}, {rhs}"
  | .load result ptr ty => s!"%{result} = load {ty}, {ty}* {ptr}"
  | .store value ptr => s!"store {value}, {ptr}"
  | .elementPtr result ptr indices ty =>
    s!"%{result} = getelementptr {renderArgs (ptr :: indices)} ; {ty}"
  | .alloca result stored _ => s!"%{result} = alloca {stored}"
  | .call result function args _ align =>
    let head := match result with
      | some result => s!"%{result} = "
      | none => ""
    let tail := match align with
      | some align => s!" align {align}"
      | none => ""
    s!"{head}call {function}({renderArgs args}){tail}"
  | .cast result value ty => s!"%{result} = cast {value} to {ty}"
  | .ret (some value) => s!"ret {value}"
  | .ret none => "ret void"
  | .br target => s!"br label %{target}"
  | .brCond condition ifTrue ifFalse =>
    s!"br {condition}, label %{ifTrue}, label %{ifFalse}"
  | .comment text => s!"; {text}"

instance : ToString Instruction := ⟨render⟩

end Instruction

end KernelIR

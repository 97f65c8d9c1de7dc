import KernelIR.Code.Instruction
import KernelIR.Codec.Basic
import KernelIR.Ty.Layout

/-!
# Types, values and instructions as JSON
-/

namespace KernelIR

open Json (tag)
open Json.Field (required nullable defaulted)

/-! ### Types -/

namespace Ty

mutual

/-- A type as JSON. -/
def toJson : Ty → Json
  | .void => .str "Void"
  | .int bits => tag "Int" (encode bits)
  | .ptr t => tag "Ptr" t.toJson
  | .array size t => tag "Array" (.obj [("size", encode size), ("element_type", t.toJson)])
  | .vector lanes t => tag "Vector" (.obj [("lanes", encode lanes), ("element_type", t.toJson)])
  | .function result params variadic =>
    tag "Function" (.obj [("return_type", result.toJson), ("param_types", .arr (listToJson params)),
      ("is_vararg", encode variadic)])
  | .struct name fields packed =>
    tag "Struct" (.obj [("name", encode name), ("fields", .arr (listToJson fields)),
      ("packed", encode packed)])

/-- Several types as JSON. -/
def listToJson : List Ty → List Json
  | [] => []
  | t :: ts => t.toJson :: listToJson ts

end

/-- Reads what a variant holds, given how the types inside are read. -/
def ofTagged? (ty? : Nat → Json → Option Ty) (budget : Nat) (name : String) (body : Json) :
    Option Ty :=
  match name with
  | "Int" => .int <$> decode? budget body
  | "Ptr" => .ptr <$> ty? budget body
  | "Array" => do
    let inner ← Json.open? budget
    let [size, element] ← body.fields? [required "size", required "element_type"] | none
    return .array (← decode? inner size) (← ty? inner element)
  | "Vector" => do
    let inner ← Json.open? budget
    let [lanes, element] ← body.fields? [required "lanes", required "element_type"] | none
    return .vector (← decode? inner lanes) (← ty? inner element)
  | "Function" => do
    let inner ← Json.open? budget
    let [result, params, variadic] ← body.fields? [required "return_type",
      required "param_types", required "is_vararg"] | none
    return .function (← ty? inner result) (← Json.list? ty? inner params) (← decode? inner variadic)
  | "Struct" => do
    let inner ← Json.open? budget
    let [name, fields, packed] ← body.fields? [nullable "name", required "fields",
      required "packed"] | none
    return .struct (← decode? inner name) (← Json.list? ty? inner fields) (← decode? inner packed)
  | _ => none

/-- Reads a type in which at most `level` types stand inside one another. -/
def ofJsonTo? : (level budget : Nat) → Json → Option Ty
  | 0, budget, j => if j.unit? budget = some "Void" then some .void else none
  | level + 1, budget, j =>
    if j.unit? budget = some "Void" then some .void
    else do
      let (name, body, inner) ← j.tagged? budget
      ofTagged? (ofJsonTo? level) inner name body

/-- Reads a type, opening at most the given number of nested brackets.  Each type inside another
takes a bracket at least, so that number bounds the types as well. -/
def ofJson? (budget : Nat) (j : Json) : Option Ty := ofJsonTo? budget budget j

instance : Codec Ty := ⟨toJson, ofJson?⟩

end Ty

instance : Codec DataLayout where
  encode l := .obj [("pointer_size_bits", encode l.pointerBits)]
  decode? budget j := do
    let inner ← Json.open? budget
    let [bits] ← j.fields? [required "pointer_size_bits"] | none
    return ⟨← decode? inner bits⟩

/-! ### Values -/

namespace Value

/-- A value as JSON. -/
def toJson : Value → Json
  | .temp id => tag "Temp" (encode id)
  | .const n => tag "Constant" (encode n)
  | .zero ty => tag "Zero" (encode ty)
  | .global name => tag "Global" (encode name)
  | .function name => tag "Function" (encode name)
  | .undef => .str "Undef"

/-- Reads a value. -/
def ofJson? (budget : Nat) (j : Json) : Option Value :=
  if j.unit? budget = some "Undef" then some .undef
  else do
    let (name, body, inner) ← j.tagged? budget
    match name with
    | "Temp" => .temp <$> decode? inner body
    | "Constant" => .const <$> decode? inner body
    | "Zero" => .zero <$> decode? inner body
    | "Global" => .global <$> decode? inner body
    | "Function" => .function <$> decode? inner body
    | _ => none

instance : Codec Value := ⟨toJson, ofJson?⟩

end Value

/-! ### Instructions -/

namespace BinOp

/-- The name of an operation. -/
def name : BinOp → String
  | .add => "Add"
  | .sub => "Sub"
  | .mul => "Mul"
  | .udiv => "UDiv"
  | .urem => "URem"
  | .and => "And"
  | .or => "Or"
  | .xor => "Xor"
  | .shl => "Shl"
  | .lshr => "LShr"

instance : Codec BinOp where
  encode op := .str op.name
  decode? budget j := do
    let name ← j.unit? budget
    all.find? (·.name == name)

end BinOp

namespace Instruction

/-- An instruction as JSON. -/
def toJson : Instruction → Json
  | .binary result op lhs rhs ty =>
    tag "Binary" (.obj [("result", encode result), ("op", encode op), ("lhs", encode lhs),
      ("rhs", encode rhs), ("result_type", encode ty)])
  | .load result ptr ty =>
    tag "Load" (.obj [("result", encode result), ("ptr", encode ptr), ("result_type", encode ty)])
  | .store value ptr => tag "Store" (.obj [("value", encode value), ("ptr", encode ptr)])
  | .elementPtr result ptr indices ty =>
    tag "GetElementPtr" (.obj [("result", encode result), ("ptr", encode ptr),
      ("indices", encode indices), ("result_type", encode ty)])
  | .alloca result stored ty =>
    tag "Alloca" (.obj [("result", encode result), ("alloc_type", encode stored),
      ("result_type", encode ty)])
  | .call result function args ty align =>
    tag "Call" (.obj [("result", encode result), ("function", encode function),
      ("args", encode args), ("result_type", encode ty), ("align", encode align)])
  | .cast result value ty =>
    tag "Cast" (.obj [("result", encode result), ("value", encode value),
      ("target_type", encode ty)])
  | .ret value => tag "Return" (encode value)
  | .br target => tag "Branch" (encode target)
  | .brCond condition ifTrue ifFalse =>
    tag "BranchCond" (.obj [("condition", encode condition), ("true_label", encode ifTrue),
      ("false_label", encode ifFalse)])
  | .comment text => tag "Comment" (encode text)

/-- Reads an instruction that is written as a record, given its name and its fields. -/
def ofRecord? (budget : Nat) (name : String) (body : Json) : Option Instruction := do
  let inner ← Json.open? budget
  match name with
  | "Binary" =>
    let [result, op, lhs, rhs, ty] ← body.fields? [required "result", required "op",
      required "lhs", required "rhs", required "result_type"] | none
    return .binary (← decode? inner result) (← decode? inner op) (← decode? inner lhs)
      (← decode? inner rhs) (← decode? inner ty)
  | "Load" =>
    let [result, ptr, ty] ← body.fields? [required "result", required "ptr",
      required "result_type"] | none
    return .load (← decode? inner result) (← decode? inner ptr) (← decode? inner ty)
  | "Store" =>
    let [value, ptr] ← body.fields? [required "value", required "ptr"] | none
    return .store (← decode? inner value) (← decode? inner ptr)
  | "GetElementPtr" =>
    let [result, ptr, indices, ty] ← body.fields? [required "result", required "ptr",
      required "indices", required "result_type"] | none
    return .elementPtr (← decode? inner result) (← decode? inner ptr) (← decode? inner indices)
      (← decode? inner ty)
  | "Alloca" =>
    let [result, stored, ty] ← body.fields? [required "result", required "alloc_type",
      required "result_type"] | none
    return .alloca (← decode? inner result) (← decode? inner stored) (← decode? inner ty)
  | "Call" =>
    let [result, function, args, ty, align] ← body.fields? [nullable "result",
      required "function", required "args", required "result_type", defaulted "align" .null] | none
    return .call (← decode? inner result) (← decode? inner function) (← decode? inner args)
      (← decode? inner ty) (← decode? inner align)
  | "Cast" =>
    let [result, value, ty] ← body.fields? [required "result", required "value",
      required "target_type"] | none
    return .cast (← decode? inner result) (← decode? inner value) (← decode? inner ty)
  | "BranchCond" =>
    let [condition, ifTrue, ifFalse] ← body.fields? [required "condition", required "true_label",
      required "false_label"] | none
    return .brCond (← decode? inner condition) (← decode? inner ifTrue) (← decode? inner ifFalse)
  | _ => none

/-- Reads an instruction. -/
def ofJson? (budget : Nat) (j : Json) : Option Instruction := do
  let (name, body, inner) ← j.tagged? budget
  match name with
  | "Return" => .ret <$> decode? inner body
  | "Branch" => .br <$> decode? inner body
  | "Comment" => .comment <$> decode? inner body
  | name => ofRecord? inner name body

instance : Codec Instruction := ⟨toJson, ofJson?⟩

end Instruction

end KernelIR

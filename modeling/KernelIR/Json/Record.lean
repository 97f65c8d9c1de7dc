import KernelIR.Json.Basic

/-!
# Records and variants in JSON

A record is an object with known keys, or an array of its fields in order.  A variant is its name
alone, or an object whose only key is its name.  Reading opens brackets, and a reader is told how
many it may still open.
-/

namespace KernelIR.Json

/-- A field of a record. -/
structure Field where
  name : String
  /-- What stands for the field in an object without it. -/
  absent : Option Json := none
  /-- Whether an array may end before the field. -/
  mayEnd : Bool := false

namespace Field

/-- A field that is always there. -/
def required (name : String) : Field := { name }

/-- A field that is `null` in an object without it. -/
def nullable (name : String) : Field := { name, absent := some .null }

/-- A field that has a default wherever it is left out. -/
def defaulted (name : String) (default : Json) : Field :=
  { name, absent := some default, mayEnd := true }

/-- The value of the field in an object, which may name it only once. -/
def lookup (f : Field) (members : List (String × Json)) : Option Json :=
  match members.filter (·.1 == f.name) with
  | [] => f.absent
  | [(_, j)] => some j
  | _ => none

end Field

/-- The fields of a record, from an object.  Members with other keys do not matter. -/
def named? (members : List (String × Json)) : List Field → Option (List Json)
  | [] => some []
  | f :: fs => do
    let j ← f.lookup members
    return j :: (← named? members fs)

/-- The fields of a record, from an array. -/
def positional? : List Field → List Json → Option (List Json)
  | [], [] => some []
  | [], _ :: _ => none
  | f :: fs, [] => do
    let j ← if f.mayEnd then f.absent else none
    return j :: (← positional? fs [])
  | _ :: fs, j :: js => do return j :: (← positional? fs js)

/-- The fields of a record. -/
def fields? (fields : List Field) : Json → Option (List Json)
  | .obj members => named? members fields
  | .arr items => positional? fields items
  | _ => none

/-- Opens a bracket: the number that may still be opened after it. -/
def open? : Nat → Option Nat
  | 0 => none
  | budget + 1 => some budget

/-- Reads the items of an array, opening its bracket. -/
def list? {α : Type} (item? : Nat → Json → Option α) : Nat → Json → Option (List α)
  | budget + 1, .arr items => items.mapM (item? budget)
  | _, _ => none

/-- The name of a variant that holds nothing. -/
def unit? : Nat → Json → Option String
  | _, .str name => some name
  | _ + 1, .obj [(name, .null)] => some name
  | _, _ => none

/-- The name of a variant, what it holds, and the brackets that may be opened there. -/
def tagged? : Nat → Json → Option (String × Json × Nat)
  | budget + 1, .obj [(name, body)] => some (name, body, budget)
  | _, _ => none

/-- The value of a variant that holds something. -/
def tag (name : String) (body : Json) : Json := .obj [(name, body)]

end KernelIR.Json

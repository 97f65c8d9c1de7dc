import KernelIR.Program.Function
import KernelIR.Ty.Layout

/-!
# Modules

A module is a compilation unit: functions and global variables in the order they were added, and
the layout of the target.  Names need not be unique; a look-up finds the first.
-/

namespace KernelIR

/-- Who can see a global variable. -/
inductive Linkage where
  /-- Visible to other modules. -/
  | external
  /-- Visible in its own module only. -/
  | internal
  deriving DecidableEq

/-- A global variable. -/
structure Global where
  name : String
  ty : Ty
  isConstant : Bool
  init : Option Value
  linkage : Linkage
  deriving DecidableEq

/-- A compilation unit. -/
structure Module where
  name : String
  functions : List Function := []
  globals : List Global := []
  layout : DataLayout := {}
  deriving DecidableEq

namespace Module

/-- The first function of the name. -/
def function? (m : Module) (name : String) : Option Function :=
  m.functions.find? (·.name == name)

/-- The first global variable of the name. -/
def global? (m : Module) (name : String) : Option Global :=
  m.globals.find? (·.name == name)

/-- Adds a function after all others. -/
def addFunction (m : Module) (f : Function) : Module :=
  { m with functions := m.functions ++ [f] }

/-- Adds a global variable after all others. -/
def addGlobal (m : Module) (g : Global) : Module :=
  { m with globals := m.globals ++ [g] }

/-- Removes the first function of the name. -/
def eraseFunction (m : Module) (name : String) : Module :=
  { m with functions := m.functions.eraseP (·.name == name) }

/-- Changes the function at a position. -/
def modifyFunction (m : Module) (i : Nat) (g : Function → Function) : Module :=
  { m with functions := m.functions.modify i g }

/-- The type of a value as seen inside `f`.  A global variable is a pointer to its storage;
integers and `undef` have no type of their own. -/
def valueType? (m : Module) (f : Function) : Value → Option Ty
  | .temp t => f.tempType? t
  | .zero ty => some ty
  | .global name => (m.global? name).map fun g => .ptr g.ty
  | .function name => (m.function? name).map fun g => .ptr g.ty
  | .const _ => none
  | .undef => none

/-- The number of direct calls to the name. -/
def callCount (m : Module) (name : String) : Nat :=
  (m.functions.flatMap (·.instructions)).countP (·.callee? == some name)

/-! ### Text -/

/-- The line of a global variable. -/
def renderGlobal (g : Global) : String :=
  let kind := if g.isConstant then "constant" else "global"
  let init := match g.init with
    | some v => s!" {v}"
    | none => ""
  s!"@{g.name} = {kind} {g.ty}{init}\n"

/-- The printed form: a title line, the global variables, the functions. -/
def render (m : Module) : String :=
  s!"; module {m.name}\n" ++ String.join (m.globals.map renderGlobal) ++
    String.join (m.functions.map Function.render)

instance : ToString Module := ⟨render⟩

end Module

end KernelIR

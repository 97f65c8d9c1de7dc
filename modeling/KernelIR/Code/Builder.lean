import KernelIR.Program.Function

/-!
# Building straight-line code

A `Builder` hands out fresh temporaries and collects instructions.  Its operations live in
`Build`, where a run has no result once the counter of temporaries leaves 32 bits; the
instruction in question is then not collected.
-/

namespace KernelIR

/-- A counter of temporaries and the instructions built so far. -/
structure Builder where
  next : TempId
  code : Array Instruction := #[]

/-- A computation that builds code. -/
abbrev Build := StateT Builder Option

namespace Builder

/-- A builder whose temporaries are free in `f`. -/
def forFunction? (f : Function) : Option Builder :=
  (f.reserve? 0).map fun n => { next := UInt32.ofNat n }

/-- The code as a basic block. -/
def toBlock (b : Builder) (id : LabelId) : Block := ⟨id, b.code.toList⟩

end Builder

namespace Build

/-- Takes the next temporary.  The last number of all is never handed out. -/
def fresh : Build TempId := fun b =>
  if b.next.toNat + 1 < UInt32.size then some (b.next, { b with next := b.next + 1 }) else none

/-- Appends an instruction. -/
def emit (i : Instruction) : Build Unit :=
  modify fun b => { b with code := b.code.push i }

/-- Appends an instruction that defines a fresh temporary. -/
def define (i : TempId → Instruction) : Build TempId := do
  let t ← fresh
  emit (i t)
  return t

def binary (op : BinOp) (lhs rhs : Value) (ty : Ty) : Build TempId :=
  define fun t => .binary t op lhs rhs ty

def load (ptr : Value) (ty : Ty) : Build TempId :=
  define fun t => .load t ptr ty

def store (value ptr : Value) : Build Unit :=
  emit (.store value ptr)

/-- The result is a pointer to the allocated type. -/
def alloca (ty : Ty) : Build Value :=
  .temp <$> define fun t => .alloca t ty (.ptr ty)

def cast (value : Value) (ty : Ty) : Build Value :=
  .temp <$> define fun t => .cast t value ty

/-- The type is that of the pointer to the element. -/
def elementPtr (ptr : Value) (indices : List Value) (ty : Ty) : Build Value :=
  .temp <$> define fun t => .elementPtr t ptr indices ty

/-- A call defines a temporary unless its type is `void`. -/
def call (function : Value) (args : List Value) (ty : Ty) (align : Option UInt64) :
    Build (Option TempId) :=
  match ty with
  | .void => do
    emit (.call none function args .void align)
    return none
  | ty => some <$> define fun t => .call (some t) function args ty align

def ret (value : Option Value) : Build Unit :=
  emit (.ret value)

/-- Builds something for each of the numbers from `i` on, one after the other. -/
def forEach (f : Nat → Build Unit) (i : Nat) : (count : Nat) → Build Unit
  | 0 => return
  | count + 1 => do
    f i
    forEach f (i + 1) count

/-- Builds code with temporaries that are free in `f`.  The answer is that of the computation, and
the code. -/
def runIn? {α : Type} (x : Build α) (f : Function) : Option (α × List Instruction) := do
  let (a, b) ← x.run (← Builder.forFunction? f)
  return (a, b.code.toList)

end Build

end KernelIR

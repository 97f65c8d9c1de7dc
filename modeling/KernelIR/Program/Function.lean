import KernelIR.Code.Instruction

/-!
# Functions

A function is a signature with a list of basic blocks.  The questions here are about the
temporaries of a function: where each is defined, what type it has, who reads it, and which
numbers are free.
-/

namespace KernelIR

/-- A labelled list of instructions. -/
structure Block where
  id : LabelId
  instructions : List Instruction
  deriving DecidableEq

/-- A function.  Without blocks, and `external`, it is a declaration. -/
structure Function where
  name : String
  returnType : Ty
  params : List (TempId × Ty) := []
  blocks : List Block := []
  external : Bool := false
  variadic : Bool := false
  deriving DecidableEq

namespace Function

/-- The blocks without the first instruction that defines the temporary. -/
def eraseDefIn (t : TempId) : List Block → List Block
  | [] => []
  | b :: bs =>
    if b.instructions.any (·.result? == some t) then
      { b with instructions := b.instructions.eraseP (·.result? == some t) } :: bs
    else b :: eraseDefIn t bs

/-- An external function whose parameters are numbered from zero. -/
def declare (name : String) (returnType : Ty) (params : List Ty) : Function where
  name := name
  returnType := returnType
  params := params.zipIdx.map fun (ty, i) => (UInt32.ofNat i, ty)
  external := true

/-- Adds a parameter after all others. -/
def addParam (f : Function) (t : TempId) (ty : Ty) : Function :=
  { f with params := f.params ++ [(t, ty)] }

/-- Adds a block after all others. -/
def addBlock (f : Function) (b : Block) : Function := { f with blocks := f.blocks ++ [b] }

/-- Whether the function has no body. -/
def isDeclaration (f : Function) : Bool := f.external && f.blocks.isEmpty

/-- The type of the function itself. -/
def ty (f : Function) : Ty := .function f.returnType (f.params.map (·.2)) f.variadic

/-- The instructions, block after block. -/
def instructions (f : Function) : List Instruction := f.blocks.flatMap (·.instructions)

/-- The first instruction that defines the temporary. -/
def findDef? (f : Function) (t : TempId) : Option Instruction :=
  f.instructions.find? (·.result? == some t)

/-- The type of a temporary: that of the parameter, or else of the instruction's result. -/
def tempType? (f : Function) (t : TempId) : Option Ty :=
  match f.params.find? (·.1 == t) with
  | some (_, ty) => some ty
  | none => (f.findDef? t).bind (·.resultType?)

/-- The numbers of all parameters and results. -/
def tempIds (f : Function) : List TempId :=
  f.params.map (·.1) ++ f.instructions.filterMap (·.result?)

/-- The least number above those of all parameters and results. -/
def nextTemp (f : Function) : Nat :=
  f.tempIds.foldr (fun t n => max (t.toNat + 1) n) 0

/-- No parameter or result has the next number or a larger one. -/
theorem lt_nextTemp {f : Function} {t : TempId} (h : t ∈ f.tempIds) : t.toNat < f.nextTemp := by
  unfold nextTemp
  generalize f.tempIds = ts at h
  induction ts with
  | nil => simp at h
  | cons u us ih =>
    rw [List.foldr_cons]
    rcases List.mem_cons.1 h with rfl | h
    · omega
    · have := ih h
      omega

/-- The first of `count` numbers in a row that are free, if they and the number after them are
32-bit words. -/
def reserve? (f : Function) (count : Nat) : Option Nat :=
  if f.nextTemp + count < UInt32.size then some f.nextTemp else none

/-- Whether some instruction reads the temporary. -/
def hasUsers (f : Function) (t : TempId) : Bool := f.instructions.any (·.usesTemp t)

/-- How often the temporary is read. -/
def useCount (f : Function) (t : TempId) : Nat :=
  (f.instructions.flatMap (·.operands)).count (.temp t)

/-- Changes every instruction. -/
def mapInstructions (f : Function) (g : Instruction → Instruction) : Function :=
  { f with blocks := f.blocks.map fun b => { b with instructions := b.instructions.map g } }

/-- Visits every value that an instruction reads, block after block, and puts the answer in its
place. -/
def traverseOperands {m : Type → Type} [Monad m] (visit : Value → m Value) (f : Function) :
    m Function := do
  let blocks ← f.blocks.mapM fun b => do
    let instructions ← b.instructions.mapM (·.traverseOperands visit)
    return { b with instructions }
  return { f with blocks }

/-- Puts `new` in the place of the temporary `old` wherever it is read.  The number is that of the
operands that changed. -/
def replaceUses (f : Function) (old : TempId) (new : Value) : Function × Nat :=
  (f.traverseOperands (Value.replaceTemp old new)).run 0

/-- Removes the first instruction that defines the temporary. -/
def eraseDef (f : Function) (t : TempId) : Function :=
  { f with blocks := eraseDefIn t f.blocks }

/-- Puts `code` in the place of one instruction. -/
def splice (f : Function) (block index : Nat) (code : List Instruction) : Function :=
  { f with
    blocks := f.blocks.modify block fun b =>
      { b with instructions := b.instructions.take index ++ code ++ b.instructions.drop (index + 1) } }

@[simp] theorem instructions_mapInstructions (f : Function) (g : Instruction → Instruction) :
    (f.mapInstructions g).instructions = f.instructions.map g := by
  simp [mapInstructions, instructions, List.map_flatMap, List.flatMap_map]

/-! ### Text -/

/-- The printed form, a line each for the head, the labels and the instructions. -/
def render (f : Function) : String :=
  let params := ", ".intercalate (f.params.map fun (t, ty) => s!"{ty} %{t}")
  let head := s!"{f.returnType} @{f.name}({params})"
  if f.isDeclaration then s!"declare {head}\n"
  else
    let block (b : Block) := s!"{b.id}:\n" ++ String.join (b.instructions.map fun i => s!"  {i}\n")
    s!"define {head} \x7b\n" ++ String.join (f.blocks.map block) ++ "\x7d\n"

end Function

end KernelIR

import KernelIR.Lowering.Error
import KernelIR.Lowering.Event

/-!
# Replacing the calls to a family

A `Lowering` says what takes the place of one call of its family.  `Lowering.run` applies it to
the whole module: the functions of the family one by one, the calls to each from the last to the
first, and after them the casts that only fed those calls and the function itself.

A failure in the middle does not undo what was done before it: a `Stop` carries the module as it
was at that point.
-/

namespace KernelIR

/-- What takes the place of a call. -/
structure Replacement where
  code : List Instruction := []
  /-- The result of the call, and the temporary that is read in its place from now on. -/
  renamed : Option (TempId × TempId) := none
  /-- A function that the code needs and the module has not. -/
  declared : Option Function := none
  /-- Casts that gave the call its pointers. -/
  casts : List TempId := []

/-- A failure, and the module at the time of it. -/
structure Stop where
  fault : Fault
  module : Module

namespace Function

/-- Reads another temporary in the place of one. -/
def rename (f : Function) : Option (TempId × TempId) → Function
  | some (old, new) => (f.replaceUses old (.temp new)).1
  | none => f

end Function

/-- Puts a replacement in the place of the call at a site. -/
def Module.replaceCall (m : Module) (s : Site) (r : Replacement) : Module :=
  let m := m.modifyFunction s.function fun f => (f.rename r.renamed).splice s.block s.index r.code
  match r.declared with
  | some f => m.addFunction f
  | none => m

/-! ### Casts that may have lost their last reader -/

/-- Casts to look at later, each with the position of its function; in order and without
repetition. -/
abbrev CastQueue := List (Nat × TempId)

namespace CastQueue

/-- The order of the queue: by function, then by temporary. -/
def before (a b : Nat × TempId) : Bool := a.1 < b.1 || (a.1 == b.1 && a.2 < b.2)

/-- Adds a cast in its place. -/
def insert (a : Nat × TempId) : CastQueue → CastQueue
  | [] => [a]
  | b :: q => if a = b then b :: q else if before a b then a :: b :: q else b :: insert a q

theorem mem_insert {a b : Nat × TempId} {q : CastQueue} : b ∈ insert a q ↔ b = a ∨ b ∈ q := by
  induction q with
  | nil => simp [insert]
  | cons c q ih =>
    unfold insert
    split
    · next h => subst h; simp
    · split
      · simp
      · simp only [List.mem_cons, ih]
        constructor
        · rintro (h | h | h) <;> simp [h]
        · rintro (h | h | h) <;> simp [h]

/-- Adds the casts of one function. -/
def insertAll (q : CastQueue) (function : Nat) (casts : List TempId) : CastQueue :=
  casts.foldl (fun q t => insert (function, t) q) q

end CastQueue

/-- What is left of a module after dropping casts. -/
structure Dropped where
  module : Module
  /-- The number of casts that are gone. -/
  removed : Nat := 0
  /-- The casts that are still read, each with the name of its function. -/
  kept : List (TempId × String) := []

namespace Dropped

/-- Looks at one cast: drops it unless something reads it. -/
def step (d : Dropped) (entry : Nat × TempId) : Dropped :=
  match d.module.functions[entry.1]? with
  | none => d
  | some f =>
    if f.hasUsers entry.2 then { d with kept := d.kept ++ [(entry.2, f.name)] }
    else
      { d with
        module := d.module.modifyFunction entry.1 (·.eraseDef entry.2)
        removed := d.removed + (if (f.findDef? entry.2).isSome then 1 else 0) }

end Dropped

/-- Drops the casts of the queue that nothing reads, in the order of the queue. -/
def Module.dropCasts (m : Module) (q : CastQueue) : Dropped := q.foldl Dropped.step ⟨m, 0, []⟩

/-! ### Whole modules -/

/-- How the calls of one family are replaced. -/
structure Lowering where
  family : Family
  replace : Module → Call → Traced Fault Replacement

namespace Lowering

/-- Lowers the calls at the given sites, one after the other, and collects the casts that fed
them. -/
def lowerSites (l : Lowering) (m : Module) (q : CastQueue) :
    List Site → Traced Stop (Module × CastQueue)
  | [] => pure (m, q)
  | s :: sites => do
    let call ← (Traced.ofExcept (m.callAt s)).mapError (⟨·, m⟩)
    Traced.report [.visit call.callee s]
    let r ← (l.replace m call).mapError (⟨·, m⟩)
    Traced.report (r.code.map .emit)
    l.lowerSites (m.replaceCall s r) (q.insertAll s.function r.casts) sites

/-- Lowers all calls to a function and removes it. -/
def lowerFunction (l : Lowering) (m : Module) (name : String) : Traced Stop Module := do
  let sites := m.callSites name
  Traced.report [.lowering sites.length l.family name]
  let (m, q) ← l.lowerSites m [] sites.reverse
  let d := m.dropCasts q
  Traced.report (d.kept.map fun (t, f) => .keptCast t f)
  Traced.report (if 0 < d.removed then [.removedCasts d.removed name] else [])
  return d.module.eraseFunction name

/-- Lowers all calls to the functions of the family.  The answer is whether there were any such
functions, and the module without them. -/
def run (l : Lowering) (m : Module) : Traced Stop (Bool × Module) := do
  let names := m.namesIn (some l.family)
  let m ← names.foldlM l.lowerFunction m
  return (!names.isEmpty, m)

end Lowering

end KernelIR

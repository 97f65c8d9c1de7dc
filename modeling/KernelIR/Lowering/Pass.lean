import KernelIR.Lowering.Copy
import KernelIR.Lowering.Funnel
import KernelIR.Lowering.Fill

/-!
# The whole lowering

`Module.lowerIntrinsics` runs the four lowerings and checks that nothing of the families is left.
It either gives a new module or a fault; the module it was given is not touched.
-/

namespace KernelIR

/-- Drops every lifetime marker: the target has no use for the marks where a buffer starts and ends
to live. -/
def Lowering.lifetime : Lowering where
  family := .lifetimeMarker
  replace _ _ := pure {}

/-- What can be chosen about the lowering. -/
structure Settings where
  /-- Base name of the functions that copy one object. -/
  copyBase : String := "spirv.copy_memory"
  /-- Whether to check in the end that no name of a family is left. -/
  verify : Bool := true
  deriving DecidableEq

namespace Settings

/-- The lowerings in the order in which they run.  The markers go first, since they may read the
buffers of the others. -/
def lowerings (s : Settings) : List Lowering :=
  [.lifetime, .funnelShift, .zeroFill, .blockCopy s.copyBase]

end Settings

namespace Module

/-- The names of a function and of those that it calls directly. -/
def mentioned (f : Function) : List String := f.name :: f.instructions.filterMap (·.callee?)

/-- The first name of a family that is a function of the module or is called in it. -/
def residual? (m : Module) : Option String :=
  (m.functions.flatMap mentioned).find? (Family.of? · |>.isSome)

/-- Checks that no name of a family is left. -/
def checkLowered (m : Module) : Except Fault Unit :=
  match m.residual? with
  | some name => .error (.error (.residual name))
  | none => .ok ()

/-- Runs lowerings one after the other; the flag is whether something was found before, or one of
them found something. -/
def runFrom (found : Bool) (m : Module) (ls : List Lowering) : Traced Stop (Bool × Module) :=
  ls.foldlM (fun state l => do
    let (changed, m) ← l.run state.2
    return (state.1 || changed, m)) (found, m)

/-- Runs lowerings one after the other; the flag is whether any of them found something. -/
def runLowerings (m : Module) (ls : List Lowering) : Traced Stop (Bool × Module) :=
  runFrom false m ls

/-- Lowers everything that belongs to a family.  The answer is whether there was anything to
lower, and the module without it. -/
def lowerIntrinsics (s : Settings) (m : Module) : Traced Fault (Bool × Module) := do
  let (changed, lowered) ← (m.runLowerings s.lowerings).mapError (·.fault)
  if s.verify then Traced.ofExcept lowered.checkLowered
  Traced.report [.finished m.name changed]
  return (changed, if changed then lowered else m)

end Module

end KernelIR

import KernelIR.Lowering.Error

/-!
# Failures of the compiler

What a compilation can report to the outside, and its text.
-/

namespace KernelIR

/-- A failure that ends a compilation. -/
inductive Failure where
  /-- A file cannot be read. -/
  | input (message : String)
  /-- A file of settings cannot be understood. -/
  | settings (message : String)
  /-- A pass gave up. -/
  | internal (pass message : String)
  deriving DecidableEq

namespace Failure

/-- The text of a failure. -/
def message : Failure → String
  | .input text => s!"IO error: {text}"
  | .settings text => s!"Configuration error: {text}"
  | .internal pass text => s!"Internal compiler error in pass '{pass}': {text}"

/-- A lowering that failed. -/
def ofLowering (e : LoweringError) : Failure := .internal "replace-intrinsics" e.message

end Failure

end KernelIR

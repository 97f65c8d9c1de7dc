import KernelIR.Program.Module

/-!
# Families of intrinsic functions

The target has no instruction for four families of functions, which are told apart by how their
names start.  `Family.of?` finds the family of a name.
-/

namespace KernelIR

/-- A family of functions that have to be lowered. -/
inductive Family where
  | funnelShift
  | blockFill
  | blockCopy
  | lifetimeMarker
  deriving DecidableEq

namespace Family

/-- All families, in the order in which a name is tried. -/
def all : List Family := [.funnelShift, .blockFill, .blockCopy, .lifetimeMarker]

/-- How the names of the family start. -/
def stem : Family → String
  | .funnelShift => "llvm.fshl"
  | .blockFill => "llvm.memset"
  | .blockCopy => "llvm.memcpy"
  | .lifetimeMarker => "llvm.lifetime."

/-- The printed form. -/
def render : Family → String
  | .funnelShift => "funnel-shift"
  | .blockFill => "block-fill"
  | .blockCopy => "block-copy"
  | .lifetimeMarker => "lifetime-marker"

instance : ToString Family := ⟨render⟩

/-- Whether the name is one of the family's. -/
def owns (k : Family) (name : String) : Bool := k.stem.toList.isPrefixOf name.toList

/-- The family of a name. -/
def of? (name : String) : Option Family := all.find? (·.owns name)

/-- No name is owned by two families. -/
theorem owns_unique {j k : Family} {name : String} (hj : j.owns name) (hk : k.owns name) :
    j = k := by
  simp only [owns, List.isPrefixOf_iff_prefix] at hj hk
  rcases List.prefix_or_prefix_of_prefix hj hk with h | h <;>
    cases j <;> cases k <;> first | rfl | exact absurd h (by decide)

end Family

/-- The names of the module's functions of a family, or of those in none. -/
def Module.namesIn (m : Module) (k : Option Family) : List String :=
  (m.functions.filter fun f => Family.of? f.name == k).map (·.name)

end KernelIR

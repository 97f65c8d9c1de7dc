import KernelIR.Program.Module

/-!
# Call sites

A `Site` is the position of an instruction in a module.  A site stays good until something is put
in or taken out at or before it, so a list of sites is worked off from its end.
-/

namespace KernelIR

/-- The position of an instruction: its function, its block there, its index in the block. -/
structure Site where
  function : Nat
  block : Nat
  index : Nat
  deriving DecidableEq

namespace Site

/-- The printed form. -/
def render (s : Site) : String :=
  "CallSiteRef \x7b function: " ++ toString s.function ++ ", block: " ++ toString s.block ++
    ", index: " ++ toString s.index ++ " \x7d"

instance : ToString Site := ⟨render⟩

end Site

namespace Module

/-- The sites of the direct calls to a name, in the order of the module. -/
def callSites (m : Module) (name : String) : List Site :=
  m.functions.zipIdx.flatMap fun (f, i) =>
    f.blocks.zipIdx.flatMap fun (b, j) =>
      b.instructions.zipIdx.filterMap fun (inst, k) =>
        if inst.callee? = some name then some ⟨i, j, k⟩ else none

/-- The function that a site lies in. -/
def functionAt? (m : Module) (s : Site) : Option Function := m.functions[s.function]?

/-- The instruction at a site. -/
def instructionAt? (m : Module) (s : Site) : Option Instruction := do
  let f ← m.functionAt? s
  let b ← f.blocks[s.block]?
  b.instructions[s.index]?

/-- The sites of a name are those where a direct call to it stands. -/
theorem mem_callSites {m : Module} {name : String} {s : Site} :
    s ∈ m.callSites name ↔ ∃ i, m.instructionAt? s = some i ∧ i.callee? = some name := by
  obtain ⟨fi, bi, ii⟩ := s
  simp only [callSites, List.mem_flatMap, List.mem_filterMap, Prod.exists,
    List.mem_zipIdx_iff_getElem?, instructionAt?, functionAt?, Option.bind_eq_bind,
    Option.bind_eq_some_iff]
  constructor
  · rintro ⟨f, fi', hf, b, bi', hb, i, ii', hi, h⟩
    split at h
    · next hc =>
      obtain ⟨rfl, rfl, rfl⟩ := Site.mk.inj (Option.some.inj h)
      exact ⟨i, ⟨f, hf, b, hb, hi⟩, hc⟩
    · exact nomatch h
  · rintro ⟨i, ⟨f, hf, b, hb, hi⟩, hc⟩
    exact ⟨f, fi, hf, b, bi, hb, i, ii, hi, by rw [if_pos hc]⟩

end Module

/-- A call as read at its site. -/
structure Call where
  site : Site
  /-- The function that contains the call. -/
  caller : Function
  callee : String
  result : Option TempId
  args : List Value
  ty : Ty
  align : Option UInt64

end KernelIR

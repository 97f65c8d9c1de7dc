import KernelIR.Proofs.Completeness

/-!
# Dropping markers is filtering

The lowering of lifetime markers takes the functions of the family one by one, and the calls to each
from the last to the first.  What it leaves is what one pass over the module leaves: the functions
that are no markers, without their calls to the markers of the module (`Module.withoutMarkers`,
`Lowering.run_lifetime`).
-/

namespace KernelIR

/-! ### Functions without some of their calls -/

/-- Whether the instruction is a direct call to one of the names. -/
def Instruction.callsOneOf (names : List String) (i : Instruction) : Bool :=
  i.callee?.any names.contains

theorem Instruction.callsOneOf_singleton (name : String) (i : Instruction) :
    i.callsOneOf [name] = (i.callee? == some name) := by
  cases hc : i.callee? with
  | none => simp [callsOneOf, hc]
  | some n => simp [callsOneOf, hc, Bool.beq_eq_decide_eq]

/-- The function without its direct calls to the names. -/
def Function.dropCalls (names : List String) (f : Function) : Function :=
  { f with blocks := f.blocks.map fun b =>
      { b with instructions := b.instructions.filter (! ·.callsOneOf names) } }

/-- A call to the name is dropped anyway. -/
theorem Function.dropCalls_splice {f : Function} {b : Block} {i : Instruction} {n k : Nat}
    {name : String} (hb : f.blocks[n]? = some b) (hi : b.instructions[k]? = some i)
    (hc : i.callee? = some name) : (f.splice n k []).dropCalls [name] = f.dropCalls [name] := by
  obtain ⟨bs₁, bs₂, hbs, hn⟩ := exists_append_of_getElem? hb
  obtain ⟨is₁, is₂, his, hk⟩ := exists_append_of_getElem? hi
  have hdropped : (!i.callsOneOf [name]) = false := by
    simp [Instruction.callsOneOf_singleton, hc]
  simp only [dropCalls, splice, hbs, modify_append_cons _ hn, drop_append_cons hk, his]
  simp [hdropped, his, ← hk]

namespace Module

variable {m : Module} {name : String} {names : List String}

/-- The module without its direct calls to the names. -/
def dropCalls (m : Module) (names : List String) : Module :=
  { m with functions := m.functions.map (·.dropCalls names) }

theorem namesIn_dropCalls (m : Module) (names : List String) (k : Option Family) :
    (m.dropCalls names).namesIn k = m.namesIn k := by
  simp [namesIn, dropCalls, List.filter_map, Function.comp_def, Function.dropCalls]

theorem without_dropCalls (m : Module) (names : List String) (k : Family) :
    (m.dropCalls names).without k = (m.without k).dropCalls names := by
  simp [without, dropCalls, List.filter_map, Function.comp_def, Function.dropCalls]

theorem eraseFunction_dropCalls (m : Module) (names : List String) (name : String) :
    (m.dropCalls names).eraseFunction name = (m.eraseFunction name).dropCalls names := by
  simp [eraseFunction, dropCalls, List.eraseP_map, Function.comp_def, Function.dropCalls]

theorem dropCalls_nil (m : Module) : m.dropCalls [] = m := by
  have hkept : ∀ i : Instruction, (!i.callsOneOf []) = true := by
    intro i
    cases hc : i.callee? <;> simp [Instruction.callsOneOf, hc]
  simp [dropCalls, Function.dropCalls, hkept]

/-- Dropping the calls to one name and then those to others. -/
theorem dropCalls_dropCalls (m : Module) (name : String) (names : List String) :
    (m.dropCalls [name]).dropCalls names = m.dropCalls (name :: names) := by
  have hcalls : ∀ i : Instruction, (!i.callsOneOf names && !i.callsOneOf [name]) =
      !i.callsOneOf (name :: names) := by
    intro i
    cases hc : i.callee? with
    | none => simp [Instruction.callsOneOf, hc]
    | some n => by_cases hn : n = name <;> simp [Instruction.callsOneOf, hc, hn]
  simp [dropCalls, Function.dropCalls, Function.comp_def, List.filter_filter, hcalls]

/-- Where nothing calls the name there is nothing to drop. -/
theorem dropCalls_eq_self (h : m.callCount name = 0) : m.dropCalls [name] = m := by
  have hfunctions : m.functions.map (·.dropCalls [name]) = m.functions := by
    refine (List.map_congr_left fun f hf => ?_).trans (List.map_id _)
    have hblocks : ∀ b ∈ f.blocks,
        b.instructions.filter (! ·.callsOneOf [name]) = b.instructions := by
      intro b hb
      refine List.filter_eq_self.2 fun i hi => ?_
      have hmem : i ∈ m.functions.flatMap (·.instructions) :=
        List.mem_flatMap.2 ⟨f, hf, List.mem_flatMap.2 ⟨b, hb, hi⟩⟩
      simpa [Instruction.callsOneOf_singleton] using List.countP_eq_zero.1 h i hmem
    show { f with blocks := _ } = f
    rw [(List.map_congr_left fun b hb => by rw [hblocks b hb, id]).trans (List.map_id _)]
  rw [dropCalls, hfunctions]

theorem dropCalls_replaceCall {s : Site} (h : m.calleeAt? s = some name) :
    (m.replaceCall s {}).dropCalls [name] = m.dropCalls [name] := by
  obtain ⟨f, b, result, args, ty, align, hf, hb, hi, -⟩ := exists_call_of_calleeAt? h
  obtain ⟨fs₁, fs₂, hfs, hn⟩ := exists_append_of_getElem? hf
  have hsplice := Function.dropCalls_splice hb hi rfl
  show { m with functions := ((m.functions.modify s.function
    fun f => f.splice s.block s.index []).map (·.dropCalls [name])) } = m.dropCalls [name]
  rw [dropCalls, hfs, modify_append_cons _ hn, List.map_append, List.map_append, List.map_cons,
    List.map_cons, hsplice]

end Module

namespace Lowering

variable {m : Module} {name : String}

/-! ### The run of the lowering -/

/-- Working off pending calls never fails, and only takes calls to the name away. -/
theorem exists_lowerSites_lifetime : ∀ {sites : List Site} {m : Module}, Pending m name sites →
    ∃ m', (Lowering.lifetime.lowerSites m [] sites).result = .ok (m', []) ∧
      m'.dropCalls [name] = m.dropCalls [name]
  | [], m, _ => ⟨m, rfl, rfl⟩
  | s :: sites, m, hp => by
    have hs := hp.callee s List.mem_cons_self
    obtain ⟨f, b, result, args, ty, align, -, -, -, hat⟩ := Module.exists_call_of_calleeAt? hs
    obtain ⟨m', hm', hdrop⟩ := exists_lowerSites_lifetime (hp.tail {})
    exact ⟨m', lowerSites_cons_eq_ok.2 ⟨_, {}, hat, rfl, hm'⟩,
      hdrop.trans (Module.dropCalls_replaceCall hs)⟩

/-- Lowering one marker drops all calls to it and its function. -/
theorem lowerFunction_lifetime (m : Module) (hn : Family.of? name = some .lifetimeMarker) :
    (Lowering.lifetime.lowerFunction m name).result =
      .ok ((m.dropCalls [name]).eraseFunction name) := by
  have hp := pending_callSites m name
  obtain ⟨m', hm', hdrop⟩ := exists_lowerSites_lifetime hp
  have hzero : m'.callCount name = 0 := callCount_of_lowerSites clean_lifetime hn hp
    (by rw [List.length_reverse, m.length_callSites]) hm'
  rw [Module.dropCalls_eq_self hzero] at hdrop
  exact lowerFunction_eq_ok.2 ⟨m', [], hm', by rw [← hdrop]; rfl⟩

/-- Lowering the markers one by one drops all calls to them and their functions. -/
theorem foldlM_lifetime : ∀ {names : List String} {m : Module},
    m.namesIn (some .lifetimeMarker) = names →
      (names.foldlM Lowering.lifetime.lowerFunction m).result =
        .ok ((m.without .lifetimeMarker).dropCalls names)
  | [], m, h => by
    rw [Module.without_of_namesIn_eq_nil h, Module.dropCalls_nil]
    rfl
  | name :: names, m, h => by
    have hn := (Module.mem_namesIn.1 (h ▸ List.mem_cons_self)).1
    obtain ⟨hnames, hwithout⟩ := Module.eraseFunction_of_namesIn_eq_cons h
    rw [List.foldlM_cons, Traced.result_bind, lowerFunction_lifetime m hn]
    rw [Module.eraseFunction_dropCalls]
    have hrest := foldlM_lifetime (m := (m.eraseFunction name).dropCalls [name])
      (by rw [Module.namesIn_dropCalls, hnames])
    rw [Module.without_dropCalls, hwithout, Module.dropCalls_dropCalls] at hrest
    exact hrest

end Lowering

/-! ### Markers by their names -/

/-- Whether the name is that of a lifetime marker. -/
def isMarker (name : String) : Bool := "llvm.lifetime.".toList.isPrefixOf name.toList

theorem of?_eq_lifetimeMarker_iff {name : String} :
    Family.of? name = some .lifetimeMarker ↔ isMarker name = true := by
  show Family.of? name = _ ↔ Family.lifetimeMarker.owns name = true
  constructor
  · exact fun h => List.find?_some (p := fun k : Family => k.owns name) h
  · intro h
    cases hk : Family.of? name with
    | none => exact absurd h (by simp [Family.of?_eq_none_iff.1 hk])
    | some k =>
      have howns : k.owns name = true := List.find?_some (p := fun k : Family => k.owns name) hk
      rw [Family.owns_unique howns h]

namespace Module

/-- The names of the functions that are markers. -/
def markers (m : Module) : List String := (m.functions.map (·.name)).filter isMarker

/-- The module without markers: without the functions that are markers, and without the calls to
them in the others. -/
def withoutMarkers (m : Module) : Module :=
  { m with functions :=
      (m.functions.filter fun f => !isMarker f.name).map (Function.dropCalls m.markers) }

theorem namesIn_lifetimeMarker (m : Module) : m.namesIn (some .lifetimeMarker) = m.markers := by
  have hname : ∀ f : Function, (Family.of? f.name == some .lifetimeMarker) = isMarker f.name := by
    intro f
    rw [Bool.eq_iff_iff, beq_iff_eq, of?_eq_lifetimeMarker_iff]
  simp only [namesIn, markers, hname, List.filter_map, Function.comp_def]

theorem dropCalls_without_lifetimeMarker (m : Module) :
    (m.without .lifetimeMarker).dropCalls m.markers = m.withoutMarkers := by
  have hname : ∀ f : Function, (Family.of? f.name != some .lifetimeMarker) = !isMarker f.name := by
    intro f
    rw [Bool.eq_iff_iff, bne_iff_ne, ne_eq, of?_eq_lifetimeMarker_iff, Bool.not_eq_true',
      Bool.not_eq_true]
  simp only [without, dropCalls, withoutMarkers, hname]

end Module

/-- **Dropping the markers is one pass over the module.**  The lowering of lifetime markers never
fails.  It leaves the functions whose names do not start with `llvm.lifetime.`, in their order, each
without its direct calls to names of the functions that are gone and otherwise as it was; and it
answers whether there was any such function. -/
theorem Lowering.run_lifetime (m : Module) :
    (Lowering.lifetime.run m).result =
      .ok (m.functions.any (isMarker ·.name), m.withoutMarkers) := by
  have hnames : m.namesIn (some Lowering.lifetime.family) = m.markers := m.namesIn_lifetimeMarker
  have hfold := foldlM_lifetime m.namesIn_lifetimeMarker
  rw [Module.dropCalls_without_lifetimeMarker] at hfold
  refine run_eq_ok.2 ⟨by rw [hnames, hfold], ?_⟩
  rw [hnames, Bool.eq_iff_iff]
  simp [Module.markers]

end KernelIR

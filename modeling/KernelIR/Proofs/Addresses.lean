import KernelIR.Proofs.Frame
import KernelIR.Proofs.Matching

/-!
# Addresses of functions

A call names the function that it calls; any other operand that is a function takes its address.
A lowering looks for calls only, and so does the final check, so the address of a function outlives
the function itself (`Module.not_unmentioned_handlers`).  What is true is that no address comes with
a lowering, and that all of them stay but those in the arguments of a replaced call and in dropped
casts (`Module.addresses_of_lowerIntrinsics`).
-/

namespace KernelIR

/-! ### Operands -/

namespace Instruction

/-- The operands that the instruction works on: all but the function of a call. -/
def data : Instruction → List Value
  | .call _ _ args _ _ => args
  | i => i.operands

/-- The functions whose address the instruction takes. -/
def addresses (i : Instruction) : List String := i.data.filterMap (·.function?)

/-- No lowering takes the operands of the instruction away: it is no cast, and of the calls to a
family only funnel shifts work on what they are given. -/
def lasts (i : Instruction) : Bool := !i.isRemovable || i.family? == some .funnelShift

theorem addresses_eq_nil_iff {i : Instruction} :
    i.addresses = [] ↔ ∀ v ∈ i.data, v.function? = none :=
  List.filterMap_eq_nil_iff

/-- A function among the operands is called, or its address is taken. -/
theorem function_mem_operands {i : Instruction} {n : String} :
    .function n ∈ i.operands ↔ i.callee? = some n ∨ n ∈ i.addresses := by
  have hmem (vs : List Value) : .function n ∈ vs ↔ n ∈ vs.filterMap (·.function?) := by
    rw [List.mem_filterMap]
    refine ⟨fun h => ⟨_, h, rfl⟩, fun ⟨v, hv, hn⟩ => ?_⟩
    cases v with
    | function n' => rwa [← Option.some.inj hn]
    | temp | const | zero | global | undef => cases hn
  cases i with
  | call result function args ty align =>
    show .function n ∈ function :: args ↔ _
    rw [hmem, addresses, data, callee?, List.filterMap_cons]
    cases function.function? <;> simp [eq_comm]
  | _ => simp [addresses, data, callee?, hmem]

theorem data_mapOperands (g : Value → Value) (i : Instruction) :
    (i.mapOperands g).data = i.data.map g := by
  cases i with
  | ret value => cases value <;> rfl
  | _ => rfl

@[simp] theorem addresses_rename (r : Option (TempId × TempId)) (i : Instruction) :
    (i.rename r).addresses = i.addresses := by
  rw [rename_eq_mapOperands, addresses, addresses, data_mapOperands, List.filterMap_map]
  refine List.filterMap_congr fun v _ => ?_
  cases v <;> rfl

@[simp] theorem lasts_rename (r : Option (TempId × TempId)) (i : Instruction) :
    (i.rename r).lasts = i.lasts := by
  rw [lasts, lasts, isRemovable_rename, family?_rename]

end Instruction

/-- How often the instructions take the address of a function. -/
def addressCount (is : List Instruction) (n : String) : Nat :=
  (is.flatMap (·.addresses)).count n

/-- How often they do so where no lowering takes the address away. -/
def lastingCount (is : List Instruction) (n : String) : Nat := addressCount (is.filter (·.lasts)) n

section Counts

variable {is js : List Instruction} {i : Instruction} {n : String}

@[simp] theorem addressCount_append :
    addressCount (is ++ js) n = addressCount is n + addressCount js n := by
  simp [addressCount]

theorem addressCount_cons : addressCount (i :: is) n = i.addresses.count n + addressCount is n := by
  simp [addressCount]

@[simp] theorem addressCount_map_rename (r : Option (TempId × TempId)) :
    addressCount (is.map (·.rename r)) n = addressCount is n := by
  simp [addressCount, List.flatMap_map]

@[simp] theorem lastingCount_append :
    lastingCount (is ++ js) n = lastingCount is n + lastingCount js n := by
  simp [lastingCount]

@[simp] theorem lastingCount_map_rename (r : Option (TempId × TempId)) :
    lastingCount (is.map (·.rename r)) n = lastingCount is n := by
  simp [lastingCount, List.filter_map, Function.comp_def]

theorem lastingCount_le (is : List Instruction) (n : String) :
    lastingCount is n ≤ addressCount is n :=
  (List.filter_sublist.flatMap _).count_le n

theorem lastingCount_of_not_lasts (h : i.lasts = false) :
    lastingCount (i :: is) n = lastingCount is n := by
  simp [lastingCount, h]

end Counts

/-! ### What the code of a replacement works on -/

/-- A pointer to something other than a function is no function. -/
theorem Module.function?_eq_none {m : Module} {f : Function} {v : Value} {t : Ty}
    (hv : m.valueType? f v = some (.ptr t)) (ht : ∀ g : Function, g.ty ≠ t) :
    v.function? = none := by
  cases v with
  | function n =>
    obtain ⟨g, -, hg⟩ := Option.map_eq_some_iff.1 hv
    exact absurd (Ty.ptr.inj hg) (ht g)
  | temp | const | zero | global | undef => rfl

theorem addressCount_eq_zero {is : List Instruction}
    (h : ∀ i ∈ is, ∀ v ∈ i.data, v.function? = none) (n : String) : addressCount is n = 0 := by
  have hnil : is.flatMap (·.addresses) = [] :=
    List.flatMap_eq_nil_iff.2 fun i hi => Instruction.addresses_eq_nil_iff.2 (h i hi)
  rw [addressCount, hnil, List.count_nil]

/-- A funnel shift works on each of its operands once. -/
theorem FunnelShift.addressCount_code (s : Shift) (base : Nat) (n : String) :
    addressCount (code s base) n = ([s.hi, s.lo, s.amount].filterMap (·.function?)).count n := by
  have hcode : (code s base).flatMap (·.addresses) =
      [s.amount, s.hi, s.lo].filterMap (·.function?) := by
    simp only [code, List.flatMap_cons, List.flatMap_nil, Instruction.addresses, Instruction.data,
      Instruction.operands, List.filterMap_cons, List.filterMap_nil]
    cases s.amount.function? <;> cases s.hi.function? <;> cases s.lo.function? <;> rfl
  have hperm : [s.amount, s.hi, s.lo].Perm [s.hi, s.lo, s.amount] :=
    @List.perm_append_comm _ [s.amount] [s.hi, s.lo]
  rw [addressCount, hcode, (hperm.filterMap _).count_eq]

namespace ZeroFill

variable {m : Module} {call : Call} {f : Fill}

/-- A fill stores through a pointer that is no function, since a function has no size. -/
theorem function?_ptr (h : ofCall m call = .ok f) : f.ptr.function? = none := by
  obtain ⟨hdest, bytes, alloc, -, halloc, -⟩ := ofCall_eq_ok h
  refine Module.function?_eq_none (destination_eq_ok hdest).1 fun g hg => ?_
  rw [← hg] at halloc
  cases halloc

theorem addressCount_code (h : ofCall m call = .ok f) (base : Nat) (n : String) :
    addressCount (code f base) n = 0 := by
  refine addressCount_eq_zero (fun i hi v hv => ?_) n
  obtain ⟨k, -, hi⟩ := List.mem_flatMap.1 hi
  simp only [store, List.mem_cons, List.not_mem_nil, or_false] at hi
  rcases hi with rfl | rfl
  · simp only [Instruction.data, Instruction.operands, List.mem_cons, List.not_mem_nil,
      or_false] at hv
    rcases hv with rfl | rfl
    · exact function?_ptr h
    · rfl
  · simp only [Instruction.data, Instruction.operands, List.mem_cons, List.not_mem_nil,
      or_false] at hv
    rcases hv with rfl | rfl <;> rfl

end ZeroFill

namespace BlockCopy

variable {m : Module} {call : Call} {req : Request} {shape : TypeMatch}

/-- A copy that is not empty reads and writes through pointers that are no functions. -/
theorem function?_sources (h : ofCall m call = .ok req)
    (hshape : (matchTypes m.layout req.dest.pointee req.src.pointee req.bytes).result = .ok shape) :
    req.dest.source.function? = none ∧ req.src.source.function? = none := by
  obtain ⟨hdest, hsrc, bits, hbits, -⟩ := matchTypes_eq_ok hshape
  have hpointer : ∀ {i : Nat} {p : Reinterpretation}, pointerArg m call i = .ok p →
      (∃ bits, m.layout.sizeInBits p.pointee = .ok bits) → p.source.function? = none := by
    rintro i p hp ⟨bits, hbits⟩
    obtain ⟨v, -, hp⟩ := pointerArg_eq_ok.1 hp
    refine Module.function?_eq_none (Module.reinterpretation?_eq_some hp).2.1 fun g hg => ?_
    rw [← hg] at hbits
    cases hbits
  obtain ⟨hdest', hsrc'⟩ := ofCall_eq_ok h
  exact ⟨hpointer hdest' (hdest.exists_size hbits), hpointer hsrc' (hsrc.exists_size hbits)⟩

theorem function?_of_mem_copyCall {base : String} {c : Copy} {dest src v : Value}
    (hdest : dest.function? = none) (hsrc : src.function? = none)
    (hv : v ∈ (copyCall base c dest src).data) : v.function? = none := by
  simp only [copyCall, Instruction.data, List.mem_cons, List.not_mem_nil, or_false] at hv
  rcases hv with rfl | rfl | rfl | rfl
  · exact hdest
  · exact hsrc
  · rfl
  · rfl

theorem function?_of_mem_elementPtr {result : TempId} {ptr v : Value} {depth i : Nat} {ty : Ty}
    (hptr : ptr.function? = none)
    (hv : v ∈ (Instruction.elementPtr result ptr (indices depth i) ty).data) :
    v.function? = none := by
  simp only [Instruction.data, Instruction.operands, indices, List.mem_cons, List.mem_append,
    List.mem_replicate, List.not_mem_nil, or_false] at hv
  rcases hv with rfl | ⟨-, rfl⟩ | rfl
  · exact hptr
  · rfl
  · rfl

theorem addressCount_code {base : String} {c : Copy}
    (hdest : c.request.dest.source.function? = none) (hsrc : c.request.src.source.function? = none)
    (first : Nat) (n : String) : addressCount (code base c first) n = 0 := by
  refine addressCount_eq_zero (fun i hi v hv => ?_) n
  unfold code at hi
  split at hi
  · obtain rfl := List.mem_singleton.1 hi
    exact function?_of_mem_copyCall hdest hsrc hv
  · obtain ⟨k, -, hi⟩ := List.mem_flatMap.1 hi
    simp only [copyElement, List.mem_cons, List.not_mem_nil, or_false] at hi
    rcases hi with rfl | rfl | rfl
    · exact function?_of_mem_elementPtr hsrc hv
    · exact function?_of_mem_elementPtr hdest hv
    · exact function?_of_mem_copyCall rfl rfl hv

end BlockCopy

namespace Settings

variable {s : Settings} {l : Lowering} {m : Module} {call : Call} {r : Replacement}

/-- The code of a replacement takes no address that the call did not take. -/
theorem addressCount_code_le (hl : l ∈ s.lowerings) (h : (l.replace m call).result = .ok r)
    (n : String) : addressCount r.code n ≤ call.instruction.addresses.count n := by
  simp only [lowerings, List.mem_cons, List.not_mem_nil, or_false] at hl
  rcases hl with rfl | rfl | rfl | rfl
  · obtain rfl : {} = r := Except.ok.inj h
    exact Nat.zero_le _
  · obtain ⟨shift, base, hshift, -, rfl⟩ := FunnelShift.replace_eq_ok.1 h
    obtain ⟨-, -, hargs⟩ := FunnelShift.ofCall_eq_ok hshift
    rw [FunnelShift.addressCount_code, ← hargs]
    exact Nat.le_refl _
  · obtain ⟨f, base, hf, -, rfl⟩ := ZeroFill.replace_eq_ok.1 h
    rw [ZeroFill.addressCount_code hf]
    exact Nat.zero_le _
  · obtain ⟨req, hreq, ⟨-, rfl⟩ | ⟨-, shape, c, first, hshape, hc, -, rfl⟩⟩ :=
      BlockCopy.replace_eq_ok.1 h
    · exact Nat.zero_le _
    · obtain ⟨hdest, hsrc⟩ := BlockCopy.function?_sources hreq hshape
      rw [← (BlockCopy.divide_eq_ok hc).1] at hdest hsrc
      rw [BlockCopy.addressCount_code hdest hsrc]
      exact Nat.zero_le _

/-- The code of a funnel shift takes all addresses that the call took; all other calls of a family
may be dropped. -/
theorem lastingCount_le_code (hl : l ∈ s.lowerings) (h : (l.replace m call).result = .ok r)
    (hk : Family.of? call.callee = some l.family) (n : String) :
    lastingCount [call.instruction] n ≤ lastingCount r.code n := by
  have hfamily : call.instruction.family? = some l.family := hk
  by_cases hshift : l.family = .funnelShift
  · obtain rfl := s.eq_funnelShift hl hshift
    obtain ⟨shift, base, hofCall, -, rfl⟩ := FunnelShift.replace_eq_ok.1 h
    obtain ⟨-, -, hargs⟩ := FunnelShift.ofCall_eq_ok hofCall
    have hall : (FunnelShift.code shift base).filter (·.lasts) = FunnelShift.code shift base := rfl
    refine (lastingCount_le _ n).trans (Nat.le_of_eq ?_)
    rw [lastingCount, hall, FunnelShift.addressCount_code, ← hargs]
    simp [addressCount, Instruction.addresses, Instruction.data, Call.instruction]
  · have hlasts : call.instruction.lasts = false := by
      rw [Instruction.lasts, Instruction.isRemovable_of_family? hfamily, hfamily]
      simpa using hshift
    rw [lastingCount_of_not_lasts hlasts]
    exact Nat.zero_le _

theorem blocks_of_declared (hl : l ∈ s.lowerings) (h : (l.replace m call).result = .ok r)
    {g : Function} (hg : r.declared = some g) : g.blocks = [] := by
  obtain ⟨⟨element, rfl⟩, -⟩ := s.declared_eq_some hl h hg
  rfl

end Settings

/-! ### Queued casts -/

/-- Every queued temporary is defined by a cast. -/
def Module.CastsQueued (m : Module) (q : CastQueue) : Prop :=
  ∀ e ∈ q, ∃ f value ty, m.functions[e.1]? = some f ∧ f.findDef? e.2 = some (.cast e.2 value ty)

/-- A definition by a cast stays one when something else is replaced. -/
theorem Function.ReplacedBy.findDef?_cast {f f' : Function} {x : Instruction}
    {r : Option (TempId × TempId)} {code : List Instruction} {t : TempId} {value : Value} {ty : Ty}
    (h : f.ReplacedBy x r code f') (ht : f.findDef? t = some (.cast t value ty))
    (hx : ∀ value ty, x ≠ .cast t value ty) (hcode : t ∉ defined code) :
    ∃ value', f'.findDef? t = some (.cast t value' ty) := by
  rw [h.findDef?_eq ht (hx _ _) hcode, Instruction.rename_eq_mapOperands]
  exact ⟨_, rfl⟩

/-- A cast of a function is one of what becomes of the function, and of the same value if nothing is
renamed. -/
theorem Visit.Of.exists_cast_after {s : Settings} {l : Lowering} {v : Visit} (h : v.Of l)
    (hl : l ∈ s.lowerings) {k : Nat} {f : Function} {t : TempId} {value : Value} {ty : Ty}
    (hf : v.module.functions[k]? = some f) (ht : f.findDef? t = some (.cast t value ty)) :
    ∃ f' value', v.after.functions[k]? = some f' ∧ f'.findDef? t = some (.cast t value' ty) ∧
      (v.replacement.renamed = none → value' = value) := by
  by_cases hsame : v.call.site.function = k
  · rw [← hsame] at hf ⊢
    obtain rfl := Option.some.inj (hf.symm.trans h.function)
    have hfresh : t ∉ defined v.replacement.code := fun hmem =>
      Settings.not_mem_tempIds_of_code hl h.replace hmem (List.mem_append_right _
        (List.mem_filterMap.2 ⟨_, List.mem_of_find?_eq_some ht, rfl⟩))
    refine ⟨v.rewritten, value.rename v.replacement.renamed, h.function_after, ?_, fun hr => ?_⟩
    · rw [h.replacedBy.findDef?_eq ht (fun hcast => nomatch hcast) hfresh,
        Instruction.rename_eq_mapOperands]
      rfl
    · rw [hr]
      cases value <;> rfl
  · exact ⟨f, value, h.function_after_of_ne hsame hf, ht, fun _ => rfl⟩

namespace Module.CastsQueued

variable {s : Settings} {l : Lowering} {v : Visit} {m : Module} {q : CastQueue} {e : Nat × TempId}

/-- A visit queues casts, and leaves those that are queued. -/
theorem after (hl : l ∈ s.lowerings) (hv : v.Of l) (h : v.module.CastsQueued q) :
    v.after.CastsQueued (q.insertAll v.call.site.function v.replacement.casts) := by
  intro e he
  have hbefore : ∃ f value ty, v.module.functions[e.1]? = some f ∧
      f.findDef? e.2 = some (.cast e.2 value ty) := by
    rcases CastQueue.mem_insertAll.1 he with he | ⟨hfunction, hcast⟩
    · exact h e he
    · obtain ⟨-, -, p, -, hp⟩ := Settings.exists_pointer_of_mem_casts hl hv.replace hcast
      obtain ⟨heq, -, ty, -, hdef⟩ := Module.reinterpretation?_eq_some hp
      rw [← Value.temp.inj heq] at hdef
      exact ⟨v.call.caller, p.source, ty, hfunction ▸ hv.function, hdef⟩
  obtain ⟨f, value, ty, hf, hdef⟩ := hbefore
  obtain ⟨f', value', hf', hdef', -⟩ := hv.exists_cast_after hl hf hdef
  exact ⟨f', value', ty, hf', hdef'⟩

/-- Looking at a queued cast takes nothing away but that cast. -/
theorem functions_dropCast (h : m.CastsQueued (e :: q)) :
    (m.dropCast e).functions = m.functions ∨ ∃ f value ty, m.functions[e.1]? = some f ∧
      f.hasUsers e.2 = false ∧ f.ReplacedBy (.cast e.2 value ty) none [] (f.eraseDef e.2) ∧
      (m.dropCast e).functions = m.functions.set e.1 (f.eraseDef e.2) := by
  refine (Module.functions_dropCast m e).imp_right ?_
  rintro ⟨f, hf, hu, hset⟩
  obtain ⟨f', value, ty, hf', hdef⟩ := h e List.mem_cons_self
  obtain rfl := Option.some.inj (hf.symm.trans hf')
  exact ⟨f, value, ty, hf, hu, Function.replacedBy_eraseDef hdef, hset⟩

theorem dropCast (he : e ∉ q) (h : m.CastsQueued (e :: q)) : (m.dropCast e).CastsQueued q := by
  intro e' he'
  obtain ⟨f', value', ty', hf', hdef'⟩ := h e' (List.mem_cons_of_mem _ he')
  rcases h.functions_dropCast with hsame | ⟨f, value, ty, hf, -, hedit, hset⟩
  · rw [hsame]
    exact ⟨f', value', ty', hf', hdef'⟩
  · rw [hset]
    by_cases hfunction : e.1 = e'.1
    · rw [← hfunction, List.getElem?_set_self (List.getElem?_eq_some_iff.1 hf).1]
      rw [← hfunction] at hf'
      obtain rfl := Option.some.inj (hf.symm.trans hf')
      have hne : e.2 ≠ e'.2 := fun htemp => he (Prod.ext hfunction htemp ▸ he')
      obtain ⟨value'', hdef''⟩ := hedit.findDef?_cast hdef'
        (fun _ _ hcast => hne (Instruction.cast.inj hcast).1) fun hmem => nomatch hmem
      exact ⟨_, value'', ty', rfl, hdef''⟩
    · rw [List.getElem?_set_ne hfunction]
      exact ⟨f', value', ty', hf', hdef'⟩

end Module.CastsQueued

/-! ### Functions -/

namespace Function

/-- `f'` takes no address more often than `f` does, and keeps those that last. -/
structure KeepsAddresses (f f' : Function) : Prop where
  skeleton : f'.skeleton = f.skeleton
  addresses : ∀ n, addressCount f'.instructions n ≤ addressCount f.instructions n
  lasting : ∀ n, lastingCount f.instructions n ≤ lastingCount f'.instructions n

namespace KeepsAddresses

theorem refl (f : Function) : f.KeepsAddresses f :=
  ⟨rfl, fun _ => Nat.le_refl _, fun _ => Nat.le_refl _⟩

theorem trans {f g h : Function} (hfg : f.KeepsAddresses g) (hgh : g.KeepsAddresses h) :
    f.KeepsAddresses h where
  skeleton := hgh.skeleton.trans hfg.skeleton
  addresses n := (hgh.addresses n).trans (hfg.addresses n)
  lasting n := (hfg.lasting n).trans (hgh.lasting n)

/-- An edit matters only where the instruction was. -/
theorem of_replacedBy {f f' : Function} {i : Instruction} {r : Option (TempId × TempId)}
    {code : List Instruction} (h : f.ReplacedBy i r code f')
    (haddresses : ∀ n, addressCount code n ≤ i.addresses.count n)
    (hlasting : ∀ n, lastingCount [i] n ≤ lastingCount code n) : f.KeepsAddresses f' := by
  obtain ⟨pre, post, hf, hf'⟩ := h.exists_instructions
  refine ⟨h.skeleton, fun n => ?_, fun n => ?_⟩
  · have hn := haddresses n
    rw [hf, hf']
    simp only [addressCount_append, addressCount_map_rename, addressCount_cons]
    omega
  · have hn := hlasting n
    rw [hf, hf', ← List.singleton_append]
    simp only [lastingCount_append, lastingCount_map_rename]
    omega

theorem of_visit {s : Settings} {l : Lowering} {v : Visit} (hl : l ∈ s.lowerings) (hv : v.Of l) :
    v.call.caller.KeepsAddresses v.rewritten :=
  .of_replacedBy hv.replacedBy (Settings.addressCount_code_le hl hv.replace)
    (Settings.lastingCount_le_code hl hv.replace hv.family)

/-- A cast may take its address along. -/
theorem of_dropped {f f' : Function} {t : TempId} {value : Value} {ty : Ty}
    (h : f.ReplacedBy (.cast t value ty) none [] f') : f.KeepsAddresses f' :=
  .of_replacedBy h (fun _ => Nat.zero_le _) fun _ => Nat.le_refl 0

end KeepsAddresses

end Function

/-! ### Modules -/

namespace Module

variable {s : Settings} {o m : Module} {q : CastQueue} {l : Lowering}

/-- The functions outside the families are those of `o` with no new addresses, and functions without
a body after them. -/
structure Addressed (o m : Module) : Prop where
  globals : m.globals = o.globals
  functions : ∃ added, (∀ g ∈ added, g.blocks = []) ∧
    List.Forall₂ Function.KeepsAddresses (o.others ++ added) m.others

namespace Addressed

theorem refl (m : Module) : Addressed m m where
  globals := rfl
  functions := by
    refine ⟨[], fun g hg => (nomatch hg), ?_⟩
    rw [List.append_nil]
    exact List.forall₂_same.2 fun f _ => .refl f

/-- Changing functions, and adding declarations after them. -/
theorem step {m₁ m₂ : Module} {fs : List Function} (added : List Function) (h : Addressed o m₁)
    (hglobals : m₂.globals = m₁.globals)
    (hfs : List.Forall₂ Function.KeepsAddresses m₁.functions fs)
    (hadded : ∀ g ∈ added, g.blocks = []) (hfunctions : m₂.functions = fs ++ added) :
    Addressed o m₂ where
  globals := hglobals.trans h.globals
  functions := by
    obtain ⟨added₁, hadded₁, h₁⟩ := h.functions
    refine ⟨added₁ ++ added.filter fun f => (Family.of? f.name).isNone, fun g hg => ?_, ?_⟩
    · rcases List.mem_append.1 hg with hg | hg
      · exact hadded₁ g hg
      · exact hadded g (List.mem_filter.1 hg).1
    · have hothers : List.Forall₂ Function.KeepsAddresses m₁.others
          (fs.filter fun f => (Family.of? f.name).isNone) :=
        forall₂_filter (fun f f' hff' => by rw [Function.name_of_skeleton_eq hff'.skeleton]) hfs
      have hsplit : m₂.others = fs.filter (fun f => (Family.of? f.name).isNone) ++
          added.filter fun f => (Family.of? f.name).isNone := by
        rw [others, hfunctions, List.filter_append]
      rw [hsplit, ← List.append_assoc]
      refine List.rel_append (forall₂_trans (fun _ _ _ => .trans) h₁ hothers) ?_
      exact List.forall₂_same.2 fun f _ => .refl f

theorem after {v : Visit} (hl : l ∈ s.lowerings) (hv : v.Of l) (h : Addressed o v.module) :
    Addressed o v.after := by
  refine h.step v.replacement.declared.toList (sameGround_replaceCall ..).globals ?_
    (fun g hg => Settings.blocks_of_declared hl hv.replace (Option.mem_toList.1 hg))
    (functions_replaceCall ..)
  refine forall₂_modify .refl fun f hf => ?_
  obtain rfl := Option.some.inj (hf.symm.trans hv.function)
  exact .of_visit hl hv

theorem dropCast {e : Nat × TempId} (hq : m.CastsQueued (e :: q)) (h : Addressed o m) :
    Addressed o (m.dropCast e) := by
  refine h.step [] (sameGround_dropCast m e).globals ?_ (fun g hg => nomatch hg)
    (List.append_nil _).symm
  rcases hq.functions_dropCast with hsame | ⟨f, value, ty, hf, -, hedit, hset⟩
  · rw [hsame]
    exact List.forall₂_same.2 fun f _ => .refl f
  · rw [hset, List.set_eq_modify]
    refine forall₂_modify .refl fun f' hf' => ?_
    obtain rfl := Option.some.inj (hf.symm.trans hf')
    exact .of_dropped hedit

theorem eraseFunction {n : String} {k : Family} (hk : Family.of? n = some k) (h : Addressed o m) :
    Addressed o (m.eraseFunction n) where
  globals := h.globals
  functions := by
    have hothers : (m.eraseFunction n).others = m.others := by
      refine filter_eraseP (fun f hf => ?_) _
      rw [beq_iff_eq.1 hf, hk]
      rfl
    rw [hothers]
    exact h.functions

end Addressed

theorem keeps_addressed (hl : l ∈ s.lowerings) (m : Module) :
    l.Keeps m fun m q _ => Addressed o m ∧ m.CastsQueued q where
  replace hv _ h := ⟨h.1.after hl hv, h.2.after hl hv⟩
  drop he h := ⟨h.1.dropCast h.2, h.2.dropCast he⟩
  erase hn h := ⟨h.1.eraseFunction (mem_namesIn.1 hn).1, fun _ he => nomatch he⟩

/-- No operand and no initial value is a function of a family. -/
def Unmentioned (m : Module) : Prop :=
  (∀ f ∈ m.functions, ∀ i ∈ f.instructions, ∀ n, .function n ∈ i.operands → Family.of? n = none) ∧
    ∀ g ∈ m.globals, ∀ n, g.init = some (.function n) → Family.of? n = none

theorem addressCount_pos_iff {is : List Instruction} {n : String} :
    0 < addressCount is n ↔ ∃ i ∈ is, n ∈ i.addresses := by
  rw [addressCount, List.count_pos_iff, List.mem_flatMap]

/-- **What becomes of addresses.**  The checked lowering leaves no function of a family and no call
to one, but it does not look at addresses.  The initial values of global variables stay as they are.
No function takes an address more often than before, and each keeps those that it takes in
instructions other than casts and calls of the families, or in funnel shifts.  So a module that
takes no address of a function of a family has none in the end, in any operand or initial
value. -/
theorem addresses_of_lowerIntrinsics (s : Settings) (hs : s.verify = true) (m m' : Module)
    (c : Bool) (h : (m.lowerIntrinsics s).result = .ok (c, m')) :
    (∀ f' ∈ m'.functions, Family.of? f'.name = none ∧
      ∀ i ∈ f'.instructions, ∀ n, i.callee? = some n → Family.of? n = none) ∧
    m'.globals = m.globals ∧
    (∃ fs added, m'.functions = fs ++ added ∧ (∀ g ∈ added, g.blocks = []) ∧
      List.Forall₂ (fun f f' => f'.skeleton = f.skeleton ∧ ∀ n,
        addressCount f'.instructions n ≤ addressCount f.instructions n ∧
        lastingCount f.instructions n ≤ addressCount f'.instructions n) m.others fs) ∧
    ((∀ f ∈ m.others, ∀ i ∈ f.instructions, ∀ n ∈ i.addresses, Family.of? n = none) →
      (∀ g ∈ m.globals, ∀ n, g.init = some (.function n) → Family.of? n = none) →
      m'.Unmentioned) := by
  have hrun := runLowerings_of_lowerIntrinsics h
  have hnames := residual?_eq_none_iff.1 (residual?_of_lowerIntrinsics hs h)
  obtain ⟨⟨hglobals, added, hadded, hfunctions⟩, -⟩ := keeps_runLowerings []
    (fun l hl m _ _ => keeps_addressed hl m) hrun ⟨Addressed.refl m, fun _ he => nomatch he⟩
  have hall : m'.others = m'.functions :=
    List.filter_eq_self.2 fun f hf => by rw [(hnames f hf).1]; rfl
  rw [hall] at hfunctions
  refine ⟨hnames, hglobals, ?_, fun haddresses hinit => ⟨fun f' hf' i hi n hn => ?_, ?_⟩⟩
  · obtain ⟨fs, added', hsplit, hfs, hadded'⟩ := exists_of_forall₂_append hfunctions.flip
    refine ⟨fs, added', hsplit, fun g' hg' => ?_, hfs.flip.imp fun f f' hff' => ?_⟩
    · obtain ⟨g, hg, hgg'⟩ := exists_of_forall₂_mem hadded'.flip hg'
      have hblocks := congrArg Function.blocks hgg'.skeleton
      simpa [Function.skeleton, hadded g hg] using hblocks
    · refine ⟨hff'.skeleton, fun n => ⟨hff'.addresses n, ?_⟩⟩
      exact (hff'.lasting n).trans (lastingCount_le _ n)
  · rcases Instruction.function_mem_operands.1 hn with hcall | haddress
    · exact (hnames f' hf').2 i hi n hcall
    · obtain ⟨f, hf, hff'⟩ := exists_of_forall₂_mem hfunctions hf'
      obtain ⟨j, hj, hn⟩ := addressCount_pos_iff.1 (Nat.lt_of_lt_of_le
        (addressCount_pos_iff.2 ⟨i, hi, haddress⟩) (hff'.addresses n))
      rcases List.mem_append.1 hf with hf | hf
      · exact haddresses f hf j hj n hn
      · simp [Function.instructions, hadded f hf] at hj
  · rwa [hglobals]

/-- A kernel that stores the address of a marker that it calls, which is also the initial value of a
global variable. -/
def handlers : Module where
  name := "handlers"
  functions := [.declare "llvm.lifetime.start.p0i8" .void [.int 64, .ptr (.int 8)],
    { name := "kernel", returnType := .void
      params := [(0, .ptr (.ptr (.int 8))), (1, .ptr (.int 8))]
      blocks := [⟨0, [
        .call none (.function "llvm.lifetime.start.p0i8") [.const 4, .temp 1] .void none,
        .store (.function "llvm.lifetime.start.p0i8") (.temp 0), .ret none]⟩] }]
  globals := [⟨"handler", .ptr (.int 8), false, some (.function "llvm.lifetime.start.p0i8"),
    .internal⟩]

/-- The marker is gone, and its address is still stored. -/
theorem addresses_of_lowerIntrinsics_handlers :
    ∃ m', (handlers.lowerIntrinsics {}).result = .ok (true, m') ∧ m'.globals = handlers.globals ∧
      ∃ fs added, m'.functions = fs ++ added ∧ List.Forall₂
        (fun f f' => ∀ n, lastingCount f.instructions n ≤ addressCount f'.instructions n)
        handlers.others fs := by
  obtain ⟨m', h⟩ : ∃ m', (handlers.lowerIntrinsics {}).result = .ok (true, m') :=
    exists_eq_ok_of_flag (by decide +kernel)
  obtain ⟨-, hglobals, ⟨fs, added, hsplit, -, hfs⟩, -⟩ :=
    addresses_of_lowerIntrinsics {} rfl handlers m' true h
  exact ⟨m', h, hglobals, fs, added, hsplit, hfs.imp fun f f' hff' n => (hff'.2 n).2⟩

/-- The final check does not see addresses. -/
theorem not_unmentioned_handlers :
    ∃ m', (handlers.lowerIntrinsics {}).result = .ok (true, m') ∧ ¬ m'.Unmentioned := by
  refine ⟨_, rfl, fun h => ?_⟩
  have hnone := h.1 _ List.mem_cons_self (.store (.function "llvm.lifetime.start.p0i8") (.temp 0))
    List.mem_cons_self "llvm.lifetime.start.p0i8" List.mem_cons_self
  exact absurd hnone (by decide +kernel)

end Module

end KernelIR

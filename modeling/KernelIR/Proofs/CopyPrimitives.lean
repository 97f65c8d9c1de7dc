import KernelIR.Proofs.Completeness
import KernelIR.Proofs.Visits

/-!
# The functions that copies call

A run of the lowering of copies declares one function for each spelling of an element type, for the
element that it meets first (`BlockCopy.function?_of_run`).  All copies whose elements have the same
spelling call that function.  So every copy calls a function for its own element type if, and only
if, no two elements of the run are spelled alike, and elements can be: the spelling of a struct does
not say whether it is packed.
-/

namespace KernelIR

/-- An external function that takes two pointers to objects of the type, an alignment and a flag. -/
def Function.CopiesOne (g : Function) (t : Ty) : Prop :=
  g.isDeclaration = true ∧ g.returnType = .void ∧
    g.params.map (·.2) = [.ptr t, .ptr t, .int 32, .int 32]

namespace BlockCopy

variable {base : String} {m m' : Module} {call : Call} {r : Replacement}

/-! ### Names -/

/-- Whether the name of the function starts as those of the copying functions do. -/
def named (base : String) (f : Function) : Bool :=
  (base ++ ".").toList.isPrefixOf f.name.toList

theorem named_primitive (base : String) (t : Ty) : named base (primitive base t) = true := by
  rw [named, List.isPrefixOf_iff_prefix]
  refine ⟨(Ty.ptr t).mangle.toList, ?_⟩
  simp [primitive, Function.declare]

/-- The functions for two elements have the same name if the elements are spelled alike. -/
theorem name_primitive_eq_iff {t u : Ty} :
    (primitive base t).name = (primitive base u).name ↔ t.mangle = u.mangle := by
  simp only [primitive, Function.declare, Ty.mangle]
  constructor
  · intro h
    simpa [← String.toList_inj] using h
  · intro h
    rw [h]

theorem copiesOne_primitive (base : String) (t : Ty) : (primitive base t).CopiesOne t :=
  ⟨rfl, rfl, rfl⟩

theorem eq_of_copiesOne {g : Function} {t u : Ty} (ht : g.CopiesOne t) (hu : g.CopiesOne u) :
    t = u := by
  have h := ht.2.2.symm.trans hu.2.2
  simpa using h

/-! ### The functions for a list of elements -/

/-- Declares the function for an element, if there is none of its name. -/
def addPrimitive (base : String) (fs : List Function) (t : Ty) : List Function :=
  if fs.any (·.name == (primitive base t).name) then fs else fs ++ [primitive base t]

/-- The functions that are declared for elements one after the other. -/
def primitives (base : String) (ts : List Ty) : List Function := ts.foldl (addPrimitive base) []

theorem primitives_concat (base : String) (ts : List Ty) (t : Ty) :
    primitives base (ts ++ [t]) = addPrimitive base (primitives base ts) t := by
  simp [primitives, List.foldl_append]

theorem exists_of_mem_primitives {ts : List Ty} {g : Function} (hg : g ∈ primitives base ts) :
    ∃ t ∈ ts, g = primitive base t := by
  induction ts using List.reverseRecOn with
  | nil => exact nomatch hg
  | append_singleton ts t ih =>
    have hcases : g ∈ primitives base ts ∨ g = primitive base t := by
      rw [primitives_concat, addPrimitive] at hg
      split at hg
      · exact .inl hg
      · simpa using hg
    rcases hcases with hg | rfl
    · obtain ⟨u, hu, rfl⟩ := ih hg
      exact ⟨u, List.mem_append_left _ hu, rfl⟩
    · exact ⟨t, by simp, rfl⟩

/-- The function of a name is that for the first element with the spelling. -/
theorem find?_primitives (base : String) (ts : List Ty) (u : Ty) :
    (primitives base ts).find? (·.name == (primitive base u).name) =
      (ts.find? (·.mangle == u.mangle)).map (primitive base) := by
  induction ts using List.reverseRecOn generalizing u with
  | nil => rfl
  | append_singleton ts t ih =>
    rw [primitives_concat, addPrimitive, List.find?_append, Option.map_or]
    have ht : ((primitive base t).name == (primitive base u).name) = (t.mangle == u.mangle) := by
      rw [Bool.eq_iff_iff, beq_iff_eq, beq_iff_eq, name_primitive_eq_iff]
    split
    · next hany =>
      rw [ih]
      cases hfind : ts.find? (·.mangle == u.mangle) with
      | some w => rfl
      | none =>
        -- the name is taken, so an element before has the spelling of `t`
        have hne : (t.mangle == u.mangle) = false := by
          rw [beq_eq_false_iff_ne]
          intro he
          have hnone : (primitives base ts).find? (·.name == (primitive base t).name) = none := by
            rw [ih, he, hfind]
            rfl
          obtain ⟨g, hg, hname⟩ := List.any_eq_true.1 hany
          exact List.find?_eq_none.1 hnone g hg hname
        simp [hne]
    · rw [List.find?_append, ih, List.find?_singleton, List.find?_singleton, ht]
      cases t.mangle == u.mangle <;> rfl

/-! ### The elements of a run -/

/-- The type of the elements of a copy, unless it copies nothing. -/
def element? (m : Module) (call : Call) : Option Ty :=
  match ofCall m call with
  | .error _ => none
  | .ok req =>
    if req.bytes = 0 then none
    else (matchTypes m.layout req.dest.pointee req.src.pointee req.bytes).result.toOption.map
      (·.element)

/-- A copy of at least one element calls the function for it. -/
theorem exists_copyCall_mem_code (base : String) {c : Copy} (hpos : 0 < c.count) (first : Nat) :
    ∃ dest src, copyCall base c dest src ∈ code base c first := by
  unfold code
  split
  · exact ⟨_, _, List.mem_cons_self⟩
  · exact ⟨_, _, List.mem_flatMap.2 ⟨0, List.mem_range.2 hpos, .tail _ (.tail _ (.head _))⟩⟩

/-- What a copy declares and calls: nothing if it copies nothing, or else the function for its
element. -/
theorem element?_eq (h : (replace base m call).result = .ok r) :
    element? m call = none ∧ r.code = [] ∧ r.declared = none ∨
    ∃ t, element? m call = some t ∧ r.declared = missing? m (primitive base t) ∧
      (∃ i ∈ r.code, i.callee? = some (primitive base t).name) ∧
      ∀ i ∈ r.code, ∀ n, i.callee? = some n → n = (primitive base t).name := by
  obtain ⟨req, hreq, ⟨hzero, rfl⟩ | ⟨hne, shape, c, first, hshape, hc, -, rfl⟩⟩ := replace_eq_ok.1 h
  · refine .inl ⟨?_, rfl, rfl⟩
    simp only [element?, hreq, if_pos hzero]
  · obtain ⟨rfl, rfl, bits, -, hpos, hmod, hcount, -⟩ := divide_eq_ok hc
    refine .inr ⟨c.shape.element, ?_, rfl, ?_, fun i hi n hn => ?_⟩
    · simp only [element?, hreq, if_neg hne, hshape]
      rfl
    · have hle : bits / 8 ≤ c.request.bytes :=
        Nat.le_of_dvd (Nat.pos_of_ne_zero hne) (Nat.dvd_of_mod_eq_zero hmod)
      obtain ⟨dest, src, hmem⟩ :=
        exists_copyCall_mem_code base (hcount ▸ Nat.div_pos hle hpos : 0 < c.count) first
      exact ⟨_, hmem, rfl⟩
    · obtain ⟨result, ptr, indices, ty, rfl⟩ | ⟨dest, src, rfl⟩ := mem_code hi
      · exact nomatch hn
      · exact (Option.some.inj hn).symm

/-- The elements of several visits. -/
def elements (vs : List Visit) : List Ty := vs.filterMap fun v => element? v.module v.call

theorem elements_concat (vs : List Visit) (v : Visit) :
    elements (vs ++ [v]) = elements vs ++ (element? v.module v.call).toList := by
  rw [elements, List.filterMap_append]
  cases h : element? v.module v.call <;> simp [elements, h]

theorem filter_named_set {fs : List Function} {n : Nat} {f f' : Function} (hf : fs[n]? = some f)
    (h : named base f = false) (h' : named base f' = false) :
    (fs.set n f').filter (named base) = fs.filter (named base) := by
  obtain ⟨fs₁, fs₂, rfl, rfl⟩ := exists_append_of_getElem? hf
  simp [h, h']

theorem function?_primitive (m : Module) (base : String) (t : Ty) :
    m.function? (primitive base t).name =
      (m.functions.filter (named base)).find? (·.name == (primitive base t).name) := by
  rw [List.find?_filter]
  refine List.find?_congr fun f _ => ?_
  by_cases hname : f.name = (primitive base t).name
  · have hnamed : named base f = true := by
      rw [named, hname]
      exact named_primitive base t
    simp [hname, hnamed]
  · simp [hname]

/-- A function of the name of a copying function has no blocks, so that no call stands in it. -/
theorem named_caller {v : Visit} {l : Lowering} {ts : List Ty} (hv : v.Of l)
    (h : v.module.functions.filter (named base) = primitives base ts) :
    named base v.call.caller = false := by
  by_contra hnamed
  have hmem : v.call.caller ∈ v.module.functions.filter (named base) :=
    List.mem_filter.2 ⟨hv.caller_mem, by simpa using hnamed⟩
  rw [h] at hmem
  obtain ⟨t, -, ht⟩ := exists_of_mem_primitives hmem
  obtain ⟨b, hb, -⟩ := hv.instruction
  rw [ht] at hb
  exact nomatch hb

/-- A visit declares the function for its element, unless there is one of the name. -/
theorem filter_named_after {v : Visit} {vs : List Visit} (hv : v.Of (Lowering.blockCopy base))
    (h : v.module.functions.filter (named base) = primitives base (elements vs)) :
    v.after.functions.filter (named base) = primitives base (elements (vs ++ [v])) := by
  have hcaller := named_caller hv h
  have hrewritten : named base v.rewritten = false := by
    rw [named, Function.name_of_skeleton_eq hv.replacedBy.skeleton]
    exact hcaller
  rw [hv.functions_after, List.filter_append, filter_named_set hv.function hcaller hrewritten, h,
    elements_concat]
  rcases element?_eq hv.replace with ⟨hnone, -, hdeclared⟩ | ⟨t, ht, hdeclared, -, -⟩
  · simp [hnone, hdeclared]
  · rw [ht, Option.toList_some, primitives_concat, addPrimitive, hdeclared, missing?,
      function?_primitive, h]
    by_cases hany : (primitives base (elements vs)).any (·.name == (primitive base t).name) = true
    · have hfound : ((primitives base (elements vs)).find?
          (·.name == (primitive base t).name)).isSome = true := by
        simpa [List.find?_isSome] using hany
      simp [hany, hfound]
    · have hfound : ((primitives base (elements vs)).find?
          (·.name == (primitive base t).name)).isSome = false := by
        simpa [List.find?_isSome] using hany
      simp [hany, hfound, named_primitive]

/-- Dropping casts does not touch functions without blocks. -/
theorem filter_named_dropCast {ts : List Ty} (e : Nat × TempId)
    (h : m.functions.filter (named base) = primitives base ts) :
    (m.dropCast e).functions.filter (named base) = primitives base ts := by
  rcases Module.functions_dropCast m e with hsame | ⟨f, hf, -, hset⟩
  · rw [hsame, h]
  · have hname : named base (f.eraseDef e.2) = named base f := rfl
    by_cases hnamed : named base f = true
    · have hmem : f ∈ m.functions.filter (named base) :=
        List.mem_filter.2 ⟨List.mem_of_getElem? hf, hnamed⟩
      rw [h] at hmem
      obtain ⟨t, -, rfl⟩ := exists_of_mem_primitives hmem
      have herase : (primitive base t).eraseDef e.2 = primitive base t := rfl
      obtain ⟨hn, hget⟩ := List.getElem?_eq_some_iff.1 hf
      rw [hset, herase, ← hget, List.set_getElem_self, h]
    · rw [Bool.not_eq_true] at hnamed
      rw [hset, filter_named_set hf hnamed (hname.trans hnamed), h]

/-- Every step of the run keeps the functions for the elements so far. -/
theorem keeps_primitives (hfree : ∀ f ∈ m.functions, named base f = false) :
    (Lowering.blockCopy base).Keeps m fun m₁ _ vs =>
      m₁.functions.filter (named base) = primitives base (elements vs) where
  replace hv _ h := filter_named_after hv h
  drop _ h := filter_named_dropCast _ h
  erase {m₁ n vs} hn h := by
    obtain ⟨-, f, hf, rfl⟩ := Module.mem_namesIn.1 hn
    rw [Module.eraseFunction, filter_eraseP (fun g hg => ?_), h]
    rw [named, beq_iff_eq.1 hg]
    exact hfree f hf

/-- After a run, a name of a copying function is that of the function for the first element with its
spelling. -/
theorem function?_of_run (hfree : ∀ f ∈ m.functions, named base f = false) {c : Bool}
    (h : ((Lowering.blockCopy base).run m).result = .ok (c, m')) (t : Ty) :
    m'.function? (primitive base t).name =
      ((elements ((Lowering.blockCopy base).visits m)).find? (·.mangle == t.mangle)).map
        (primitive base) := by
  have hstart : m.functions.filter (named base) = primitives base (elements []) :=
    List.filter_eq_nil_iff.2 fun f hf => by simp [hfree f hf]
  have hend := (keeps_primitives hfree).run h hstart
  rw [function?_primitive, hend, List.nil_append, find?_primitives]

/-! ### Calls of the right type -/

/-- The run gives every copy a call to a function for its element type. -/
def CallsOwnPrimitives (vs : List Visit) (m' : Module) : Prop :=
  ∀ v ∈ vs, ∀ t, element? v.module v.call = some t → ∀ i ∈ v.replacement.code, ∀ n,
    i.callee? = some n → ∃ g, m'.function? n = some g ∧ g.CopiesOne t

theorem mem_elements {vs : List Visit} {t : Ty} :
    t ∈ elements vs ↔ ∃ v ∈ vs, element? v.module v.call = some t :=
  List.mem_filterMap

/-- Each call of a copy is to the function for the first element that is spelled like its own. -/
theorem exists_first_of_run (hfree : ∀ f ∈ m.functions, named base f = false) {c : Bool}
    (h : ((Lowering.blockCopy base).run m).result = .ok (c, m')) {v : Visit}
    (hv : v ∈ (Lowering.blockCopy base).visits m) {i : Instruction} (hi : i ∈ v.replacement.code)
    {n : String} (hn : i.callee? = some n) :
    ∃ t u, element? v.module v.call = some t ∧
      (elements ((Lowering.blockCopy base).visits m)).find? (·.mangle == t.mangle) = some u ∧
      m'.function? n = some (primitive base u) := by
  rcases element?_eq (Lowering.of_mem_visits hv).1.replace with
    ⟨-, hcode, -⟩ | ⟨t, ht, -, -, hcallee⟩
  · rw [hcode] at hi
    exact nomatch hi
  · obtain ⟨u, hu⟩ := Option.isSome_iff_exists.1
      (List.find?_isSome (p := fun u : Ty => u.mangle == t.mangle) |>.2
        ⟨t, mem_elements.2 ⟨v, hv, ht⟩, beq_self_eq_true _⟩)
    refine ⟨t, u, ht, hu, ?_⟩
    rw [hcallee i hi n hn, function?_of_run hfree h, hu, Option.map_some]

theorem callsOwnPrimitives_iff (hfree : ∀ f ∈ m.functions, named base f = false) {c : Bool}
    (h : ((Lowering.blockCopy base).run m).result = .ok (c, m')) :
    CallsOwnPrimitives ((Lowering.blockCopy base).visits m) m' ↔
      ∀ t ∈ elements ((Lowering.blockCopy base).visits m),
        ∀ u ∈ elements ((Lowering.blockCopy base).visits m), t.mangle = u.mangle → t = u := by
  constructor
  · intro hcalls
    -- every element is that of a copy that calls the function of its name
    have hown : ∀ t ∈ elements ((Lowering.blockCopy base).visits m),
        ∃ g, m'.function? (primitive base t).name = some g ∧ g.CopiesOne t := by
      intro t ht
      obtain ⟨v, hv, hvt⟩ := mem_elements.1 ht
      rcases element?_eq (Lowering.of_mem_visits hv).1.replace with
        ⟨hnone, -⟩ | ⟨t', ht', -, ⟨i, hi, hn⟩, -⟩
      · exact nomatch hnone.symm.trans hvt
      · obtain rfl : t' = t := Option.some.inj (ht'.symm.trans hvt)
        exact hcalls v hv t' hvt i hi _ hn
    intro t ht u hu hmangle
    obtain ⟨g, hg, hgt⟩ := hown t ht
    obtain ⟨g', hg', hgu⟩ := hown u hu
    rw [name_primitive_eq_iff.2 hmangle, hg'] at hg
    obtain rfl := Option.some.inj hg
    exact eq_of_copiesOne hgt hgu
  · intro hinj v hv t ht i hi n hn
    obtain ⟨t', u, ht', hu, hfunction⟩ := exists_first_of_run hfree h hv hi hn
    obtain rfl : t' = t := Option.some.inj (ht'.symm.trans ht)
    have hmangle : u.mangle = t'.mangle := by
      simpa using List.find?_some (p := fun u : Ty => u.mangle == t'.mangle) hu
    obtain rfl := hinj u (List.mem_of_find?_eq_some hu) t' (mem_elements.2 ⟨v, hv, ht⟩) hmangle
    exact ⟨_, hfunction, copiesOne_primitive base u⟩

/-- **The functions that copies call.**  In a module without functions under names of copying
functions, every call of a copy is, after the run, to an external function that copies one object of
the first element type that is spelled like its own.  So all of them are to functions of the right
type if, and only if, no two element types of the run are spelled alike. -/
theorem function?_of_run_blockCopy (base : String) (m m' : Module) (c : Bool)
    (hfree : ∀ f ∈ m.functions, named base f = false)
    (h : ((Lowering.blockCopy base).run m).result = .ok (c, m')) :
    (∀ v ∈ (Lowering.blockCopy base).visits m, ∀ i ∈ v.replacement.code, ∀ n,
      i.callee? = some n → ∃ t u, element? v.module v.call = some t ∧
        (elements ((Lowering.blockCopy base).visits m)).find? (·.mangle == t.mangle) = some u ∧
        m'.function? n = some (primitive base u) ∧ (primitive base u).CopiesOne u) ∧
    (CallsOwnPrimitives ((Lowering.blockCopy base).visits m) m' ↔
      ∀ t ∈ elements ((Lowering.blockCopy base).visits m),
        ∀ u ∈ elements ((Lowering.blockCopy base).visits m), t.mangle = u.mangle → t = u) := by
  refine ⟨fun v hv i hi n hn => ?_, callsOwnPrimitives_iff hfree h⟩
  obtain ⟨t, u, ht, hu, hfunction⟩ := exists_first_of_run hfree h hv hi hn
  exact ⟨t, u, ht, hu, hfunction, copiesOne_primitive base u⟩

/-- A record, with or without space between its fields. -/
def record (packed : Bool) : Ty := .struct none [.int 8, .int 32] packed

/-- A kernel that copies a record with space and then one without. -/
def recordCopies : Module where
  name := "records"
  functions := [.declare "llvm.memcpy" .void [.ptr (.int 8), .ptr (.int 8), .int 64, .int 1],
    { name := "kernel", returnType := .void
      params := [(0, .ptr (record false)), (1, .ptr (record false)), (2, .ptr (record true)),
        (3, .ptr (record true))]
      blocks := [⟨0, [.cast 4 (.temp 0) (.ptr (.int 8)), .cast 5 (.temp 1) (.ptr (.int 8)),
        .call none (.function "llvm.memcpy") [.temp 4, .temp 5, .const 8, .const 0] .void (some 4),
        .cast 6 (.temp 2) (.ptr (.int 8)), .cast 7 (.temp 3) (.ptr (.int 8)),
        .call none (.function "llvm.memcpy") [.temp 6, .temp 7, .const 5, .const 0] .void (some 4),
        .ret none]⟩] }]

/-- Both records are spelled alike; the packed one comes first, since calls are lowered from the
last. -/
theorem elements_recordCopies :
    elements ((Lowering.blockCopy "spirv.copy_memory").visits recordCopies) =
      [record true, record false] := by
  decide +kernel

theorem free_recordCopies :
    ∀ f ∈ recordCopies.functions, named "spirv.copy_memory" f = false := by
  decide +kernel

theorem function?_of_run_blockCopy_recordCopies :
    (∀ f ∈ recordCopies.functions, named "spirv.copy_memory" f = false) ∧
    ∃ m', ((Lowering.blockCopy "spirv.copy_memory").run recordCopies).result = .ok (true, m') ∧
      ∀ v ∈ (Lowering.blockCopy "spirv.copy_memory").visits recordCopies,
        ∀ i ∈ v.replacement.code, ∀ n, i.callee? = some n →
          m'.function? n = some (primitive "spirv.copy_memory" (record true)) := by
  obtain ⟨m', h⟩ : ∃ m', ((Lowering.blockCopy "spirv.copy_memory").run recordCopies).result =
      .ok (true, m') := Module.exists_eq_ok_of_flag (by decide +kernel)
  refine ⟨free_recordCopies, m', h, fun v hv i hi n hn => ?_⟩
  obtain ⟨t, u, ht, hu, hfunction, -⟩ := (function?_of_run_blockCopy "spirv.copy_memory"
    recordCopies m' true free_recordCopies h).1 v hv i hi n hn
  have hmem : t ∈ elements _ := mem_elements.2 ⟨v, hv, ht⟩
  rw [elements_recordCopies] at hmem hu
  have hmangle : ∀ packed, (record packed).mangle = "s.i8.i32" := by decide +kernel
  obtain ⟨packed, rfl⟩ : ∃ packed, t = record packed := by
    rcases List.mem_cons.1 hmem with rfl | hmem
    · exact ⟨true, rfl⟩
    · exact ⟨false, List.mem_singleton.1 hmem⟩
  obtain rfl : record true = u := by simpa [hmangle] using hu
  exact hfunction

/-- The copy of the record with space calls the function for packed records. -/
theorem not_callsOwnPrimitives_recordCopies :
    Family.of? ("spirv.copy_memory" ++ ".") = none ∧
    (∀ f ∈ recordCopies.functions, named "spirv.copy_memory" f = false) ∧
    ∃ m', ((Lowering.blockCopy "spirv.copy_memory").run recordCopies).result = .ok (true, m') ∧
      ¬ CallsOwnPrimitives ((Lowering.blockCopy "spirv.copy_memory").visits recordCopies) m' := by
  obtain ⟨m', h⟩ : ∃ m', ((Lowering.blockCopy "spirv.copy_memory").run recordCopies).result =
      .ok (true, m') := Module.exists_eq_ok_of_flag (by decide +kernel)
  refine ⟨by decide +kernel, free_recordCopies, m', h, ?_⟩
  rw [callsOwnPrimitives_iff free_recordCopies h, elements_recordCopies]
  intro hinj
  have hsame := hinj (record true) (by simp) (record false) (by simp) (by decide +kernel)
  exact absurd hsame (by decide +kernel)

end BlockCopy

end KernelIR

import KernelIR.Proofs.FunnelShift
import KernelIR.Proofs.Visits

/-!
# The lowering keeps functions well-formed

What a lowering puts in the place of a call fits there: its temporaries are new, and it reads only
what is defined before the call (`Lowering.FitsCalls`).  For fills and copies this includes the
pointer behind a cast, which is defined before the cast.  So every edit keeps a function
well-formed, and the whole lowering does; it also keeps the names of the functions apart
(`Module.wellFormed_of_lowerIntrinsics`).
-/

namespace KernelIR

/-! ### What is defined before a call -/

namespace Function

variable {m : Module} {f : Function} {pre post code : List Instruction} {i : Instruction}
  {count base : Nat}

theorem WellFormed.mem_before_of_operand (hf : f.WellFormed)
    (h : f.instructions = pre ++ i :: post) {v : Value} (hv : v ∈ i.operands) {t : TempId}
    (ht : v.temp? = some t) : t ∈ f.params.map (·.1) ++ defined pre := by
  have hreads := hf.reads
  rw [h, readsDefined_append, ReadsDefined] at hreads
  exact hreads.2.1 t (Instruction.mem_reads.2 ⟨v, hv, ht⟩)

/-- The pointer behind an operand is defined before the instruction, as the cast is. -/
theorem WellFormed.mem_before_of_source (hf : f.WellFormed)
    (h : f.instructions = pre ++ i :: post) {v : Value} (hv : v ∈ i.operands)
    {r : Reinterpretation} (hr : m.reinterpretation? f v = some r) {t : TempId}
    (ht : r.source.temp? = some t) : t ∈ f.params.map (·.1) ++ defined pre := by
  obtain ⟨rfl, -, ty, -, hdef⟩ := Module.reinterpretation?_eq_some hr
  have hmem : r.cast ∈ defined f.instructions :=
    List.mem_filterMap.2 ⟨_, List.mem_of_find?_eq_some hdef, rfl⟩
  have hpre : r.cast ∈ defined pre := by
    rcases List.mem_append.1 (hf.mem_before_of_operand h hv rfl) with hparam | hpre
    · exact absurd rfl ((List.nodup_append.1 hf.nodup).2.2 r.cast hparam r.cast hmem)
    · exact hpre
  -- so the first definition of the operand stands before the instruction
  obtain ⟨j, hj, hjt⟩ := List.mem_filterMap.1 hpre
  obtain ⟨k, hk⟩ := Option.isSome_iff_exists.1
    (List.find?_isSome (p := fun i => i.result? == some r.cast) |>.2 ⟨j, hj, by simp [hjt]⟩)
  have hcast : .cast r.cast r.source ty ∈ pre := by
    rw [findDef?, h, List.find?_append, hk, Option.some_or] at hdef
    exact Option.some.inj hdef ▸ List.mem_of_find?_eq_some hk
  have hreads := hf.reads
  rw [h, readsDefined_append] at hreads
  exact hreads.1.mem_of_reads hcast (Instruction.mem_reads.2 ⟨r.source, by
    simp [Instruction.operands], ht⟩)

/-- Code with reserved temporaries fits in the place of an instruction without a result. -/
theorem fits_reserved (hi : i.result? = none) (hbase : f.reserve? count = some base)
    (hdefined : defined code = tempsFrom base count)
    (hreads : ReadsDefined (f.params.map (·.1) ++ defined pre) code) : f.Fits pre i code none := by
  refine ⟨fun t ht => ?_, ?_, hreads, fun t _ => rfl, fun t ht => ?_⟩
  · exact not_mem_tempIds_of_reserve? hbase (hdefined ▸ ht)
  · rw [hdefined]
    exact nodup_tempsFrom (reserve?_eq_some hbase).2
  · exact nomatch hi.symm.trans ht

/-- An instruction without a result can be left out. -/
theorem fits_nil (hi : i.result? = none) : f.Fits pre i [] none :=
  ⟨by simp [defined], .nil, trivial, fun _ _ => rfl, fun _ ht => nomatch hi.symm.trans ht⟩

end Function

/-! ### Fills -/

namespace ZeroFill

theorem defined_code (f : Fill) (base : Nat) :
    defined (code f base) = Function.tempsFrom base f.count := by
  simp [defined, code, store, List.filterMap_flatMap, Function.tempsFrom, Instruction.result?,
    List.map_eq_flatMap]

theorem readsDefined_code {f : Fill} {defs : List TempId}
    (h : ∀ t, f.ptr.temp? = some t → t ∈ defs) (base : Nat) : ReadsDefined defs (code f base) := by
  refine readsDefined_flatMap fun i _ => ?_
  have hindex (t : TempId) : (Value.ofCount i).temp? ≠ some t := nofun
  have hzero (t : TempId) : (Value.zero f.element).temp? ≠ some t := nofun
  refine ⟨fun t ht => ?_, fun t ht => ?_, trivial⟩
  · simp only [Instruction.mem_reads, Instruction.operands, List.mem_cons, List.not_mem_nil,
      or_false, exists_eq_or_imp, exists_eq_left, hindex] at ht
    exact h t ht
  · simp only [Instruction.mem_reads, Instruction.operands, List.mem_cons, List.not_mem_nil,
      or_false, exists_eq_or_imp, exists_eq_left, hzero, false_or] at ht
    exact List.mem_append_right _ (Option.mem_toList.2 ht)

end ZeroFill

/-! ### Copies -/

namespace BlockCopy

/-- Elements with two temporaries each. -/
theorem defined_copyElements (base : String) (c : Copy) (first n : Nat) :
    defined ((List.range n).flatMap (copyElement base c first)) =
      Function.tempsFrom first (2 * n) := by
  induction n with
  | zero => rfl
  | succ n ih =>
    rw [List.range_succ, List.flatMap_append, defined_append, ih, Nat.mul_succ]
    simp [defined, copyElement, copyCall, Instruction.result?, Function.tempsFrom, List.range_succ,
      Nat.add_assoc]

theorem defined_code (base : String) (c : Copy) (first : Nat) :
    defined (code base c first) = Function.tempsFrom first c.temps := by
  unfold code Copy.temps
  split
  · rfl
  · exact defined_copyElements base c first c.count

theorem reads_copyCall {base : String} {c : Copy} {dest src : Value} {t : TempId}
    (ht : t ∈ (copyCall base c dest src).reads) : dest.temp? = some t ∨ src.temp? = some t := by
  simpa [copyCall, Instruction.mem_reads, Instruction.operands, Value.ofCount, Value.temp?] using ht

theorem reads_elementPtr {result t : TempId} {ptr : Value} {depth i : Nat} {ty : Ty}
    (ht : t ∈ (Instruction.elementPtr result ptr (indices depth i) ty).reads) :
    ptr.temp? = some t := by
  obtain ⟨v, hv, hvt⟩ := Instruction.mem_reads.1 ht
  simp only [Instruction.operands, indices, List.mem_cons, List.mem_append, List.mem_replicate,
    List.not_mem_nil, or_false] at hv
  rcases hv with rfl | ⟨-, rfl⟩ | rfl
  · exact hvt
  · cases hvt
  · cases hvt

theorem readsDefined_code {c : Copy} {defs : List TempId}
    (hdest : ∀ t, c.request.dest.source.temp? = some t → t ∈ defs)
    (hsrc : ∀ t, c.request.src.source.temp? = some t → t ∈ defs) (base : String) (first : Nat) :
    ReadsDefined defs (code base c first) := by
  unfold code
  split
  · exact ⟨fun t ht => (reads_copyCall ht).elim (hdest t) (hsrc t), trivial⟩
  · refine readsDefined_flatMap fun i _ => ⟨fun t ht => ?_, fun t ht => ?_, fun t ht => ?_, trivial⟩
    · exact hsrc t (reads_elementPtr ht)
    · exact List.mem_append_left _ (hdest t (reads_elementPtr ht))
    · -- the call reads the two addresses
      rcases reads_copyCall ht with ht | ht
      · exact List.mem_append_right _ (Option.mem_toList.2 ht)
      · exact List.mem_append_left _ (List.mem_append_right _ (Option.mem_toList.2 ht))

end BlockCopy

/-! ### What fits in the place of a call -/

namespace Lowering

/-- What the lowering puts in the place of a call fits there.  Only funnel shifts may have a
result. -/
def FitsCalls (l : Lowering) : Prop :=
  ∀ {m : Module} {call : Call} {r : Replacement} {pre post : List Instruction},
    (l.replace m call).result = .ok r → call.caller.WellFormed →
    call.caller.instructions = pre ++ call.instruction :: post →
    (l.family ≠ .funnelShift → call.result = none) →
    call.caller.Fits pre call.instruction r.code r.renamed

theorem fitsCalls_lifetime : Lowering.lifetime.FitsCalls := by
  intro m call r pre post h _ _ hresult
  obtain rfl : {} = r := Except.ok.inj h
  exact Function.fits_nil (hresult (by decide))

theorem fitsCalls_funnelShift : Lowering.funnelShift.FitsCalls := by
  intro m call r pre post h hwf hsplit _
  obtain ⟨s, base, hs, hbase, rfl⟩ := FunnelShift.replace_eq_ok.1 h
  obtain ⟨-, hty, hargs⟩ := FunnelShift.ofCall_eq_ok hs
  have hcall : call.instruction = s.call call.result call.callee call.align := by
    rw [Call.instruction, hty, hargs]
  rw [hcall] at hsplit ⊢
  exact FunnelShift.fits_code hwf hsplit hbase

theorem fitsCalls_zeroFill : Lowering.zeroFill.FitsCalls := by
  intro m call r pre post h hwf hsplit hresult
  obtain ⟨f, base, hf, hbase, rfl⟩ := ZeroFill.replace_eq_ok.1 h
  obtain ⟨-, dest, hdest, hptr⟩ := ZeroFill.destination_eq_ok (ZeroFill.ofCall_eq_ok hf).1
  have hmem : dest ∈ call.instruction.operands := .tail _ (List.mem_of_getElem? hdest)
  refine Function.fits_reserved (hresult (by decide)) hbase (ZeroFill.defined_code f base)
    (ZeroFill.readsDefined_code (fun t ht => ?_) base)
  rcases hptr with ⟨-, hptr, -⟩ | ⟨p, hp, -, hptr⟩
  · rw [hptr] at ht
    exact hwf.mem_before_of_operand hsplit hmem ht
  · rw [hptr] at ht
    exact hwf.mem_before_of_source hsplit hmem hp ht

theorem fitsCalls_blockCopy (base : String) : (Lowering.blockCopy base).FitsCalls := by
  intro m call r pre post h hwf hsplit hresult
  have hnone : call.instruction.result? = none := hresult nofun
  obtain ⟨req, hreq, ⟨-, rfl⟩ | ⟨-, shape, c, first, -, hc, hfirst, rfl⟩⟩ :=
    BlockCopy.replace_eq_ok.1 h
  · exact Function.fits_nil hnone
  · obtain ⟨rfl, rfl, -⟩ := BlockCopy.divide_eq_ok hc
    obtain ⟨hdest, hsrc⟩ := BlockCopy.ofCall_eq_ok hreq
    -- both operands are casts, and the pointers behind them are older
    have hpointer : ∀ {i : Nat} {p : Reinterpretation}, BlockCopy.pointerArg m call i = .ok p →
        ∀ t, p.source.temp? = some t → t ∈ call.caller.params.map (·.1) ++ defined pre := by
      intro i p hp t ht
      obtain ⟨v, hv, hp⟩ := BlockCopy.pointerArg_eq_ok.1 hp
      exact hwf.mem_before_of_source hsplit (.tail _ (List.mem_of_getElem? hv)) hp ht
    exact Function.fits_reserved hnone hfirst (BlockCopy.defined_code base c first)
      (BlockCopy.readsDefined_code (hpointer hdest) (hpointer hsrc) base first)

theorem fitsCalls_lowerings {s : Settings} {l : Lowering} (hl : l ∈ s.lowerings) : l.FitsCalls := by
  simp only [Settings.lowerings, List.mem_cons, List.not_mem_nil, or_false] at hl
  rcases hl with rfl | rfl | rfl | rfl
  · exact fitsCalls_lifetime
  · exact fitsCalls_funnelShift
  · exact fitsCalls_zeroFill
  · exact fitsCalls_blockCopy s.copyBase

end Lowering

/-! ### Whole modules -/

namespace Function

/-- Fills, copies and markers are called for their effect: those calls have no result. -/
def EffectOnly (f : Function) : Prop :=
  ∀ i ∈ f.instructions, ∀ k ∈ i.family?, k ≠ .funnelShift → i.result? = none

instance (f : Function) : Decidable f.EffectOnly :=
  inferInstanceAs (Decidable (∀ i ∈ f.instructions, ∀ k ∈ i.family?, k ≠ .funnelShift →
    i.result? = none))

end Function

namespace Visit

variable {s : Settings} {l : Lowering} {v : Visit}

/-- Replacing a call keeps its function well-formed. -/
theorem Of.wellFormed_rewritten (hl : l ∈ s.lowerings) (h : v.Of l)
    (hwf : v.call.caller.WellFormed) (heffect : v.call.caller.EffectOnly) :
    v.rewritten.WellFormed := by
  obtain ⟨pre, post, hsplit, hsplice⟩ := h.replacedBy.exists_instructions
  have hresult : l.family ≠ .funnelShift → v.call.result = none :=
    heffect v.call.instruction h.instruction_mem l.family h.family
  exact hwf.replace (Lowering.fitsCalls_lowerings hl h.replace hwf hsplit hresult)
    (Function.params_of_skeleton_eq h.replacedBy.skeleton) hsplit hsplice

/-- The calls that come with a replacement have no result. -/
theorem Of.effectOnly_rewritten (hl : l ∈ s.lowerings) (h : v.Of l)
    (heffect : v.call.caller.EffectOnly) : v.rewritten.EffectOnly := by
  obtain ⟨pre, post, hsplit, hsplice⟩ := h.replacedBy.exists_instructions
  have hkept : ∀ j ∈ v.call.caller.instructions, ∀ k ∈ (j.rename v.replacement.renamed).family?,
      k ≠ .funnelShift → (j.rename v.replacement.renamed).result? = none := by
    intro j hj
    rw [Instruction.family?_rename, Instruction.result?_rename]
    exact heffect j hj
  intro i hi
  rw [hsplice, List.mem_append, List.mem_append] at hi
  rcases hi with (hi | hi) | hi
  · obtain ⟨j, hj, rfl⟩ := List.mem_map.1 hi
    exact hkept j (by simp [hsplit, hj])
  · intro k hk _
    cases s.emitted_of_mem_code hl h.replace hi with
    | copy => rfl
    | binary | elementPtr | store => exact nomatch hk
  · obtain ⟨j, hj, rfl⟩ := List.mem_map.1 hi
    exact hkept j (by simp [hsplit, hj])

end Visit

namespace Module

variable {s : Settings}

/-- Every function of the module defines its temporaries once and before they are read, and has
results of calls to a family only where these are funnel shifts. -/
def WellFormed (m : Module) : Prop := ∀ f ∈ m.functions, f.WellFormed ∧ f.EffectOnly

theorem wellFormed_primitive (base : String) (element : Ty) :
    (BlockCopy.primitive base element).WellFormed := by
  refine ⟨?_, trivial⟩
  show ([0, 1, 2, 3] : List TempId).Nodup
  decide

theorem WellFormed.after {l : Lowering} {v : Visit} (hl : l ∈ s.lowerings) (hv : v.Of l)
    (h : v.module.WellFormed) : v.after.WellFormed := by
  intro g hg
  rcases hv.mem_functions_after hg with hg | rfl | hg
  · exact h g hg
  · obtain ⟨hwf, heffect⟩ := h v.call.caller hv.caller_mem
    exact ⟨hv.wellFormed_rewritten hl hwf heffect, hv.effectOnly_rewritten hl heffect⟩
  · obtain ⟨⟨element, rfl⟩, -⟩ := s.declared_eq_some hl hv.replace hg
    exact ⟨wellFormed_primitive s.copyBase element, fun i hi => nomatch hi⟩

theorem WellFormed.dropCast {m : Module} (h : m.WellFormed) (e : Nat × TempId) :
    (m.dropCast e).WellFormed := by
  intro g hg
  rcases mem_functions_dropCast hg with hg | ⟨f, hf, hu, rfl⟩
  · exact h g hg
  · obtain ⟨hwf, heffect⟩ := h f hf
    refine ⟨hwf.eraseDef hu, fun i hi => heffect i ?_⟩
    rw [Function.instructions_eraseDef] at hi
    exact List.mem_of_mem_eraseP hi

theorem WellFormed.eraseFunction {m : Module} (h : m.WellFormed) (n : String) :
    (m.eraseFunction n).WellFormed :=
  fun g hg => h g (List.mem_of_mem_eraseP hg)

theorem keeps_wellFormed {l : Lowering} (hl : l ∈ s.lowerings) (m : Module) :
    l.Keeps m fun m _ _ => m.WellFormed :=
  ⟨fun hv _ h => h.after hl hv, fun _ h => h.dropCast _, fun _ h => h.eraseFunction _⟩

/-- No function is declared under a name that is taken. -/
theorem keeps_nodup_names {l : Lowering} (hl : l ∈ s.lowerings) (m : Module) :
    l.Keeps m fun m _ _ => (m.functions.map (·.name)).Nodup := by
  refine ⟨fun {v q done} hv _ h => ?_, fun {m₁ e q done} _ h => ?_, fun {m₁ n done} _ h => ?_⟩
  · rw [hv.names_after]
    cases hd : v.replacement.declared with
    | none => simpa using h
    | some g =>
      have hfree := (s.declared_eq_some hl hv.replace hd).2
      simpa [List.nodup_append, h] using hfree
  · rwa [names_dropCast]
  · exact h.sublist (List.eraseP_sublist.map _)

/-- **The lowering keeps well-formed modules well-formed.**  If every function defines each
temporary once and before it is read, and only funnel shifts have results among the calls to names of
the families, then every function of the lowered module defines each temporary once and before it is
read.  No two functions have the same name if no two had before. -/
theorem wellFormed_of_lowerIntrinsics (s : Settings) (m m' : Module) (c : Bool)
    (h : (m.lowerIntrinsics s).result = .ok (c, m')) (hwf : ∀ f ∈ m.functions, f.WellFormed)
    (heffect : ∀ f ∈ m.functions, f.EffectOnly) :
    (∀ f' ∈ m'.functions, f'.WellFormed) ∧
      ((m.functions.map (·.name)).Nodup → (m'.functions.map (·.name)).Nodup) := by
  obtain ⟨lowered, hrun, -, rfl⟩ := lowerIntrinsics_eq_ok.1 h
  cases c with
  | false => exact ⟨hwf, id⟩
  | true =>
    have hlowered : lowered.WellFormed := keeps_runLowerings []
      (fun l hl m _ _ => keeps_wellFormed hl m) hrun fun f hf => ⟨hwf f hf, heffect f hf⟩
    refine ⟨fun f' hf' => (hlowered f' hf').1, fun hnodup => ?_⟩
    exact keeps_runLowerings [] (fun l hl m _ _ => keeps_nodup_names hl m) hrun hnodup

/-- A kernel that marks, clears and copies a row through the same casts, and shifts a word twice,
the second time by the result of the first. -/
def clearedRow : Module where
  name := "rows"
  functions := [.declare "llvm.lifetime.start" .void [.int 64, .ptr (.int 8)],
    .declare "llvm.memset" .void [.ptr (.int 8), .int 8, .int 64, .int 1],
    { name := "kernel", returnType := .int 32
      params := [(0, .ptr (.array 2 (.int 32))), (1, .ptr (.array 2 (.int 32))), (2, .int 32)]
      blocks := [⟨0, [.cast 3 (.temp 0) (.ptr (.int 8)), .cast 4 (.temp 1) (.ptr (.int 8)),
        .call none (.function "llvm.lifetime.start") [.const 8, .temp 3] .void none,
        .call none (.function "llvm.memset") [.temp 3, .const 0, .const 8, .const 0] .void none,
        .call none (.function "llvm.memcpy") [.temp 4, .temp 3, .const 8, .const 0] .void
          (some 4)]⟩,
        ⟨1, [
        .call (some 5) (.function "llvm.fshl.i32") [.temp 2, .temp 2, .const 7] (.int 32) none,
        .call (some 6) (.function "llvm.fshl.i32") [.temp 5, .temp 2, .temp 5] (.int 32) none,
        .ret (some (.temp 6))]⟩] },
    .declare "llvm.memcpy" .void [.ptr (.int 8), .ptr (.int 8), .int 64, .int 1],
    .declare "llvm.fshl.i32" (.int 32) [.int 32, .int 32, .int 32]]

theorem wellFormed_of_lowerIntrinsics_clearedRow :
    (∀ f ∈ clearedRow.functions, f.WellFormed) ∧ (∀ f ∈ clearedRow.functions, f.EffectOnly) ∧
    ∃ m', (clearedRow.lowerIntrinsics {}).result = .ok (true, m') ∧
      (∀ f' ∈ m'.functions, f'.WellFormed) ∧ (m'.functions.map (·.name)).Nodup := by
  have hwf : ∀ f ∈ clearedRow.functions, f.WellFormed := by decide +kernel
  have heffect : ∀ f ∈ clearedRow.functions, f.EffectOnly := by decide +kernel
  obtain ⟨m', h⟩ : ∃ m', (clearedRow.lowerIntrinsics {}).result = .ok (true, m') :=
    exists_eq_ok_of_flag (by decide +kernel)
  obtain ⟨hwf', hnodup⟩ := wellFormed_of_lowerIntrinsics {} clearedRow m' true h hwf heffect
  exact ⟨hwf, heffect, m', h, hwf', hnodup (by decide)⟩

end Module

end KernelIR

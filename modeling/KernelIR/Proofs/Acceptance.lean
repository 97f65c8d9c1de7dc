import KernelIR.Proofs.Stability

/-!
# Which modules are accepted

Whether the lowering accepts a module does not depend on the order in which the calls are replaced.
In the middle of a run the calls that were replaced and those that are left make up the calls of the
module at the start, all of them seen as they were then (`Module.Accounted`).  A run that is refused
stops at a call that is seen somewhere in the module at the start (`Accounted.exists_alike`), and a
run that ends has visited every call.  So the lowering succeeds exactly if each call would be
accepted on its own (`Module.accepts_iff`).
-/

namespace KernelIR

namespace Module

/-! ### Calls and what is seen of them -/

section Calls

variable {m : Module} {site : Site} {call : Call} {k : Family}

/-- Where a call of a family can be read, it stands as a direct call in its function. -/
theorem instruction_of_callAt (h : m.callAt site = .ok call)
    (hk : Family.of? call.callee = some k) :
    call.caller ∈ m.functions ∧ call.instruction ∈ call.caller.instructions ∧
      site ∈ m.callSites call.callee := by
  have hempty : Family.of? "" = none := by decide +kernel
  unfold callAt at h
  split at h
  · next f result function args ty align hf hi =>
    obtain rfl := Except.ok.inj h
    have hat := hi
    simp only [instructionAt?, hf, Option.bind_eq_bind, Option.bind_some,
      Option.bind_eq_some_iff] at hi
    obtain ⟨b, hb, hi⟩ := hi
    cases function with
    | function n =>
      refine ⟨List.mem_of_getElem? hf, List.mem_flatMap.2 ⟨b, List.mem_of_getElem? hb, ?_⟩,
        mem_callSites.2 ⟨_, hat, rfl⟩⟩
      exact List.mem_of_getElem? hi
    | temp | const | zero | global | undef => cases hempty.symm.trans hk
  · cases h
  · cases h

theorem exists_callAt {f : Function} (hf : f ∈ m.functions) {result : Option TempId} {n : String}
    {args : List Value} {ty : Ty} {align : Option UInt64}
    (hi : .call result (.function n) args ty align ∈ f.instructions) :
    ∃ site, m.callAt site = .ok ⟨site, f, n, result, args, ty, align⟩ := by
  obtain ⟨fi, hf⟩ := List.mem_iff_getElem?.1 hf
  obtain ⟨b, hb, hi⟩ := List.mem_flatMap.1 hi
  obtain ⟨bi, hb⟩ := List.mem_iff_getElem?.1 hb
  obtain ⟨ii, hi⟩ := List.mem_iff_getElem?.1 hi
  refine ⟨⟨fi, bi, ii⟩, ?_⟩
  have hfunction : m.functionAt? ⟨fi, bi, ii⟩ = some f := hf
  have hinstruction : m.instructionAt? ⟨fi, bi, ii⟩ =
      some (.call result (.function n) args ty align) := by
    rw [instructionAt?, hfunction]
    simp [hb, hi]
  rw [callAt, hfunction, hinstruction]
  rfl

/-- The views of a module are those of the calls of the families in it. -/
theorem mem_views {w : CallView} : w ∈ m.views ↔ ∃ site call, m.callAt site = .ok call ∧
    (Family.of? call.callee).isSome ∧ m.callView call = w := by
  constructor
  · intro hw
    obtain ⟨f, hf, hw⟩ := List.mem_flatMap.1 hw
    obtain ⟨i, hi, hw⟩ := List.mem_filterMap.1 hw
    cases i with
    | call result function args ty align =>
      obtain ⟨n, hn, rfl⟩ := Option.map_eq_some_iff.1 hw
      obtain ⟨hn, hk⟩ := Option.filter_eq_some_iff.1 hn
      cases function with
      | function n' =>
        obtain rfl := Option.some.inj hn
        obtain ⟨site, hat⟩ := exists_callAt hf hi
        exact ⟨site, _, hat, hk, rfl⟩
      | temp | const | zero | global | undef => cases hn
    | _ => cases hw
  · rintro ⟨site, call, hat, hk, rfl⟩
    obtain ⟨k, hk⟩ := Option.isSome_iff_exists.1 hk
    obtain ⟨hf, hi, -⟩ := instruction_of_callAt hat hk
    refine List.mem_flatMap.2 ⟨_, hf, List.mem_filterMap.2 ⟨_, hi, ?_⟩⟩
    simp [Call.instruction, Instruction.view, Value.function?, hk, callView]

end Calls

/-! ### The middle of a run -/

/-- All calls of the families in `o` were visited or are left in `m`, and all look as they did
in `o`. -/
structure Accounted (s : Settings) (o m : Module) (q : CastQueue) (vs : List Visit) : Prop where
  layout : m.layout = o.layout
  orderly : m.Orderly
  queued : m.CastsQueued q
  names : ∀ f ∈ m.functions, (Family.of? f.name).isSome → ∃ g ∈ o.functions, g.name = f.name
  visits : ∀ v ∈ vs, v.module.layout = o.layout ∧ (∃ g ∈ o.functions, g.name = v.call.callee) ∧
    ∃ l ∈ s.lowerings, v.Of l
  views : o.views.Perm (vs.map (fun v => v.module.callView v.call) ++ m.views)

namespace Accounted

variable {s : Settings} {o m : Module} {q : CastQueue} {vs : List Visit} {l : Lowering}

theorem refl (h : m.Orderly) : Accounted s m m [] [] where
  layout := rfl
  orderly := h
  queued _ he := nomatch he
  names f hf _ := ⟨f, hf, rfl⟩
  visits _ hv := nomatch hv
  views := .refl _

theorem after {v : Visit} (hbase : Family.of? (s.copyBase ++ ".") = none) (hl : l ∈ s.lowerings)
    (hv : v.Of l) (hcallee : ∃ g ∈ o.functions, g.name = v.call.callee)
    (h : Accounted s o v.module q vs) :
    Accounted s o v.after (q.insertAll v.call.site.function v.replacement.casts) (vs ++ [v]) where
  layout := (sameGround_replaceCall ..).layout.trans h.layout
  orderly := h.orderly.after hl hv
  queued := h.queued.after hl hv
  names f hf hk := by
    rcases hv.mem_functions_after hf with hf | rfl | hf
    · exact h.names f hf hk
    · rw [Function.name_of_skeleton_eq hv.replacedBy.skeleton] at hk
      exact absurd hk (h.orderly.caller_not_family hv)
    · rw [(s.clean_lowerings hbase l hl).name ⟨_, _, _, hv.replace, hf⟩] at hk
      cases hk
  visits w hw := by
    rcases List.mem_append.1 hw with hw | hw
    · exact h.visits w hw
    · obtain rfl := List.mem_singleton.1 hw
      exact ⟨h.layout, hcallee, l, hl, hv⟩
  views := by
    rw [List.map_append, List.append_assoc]
    exact h.views.trans ((h.orderly.perm_views_after hbase hl hv).append_left _)

theorem dropCast {e : Nat × TempId} (he : e ∉ q) (h : Accounted s o m (e :: q) vs) :
    Accounted s o (m.dropCast e) q vs where
  layout := (sameGround_dropCast m e).layout.trans h.layout
  orderly := h.orderly.dropCast h.queued
  queued := h.queued.dropCast he
  names f hf hk := by
    have hname : f.name ∈ m.functions.map (·.name) := by
      rw [← names_dropCast m e]
      exact List.mem_map_of_mem hf
    obtain ⟨g, hg, hname⟩ := List.mem_map.1 hname
    rw [← hname] at hk ⊢
    exact h.names g hg hk
  visits := h.visits
  views := h.views.trans ((h.orderly.perm_views_dropCast h.queued).append_left _)

theorem eraseFunction {n : String} {k : Family} (hk : Family.of? n = some k)
    (h : Accounted s o m [] vs) : Accounted s o (m.eraseFunction n) [] vs where
  layout := h.layout
  orderly := h.orderly.eraseFunction hk
  queued _ he := nomatch he
  names f hf := h.names f (List.mem_of_mem_eraseP hf)
  visits := h.visits
  views := by
    rw [h.orderly.views_eraseFunction hk]
    exact h.views

/-- Every step of a lowering keeps account of the calls. -/
theorem keeps (hbase : Family.of? (s.copyBase ++ ".") = none) (hl : l ∈ s.lowerings)
    (h : Accounted s o m [] vs) : l.Keeps m (Accounted s o) where
  replace hv hn hacc := by
    obtain ⟨hk, f, hf, hname⟩ := mem_namesIn.1 hn
    refine hacc.after hbase hl hv ?_
    rw [← hname] at hk ⊢
    exact h.names f hf (by rw [hk]; rfl)
  drop he hacc := hacc.dropCast he
  erase hn hacc := hacc.eraseFunction (mem_namesIn.1 hn).1

/-- A call that is left in the middle of a run looks like one of the module at the start. -/
theorem exists_alike (h : Accounted s o m q vs) {site : Site} {call : Call} {k : Family}
    (hat : m.callAt site = .ok call) (hk : Family.of? call.callee = some k) :
    ∃ site' call', o.callAt site' = .ok call' ∧ call'.callee = call.callee ∧
      Call.Alike o call' m call := by
  have hmem : m.callView call ∈ o.views := by
    refine h.views.mem_iff.2 (List.mem_append_right _ ?_)
    exact mem_views.2 ⟨site, call, hat, by rw [hk]; rfl, rfl⟩
  obtain ⟨site', call', hat', -, hview⟩ := mem_views.1 hmem
  exact ⟨site', call', hat', congrArg CallView.callee hview, h.layout.symm, hview⟩

/-- When no call is left, every call of the module at the start looks like one that was visited. -/
theorem exists_visit (h : Accounted s o m q vs) (hnone : m.views = []) {site : Site} {call : Call}
    {k : Family} (hat : o.callAt site = .ok call) (hk : Family.of? call.callee = some k) :
    ∃ v ∈ vs, v.call.callee = call.callee ∧ Call.Alike v.module v.call o call := by
  have hmem : o.callView call ∈ vs.map fun v => v.module.callView v.call := by
    have hviews := h.views
    rw [hnone, List.append_nil] at hviews
    exact hviews.mem_iff.1 (mem_views.2 ⟨site, call, hat, by rw [hk]; rfl, rfl⟩)
  obtain ⟨v, hv, hview⟩ := List.mem_map.1 hmem
  exact ⟨v, hv, congrArg CallView.callee hview, (h.visits v hv).1, hview⟩

end Accounted

/-! ### The verdict on a module -/

section Verdict

variable {s : Settings} {m m' : Module} {c : Bool}

theorem views_eq_nil (h : m.residual? = none) : m.views = [] := by
  refine List.flatMap_eq_nil_iff.2 fun f hf => List.filterMap_eq_nil_iff.2 fun i hi => ?_
  refine Instruction.view_eq_none ?_
  rw [Instruction.family?]
  cases hn : i.callee? with
  | none => rfl
  | some n => exact (residual?_eq_none_iff.1 h f hf).2 i hi n hn

/-- A call that is replaced in the run would be replaced on its own. -/
theorem accepted_of_runLowerings (hbase : Family.of? (s.copyBase ++ ".") = none) (h : m.Orderly)
    (hrun : (m.runLowerings s.lowerings).result = .ok (c, m')) (hnone : m'.residual? = none)
    {site : Site} {call : Call} (hat : m.callAt site = .ok call) {l : Lowering}
    (hl : l ∈ s.lowerings) (hk : Family.of? call.callee = some l.family) :
    (∃ g ∈ m.functions, g.name = call.callee) ∧ ¬ l.Refuses m call := by
  have hacc : Accounted s m m' [] (m.visits s.lowerings) :=
    keeps_runLowerings [] (fun l hl _ _ hacc => hacc.keeps hbase hl) hrun (.refl h)
  obtain ⟨v, hv, hcallee, halike⟩ := hacc.exists_visit (views_eq_nil hnone) hat hk
  obtain ⟨-, hdeclared, l', hl', hof⟩ := hacc.visits v hv
  rw [hcallee] at hdeclared
  refine ⟨hdeclared, ?_⟩
  have hfamily := hof.family
  rw [hcallee, hk] at hfamily
  obtain rfl := s.lowering_eq hl hl' (Option.some.inj hfamily)
  rw [← Settings.refuses_iff_of_alike hl halike, Lowering.Refuses, hof.replace]
  exact not_refused_ok _

/-- If no call would be refused on its own, the run does not stop at a call. -/
theorem exists_run_of_not_refuses (hbase : Family.of? (s.copyBase ++ ".") = none) (h : m.Orderly)
    (hcalls : ∀ site call, m.callAt site = .ok call → ∀ l ∈ s.lowerings,
      Family.of? call.callee = some l.family → ¬ l.Refuses m call) :
    (∃ c m', (m.runLowerings s.lowerings).result = .ok (c, m')) ∨
      ∃ st, (m.runLowerings s.lowerings).result = .error st ∧ st.fault = .overflow := by
  cases hrun : (m.runLowerings s.lowerings).result with
  | ok x => exact .inl ⟨x.1, x.2, rfl⟩
  | error st =>
    obtain ⟨⟨l, m₁⟩, hx, name, site, call, hmem, hk, hat, rfl, hfault⟩ :=
      stopsIn_runFrom false st hrun
    have hl : l ∈ s.lowerings := mem_of_mem_runs hx
    obtain ⟨vs₁, hacc₁⟩ := keeps_runs (fun l hl _ _ hacc => hacc.keeps hbase hl)
      (Accounted.refl (s := s) h) _ hx
    obtain ⟨-, -, q, vs, hacc⟩ := (hacc₁.keeps hbase hl).reached vs₁ hacc₁ _ hmem
    obtain ⟨site', call', hat', hcallee, halike⟩ := hacc.exists_alike hat hk
    have haccepted := hcalls site' call' hat' l hl (by rw [hcallee]; exact hk)
    rw [Settings.refuses_iff_of_alike hl halike] at haccepted
    refine .inr ⟨st, rfl, ?_⟩
    rcases s.guards_replace hl st.module call st.fault hfault with hoverflow | ⟨o, ho⟩
    · exact hoverflow
    · exact absurd ⟨_, hfault.trans (congrArg Except.error ho)⟩ haccepted

/-- If all calls of the families are of declared functions, the run leaves none. -/
theorem residual?_eq_none_of_runLowerings (hbase : Family.of? (s.copyBase ++ ".") = none)
    (h : m.Orderly) (hrun : (m.runLowerings s.lowerings).result = .ok (c, m'))
    (hcalls : ∀ site call, m.callAt site = .ok call → ∀ l ∈ s.lowerings,
      Family.of? call.callee = some l.family → ∃ g ∈ m.functions, g.name = call.callee) :
    m'.residual? = none := by
  have hacc : Accounted s m m' [] (m.visits s.lowerings) :=
    keeps_runLowerings [] (fun l hl _ _ hacc => hacc.keeps hbase hl) hrun (.refl h)
  refine residual?_eq_none_iff.2 fun f hf => ⟨(forall₂_of_runLowerings hbase hrun).1 f hf, ?_⟩
  intro i hi n hn
  by_contra hne
  obtain ⟨k, hk⟩ := Option.ne_none_iff_exists'.1 hne
  obtain ⟨l, hl, rfl⟩ := s.exists_lowering k
  -- the call is one of the module at the start, so its function was declared there
  cases i with
  | call result function args ty align =>
    cases function with
    | function n' =>
      obtain rfl := Option.some.inj hn
      obtain ⟨site, hat⟩ := exists_callAt hf hi
      obtain ⟨site', call', hat', hcallee, -⟩ := hacc.exists_alike hat hk
      have hdeclared := hcalls site' call' hat' l hl (by rw [hcallee]; exact hk)
      rw [hcallee] at hdeclared
      refine not_calls_of_runLowerings (s.clean_lowerings hbase) (by rw [hk]; rfl) hrun
        (.inl ⟨hdeclared, l, hl, hk⟩) ⟨f, hf, Function.mem_callees.2 ⟨_, hi, hn⟩⟩
    | temp | const | zero | global | undef => cases hn
  | _ => cases hn

end Verdict

/-- **Acceptance does not depend on the order of replacing.**  In a module whose functions are
well-formed, with no results of fills, copies and markers, no bodies in the families and no
addresses of functions of a family or from outside, the checked lowering succeeds exactly if the
function of every call of a family is declared and every such call, taken alone in the module as it
is, would be replaced.  This holds as long as the words of the machine suffice. -/
theorem accepts_iff (s : Settings) (hs : s.verify = true)
    (hbase : Family.of? (s.copyBase ++ ".") = none) (m : Module)
    (hwf : ∀ f ∈ m.functions, f.WellFormed) (heffect : ∀ f ∈ m.functions, f.EffectOnly)
    (hdeclarations : ∀ f ∈ m.functions, (Family.of? f.name).isSome → f.blocks = [])
    (haddresses : ∀ f ∈ m.functions, m.KnowsAddresses f)
    (hoverflow : (m.lowerIntrinsics s).result ≠ .error .overflow)
    (halone : ∀ site call, m.callAt site = .ok call → ∀ l ∈ s.lowerings,
      Family.of? call.callee = some l.family → (l.replace m call).result ≠ .error .overflow) :
    (∃ c m', (m.lowerIntrinsics s).result = .ok (c, m')) ↔
      ∀ site call, m.callAt site = .ok call → ∀ l ∈ s.lowerings,
        Family.of? call.callee = some l.family →
        (∃ g ∈ m.functions, g.name = call.callee) ∧ ∃ r, (l.replace m call).result = .ok r := by
  have horderly : m.Orderly := ⟨fun f hf => ⟨hwf f hf, heffect f hf⟩, hdeclarations, haddresses⟩
  constructor
  · rintro ⟨c, m', h⟩ site call hat l hl hk
    obtain ⟨hdeclared, haccepted⟩ := accepted_of_runLowerings hbase horderly
      (runLowerings_of_lowerIntrinsics h) (residual?_of_lowerIntrinsics hs h) hat hl hk
    exact ⟨hdeclared, Settings.exists_replacement hl haccepted (halone site call hat l hl hk)⟩
  · intro hcalls
    rcases exists_run_of_not_refuses hbase horderly fun site call hat l hl hk => by
        obtain ⟨-, r, hr⟩ := hcalls site call hat l hl hk
        rw [Lowering.Refuses, hr]
        exact not_refused_ok r with ⟨c, lowered, hrun⟩ | ⟨st, hrun, hst⟩
    · have hnone := residual?_eq_none_of_runLowerings hbase horderly hrun
        fun site call hat l hl hk => (hcalls site call hat l hl hk).1
      exact ⟨c, _, lowerIntrinsics_eq_ok.2 ⟨lowered, hrun, fun _ => hnone, rfl⟩⟩
    · rw [result_lowerIntrinsics, hrun] at hoverflow
      exact absurd (congrArg Except.error hst) hoverflow

theorem accepts_iff_clearedRow :
    (∀ f ∈ clearedRow.functions, f.WellFormed) ∧ (∀ f ∈ clearedRow.functions, f.EffectOnly) ∧
    (∀ f ∈ clearedRow.functions, (Family.of? f.name).isSome → f.blocks = []) ∧
    (∀ f ∈ clearedRow.functions, clearedRow.KnowsAddresses f) ∧
    ∃ c m', (clearedRow.lowerIntrinsics {}).result = .ok (c, m') := by
  have hwf : ∀ f ∈ clearedRow.functions, f.WellFormed := by decide +kernel
  have heffect : ∀ f ∈ clearedRow.functions, f.EffectOnly := by decide +kernel
  have hdeclarations : ∀ f ∈ clearedRow.functions, (Family.of? f.name).isSome → f.blocks = [] := by
    decide +kernel
  have haddresses : ∀ f ∈ clearedRow.functions, clearedRow.KnowsAddresses f := by decide +kernel
  have hdeclared : ∀ n ∈ clearedRow.functions.flatMap Function.callees,
      ∃ g ∈ clearedRow.functions, g.name = n := by decide +kernel
  have hreplaced : ∀ n ∈ clearedRow.functions.flatMap Function.callees,
      ∀ site ∈ clearedRow.callSites n, ∀ l ∈ ({} : Settings).lowerings,
      Family.of? n = some l.family → ((clearedRow.callAt site).toOption.bind fun call =>
        (l.replace clearedRow call).result.toOption).isSome := by decide +kernel
  have hcalls : ∀ site call, clearedRow.callAt site = .ok call → ∀ l ∈ ({} : Settings).lowerings,
      Family.of? call.callee = some l.family →
      (∃ g ∈ clearedRow.functions, g.name = call.callee) ∧
        ∃ r, (l.replace clearedRow call).result = .ok r := by
    intro site call hat l hl hk
    obtain ⟨hf, hi, hsite⟩ := instruction_of_callAt hat hk
    have hcallee : call.callee ∈ clearedRow.functions.flatMap Function.callees :=
      List.mem_flatMap.2 ⟨_, hf, Function.mem_callees.2 ⟨_, hi, rfl⟩⟩
    have hsome := hreplaced _ hcallee site hsite l hl hk
    rw [hat] at hsome
    refine ⟨hdeclared _ hcallee, ?_⟩
    cases hr : (l.replace clearedRow call).result with
    | ok r => exact ⟨r, rfl⟩
    | error e => simp [Except.toOption, hr] at hsome
  have hoverflow : (clearedRow.lowerIntrinsics {}).result ≠ .error .overflow := by
    obtain ⟨m', h⟩ : ∃ m', (clearedRow.lowerIntrinsics {}).result = .ok (true, m') :=
      exists_eq_ok_of_flag (by decide +kernel)
    rw [h]
    simp
  refine ⟨hwf, heffect, hdeclarations, haddresses, ?_⟩
  refine (accepts_iff {} rfl (by decide +kernel) clearedRow hwf heffect hdeclarations haddresses
    hoverflow fun site call hat l hl hk => ?_).2 hcalls
  obtain ⟨-, r, hr⟩ := hcalls site call hat l hl hk
  rw [hr]
  simp

end Module

end KernelIR

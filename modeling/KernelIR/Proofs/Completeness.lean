import KernelIR.Proofs.Passes

/-!
# Nothing of a family is left

A lowering is `Clean` when nothing that it emits or declares belongs to a family.  A clean lowering
takes every call to a function of its family away and brings no call to any family, so after all of
them have run there is no function of a family left, and the only calls to names of the families are
those that had no function from the start (`Module.runLowerings_complete`).
-/

namespace KernelIR

/-! ### Names of the families -/

namespace Family

theorem of?_eq_none_iff {name : String} : of? name = none ↔ ∀ k : Family, k.owns name = false := by
  simp only [of?, List.find?_eq_none, Bool.not_eq_true]
  refine ⟨fun h k => h k ?_, fun h k _ => h k⟩
  cases k <;> decide

/-- No name of a family goes on with a `p` after a dot, so a pointer type after a base name and a
dot makes a name of a family only if the base name did. -/
theorem of?_primitive {base : String} (h : of? (base ++ ".") = none) (element : Ty) :
    of? (BlockCopy.primitive base element).name = none := by
  rw [of?_eq_none_iff] at h ⊢
  intro k
  have hk := h k
  have hname : (BlockCopy.primitive base element).name.toList =
      (base ++ ".").toList ++ 'p' :: '0' :: element.mangle.toList := by
    simp only [BlockCopy.primitive, Function.declare, Ty.mangle, String.toList_append,
      List.append_assoc]
    rfl
  simp only [owns, Bool.eq_false_iff, ne_eq, List.isPrefixOf_iff_prefix, hname] at hk ⊢
  intro hp
  rcases List.prefix_or_prefix_of_prefix hp (List.prefix_append _ _) with hs | ⟨rest, hs⟩
  · exact hk hs
  · -- the stem is longer than the base name and its dot, so it goes on with the `p`
    have hdot : ¬ ['.', 'p'] <:+: k.stem.toList := by cases k <;> decide +kernel
    rw [← hs, List.prefix_append_right_inj] at hp
    cases rest with
    | nil =>
      rw [List.append_nil] at hs
      exact hk (hs ▸ List.prefix_rfl)
    | cons c rest =>
      obtain ⟨rfl, -⟩ := List.cons_prefix_cons.1 hp
      exact hdot ⟨base.toList, rest, by rw [← hs]; simp⟩

end Family

/-! ### Calls to the families -/

namespace Function

/-- The names of the functions that are called directly, in order. -/
def callees (f : Function) : List String := f.instructions.filterMap (·.callee?)

/-- Those of them that belong to a family. -/
def familyCalls (f : Function) : List String := f.callees.filter (Family.of? · |>.isSome)

theorem mem_callees {f : Function} {n : String} :
    n ∈ f.callees ↔ ∃ i ∈ f.instructions, i.callee? = some n := List.mem_filterMap

theorem mem_familyCalls {f : Function} {n : String} :
    n ∈ f.familyCalls ↔ n ∈ f.callees ∧ (Family.of? n).isSome := List.mem_filter

theorem familyCalls_eq_nil {f : Function} (h : f.blocks = []) : f.familyCalls = [] := by
  simp [familyCalls, callees, instructions, h]

end Function

namespace Lowering

variable {l : Lowering} {m m' : Module} {name : String}

/-- The lowering brings nothing of a family into a module. -/
structure Clean (l : Lowering) : Prop where
  code : ∀ {m : Module} {call : Call} {r : Replacement} {i : Instruction} {n : String},
    (l.replace m call).result = .ok r → i ∈ r.code → i.callee? = some n → Family.of? n = none
  name : ∀ {g : Function}, l.Adds g → Family.of? g.name = none
  blocks : ∀ {g : Function}, l.Adds g → g.blocks = []

theorem clean_lifetime : Lowering.lifetime.Clean := by
  have hr : ∀ {m call r}, (Lowering.lifetime.replace m call).result = .ok r → r = {} :=
    fun h => (Except.ok.inj h).symm
  refine ⟨fun h hi => ?_, ?_, ?_⟩
  · rw [hr h] at hi
    simp at hi
  all_goals
    rintro g ⟨m, call, r, h, hd⟩
    rw [hr h] at hd
    exact nomatch hd

theorem clean_funnelShift : Lowering.funnelShift.Clean := by
  refine ⟨fun h hi hc => ?_, ?_, ?_⟩
  · obtain ⟨s, base, -, -, rfl⟩ := FunnelShift.replace_eq_ok.1 h
    simp only [FunnelShift.code, List.mem_cons, List.not_mem_nil, or_false] at hi
    rcases hi with rfl | rfl | rfl | rfl | rfl <;> cases hc
  all_goals
    rintro g ⟨m, call, r, h, hd⟩
    obtain ⟨s, base, -, -, rfl⟩ := FunnelShift.replace_eq_ok.1 h
    cases hd

theorem clean_zeroFill : Lowering.zeroFill.Clean := by
  refine ⟨fun h hi hc => ?_, ?_, ?_⟩
  · obtain ⟨f, base, -, -, rfl⟩ := ZeroFill.replace_eq_ok.1 h
    obtain ⟨k, -, hi⟩ := List.mem_flatMap.1 hi
    simp only [ZeroFill.store, List.mem_cons, List.not_mem_nil, or_false] at hi
    rcases hi with rfl | rfl <;> cases hc
  all_goals
    rintro g ⟨m, call, r, h, hd⟩
    obtain ⟨f, base, -, -, rfl⟩ := ZeroFill.replace_eq_ok.1 h
    cases hd

theorem clean_blockCopy {base : String} (hbase : Family.of? (base ++ ".") = none) :
    (Lowering.blockCopy base).Clean := by
  have hadds : ∀ {g}, (Lowering.blockCopy base).Adds g →
      ∃ element, g = BlockCopy.primitive base element := by
    rintro g ⟨m, call, r, h, hd⟩
    exact (BlockCopy.declared_eq_some h hd).1
  refine ⟨fun {m call r i n} h hi hc => ?_, fun hg => ?_, fun hg => ?_⟩
  · obtain ⟨req, -, ⟨-, rfl⟩ | ⟨-, shape, c, first, -, -, -, rfl⟩⟩ := BlockCopy.replace_eq_ok.1 h
    · simp at hi
    · obtain ⟨result, ptr, indices, ty, rfl⟩ | ⟨dest, src, rfl⟩ := BlockCopy.mem_code hi
      · exact nomatch hc
      · rw [← Option.some.inj hc]
        exact Family.of?_primitive hbase _
  · obtain ⟨element, rfl⟩ := hadds hg
    exact Family.of?_primitive hbase element
  · obtain ⟨element, rfl⟩ := hadds hg
    rfl

/-! ### A clean lowering takes the calls to its family away -/

/-- An edit brings no call to a family. -/
theorem Edit.familyCalls_sublist (hl : l.Clean) {f f' : Function} (h : l.Edit f f') :
    f'.familyCalls.Sublist f.familyCalls := by
  cases h with
  | @replace _ _ _ _ _ _ _ _ _ r hf hb hi hn hr =>
    obtain ⟨pre, post, hpre, hsplice⟩ := Function.exists_instructions_splice hb hi
    have hcode : (r.code.filterMap (·.callee?)).filter (Family.of? · |>.isSome) = [] := by
      refine List.filter_eq_nil_iff.2 fun n hn => ?_
      obtain ⟨i, hi, hc⟩ := List.mem_filterMap.1 hn
      simp [hl.code hr hi hc]
    unfold Function.familyCalls Function.callees
    rw [hsplice, hpre]
    simp only [List.filterMap_append, List.filterMap_map, Function.comp_def,
      Instruction.callee?_rename, List.filter_append, hcode, List.append_nil]
    refine List.Sublist.append_left (List.Sublist.filter _ ?_) _
    exact List.Sublist.filterMap _ (List.sublist_cons_self ..)
  | drop ht hu =>
    unfold Function.familyCalls Function.callees
    rw [Function.instructions_eraseDef]
    exact (List.eraseP_sublist.filterMap _).filter _

theorem familyCalls_sublist_of_edits {E : Function → Function → Prop}
    (hE : ∀ f f', E f f' → f'.familyCalls.Sublist f.familyCalls) {f f' : Function}
    (h : Relation.ReflTransGen E f f') : f'.familyCalls.Sublist f.familyCalls := by
  induction h with
  | refl => exact .refl _
  | tail _ hs ih => exact (hE _ _ hs).trans ih

/-- A function of a rewritten module calls, of the families, only what a function of the old module
calls. -/
theorem exists_mem_familyCalls (hl : l.Clean) (h : l.Rewrites m m') {f' : Function}
    (hf' : f' ∈ m'.functions) {n : String} (hn : n ∈ f'.familyCalls) :
    ∃ f ∈ m.functions, n ∈ f.familyCalls := by
  obtain ⟨added, hadded, hE⟩ := h.functions
  obtain ⟨f, hf, hff⟩ := exists_of_forall₂_mem hE hf'
  have hnf := (familyCalls_sublist_of_edits (fun _ _ he => he.familyCalls_sublist hl) hff).subset hn
  rcases List.mem_append.1 hf with hf | hf
  · exact ⟨f, hf, hnf⟩
  · rw [Function.familyCalls_eq_nil (hl.blocks (hadded f hf))] at hnf
    exact absurd hnf List.not_mem_nil

end Lowering

namespace Module

/-- Some function of the module calls the name. -/
def Calls (m : Module) (n : String) : Prop := ∃ f ∈ m.functions, n ∈ f.callees

theorem callCount_eq_zero_iff {m : Module} {n : String} : m.callCount n = 0 ↔ ¬ m.Calls n := by
  simp only [callCount, List.countP_eq_zero, List.mem_flatMap, Calls, Function.mem_callees,
    beq_iff_eq]
  constructor
  · rintro h ⟨f, hf, i, hi, hc⟩
    exact h i ⟨f, hf, hi⟩ hc
  · rintro h i ⟨f, hf, hi⟩ hc
    exact h ⟨f, hf, i, hi, hc⟩

theorem Calls.mono {m m' : Module} {n : String} (h : m'.Calls n)
    (hs : m'.functions.Sublist m.functions) : m.Calls n := by
  obtain ⟨f, hf, hn⟩ := h
  exact ⟨f, hs.subset hf, hn⟩

end Module

namespace Lowering

variable {l : Lowering} {m m' : Module} {name : String}

/-- No call to a family comes with a rewriting. -/
theorem calls_of_rewrites (hl : l.Clean) (h : l.Rewrites m m') {n : String}
    (hn : (Family.of? n).isSome) (hc : m'.Calls n) : m.Calls n := by
  obtain ⟨f', hf', hn'⟩ := hc
  obtain ⟨f, hf, hnf⟩ := exists_mem_familyCalls hl h hf' (Function.mem_familyCalls.2 ⟨hn', hn⟩)
  exact ⟨f, hf, (Function.mem_familyCalls.1 hnf).1⟩

/-- Each pending site takes one call away, so none is left when all calls were pending. -/
theorem callCount_of_lowerSites (hl : l.Clean) (hn : Family.of? name = some l.family) :
    ∀ {sites : List Site} {m m' : Module} {q q' : CastQueue}, Pending m name sites →
      m.callCount name = sites.length → (l.lowerSites m q sites).result = .ok (m', q') →
      m'.callCount name = 0
  | [], m, m', q, q', _, hc, h => by
    obtain ⟨rfl, rfl⟩ := Prod.mk.inj (Except.ok.inj h)
    exact hc
  | s :: sites, m, m', q, q', hp, hc, h => by
    obtain ⟨call, r, hcall, hr, h⟩ := lowerSites_cons_eq_ok.1 h
    obtain ⟨f, b, result, args, ty, align, hf, hb, hi, hat⟩ :=
      Module.exists_call_of_calleeAt? (hp.callee s List.mem_cons_self)
    obtain rfl := Except.ok.inj (hat.symm.trans hcall)
    have hcode : ∀ j ∈ r.code, j.callee? ≠ some name := by
      intro j hj hc
      rw [hl.code hr hj hc] at hn
      exact nomatch hn
    have hcount := Module.callCount_replaceCall r hf hb hi rfl hcode
      fun g hg => hl.blocks ⟨_, _, r, hr, hg⟩
    refine callCount_of_lowerSites hl hn (hp.tail r) ?_ h
    rw [List.length_cons] at hc
    omega

theorem not_calls_of_lowerFunction (hl : l.Clean) (hn : Family.of? name = some l.family)
    (h : (l.lowerFunction m name).result = .ok m') : ¬ m'.Calls name := by
  obtain ⟨m₁, q, hs, rfl⟩ := lowerFunction_eq_ok.1 h
  have hp := pending_callSites m name
  have hzero := callCount_of_lowerSites hl hn hp
    (by rw [List.length_reverse, m.length_callSites]) hs
  have hq := (rewrites_of_lowerSites hn hp (by simp) hs).2
  intro hc
  have hc' : (m₁.dropCasts q).module.Calls name := hc.mono List.eraseP_sublist
  exact Module.callCount_eq_zero_iff.1 hzero
    (calls_of_rewrites hl (rewrites_dropCasts m₁ hq) (by simp [hn]) hc')

/-- After the functions of a family are lowered there is no call to any of them, and no new one to a
family at all. -/
theorem not_calls_of_foldlM (hl : l.Clean) {n : String} (hn : (Family.of? n).isSome) :
    ∀ {names : List String} {m m' : Module},
      (∀ n ∈ names, Family.of? n = some l.family) → n ∈ names ∨ ¬ m.Calls n →
      (names.foldlM l.lowerFunction m).result = .ok m' → ¬ m'.Calls n
  | [], m, m', _, hm, h => by
    obtain rfl : m = m' := Except.ok.inj h
    simpa using hm
  | name :: names, m, m', hk, hm, h => by
    rw [List.foldlM_cons, Traced.result_bind_eq_ok] at h
    obtain ⟨m₁, h₁, h⟩ := h
    have hname := hk name List.mem_cons_self
    refine not_calls_of_foldlM hl hn (fun x hx => hk x (List.mem_cons_of_mem _ hx)) ?_ h
    rcases hm with hm | hm
    · rcases List.mem_cons.1 hm with rfl | hm
      · exact .inr (not_calls_of_lowerFunction hl hname h₁)
      · exact .inl hm
    · right
      intro hc
      obtain ⟨m₂, hr, rfl⟩ := rewrites_of_lowerFunction hname h₁
      exact hm (calls_of_rewrites hl hr hn (hc.mono List.eraseP_sublist))

theorem not_calls_of_run (hl : l.Clean) {c : Bool} (h : (l.run m).result = .ok (c, m'))
    {n : String} (hn : (Family.of? n).isSome) (hm : n ∈ m.namesIn (some l.family) ∨ ¬ m.Calls n) :
    ¬ m'.Calls n :=
  not_calls_of_foldlM hl hn (fun _ hx => (Module.mem_namesIn.1 hx).1) hm (run_eq_ok.1 h).1

end Lowering

/-! ### The whole lowering -/

namespace Settings

theorem clean_lowerings {s : Settings} (hbase : Family.of? (s.copyBase ++ ".") = none) :
    ∀ l ∈ s.lowerings, l.Clean := by
  intro l hl
  simp only [lowerings, List.mem_cons, List.not_mem_nil, or_false] at hl
  rcases hl with rfl | rfl | rfl | rfl
  · exact Lowering.clean_lifetime
  · exact Lowering.clean_funnelShift
  · exact Lowering.clean_zeroFill
  · exact Lowering.clean_blockCopy hbase

/-- Only the last lowering adds functions that could belong to a family, whatever the base name. -/
theorem pairwise_lowerings (s : Settings) :
    s.lowerings.Pairwise fun l l' => ∀ g, l.Adds g → Family.of? g.name ≠ some l'.family := by
  have hclean : ∀ {l l' : Lowering}, l.Clean →
      ∀ g, l.Adds g → Family.of? g.name ≠ some l'.family := by
    intro l l' hl g hg
    rw [hl.name hg]
    exact fun h => nomatch h
  simp only [lowerings, List.pairwise_cons]
  exact ⟨fun _ _ => hclean Lowering.clean_lifetime, fun _ _ => hclean Lowering.clean_funnelShift,
    fun _ _ => hclean Lowering.clean_zeroFill, by simp, .nil⟩

end Settings

namespace Module

variable {m m' : Module} {c : Bool} {s : Settings}

/-- After several clean lowerings, a name of their families that had a function is not called. -/
theorem not_calls_of_runLowerings {ls : List Lowering} (hls : ∀ l ∈ ls, l.Clean) {n : String}
    (hn : (Family.of? n).isSome) (h : (m.runLowerings ls).result = .ok (c, m'))
    (hm : (∃ f ∈ m.functions, f.name = n) ∧ (∃ l ∈ ls, Family.of? n = some l.family) ∨
      ¬ m.Calls n) : ¬ m'.Calls n := by
  induction ls generalizing m c with
  | nil =>
    obtain ⟨rfl, rfl⟩ := runLowerings_nil_eq_ok.1 h
    simpa using hm
  | cons l ls ih =>
    obtain ⟨c₁, m₁, c₂, h₁, h₂, rfl⟩ := runLowerings_cons_eq_ok.1 h
    have hl := hls l List.mem_cons_self
    refine ih (fun l' hl' => hls l' (List.mem_cons_of_mem _ hl')) h₂ ?_
    rcases hm with ⟨⟨f, hf, rfl⟩, l', hl', hk⟩ | hm
    · by_cases hkl : Family.of? f.name = some l.family
      · exact .inr (Lowering.not_calls_of_run hl h₁ hn (.inl (mem_namesIn.2 ⟨hkl, f, hf, rfl⟩)))
      · -- the function stays until the lowering of its family
        left
        obtain ⟨added, -, hnames⟩ :=
          (Lowering.rewrites_of_run h₁).1.mem_names fun _ _ he => he.name_eq
        have hwithout : f ∈ (m.without l.family).functions :=
          List.mem_filter.2 ⟨hf, by simpa using hkl⟩
        refine ⟨(hnames f.name).2 (.inl ⟨f, hwithout, rfl⟩), l', ?_, hk⟩
        rcases List.mem_cons.1 hl' with rfl | hl'
        · exact absurd hk hkl
        · exact hl'
    · exact .inr (Lowering.not_calls_of_run hl h₁ hn (.inr hm))

/-- The calls of `f` to names of the families that no function of the module has. -/
def openCalls (m : Module) (f : Function) : List String :=
  f.familyCalls.filter fun n => (m.function? n).isNone

theorem mem_openCalls {f : Function} {n : String} : n ∈ m.openCalls f ↔
    n ∈ f.callees ∧ (Family.of? n).isSome ∧ ∀ g ∈ m.functions, g.name ≠ n := by
  simp only [openCalls, List.mem_filter, Function.mem_familyCalls, and_assoc, function?,
    Option.isNone_iff_eq_none, List.find?_eq_none, beq_iff_eq]

/-- What a run of all lowerings leaves: the functions of no family, in their order, each with family
calls that it had before and that had no function; and after them functions without a body. -/
theorem forall₂_of_runLowerings (hbase : Family.of? (s.copyBase ++ ".") = none)
    (h : (m.runLowerings s.lowerings).result = .ok (c, m')) :
    (∀ f' ∈ m'.functions, Family.of? f'.name = none) ∧
    ∃ added, (∀ g ∈ added, g.blocks = []) ∧
      List.Forall₂ (fun f f' => f'.name = f.name ∧ f'.familyCalls.Sublist (m.openCalls f))
        ((m.functions.filter fun f => (Family.of? f.name).isNone) ++ added) m'.functions := by
  have hclean := s.clean_lowerings hbase
  obtain ⟨hr, -⟩ := rewrites_of_runLowerings s.pairwise_lowerings h
  obtain ⟨added, hadded, hE⟩ := hr.functions
  rw [functions_withoutAll] at hE
  have hname : ∀ f f', Relation.ReflTransGen (fun f f' => ∃ l ∈ s.lowerings, l.Edit f f') f f' →
      f'.name = f.name :=
    fun f f' => Rewrites.invariant (v := Function.name) fun _ _ ⟨_, _, he⟩ => he.name_eq
  have hcalls : ∀ f f', Relation.ReflTransGen (fun f f' => ∃ l ∈ s.lowerings, l.Edit f f') f f' →
      f'.familyCalls.Sublist f.familyCalls :=
    fun f f' => Lowering.familyCalls_sublist_of_edits
      fun _ _ ⟨l, hl, he⟩ => he.familyCalls_sublist (hclean l hl)
  refine ⟨fun f' hf' => ?_, added, fun g hg => ?_, forall₂_imp_of_mem hE fun f f' hf' hff' => ?_⟩
  · obtain ⟨f, hf, hff'⟩ := exists_of_forall₂_mem hE hf'
    rw [hname f f' hff']
    rcases List.mem_append.1 hf with hf | hf
    · simpa using (List.mem_filter.1 hf).2
    · obtain ⟨l, hl, hg⟩ := hadded f hf
      exact (hclean l hl).name hg
  · obtain ⟨l, hl, hg⟩ := hadded g hg
    exact (hclean l hl).blocks hg
  · refine ⟨hname f f' hff', ?_⟩
    -- a name that had a function is not called any more
    have hopen : ∀ n ∈ f'.familyCalls, (m.function? n).isNone := by
      intro n hn
      obtain ⟨hcall, hfam⟩ := Function.mem_familyCalls.1 hn
      rw [Option.isNone_iff_eq_none, function?, List.find?_eq_none]
      intro g hg hgn
      obtain ⟨k, hk⟩ := Option.isSome_iff_exists.1 hfam
      obtain ⟨l, hl, rfl⟩ := s.exists_lowering k
      exact not_calls_of_runLowerings hclean hfam h
        (.inl ⟨⟨g, hg, by simpa using hgn⟩, l, hl, hk⟩) ⟨f', hf', hcall⟩
    rw [openCalls, ← List.filter_eq_self.2 hopen]
    exact (hcalls f f' hff').filter _

/-- **Completeness of the lowering.**  If the base name of the copying functions keeps them out of
the families, then after all lowerings no function of a family is left, and the only calls to names
of the families are calls, in the same function, to names that no function had.  So the final check
fails only on a module that calls a name of a family without a function. -/
theorem runLowerings_complete (s : Settings) (hbase : Family.of? (s.copyBase ++ ".") = none)
    (m : Module) :
    (∀ c m', (m.runLowerings s.lowerings).result = .ok (c, m') →
      (∀ f' ∈ m'.functions, Family.of? f'.name = none) ∧
      ∃ added, (∀ g ∈ added, g.blocks = []) ∧
        List.Forall₂ (fun f f' => f'.name = f.name ∧ f'.familyCalls.Sublist (m.openCalls f))
          ((m.functions.filter fun f => (Family.of? f.name).isNone) ++ added) m'.functions) ∧
    ∀ n, (m.lowerIntrinsics s).result = .error (.error (.residual n)) →
      ∃ f ∈ m.functions, n ∈ m.openCalls f := by
  refine ⟨fun c m' h => forall₂_of_runLowerings hbase h, fun n h => ?_⟩
  obtain ⟨c, lowered, hrun, hres⟩ := lowerIntrinsics_eq_residual h
  obtain ⟨hnames, added, hadded, hcalls⟩ := forall₂_of_runLowerings hbase hrun
  obtain ⟨hn, f', hf', rfl | hcall⟩ := of_residual?_eq_some hres
  · simp [hnames f' hf'] at hn
  · obtain ⟨f, hf, -, hsub⟩ := exists_of_forall₂_mem hcalls hf'
    have hopen := hsub.subset (Function.mem_familyCalls.2 ⟨Function.mem_callees.2 hcall, hn⟩)
    rcases List.mem_append.1 hf with hf | hf
    · exact ⟨f, (List.mem_filter.1 hf).1, hopen⟩
    · rw [openCalls, Function.familyCalls_eq_nil (hadded f hf)] at hopen
      exact absurd hopen List.not_mem_nil

/-- A marker with a function and a fill without one, called side by side. -/
def looseFill : Module where
  name := "loose"
  functions := [.declare "llvm.lifetime.start" .void [.int 64, .ptr (.int 8)],
    { name := "kernel", returnType := .void
      blocks := [⟨0, [.call none (.function "llvm.lifetime.start") [.const 4, .undef] .void none,
        .call none (.function "llvm.memset.p0i8") [] .void none, .ret none]⟩] }]

/-- The marker goes with its function, and the fill is what the check complains about. -/
theorem runLowerings_complete_looseFill :
    Family.of? (({} : Settings).copyBase ++ ".") = none ∧
    (∃ c m', (looseFill.runLowerings ({} : Settings).lowerings).result = .ok (c, m') ∧
      ∀ f' ∈ m'.functions, Family.of? f'.name = none) ∧
    (looseFill.lowerIntrinsics {}).result = .error (.error (.residual "llvm.memset.p0i8")) ∧
    ∃ f ∈ looseFill.functions, "llvm.memset.p0i8" ∈ looseFill.openCalls f :=
  have hbase : Family.of? (({} : Settings).copyBase ++ ".") = none := by decide +kernel
  have hcomplete := runLowerings_complete {} hbase looseFill
  ⟨hbase, ⟨_, _, rfl, (hcomplete.1 _ _ rfl).1⟩, rfl, hcomplete.2 _ rfl⟩

end Module

end KernelIR

import KernelIR.Proofs.Visits

/-!
# Positions stay valid

A run collects the positions of all calls to a function before it replaces the first of them, and
the positions of the functions in which casts may have lost their readers.  Each is still valid when
the run goes to it (`Lowering.valid_of_mem_accesses`), and the calls among them are those that the
log of the run names (`Lowering.visits_run`).  So a run never loses its way: it ends with a module,
or with an error, or it runs out of words at a call of which `Call.Overflows` says why
(`Module.handles_valid`).
-/

namespace KernelIR

namespace Access

/-- The position is in range, and that of a call holds a direct call to the named function. -/
def Valid : Access → Prop
  | .call m name s => ∃ f b i, m.functions[s.function]? = some f ∧ f.blocks[s.block]? = some b ∧
      b.instructions[s.index]? = some i ∧ i.callee? = some name
  | .cast m entry => entry.1 < m.functions.length

/-- The call that is visited. -/
def visit? : Access → Option (String × Site)
  | .call _ name s => some (name, s)
  | .cast .. => none

end Access

/-! ### They are valid -/

namespace Module

variable {m : Module}

theorem length_dropCast (m : Module) (e : Nat × TempId) :
    (m.dropCast e).functions.length = m.functions.length := by
  simpa using congrArg List.length (names_dropCast m e)

theorem length_le_replaceCall (m : Module) (s : Site) (r : Replacement) :
    m.functions.length ≤ (m.replaceCall s r).functions.length := by
  rw [functions_replaceCall, List.length_append, List.length_modify]
  exact Nat.le_add_right ..

theorem visit?_castAccesses (m : Module) (q : CastQueue) :
    (m.castAccesses q).filterMap Access.visit? = [] := by
  induction q generalizing m with
  | nil => rfl
  | cons e q ih => exact ih (m.dropCast e)

end Module

namespace Lowering

variable {l : Lowering} {m : Module} {name : String}

/-- Functions are only added while casts are queued, and behind the others, so that the queue stays
in range. -/
theorem keeps_inRange (l : Lowering) (m : Module) :
    l.Keeps m fun m₁ q _ => ∀ e ∈ q, e.1 < m₁.functions.length where
  replace {v} q _ hv _ hq e he := by
    have hlen : v.module.functions.length ≤ v.after.functions.length :=
      v.module.length_le_replaceCall v.call.site v.replacement
    rcases CastQueue.mem_insertAll.1 he with he | ⟨he, -⟩
    · have hlt := hq e he
      omega
    · have hlt : v.call.site.function < v.module.functions.length :=
        (List.getElem?_eq_some_iff.1 hv.function).1
      omega
  drop _ hq e he := by
    rw [Module.length_dropCast]
    exact hq e (List.mem_cons_of_mem _ he)
  erase _ _ _ he := nomatch he

/-- **Every position is valid when the run goes to it.** -/
theorem valid_of_mem_accesses {a : Access} (ha : a ∈ l.accesses m) : a.Valid := by
  have hreached := (l.keeps_inRange m).reached [] (fun _ he => nomatch he) a ha
  cases a with
  | call m₁ name s =>
    obtain ⟨-, ⟨sites, hp⟩, -⟩ := hreached
    obtain ⟨f, b, result, args, ty, align, hf, hb, hi, -⟩ :=
      Module.exists_call_of_calleeAt? (hp.callee s List.mem_cons_self)
    exact ⟨f, b, _, hf, hb, hi, rfl⟩
  | cast m₁ e =>
    obtain ⟨q, -, hq⟩ := hreached
    exact hq e List.mem_cons_self

end Lowering

/-! ### They are those of the log -/

/-- The call that an event says is about to be lowered. -/
def Event.visit? : Event → Option (String × Site)
  | .visit callee s => some (callee, s)
  | _ => none

namespace Traced

variable {ε α β : Type} {x : Traced ε α} {f : α → Traced ε β}

/-- The calls that the log says are about to be lowered. -/
def visits (x : Traced ε α) : List (String × Site) := x.log.filterMap Event.visit?

theorem visits_bind_of_ok {a : α} (h : x.result = .ok a) :
    (x >>= f).visits = x.visits ++ (f a).visits := by
  show (x.bind f).visits = _
  unfold Traced.bind
  rw [h]
  exact List.filterMap_append ..

theorem visits_bind_of_error {e : ε} (h : x.result = .error e) : (x >>= f).visits = x.visits := by
  show (x.bind f).visits = _
  unfold Traced.bind
  rw [h]
  rfl

/-- What comes after names no calls. -/
theorem visits_bind_of_forall (h : ∀ a, (f a).visits = []) : (x >>= f).visits = x.visits := by
  cases hx : x.result with
  | ok a => rw [visits_bind_of_ok hx, h a, List.append_nil]
  | error e => exact visits_bind_of_error hx

theorem visits_bind_eq_nil (hx : x.visits = []) (hf : ∀ a, (f a).visits = []) :
    (x >>= f).visits = [] := (visits_bind_of_forall hf).trans hx

theorem visits_map_report {γ : Type} (g : γ → Event) (h : ∀ c, (g c).visit? = none) (cs : List γ) :
    (report (cs.map g) : Traced ε Unit).visits = [] := by
  show (cs.map g).filterMap Event.visit? = []
  rw [List.filterMap_map]
  exact List.filterMap_eq_nil_iff.2 fun c _ => h c

end Traced

open Traced

theorem visits_unpack (layout : DataLayout) (dest src : Ty) (d s : Nat) :
    (TypeMatch.unpack layout dest src d s).visits = [] := by
  fun_induction TypeMatch.unpack layout dest src d s with
  | case1 | case2 | case3 | case5 => rfl
  | case4 _ _ _ _ _ _ _ _ _ ih => exact ih
  | case6 _ _ _ _ _ _ _ _ _ ih => exact ih

theorem visits_shrink (layout : DataLayout) (bytes : Nat) (t : Ty) (d s : Nat) :
    (TypeMatch.shrink layout bytes t d s).visits = [] := by
  fun_induction TypeMatch.shrink layout bytes t d s with
  | case1 | case2 | case4 => rfl
  | case3 _ _ _ _ _ _ _ _ _ ih => exact ih

namespace Lowering

variable {l : Lowering} {m : Module} {name : String}

/-- Replacing a call names no other call in the log. -/
def Quiet (l : Lowering) : Prop := ∀ (m : Module) (call : Call), (l.replace m call).visits = []

theorem quiet_zeroFill : zeroFill.Quiet := by
  intro m call
  refine visits_bind_eq_nil rfl fun f => visits_bind_eq_nil rfl fun _ => ?_
  cases (ZeroFill.build f).runIn? call.caller <;> rfl

theorem quiet_blockCopy (base : String) : (blockCopy base).Quiet := by
  intro m call
  refine visits_bind_eq_nil rfl fun req => ?_
  split
  · rfl
  · refine visits_bind_eq_nil ?_ fun shape => visits_bind_eq_nil rfl fun c =>
      visits_bind_eq_nil rfl fun _ => ?_
    · exact visits_bind_eq_nil (visits_unpack ..) fun _ => visits_shrink ..
    · cases (BlockCopy.build base c).runIn? call.caller <;> rfl

theorem quiet_lowerings {s : Settings} (hl : l ∈ s.lowerings) : l.Quiet := by
  simp only [Settings.lowerings, List.mem_cons, List.not_mem_nil, or_false] at hl
  rcases hl with rfl | rfl | rfl | rfl
  · exact fun _ _ => rfl
  · exact fun _ _ => rfl
  · exact quiet_zeroFill
  · exact quiet_blockCopy s.copyBase

theorem visits_lowerSites (hl : l.Quiet) : ∀ {sites : List Site} {m : Module} {q : CastQueue},
    Pending m name sites → (l.lowerSites m q sites).visits =
      (l.accessesAt name m q sites).filterMap Access.visit?
  | [], m, q, _ => (m.visit?_castAccesses q).symm
  | s :: sites, m, q, hp => by
    obtain ⟨f, b, result, args, ty, align, hf, hb, hi, hat⟩ :=
      Module.exists_call_of_calleeAt? (hp.callee s List.mem_cons_self)
    have hcall : ((Traced.ofExcept (m.callAt s)).mapError (Stop.mk · m)).result =
        .ok ⟨s, f, name, result, args, ty, align⟩ := result_mapError_eq_ok.2 hat
    have hquiet : ((l.replace m ⟨s, f, name, result, args, ty, align⟩).mapError
        (Stop.mk · m)).visits = [] := hl m _
    -- the call is named after it was read and before it is replaced, so also if it is refused
    rw [lowerSites, visits_bind_of_ok hcall, visits_bind_of_ok rfl, accessesAt, hat]
    cases hr : (l.replace m ⟨s, f, name, result, args, ty, align⟩).result with
    | error e =>
      have herror : ((l.replace m ⟨s, f, name, result, args, ty, align⟩).mapError
          (Stop.mk · m)).result = .error ⟨e, m⟩ := by
        rw [Traced.result_mapError, hr]
        rfl
      rw [visits_bind_of_error herror, hquiet]
      simp only [hr]
      rfl
    | ok r =>
      rw [visits_bind_of_ok (result_mapError_eq_ok.2 hr), hquiet, visits_bind_of_ok rfl,
        visits_map_report _ fun _ => rfl, visits_lowerSites hl (hp.tail r)]
      simp only [hr]
      rfl

theorem visits_lowerFunction (hl : l.Quiet) (m : Module) (name : String) :
    (l.lowerFunction m name).visits =
      (l.accessesAt name m [] (m.callSites name).reverse).filterMap Access.visit? := by
  rw [lowerFunction, visits_bind_of_ok rfl, ← visits_lowerSites hl (pending_callSites m name)]
  refine visits_bind_of_forall fun x => ?_
  refine visits_bind_eq_nil (visits_map_report _ (fun _ => rfl) _) fun _ => ?_
  refine visits_bind_eq_nil ?_ fun _ => rfl
  split <;> rfl

theorem visits_foldlM (hl : l.Quiet) : ∀ (names : List String) (m : Module),
    (names.foldlM l.lowerFunction m).visits = (l.accessesIn m names).filterMap Access.visit?
  | [], m => rfl
  | name :: names, m => by
    rw [List.foldlM_cons, accessesIn, List.filterMap_append, ← visits_lowerFunction hl]
    cases h : (l.lowerFunction m name).result with
    | error e => rw [visits_bind_of_error h, List.filterMap_nil, List.append_nil]
    | ok m' => rw [visits_bind_of_ok h, visits_foldlM hl names m']

/-- **The log of a run names the calls that it goes to.** -/
theorem visits_run (hl : l.Quiet) (m : Module) :
    (l.run m).visits = (l.accesses m).filterMap Access.visit? := by
  rw [run, visits_bind_of_forall fun _ => rfl]
  exact visits_foldlM hl _ m

end Lowering

/-! ### The whole lowering -/

/-- Where something else than a call is found there is no name to blame, but a run stops only at
calls of its family. -/
theorem Lowering.Stops.ne_notACall {l : Lowering} {e : Fault} (h : l.Stops e) {f : String}
    {i : Instruction} : e ≠ .error (.call f "" (.malformed (.notACall i))) := by
  rintro rfl
  obtain he | ⟨caller, callee, o, hn, he⟩ := h
  · exact nomatch he
  · obtain ⟨-, rfl, -⟩ := LoweringError.call.inj (Fault.error.inj he)
    have hnone : Family.of? "" = none := by decide
    rw [hnone] at hn
    exact nomatch hn

/-- **Positions stay valid and nothing is divided by zero.**  In a run of any of the lowerings on
any module, each position is valid when the run goes to it, and the log names just the calls among
them; so it never happens that something else is found where a call was expected.  What is divided
by is positive.  And the whole lowering ends with a module or with an error, unless a number leaves
the machine's words at one of the calls it went to. -/
theorem Module.handles_valid (s : Settings) (m : Module) :
    (∀ l ∈ s.lowerings, ∀ m₁ : Module,
      (∀ a ∈ l.accesses m₁, a.Valid) ∧
      (l.run m₁).visits = (l.accesses m₁).filterMap Access.visit? ∧
      ∀ st, (l.run m₁).result = .error st →
        ∀ f i, st.fault ≠ .error (.call f "" (.malformed (.notACall i)))) ∧
    m.layout.PositiveDivisors ∧
    ((∃ r, (m.lowerIntrinsics s).result = .ok r) ∨
      (∃ e, (m.lowerIntrinsics s).result = .error (.error e)) ∨
      (m.lowerIntrinsics s).result = .error .overflow ∧
        ∃ l ∈ s.lowerings, ∃ m₁ name site call, .call m₁ name site ∈ m.accesses s.lowerings ∧
          m₁.callAt site = .ok call ∧ call.Overflows m₁ l.family) := by
  refine ⟨fun l hl m₁ => ⟨fun a ha => Lowering.valid_of_mem_accesses ha,
    Lowering.visits_run (Lowering.quiet_lowerings hl) m₁, fun st hst f i he => ?_⟩,
    m.layout.positiveDivisors, ?_⟩
  · exact ((l.stopsIn_run m₁ st hst).stops (s.guards_replace hl)).ne_notACall he
  · rw [Module.result_lowerIntrinsics]
    split
    · next st hrun =>
      obtain ⟨⟨l, m₁⟩, hx, name, site, call, hmem, -, hcall, -, hr⟩ :=
        Module.stopsIn_runFrom false st hrun
      have hl : l ∈ s.lowerings := Module.mem_of_mem_runs hx
      rcases s.guards_replace hl st.module call _ hr with hoverflow | ⟨o, ho⟩
      · rw [hoverflow] at hr ⊢
        refine .inr (.inr ⟨rfl, l, hl, st.module, name, site, call, ?_, hcall, ?_⟩)
        · exact List.mem_flatMap.2 ⟨(l, m₁), hx, hmem⟩
        · exact s.overflows_of_replace hl hr
      · exact .inr (.inl ⟨_, congrArg Except.error ho⟩)
    · split
      · exact .inr (.inl ⟨_, rfl⟩)
      · exact .inl ⟨_, rfl⟩

end KernelIR

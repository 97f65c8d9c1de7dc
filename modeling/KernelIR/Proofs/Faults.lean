import KernelIR.Proofs.Edits
import KernelIR.Proofs.Refusals

/-!
# Where a run stops

`Lowering.accesses` lists the positions that a run goes to, each with the module at that time.  A
run that fails stops at one of them, at a call of its family that is refused
(`Lowering.stopsIn_run`): either something is wrong with that call, or the machine's words are at
their end (`Module.faults_runLowerings`).  In particular no site is ever lost, and what stands at a
site is always a call.
-/

namespace KernelIR

/-! ### The positions that a run goes to -/

/-- A position that a run is about to use, with the module at that time. -/
inductive Access where
  /-- The position of a call to the named function. -/
  | call (m : Module) (name : String) (site : Site)
  /-- The position of the function in which a cast was queued. -/
  | cast (m : Module) (entry : Nat × TempId)

/-- Drops a cast unless something reads it. -/
def Module.dropCast (m : Module) (entry : Nat × TempId) : Module :=
  match m.functions[entry.1]? with
  | none => m
  | some f => if f.hasUsers entry.2 then m else m.modifyFunction entry.1 (·.eraseDef entry.2)

/-- The casts of a queue, looked at one after the other. -/
def Module.castAccesses (m : Module) : CastQueue → List Access
  | [] => []
  | e :: q => .cast m e :: (m.dropCast e).castAccesses q

namespace Lowering

/-- The sites of calls to a function, one after the other, and then the casts that were queued.
A call that is refused is the last. -/
def accessesAt (l : Lowering) (name : String) (m : Module) (q : CastQueue) : List Site → List Access
  | [] => m.castAccesses q
  | s :: sites => .call m name s ::
      match m.callAt s with
      | .error _ => []
      | .ok call =>
        match (l.replace m call).result with
        | .error _ => []
        | .ok r => l.accessesAt name (m.replaceCall s r) (q.insertAll s.function r.casts) sites

/-- The positions for several functions, each of which is removed in the end. -/
def accessesIn (l : Lowering) (m : Module) : List String → List Access
  | [] => []
  | name :: names =>
    l.accessesAt name m [] (m.callSites name).reverse ++
      match (l.lowerFunction m name).result with
      | .error _ => []
      | .ok m' => l.accessesIn m' names

/-- The positions that a run goes to. -/
def accesses (l : Lowering) (m : Module) : List Access := l.accessesIn m (m.namesIn (some l.family))

end Lowering

/-- The runs of several lowerings, one after the other, each with the module at its start.  A run
that fails is the last. -/
def Module.runs (m : Module) : List Lowering → List (Lowering × Module)
  | [] => []
  | l :: ls => (l, m) ::
      match (l.run m).result with
      | .error _ => []
      | .ok (_, m') => m'.runs ls

/-- The positions that several runs go to, one after the other. -/
def Module.accesses (m : Module) (ls : List Lowering) : List Access :=
  (m.runs ls).flatMap fun x => x.1.accesses x.2

/-! ### A run that fails stops at one of them -/

namespace Lowering

variable {l : Lowering} {m : Module} {name : String}

theorem accessesAt_cons {q : CastQueue} {s : Site} {sites : List Site} {call : Call}
    {r : Replacement} (hcall : m.callAt s = .ok call) (hr : (l.replace m call).result = .ok r) :
    l.accessesAt name m q (s :: sites) = .call m name s ::
      l.accessesAt name (m.replaceCall s r) (q.insertAll s.function r.casts) sites := by
  simp only [accessesAt, hcall, hr]

/-- The run stopped at one of the positions, that of a call of the family which is refused. -/
def StopsIn (l : Lowering) (as : List Access) (st : Stop) : Prop :=
  ∃ name site call, .call st.module name site ∈ as ∧ Family.of? name = some l.family ∧
    st.module.callAt site = .ok call ∧ call.callee = name ∧
    (l.replace st.module call).result = .error st.fault

theorem StopsIn.mono {as bs : List Access} {st : Stop} (h : l.StopsIn as st)
    (hsub : ∀ a ∈ as, a ∈ bs) : l.StopsIn bs st := by
  obtain ⟨name, site, call, ha, h⟩ := h
  exact ⟨name, site, call, hsub _ ha, h⟩

theorem stopsIn_lowerSites (hn : Family.of? name = some l.family) :
    ∀ {sites : List Site} {m : Module} {q : CastQueue}, Pending m name sites →
      Faults (l.StopsIn (l.accessesAt name m q sites)) (l.lowerSites m q sites).result
  | [], m, q, _ => faults_ok _
  | s :: sites, m, q, hp => by
    obtain ⟨f, b, result, args, ty, align, hf, hb, hi, hat⟩ :=
      Module.exists_call_of_calleeAt? (hp.callee s List.mem_cons_self)
    -- a pending site holds a call, so that reading it does not fail; replacing the call may
    rw [lowerSites]
    simp only [hat, Traced.result_bind, Traced.result_mapError, Traced.result_ofExcept,
      Traced.result_report]
    refine Faults.bind (faults_ok _) fun call hcall => Faults.bind (faults_ok _) fun _ _ => ?_
    obtain rfl := Except.ok.inj hcall
    refine Faults.bind (Faults.mapError fun e he => ?_) fun r hr =>
      Faults.bind (faults_ok _) fun _ _ => ?_
    · exact ⟨name, s, _, List.mem_cons_self, hn, hat, rfl, he⟩
    · rw [accessesAt_cons hat (result_mapError_eq_ok.1 hr)]
      exact (stopsIn_lowerSites hn (hp.tail r)).mono fun st hst =>
        hst.mono fun a ha => List.mem_cons_of_mem _ ha

theorem stopsIn_foldlM : ∀ {names : List String} {m : Module},
    (∀ n ∈ names, Family.of? n = some l.family) →
      Faults (l.StopsIn (l.accessesIn m names)) (names.foldlM l.lowerFunction m).result
  | [], m, _ => faults_ok _
  | name :: names, m, hn => by
    rw [List.foldlM_cons, Traced.result_bind]
    refine Faults.bind ?_ fun m' hm' => ?_
    · simp only [lowerFunction, Traced.result_bind, Traced.result_report]
      refine Faults.bind (faults_ok _) fun _ _ => Faults.bind ?_ fun x _ => faults_ok _
      exact (stopsIn_lowerSites (hn name List.mem_cons_self) (pending_callSites m name)).mono
        fun st hst => hst.mono fun a ha => List.mem_append_left _ ha
    · have hrest : l.accessesIn m (name :: names) =
          l.accessesAt name m [] (m.callSites name).reverse ++ l.accessesIn m' names := by
        simp only [accessesIn, hm']
      rw [hrest]
      exact (stopsIn_foldlM fun n hmem => hn n (List.mem_cons_of_mem _ hmem)).mono
        fun st hst => hst.mono fun a ha => List.mem_append_right _ ha

/-- **A run that fails stops at a call that it went to and that is refused.** -/
theorem stopsIn_run (l : Lowering) (m : Module) :
    Faults (l.StopsIn (l.accesses m)) (l.run m).result := by
  rw [run, Traced.result_bind]
  exact Faults.bind (stopsIn_foldlM fun _ hn => (Module.mem_namesIn.1 hn).1) fun _ _ => faults_ok _

/-- A fault of a call of the lowering's family, or the end of the machine's words. -/
def Stops (l : Lowering) (e : Fault) : Prop :=
  e = .overflow ∨ ∃ caller callee o, Family.of? callee = some l.family ∧
    e = .error (.call caller callee o)

/-- The lowering of a call blames that call. -/
def Guarded (l : Lowering) : Prop :=
  ∀ (m : Module) (call : Call), call.Guards (l.replace m call).result

theorem StopsIn.stops {as : List Access} {st : Stop} (hl : l.Guarded) (h : l.StopsIn as st) :
    l.Stops st.fault := by
  obtain ⟨name, site, call, -, hn, -, rfl, hr⟩ := h
  rcases hl st.module call _ hr with ho | ⟨o, ho⟩
  · exact .inl ho
  · exact .inr ⟨_, call.callee, o, hn, ho⟩

end Lowering

namespace Module

theorem runs_cons {m m' : Module} {l : Lowering} {ls : List Lowering} {c : Bool}
    (h : (l.run m).result = .ok (c, m')) : m.runs (l :: ls) = (l, m) :: m'.runs ls := by
  simp only [runs, h]

theorem mem_of_mem_runs : ∀ {ls : List Lowering} {m : Module} {x : Lowering × Module},
    x ∈ m.runs ls → x.1 ∈ ls
  | l :: ls, m, x, hx => by
    rcases List.mem_cons.1 hx with rfl | hx
    · exact List.mem_cons_self
    · split at hx
      · exact nomatch hx
      · exact List.mem_cons_of_mem _ (mem_of_mem_runs hx)

/-- A run of several lowerings that fails stops where one of their runs does. -/
theorem stopsIn_runFrom : ∀ {ls : List Lowering} (found : Bool) {m : Module},
    Faults (fun st => ∃ x ∈ m.runs ls, x.1.StopsIn (x.1.accesses x.2) st)
      (runFrom found m ls).result
  | [], found, m => faults_ok _
  | l :: ls, found, m => by
    rw [runFrom, List.foldlM_cons, Traced.result_bind, Traced.result_bind]
    refine Faults.bind (Faults.bind ?_ fun x _ => faults_ok _) fun x hx => ?_
    · exact (l.stopsIn_run m).mono fun st hst => ⟨(l, m), List.mem_cons_self, hst⟩
    · obtain ⟨⟨c, m'⟩, hrun, hx⟩ := except_bind_eq_ok.1 hx
      obtain rfl := Except.ok.inj hx
      rw [runs_cons hrun]
      exact (stopsIn_runFrom (found || c)).mono fun st ⟨x, hx, hst⟩ =>
        ⟨x, List.mem_cons_of_mem _ hx, hst⟩

/-- A run of several lowerings stops only at a call of one of their families. -/
theorem faults_runLowerings {ls : List Lowering} (hl : ∀ l ∈ ls, l.Guarded) (m : Module) :
    Faults (fun st => ∃ l ∈ ls, l.Stops st.fault) (m.runLowerings ls).result :=
  (stopsIn_runFrom false).mono fun _ ⟨x, hx, h⟩ =>
    ⟨x.1, mem_of_mem_runs hx, h.stops (hl x.1 (mem_of_mem_runs hx))⟩

end Module

end KernelIR

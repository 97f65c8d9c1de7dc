import KernelIR.Proofs.Faults

/-!
# Several lowerings in a row

A run of several lowerings removes the functions of all their families, edits the others and adds
functions after them (`Module.rewrites_of_runLowerings`).  `Module.lowerIntrinsics` is such a run
with a final check: `lowerIntrinsics_eq_ok` and `lowerIntrinsics_eq_residual` say what its answers
mean.
-/

namespace KernelIR

namespace Module

variable {m m' : Module} {c : Bool} {s : Settings}

/-! ### Runs as sequences -/

/-- A run with a known flag ends with a module. -/
theorem exists_eq_ok_of_flag {ε α β : Type} {x : Except ε (α × β)} {a : α}
    (h : x.toOption.map (·.1) = some a) : ∃ b, x = .ok (a, b) := by
  cases x with
  | error e => exact nomatch h
  | ok p => exact ⟨p.2, congrArg Except.ok (Prod.ext (Option.some.inj h) rfl)⟩

theorem runFrom_nil_eq_ok {b : Bool} :
    (runFrom b m []).result = .ok (c, m') ↔ c = b ∧ m' = m := by
  show (.ok (b, m) : Except Stop (Bool × Module)) = .ok (c, m') ↔ _
  rw [Except.ok.injEq, Prod.mk.injEq, eq_comm, @eq_comm _ m]

theorem runFrom_cons_eq_ok {b : Bool} {l : Lowering} {ls : List Lowering} :
    (runFrom b m (l :: ls)).result = .ok (c, m') ↔ ∃ c₁ m₁,
      (l.run m).result = .ok (c₁, m₁) ∧ (runFrom (b || c₁) m₁ ls).result = .ok (c, m') := by
  rw [runFrom, List.foldlM_cons]
  simp only [Traced.result_bind_eq_ok, Traced.result_pure, Except.ok.injEq]
  constructor
  · rintro ⟨_, ⟨⟨c₁, m₁⟩, h₁, rfl⟩, h⟩
    exact ⟨c₁, m₁, h₁, h⟩
  · rintro ⟨c₁, m₁, h₁, h⟩
    exact ⟨_, ⟨(c₁, m₁), h₁, rfl⟩, h⟩

/-- What was found before is only carried along. -/
theorem runFrom_eq_ok {ls : List Lowering} : ∀ {b c : Bool} {m : Module},
    (runFrom b m ls).result = .ok (c, m') ↔
      ∃ c', (m.runLowerings ls).result = .ok (c', m') ∧ c = (b || c') := by
  unfold runLowerings
  induction ls with
  | nil =>
    intro b c m
    simp [runFrom_nil_eq_ok, and_comm]
  | cons l ls ih =>
    intro b c m
    simp only [runFrom_cons_eq_ok, Bool.false_or]
    constructor
    · rintro ⟨c₁, m₁, h₁, h⟩
      obtain ⟨c', h', rfl⟩ := ih.1 h
      exact ⟨c₁ || c', ⟨c₁, m₁, h₁, ih.2 ⟨c', h', rfl⟩⟩, Bool.or_assoc ..⟩
    · rintro ⟨_, ⟨c₁, m₁, h₁, h⟩, rfl⟩
      obtain ⟨c', h', rfl⟩ := ih.1 h
      exact ⟨c₁, m₁, h₁, ih.2 ⟨c', h', (Bool.or_assoc ..).symm⟩⟩

theorem runLowerings_nil_eq_ok :
    (m.runLowerings []).result = .ok (c, m') ↔ c = false ∧ m' = m := runFrom_nil_eq_ok

/-- A lowering, then the others; something was found if one of them found something. -/
theorem runLowerings_cons_eq_ok {l : Lowering} {ls : List Lowering} :
    (m.runLowerings (l :: ls)).result = .ok (c, m') ↔ ∃ c₁ m₁ c₂,
      (l.run m).result = .ok (c₁, m₁) ∧ (m₁.runLowerings ls).result = .ok (c₂, m') ∧
      c = (c₁ || c₂) := by
  rw [runLowerings, runFrom_cons_eq_ok]
  simp only [runFrom_eq_ok, Bool.false_or]
  constructor
  · rintro ⟨c₁, m₁, h₁, c₂, h₂, rfl⟩
    exact ⟨c₁, m₁, c₂, h₁, h₂, rfl⟩
  · rintro ⟨c₁, m₁, c₂, h₁, h₂, rfl⟩
    exact ⟨c₁, m₁, h₁, c₂, h₂, rfl⟩

/-! ### What a run does to the functions -/

/-- The module without the functions of the families of several lowerings. -/
def withoutAll (m : Module) (ls : List Lowering) : Module :=
  ls.foldl (fun m l => m.without l.family) m

section First

variable {l : Lowering} {ls : List Lowering} {o : Module}

/-- A run that adds nothing to other families is a run without their functions, too. -/
theorem Rewrites.withoutAll
    (hls : ∀ l' ∈ ls, ∀ g, l.Adds g → Family.of? g.name ≠ some l'.family)
    (h : l.Rewrites o m) : l.Rewrites (o.withoutAll ls) (m.withoutAll ls) := by
  induction ls generalizing o m with
  | nil => exact h
  | cons l' ls ih =>
    refine ih (fun l'' hl'' => hls l'' (List.mem_cons_of_mem _ hl'')) ?_
    exact h.without (fun _ _ he => he.name_eq) (hls l' List.mem_cons_self)

/-- The functions of the families of `ls` are the same before and after the run of `l`, those of the
family of `l` apart. -/
theorem Rewrites.exists_family_iff
    (hls : ∀ l' ∈ ls, ∀ g, l.Adds g → Family.of? g.name ≠ some l'.family)
    (h : l.Rewrites (o.without l.family) m) :
    (∃ f ∈ o.functions, ∃ l' ∈ l :: ls, Family.of? f.name = some l'.family) ↔
      (∃ f ∈ o.functions, Family.of? f.name = some l.family) ∨
        ∃ f ∈ m.functions, ∃ l' ∈ ls, Family.of? f.name = some l'.family := by
  obtain ⟨added, hadded, hnames⟩ := h.mem_names fun _ _ he => he.name_eq
  constructor
  · rintro ⟨f, hf, l', hl', hk⟩
    by_cases hkl : Family.of? f.name = some l.family
    · exact .inl ⟨f, hf, hkl⟩
    · have hmem : l' ∈ ls := by
        rcases List.mem_cons.1 hl' with rfl | hl'
        · exact absurd hk hkl
        · exact hl'
      have hwithout : f ∈ (o.without l.family).functions :=
        List.mem_filter.2 ⟨hf, by simpa using hkl⟩
      obtain ⟨f', hf', hn⟩ := (hnames f.name).2 (.inl ⟨f, hwithout, rfl⟩)
      exact .inr ⟨f', hf', l', hmem, hn ▸ hk⟩
  · rintro (⟨f, hf, hk⟩ | ⟨f', hf', l', hl', hk⟩)
    · exact ⟨f, hf, l, List.mem_cons_self, hk⟩
    · rcases (hnames f'.name).1 ⟨f', hf', rfl⟩ with ⟨f, hf, hn⟩ | ⟨g, hg, hn⟩
      · exact ⟨f, (List.mem_filter.1 hf).1, l', List.mem_cons_of_mem _ hl', hn ▸ hk⟩
      · exact absurd (hn ▸ hk) (hls l' hl' g (hadded g hg))

end First

/-- A run of several lowerings removes the functions of all their families, edits the others and
adds functions; and it answers whether there was a function of one of the families.  No lowering may
add what a later one has to remove. -/
theorem rewrites_of_runLowerings {ls : List Lowering}
    (hls : ls.Pairwise fun l l' => ∀ g, l.Adds g → Family.of? g.name ≠ some l'.family)
    (h : (m.runLowerings ls).result = .ok (c, m')) :
    Rewrites (fun f f' => ∃ l ∈ ls, l.Edit f f') (fun g => ∃ l ∈ ls, l.Adds g)
      (m.withoutAll ls) m' ∧
    (c = true ↔ ∃ f ∈ m.functions, ∃ l ∈ ls, Family.of? f.name = some l.family) := by
  induction ls generalizing m c with
  | nil =>
    obtain ⟨rfl, rfl⟩ := runLowerings_nil_eq_ok.1 h
    exact ⟨.refl _, by simp⟩
  | cons l ls ih =>
    obtain ⟨c₁, m₁, c₂, h₁, h₂, rfl⟩ := runLowerings_cons_eq_ok.1 h
    obtain ⟨hl, hls⟩ := List.pairwise_cons.1 hls
    obtain ⟨hr₁, hc₁⟩ := Lowering.rewrites_of_run h₁
    obtain ⟨hr₂, hc₂⟩ := ih hls h₂
    constructor
    · refine (Rewrites.mono ?_ ?_ (Rewrites.withoutAll hl hr₁)).trans (hr₂.mono ?_ ?_)
      · exact fun f f' he => ⟨l, List.mem_cons_self, he⟩
      · exact fun g hg => ⟨l, List.mem_cons_self, hg⟩
      · exact fun f f' ⟨l', hl', he⟩ => ⟨l', List.mem_cons_of_mem _ hl', he⟩
      · exact fun g ⟨l', hl', hg⟩ => ⟨l', List.mem_cons_of_mem _ hl', hg⟩
    · rw [Bool.or_eq_true, hc₁, hc₂, Rewrites.exists_family_iff hl hr₁]

end Module

/-! ### The whole lowering -/

/-- Every family has its lowering. -/
theorem Settings.exists_lowering (s : Settings) (k : Family) :
    ∃ l ∈ s.lowerings, l.family = k := by
  cases k with
  | funnelShift => exact ⟨.funnelShift, by simp [Settings.lowerings], rfl⟩
  | blockFill => exact ⟨.zeroFill, by simp [Settings.lowerings], rfl⟩
  | blockCopy => exact ⟨.blockCopy s.copyBase, by simp [Settings.lowerings], rfl⟩
  | lifetimeMarker => exact ⟨.lifetime, by simp [Settings.lowerings], rfl⟩

/-- A family has one lowering only. -/
theorem Settings.lowering_eq (s : Settings) {l l' : Lowering} (hl : l ∈ s.lowerings)
    (hl' : l' ∈ s.lowerings) (h : l.family = l'.family) : l = l' := by
  have hnodup : (s.lowerings.map (·.family)).Nodup :=
    show [Family.lifetimeMarker, .funnelShift, .blockFill, .blockCopy].Nodup by decide
  exact List.inj_on_of_nodup_map hnodup hl hl' h

theorem Settings.eq_funnelShift (s : Settings) {l : Lowering} (hl : l ∈ s.lowerings)
    (h : l.family = .funnelShift) : l = .funnelShift :=
  s.lowering_eq hl (by simp [Settings.lowerings]) h

namespace Module

variable {m m' : Module} {c : Bool} {s : Settings}

/-- Taking out the families of all lowerings leaves the functions of no family. -/
theorem functions_withoutAll (m : Module) (s : Settings) :
    (m.withoutAll s.lowerings).functions =
      m.functions.filter fun f => (Family.of? f.name).isNone := by
  simp only [withoutAll, Settings.lowerings, List.foldl_cons, List.foldl_nil, without,
    List.filter_filter]
  refine List.filter_congr fun f _ => ?_
  cases Family.of? f.name with
  | none => rfl
  | some k => cases k <;> rfl

theorem residual?_eq_none_iff : m.residual? = none ↔
    ∀ f ∈ m.functions, Family.of? f.name = none ∧
      ∀ i ∈ f.instructions, ∀ n, i.callee? = some n → Family.of? n = none := by
  simp only [residual?, List.find?_eq_none, List.mem_flatMap, mentioned, List.mem_cons,
    List.mem_filterMap, Bool.not_eq_true, Option.isSome_eq_false_iff, Option.isNone_iff_eq_none]
  constructor
  · intro h f hf
    exact ⟨h f.name ⟨f, hf, .inl rfl⟩, fun i hi n hn => h n ⟨f, hf, .inr ⟨i, hi, hn⟩⟩⟩
  · rintro h n ⟨f, hf, rfl | ⟨i, hi, hn⟩⟩
    · exact (h f hf).1
    · exact (h f hf).2 i hi n hn

theorem of_residual?_eq_some {n : String} (h : m.residual? = some n) :
    (Family.of? n).isSome ∧ ∃ f ∈ m.functions,
      n = f.name ∨ ∃ i ∈ f.instructions, i.callee? = some n := by
  refine ⟨List.find?_some (p := fun n => (Family.of? n).isSome) h, ?_⟩
  obtain ⟨f, hf, hmem⟩ := List.mem_flatMap.1 (List.mem_of_find?_eq_some h)
  refine ⟨f, hf, ?_⟩
  rcases List.mem_cons.1 hmem with hn | hn
  · exact .inl hn
  · exact .inr (List.mem_filterMap.1 hn)

/-- The whole lowering in one equation: the run, the check if it is asked for, the answer. -/
theorem result_lowerIntrinsics (s : Settings) (m : Module) :
    (m.lowerIntrinsics s).result = match (m.runLowerings s.lowerings).result with
      | .error st => .error st.fault
      | .ok (c, lowered) => match if s.verify then lowered.residual? else none with
        | some n => .error (.error (.residual n))
        | none => .ok (c, if c then lowered else m) := by
  rw [lowerIntrinsics, Traced.result_bind, Traced.result_mapError]
  cases (m.runLowerings s.lowerings).result with
  | error st => rfl
  | ok x =>
    obtain ⟨c, lowered⟩ := x
    cases hv : s.verify with
    | false => rfl
    | true =>
      show (Traced.ofExcept lowered.checkLowered >>= fun _ => _ : Traced _ _).result = _
      rw [Traced.result_bind, Traced.result_ofExcept, checkLowered]
      cases hr : lowered.residual? <;> simp only [if_true, hr] <;> rfl

theorem lowerIntrinsics_eq_ok :
    (m.lowerIntrinsics s).result = .ok (c, m') ↔ ∃ lowered,
      (m.runLowerings s.lowerings).result = .ok (c, lowered) ∧
      (s.verify = true → lowered.residual? = none) ∧ m' = if c then lowered else m := by
  rw [result_lowerIntrinsics]
  constructor
  · intro h
    split at h
    · exact nomatch h
    · next c' lowered hrun =>
      split at h
      · exact nomatch h
      · next hcheck =>
        obtain ⟨rfl, rfl⟩ := Prod.mk.inj (Except.ok.inj h)
        refine ⟨lowered, hrun, fun hv => ?_, rfl⟩
        rwa [if_pos hv] at hcheck
  · rintro ⟨lowered, hrun, hcheck, rfl⟩
    have hnone : (if s.verify then lowered.residual? else none) = none := by
      split
      · next hv => exact hcheck hv
      · rfl
    simp only [hrun, hnone]

/-- That a name is left over is never said by a lowering, only by the final check. -/
theorem lowerIntrinsics_eq_residual {n : String}
    (h : (m.lowerIntrinsics s).result = .error (.error (.residual n))) :
    ∃ c lowered, (m.runLowerings s.lowerings).result = .ok (c, lowered) ∧
      lowered.residual? = some n := by
  rw [result_lowerIntrinsics] at h
  split at h
  · next st hrun =>
    have hst : st.fault = .error (.residual n) := Except.error.inj h
    obtain ⟨l, -, hl | ⟨caller, callee, o, -, hl⟩⟩ :=
      faults_runLowerings (fun l hl => s.guards_replace hl) m st hrun
    · exact nomatch hst.symm.trans hl
    · exact nomatch hst.symm.trans hl
  · next c lowered hrun =>
    refine ⟨c, lowered, hrun, ?_⟩
    split at h
    · next n' hcheck =>
      obtain rfl : n' = n := by simpa using h
      split at hcheck
      · exact hcheck
      · exact nomatch hcheck
    · exact nomatch h

end Module

end KernelIR

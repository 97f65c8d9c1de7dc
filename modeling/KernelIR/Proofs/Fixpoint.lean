import KernelIR.Proofs.Completeness

/-!
# The answer of the lowering, and a second run

`Module.lowerIntrinsics` answers whether it found a function of a family.  This is the same as
whether the module changed, and a second run finds nothing and changes nothing
(`Module.lowerIntrinsics_fixpoint`).
-/

namespace KernelIR

namespace Module

variable {m m' : Module} {c : Bool} {s : Settings}

/-- A lowering does nothing in a module without functions of its family. -/
theorem run_of_forall_ne {l : Lowering}
    (h : ∀ f ∈ m.functions, Family.of? f.name ≠ some l.family) :
    (l.run m).result = .ok (false, m) := by
  have hnames : m.namesIn (some l.family) = [] := by
    refine List.eq_nil_iff_forall_not_mem.2 fun n hn => ?_
    obtain ⟨hk, f, hf, rfl⟩ := mem_namesIn.1 hn
    exact h f hf hk
  rw [Lowering.run_eq_ok, hnames]
  exact ⟨rfl, rfl⟩

theorem runLowerings_of_forall_eq_none (h : ∀ f ∈ m.functions, Family.of? f.name = none)
    (ls : List Lowering) : (m.runLowerings ls).result = .ok (false, m) := by
  induction ls with
  | nil => exact runLowerings_nil_eq_ok.2 ⟨rfl, rfl⟩
  | cons l ls ih =>
    have hl : (l.run m).result = .ok (false, m) := by
      refine run_of_forall_ne fun f hf hk => ?_
      rw [h f hf] at hk
      exact nomatch hk
    exact runLowerings_cons_eq_ok.2 ⟨false, m, false, hl, ih, rfl⟩

/-- The answer of a run of all lowerings: whether there was a function of a family. -/
theorem flag_iff_of_runLowerings (h : (m.runLowerings s.lowerings).result = .ok (c, m')) :
    c = true ↔ ∃ f ∈ m.functions, (Family.of? f.name).isSome := by
  rw [(rewrites_of_runLowerings s.pairwise_lowerings h).2]
  refine exists_congr fun f => and_congr_right fun _ => ?_
  rw [Option.isSome_iff_exists]
  constructor
  · rintro ⟨l, -, hk⟩
    exact ⟨l.family, hk⟩
  · rintro ⟨k, hk⟩
    obtain ⟨l, hl, rfl⟩ := s.exists_lowering k
    exact ⟨l, hl, hk⟩

/-- After all lowerings and the check, or with a base name outside the families, no function of a
family is left. -/
theorem forall_eq_none_of_runLowerings
    (hs : s.verify = true ∨ Family.of? (s.copyBase ++ ".") = none)
    (h : (m.runLowerings s.lowerings).result = .ok (c, m'))
    (hcheck : s.verify = true → m'.residual? = none) :
    ∀ f ∈ m'.functions, Family.of? f.name = none := by
  rcases hs with hv | hbase
  · exact fun f hf => (residual?_eq_none_iff.1 (hcheck hv) f hf).1
  · exact (forall₂_of_runLowerings hbase h).1

/-- **The lowering reaches a fixpoint.**  Its answer says whether there was a function of a family,
which is whether the module changed; running it again answers that there was none, and gives the
same module. -/
theorem lowerIntrinsics_fixpoint (s : Settings)
    (hs : s.verify = true ∨ Family.of? (s.copyBase ++ ".") = none) (m m' : Module) (c : Bool)
    (h : (m.lowerIntrinsics s).result = .ok (c, m')) :
    (c = true ↔ ∃ f ∈ m.functions, (Family.of? f.name).isSome) ∧ (c = true ↔ m' ≠ m) ∧
      (m'.lowerIntrinsics s).result = .ok (false, m') := by
  obtain ⟨lowered, hrun, hcheck, hm'⟩ := lowerIntrinsics_eq_ok.1 h
  have hflag := flag_iff_of_runLowerings hrun
  have hnone := forall_eq_none_of_runLowerings hs hrun hcheck
  -- in both cases the module that is left is the one that was checked
  have hlowered : m' = lowered := by
    cases c with
    | true => rw [hm', if_pos rfl]
    | false =>
      have hm : ∀ f ∈ m.functions, Family.of? f.name = none := by
        intro f hf
        by_contra hk
        exact nomatch hflag.2 ⟨f, hf, Option.isSome_iff_ne_none.2 hk⟩
      rw [runLowerings_of_forall_eq_none hm] at hrun
      rw [hm', if_neg Bool.false_ne_true]
      exact (Prod.mk.inj (Except.ok.inj hrun)).2
  subst hlowered
  refine ⟨hflag, ⟨fun hc he => ?_, fun hne => ?_⟩, ?_⟩
  · obtain ⟨f, hf, hk⟩ := hflag.1 hc
    rw [hnone f (he ▸ hf)] at hk
    exact nomatch hk
  · cases c with
    | true => rfl
    | false => exact absurd (hm'.trans (if_neg Bool.false_ne_true)) hne
  · exact lowerIntrinsics_eq_ok.2 ⟨m', runLowerings_of_forall_eq_none hnone _, hcheck, rfl⟩

/-- A kernel with a lifetime marker before a funnel shift, each of a declared function. -/
def markedShift : Module where
  name := "marked"
  functions := [.declare "llvm.fshl.i32" (.int 32) [.int 32, .int 32, .int 32],
    { name := "kernel", returnType := .int 32, params := [(0, .int 32), (1, .int 32)]
      blocks := [⟨0, [.call none (.function "llvm.lifetime.end") [.const 4, .undef] .void none,
        .call (some 2) (.function "llvm.fshl.i32") [.temp 0, .temp 1, .const 35] (.int 32) none,
        .ret (some (.temp 2))]⟩] },
    .declare "llvm.lifetime.end" .void [.int 64, .ptr (.int 8)]]

/-- The base name `llvm.lifetime` with a dot is a name of a family; the check makes up for it. -/
theorem lowerIntrinsics_fixpoint_markedShift :
    Family.of? ("llvm.lifetime" ++ ".") = some .lifetimeMarker ∧
    ∃ m', (markedShift.lowerIntrinsics ⟨"llvm.lifetime", true⟩).result = .ok (true, m') ∧
      m' ≠ markedShift ∧
      (m'.lowerIntrinsics ⟨"llvm.lifetime", true⟩).result = .ok (false, m') :=
  have hfix := lowerIntrinsics_fixpoint ⟨"llvm.lifetime", true⟩ (.inl rfl) markedShift _ true rfl
  ⟨by decide +kernel, _, rfl, hfix.2.1.1 rfl, hfix.2.2⟩

end Module

end KernelIR

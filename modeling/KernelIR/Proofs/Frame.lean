import KernelIR.Proofs.Fixpoint
import KernelIR.Proofs.Provenance

/-!
# What the lowering leaves alone

`Module.Framed` is what is known in the middle of a run: the module has its old name, layout and
global variables, the functions that were removed belonged to a family, those that were added are
copying functions under new names, and every other function is tracked back to what it was, together
with the casts that wait to be dropped.  Every step of every lowering keeps this
(`Module.keeps_framed`), and at the end of the run it is the frame of the whole lowering
(`Module.frame_of_lowerIntrinsics`).
-/

namespace KernelIR

/-! ### Tracked lists of functions -/

/-- Each function of `fs'` is what became of the one of `fs` at its position, with the queued casts
of it. -/
structure TrackedAll (s : Settings) (m : Module) (vs : List Visit) (q : CastQueue)
    (fs fs' : List Function) : Prop where
  length : fs.length = fs'.length
  queue : ∀ e ∈ q, e.1 < fs.length
  tracked : ∀ {n : Nat} {f f' : Function}, fs[n]? = some f → fs'[n]? = some f' →
    ∃ rs ρ, Tracked s m f vs rs ρ f' ∧ ∀ t, (n, t) ∈ q → Queued s m f vs rs f' t

namespace TrackedAll

variable {s : Settings} {m : Module} {vs : List Visit} {q : CastQueue} {fs fs' : List Function}

/-- Without queued casts the position of a function does not matter. -/
theorem nil_iff : TrackedAll s m vs [] fs fs' ↔
    List.Forall₂ (fun f f' => ∃ rs ρ, Tracked s m f vs rs ρ f') fs fs' := by
  rw [List.forall₂_iff_get]
  constructor
  · intro h
    refine ⟨h.length, fun n hn hn' => ?_⟩
    obtain ⟨rs, ρ, htracked, -⟩ := h.tracked (List.getElem?_eq_getElem hn)
      (List.getElem?_eq_getElem hn')
    exact ⟨rs, ρ, htracked⟩
  · rintro ⟨hlen, h⟩
    refine ⟨hlen, fun e he => (nomatch he), fun {n f f'} hf hf' => ?_⟩
    obtain ⟨hn, rfl⟩ := List.getElem?_eq_some_iff.1 hf
    obtain ⟨hn', rfl⟩ := List.getElem?_eq_some_iff.1 hf'
    obtain ⟨rs, ρ, htracked⟩ := h n hn hn'
    exact ⟨rs, ρ, htracked, fun t ht => nomatch ht⟩

theorem names (h : TrackedAll s m vs q fs fs') : fs.map (·.name) = fs'.map (·.name) := by
  refine List.ext_getElem (by simp [h.length]) fun n hn hn' => ?_
  rw [List.length_map] at hn hn'
  obtain ⟨rs, ρ, htracked, -⟩ := h.tracked (List.getElem?_eq_getElem hn)
    (List.getElem?_eq_getElem hn')
  rw [List.getElem_map, List.getElem_map, Function.name_of_skeleton_eq htracked.skeleton]

theorem exists_name_eq (h : TrackedAll s m vs q fs fs') {f : Function} (hf : f ∈ fs) :
    ∃ f' ∈ fs', f'.name = f.name := by
  have hname : f.name ∈ fs'.map (·.name) := by
    rw [← h.names]
    exact List.mem_map_of_mem hf
  exact List.mem_map.1 hname

/-- Functions that are added are not touched. -/
theorem append (h : TrackedAll s m vs q fs fs') (gs : List Function) :
    TrackedAll s m vs q (fs ++ gs) (fs' ++ gs) where
  length := by simp [h.length]
  queue := fun e he => by
    have hlt := h.queue e he
    rw [List.length_append]
    omega
  tracked := fun {n f f'} hf hf' => by
    by_cases hn : n < fs.length
    · rw [List.getElem?_append_left hn] at hf
      rw [List.getElem?_append_left (h.length ▸ hn)] at hf'
      exact h.tracked hf hf'
    · rw [List.getElem?_append_right (by omega)] at hf
      rw [List.getElem?_append_right (by have := h.length; omega), ← h.length] at hf'
      obtain rfl := Option.some.inj (hf.symm.trans hf')
      exact ⟨[], id, .refl s m f vs, fun t ht => absurd (h.queue _ ht) hn⟩

/-- Changing one function, and what is known of it. -/
theorem set {q' : CastQueue} {vs' : List Visit} {n : Nat} {g : Function}
    (h : TrackedAll s m vs q fs fs') (hvs : vs ⊆ vs') (hn : n < fs.length)
    (hq' : ∀ e ∈ q', e.1 ≠ n → e ∈ q)
    (hg : ∀ f f', fs[n]? = some f → fs'[n]? = some f' → ∀ rs ρ, Tracked s m f vs rs ρ f' →
      (∀ t, (n, t) ∈ q → Queued s m f vs rs f' t) →
      ∃ rs' ρ', Tracked s m f vs' rs' ρ' g ∧ ∀ t, (n, t) ∈ q' → Queued s m f vs' rs' g t) :
    TrackedAll s m vs' q' fs (fs'.set n g) where
  length := by simp [h.length]
  queue := fun e he => by
    by_cases hne : e.1 = n
    · omega
    · exact h.queue e (hq' e he hne)
  tracked := fun {k f f'} hf hf' => by
    by_cases hk : n = k
    · subst hk
      have hn' : n < fs'.length := h.length ▸ hn
      rw [List.getElem?_set_self hn'] at hf'
      obtain rfl := Option.some.inj hf'
      obtain ⟨rs, ρ, htracked, hqueued⟩ := h.tracked hf (List.getElem?_eq_getElem hn')
      exact hg f _ hf (List.getElem?_eq_getElem hn') rs ρ htracked hqueued
    · rw [List.getElem?_set_ne hk] at hf'
      obtain ⟨rs, ρ, htracked, hqueued⟩ := h.tracked hf hf'
      refine ⟨rs, ρ, htracked.mono hvs, fun t ht => ?_⟩
      exact (hqueued t (hq' _ ht (Ne.symm hk))).mono hvs

/-- A visit. -/
theorem visit {l : Lowering} {v : Visit} (hbase : Family.of? (s.copyBase ++ ".") = none)
    (hl : l ∈ s.lowerings) (hv : v.Of l) (hg : ∃ g ∈ m.functions, g.name = v.call.callee)
    (h : TrackedAll s m vs q fs v.module.functions) :
    TrackedAll s m (vs ++ [v]) (q.insertAll v.call.site.function v.replacement.casts) fs
      (v.module.functions.set v.call.site.function v.rewritten) := by
  have hcaller : v.module.functions[v.call.site.function]? = some v.call.caller := hv.function
  have hn : v.call.site.function < fs.length := by
    rw [h.length]
    exact (List.getElem?_eq_some_iff.1 hcaller).1
  refine h.set (List.subset_append_left _ _) hn (fun e he hne => ?_) ?_
  · exact (CastQueue.mem_insertAll.1 he).resolve_right fun hcast => hne hcast.1
  · intro f f' hf hf' rs ρ htracked hqueued
    obtain rfl := Option.some.inj (hcaller.symm.trans hf')
    refine ⟨_, _, htracked.rewritten hbase hl hv hg, fun t ht => ?_⟩
    refine htracked.queued_rewritten hl hv ?_
    rcases CastQueue.mem_insertAll.1 ht with ht | ⟨-, ht⟩
    · exact (hqueued t ht).mono (List.subset_append_left _ _)
    · exact htracked.queued_of_mem_casts hbase hl hv hg ht

/-- Looking at a queued cast. -/
theorem dropCast {m₁ : Module} {e : Nat × TempId}
    (hbase : Family.of? (s.copyBase ++ ".") = none) (he : e ∉ q)
    (h : TrackedAll s m vs (e :: q) fs m₁.functions) :
    TrackedAll s m vs q fs (m₁.dropCast e).functions := by
  rcases Module.functions_dropCast m₁ e with hsame | ⟨g, hg, -, hset⟩
  · rw [hsame]
    refine ⟨h.length, fun e' he' => h.queue e' (List.mem_cons_of_mem _ he'), fun hf hf' => ?_⟩
    obtain ⟨rs, ρ, htracked, hqueued⟩ := h.tracked hf hf'
    exact ⟨rs, ρ, htracked, fun t ht => hqueued t (List.mem_cons_of_mem _ ht)⟩
  · rw [hset]
    refine h.set (fun _ hv => hv) (h.queue e List.mem_cons_self)
      (fun e' he' _ => List.mem_cons_of_mem _ he') fun f f' hf hf' rs ρ htracked hqueued => ?_
    obtain rfl := Option.some.inj (hg.symm.trans hf')
    have hcast := hqueued e.2 List.mem_cons_self
    refine ⟨rs, ρ, htracked.eraseDef hbase hcast, fun t ht => ?_⟩
    refine (hqueued t (List.mem_cons_of_mem _ ht)).eraseDef hcast ?_
    rintro rfl
    exact he ht

end TrackedAll

/-! ### A module in the middle of a run -/

/-- The functions that belong to no family. -/
def Module.others (m : Module) : List Function :=
  m.functions.filter fun f => (Family.of? f.name).isNone

/-- What is left of the module `o` in `m` after the visits `vs`. -/
structure Module.Framed (s : Settings) (o m : Module) (q : CastQueue) (vs : List Visit) : Prop where
  frame : { m with functions := [] } = { o with functions := [] }
  functions : ∃ fs added, fs.Sublist o.functions ∧
    (fs.filter fun f => (Family.of? f.name).isNone) = o.others ∧
    (∀ g ∈ added, (∃ element, g = BlockCopy.primitive s.copyBase element) ∧
      ∀ f ∈ o.functions, f.name ≠ g.name) ∧
    TrackedAll s o vs q (fs ++ added) m.functions

namespace Module

variable {s : Settings} {o m : Module} {q : CastQueue} {vs : List Visit}

theorem Framed.refl (s : Settings) (m : Module) (vs : List Visit) : Framed s m m [] vs where
  frame := rfl
  functions := by
    refine ⟨m.functions, [], .refl _, rfl, fun g hg => (nomatch hg), ?_⟩
    rw [List.append_nil, TrackedAll.nil_iff]
    exact List.forall₂_same.2 fun f _ => ⟨[], id, .refl s m f vs⟩

/-- A function of a family was there from the start. -/
theorem Framed.exists_of_mem_namesIn (hbase : Family.of? (s.copyBase ++ ".") = none)
    (h : Framed s o m q vs) {k : Family} {n : String} (hn : n ∈ m.namesIn (some k)) :
    ∃ g ∈ o.functions, g.name = n := by
  obtain ⟨hk, f', hf', rfl⟩ := mem_namesIn.1 hn
  obtain ⟨fs, added, hfs, -, hadded, htracked⟩ := h.functions
  have hname : f'.name ∈ (fs ++ added).map (·.name) := by
    rw [htracked.names]
    exact List.mem_map_of_mem hf'
  obtain ⟨f, hf, hname⟩ := List.mem_map.1 hname
  rcases List.mem_append.1 hf with hf | hf
  · exact ⟨f, hfs.subset hf, hname⟩
  · obtain ⟨⟨element, rfl⟩, -⟩ := hadded f hf
    rw [← hname, Family.of?_primitive hbase] at hk
    exact nomatch hk

/-- A function that a visit declares has a name that is new to the module from the start. -/
theorem Framed.name_ne_of_declared (hbase : Family.of? (s.copyBase ++ ".") = none)
    (h : Framed s o m q vs) {l : Lowering} (hl : l ∈ s.lowerings) {call : Call} {r : Replacement}
    (hr : (l.replace m call).result = .ok r) {g : Function} (hg : r.declared = some g) :
    (∃ element, g = BlockCopy.primitive s.copyBase element) ∧
      ∀ f ∈ o.functions, f.name ≠ g.name := by
  obtain ⟨⟨element, rfl⟩, hnew⟩ := s.declared_eq_some hl hr hg
  refine ⟨⟨element, rfl⟩, fun f hf he => ?_⟩
  obtain ⟨fs, added, -, hothers, -, htracked⟩ := h.functions
  -- a function of its name belongs to no family, so it is still there
  have hfs : f ∈ fs := by
    have hother : f ∈ o.others :=
      List.mem_filter.2 ⟨hf, by rw [he, Family.of?_primitive hbase]; rfl⟩
    rw [← hothers] at hother
    exact (List.mem_filter.1 hother).1
  obtain ⟨f', hf', hname⟩ := htracked.exists_name_eq (List.mem_append_left _ hfs)
  exact hnew f' hf' (hname.trans he)

theorem frame_replaceCall (m : Module) (site : Site) (r : Replacement) :
    { m.replaceCall site r with functions := [] } = { m with functions := [] } := by
  unfold replaceCall
  cases r.declared <;> rfl

theorem frame_dropCast (m : Module) (e : Nat × TempId) :
    { m.dropCast e with functions := [] } = { m with functions := [] } := by
  unfold dropCast
  cases m.functions[e.1]? with
  | none => rfl
  | some f => by_cases hu : f.hasUsers e.2 <;> simp [hu, modifyFunction]

/-- The modules agree in everything but their names and functions. -/
structure SameGround (m₁ m₂ : Module) : Prop where
  globals : m₁.globals = m₂.globals
  layout : m₁.layout = m₂.layout

theorem sameGround_replaceCall (m : Module) (site : Site) (r : Replacement) :
    (m.replaceCall site r).SameGround m := by
  obtain ⟨-, -, hglobals, hlayout⟩ := Module.mk.inj (frame_replaceCall m site r)
  exact ⟨hglobals, hlayout⟩

theorem sameGround_dropCast (m : Module) (e : Nat × TempId) : (m.dropCast e).SameGround m := by
  obtain ⟨-, -, hglobals, hlayout⟩ := Module.mk.inj (frame_dropCast m e)
  exact ⟨hglobals, hlayout⟩

theorem Framed.after {l : Lowering} {v : Visit} (hbase : Family.of? (s.copyBase ++ ".") = none)
    (hl : l ∈ s.lowerings) (hv : v.Of l) (hg : ∃ g ∈ o.functions, g.name = v.call.callee)
    (h : Framed s o v.module q vs) :
    Framed s o v.after (q.insertAll v.call.site.function v.replacement.casts) (vs ++ [v]) where
  frame := (frame_replaceCall ..).trans h.frame
  functions := by
    obtain ⟨fs, added, hfs, hothers, hadded, htracked⟩ := h.functions
    refine ⟨fs, added ++ v.replacement.declared.toList, hfs, hothers, fun g hg => ?_, ?_⟩
    · rcases List.mem_append.1 hg with hg | hg
      · exact hadded g hg
      · exact h.name_ne_of_declared hbase hl hv.replace (Option.mem_toList.1 hg)
    · rw [hv.functions_after, ← List.append_assoc]
      exact (htracked.visit hbase hl hv hg).append _

theorem Framed.dropCast {e : Nat × TempId} (hbase : Family.of? (s.copyBase ++ ".") = none)
    (he : e ∉ q) (h : Framed s o m (e :: q) vs) : Framed s o (m.dropCast e) q vs where
  frame := (frame_dropCast m e).trans h.frame
  functions := by
    obtain ⟨fs, added, hfs, hothers, hadded, htracked⟩ := h.functions
    exact ⟨fs, added, hfs, hothers, hadded, htracked.dropCast hbase he⟩

theorem Framed.eraseFunction {n : String} {k : Family} (hk : Family.of? n = some k)
    (hbase : Family.of? (s.copyBase ++ ".") = none) (h : Framed s o m [] vs) :
    Framed s o (m.eraseFunction n) [] vs where
  frame := h.frame
  functions := by
    obtain ⟨fs, added, hfs, hothers, hadded, htracked⟩ := h.functions
    refine ⟨fs.eraseP (·.name == n), added, List.eraseP_sublist.trans hfs, ?_, hadded, ?_⟩
    · rw [filter_eraseP (fun f hf => ?_), hothers]
      rw [beq_iff_eq.1 hf, hk]
      rfl
    · have hkeep : ∀ g ∈ added, ¬ (g.name == n) = true := by
        intro g hg hn
        obtain ⟨⟨element, rfl⟩, -⟩ := hadded g hg
        rw [← beq_iff_eq.1 hn, Family.of?_primitive hbase] at hk
        exact nomatch hk
      have hsplit : (fs ++ added).eraseP (·.name == n) = fs.eraseP (·.name == n) ++ added := by
        rw [List.eraseP_append]
        split
        · rfl
        · next hany =>
          have hnone : ∀ f ∈ fs, ¬ (f.name == n) = true := by simpa using hany
          rw [List.eraseP_of_forall_not hkeep, List.eraseP_of_forall_not hnone]
      rw [TrackedAll.nil_iff] at htracked ⊢
      rw [← hsplit]
      refine forall₂_eraseP (fun f f' hff' => ?_) htracked
      obtain ⟨rs, ρ, hff'⟩ := hff'
      rw [Function.name_of_skeleton_eq hff'.skeleton]

/-- Every step of a lowering keeps the frame. -/
theorem keeps_framed {l : Lowering} (hbase : Family.of? (s.copyBase ++ ".") = none)
    (hl : l ∈ s.lowerings) (h : Framed s o m [] vs) : l.Keeps m (Framed s o) where
  replace hv hcallee hframed := hframed.after hbase hl hv (h.exists_of_mem_namesIn hbase hcallee)
  drop he hframed := hframed.dropCast hbase he
  erase hn hframed := hframed.eraseFunction (mem_namesIn.1 hn).1 hbase

/-! ### The end of a run -/

/-- At the end of a run all functions of the families are gone, and the added ones are as they were
declared. -/
theorem Framed.exists_append (h : Framed s o m [] vs)
    (hnone : ∀ f ∈ m.functions, Family.of? f.name = none) :
    ∃ fs added, m.functions = fs ++ added ∧
      (∀ g ∈ added, (∃ element, g = BlockCopy.primitive s.copyBase element) ∧
        ∀ f ∈ o.functions, f.name ≠ g.name) ∧
      List.Forall₂ (fun f f' => ∃ rs ρ, Tracked s o f vs rs ρ f') o.others fs := by
  obtain ⟨fs, added, hfs, hothers, hadded, htracked⟩ := h.functions
  have hall : fs.filter (fun f => (Family.of? f.name).isNone) = fs := by
    refine List.filter_eq_self.2 fun f hf => ?_
    obtain ⟨f', hf', hname⟩ := htracked.exists_name_eq (List.mem_append_left _ hf)
    rw [← hname, hnone f' hf']
    rfl
  rw [TrackedAll.nil_iff, ← hall, hothers] at htracked
  obtain ⟨fs', added', hsplit, hfs', hadded'⟩ := exists_of_forall₂_append (.flip htracked)
  have hsame : added = added' := by
    have hblocks : ∀ g ∈ added, g.blocks = [] := by
      intro g hg
      obtain ⟨⟨element, rfl⟩, -⟩ := hadded g hg
      rfl
    have heq := (List.forall₂_and_left _ _).2 ⟨hblocks, hadded'.flip⟩
    rw [← List.forall₂_eq_eq_eq]
    exact heq.imp fun g g' ⟨hg, rs, ρ, htracked⟩ => (htracked.eq_of_blocks_eq_nil hg).symm
  exact ⟨fs', added, hsame ▸ hsplit, hadded, hfs'.flip⟩

/-- The answer is the module at the end of the run, also when there was nothing to lower. -/
theorem runLowerings_of_lowerIntrinsics {c : Bool} {m' : Module}
    (h : (m.lowerIntrinsics s).result = .ok (c, m')) :
    (m.runLowerings s.lowerings).result = .ok (c, m') := by
  obtain ⟨lowered, hrun, -, rfl⟩ := lowerIntrinsics_eq_ok.1 h
  cases c with
  | true => exact hrun
  | false =>
    refine runLowerings_of_forall_eq_none (fun f hf => ?_) _
    by_contra hk
    have hsome : (Family.of? f.name).isSome := Option.isSome_iff_ne_none.2 hk
    exact nomatch (flag_iff_of_runLowerings hrun).2 ⟨f, hf, hsome⟩

theorem residual?_of_lowerIntrinsics (hs : s.verify = true) {c : Bool} {m' : Module}
    (h : (m.lowerIntrinsics s).result = .ok (c, m')) : m'.residual? = none := by
  have hrun := runLowerings_of_lowerIntrinsics h
  obtain ⟨lowered, hrun', hcheck, -⟩ := lowerIntrinsics_eq_ok.1 h
  obtain ⟨-, rfl⟩ := Prod.mk.inj (Except.ok.inj (hrun.symm.trans hrun'))
  exact hcheck hs

/-- **The frame of the lowering.**  The name, the global variables and the layout of the module stay
as they are.  The functions outside the families stay, in their order, and after them come only
copying functions with names that are new.  A function keeps its signature and the labels of its
blocks, and each of its blocks is the concatenation of what `Fate` says for its instructions: the
instruction itself, where only the results of lowered funnel shifts are renamed; nothing, for a
marker or for a cast that fed a fill or a copy; the code of its replacement, for any other lowered
call.  No call that had to be lowered is left. -/
theorem frame_of_lowerIntrinsics (s : Settings) (hbase : Family.of? (s.copyBase ++ ".") = none)
    (m m' : Module) (c : Bool) (h : (m.lowerIntrinsics s).result = .ok (c, m')) :
    m'.name = m.name ∧ m'.globals = m.globals ∧ m'.layout = m.layout ∧
    ∃ fs added, m'.functions = fs ++ added ∧
      (∀ g ∈ added, (∃ element, g = BlockCopy.primitive s.copyBase element) ∧
        ∀ f ∈ m.functions, f.name ≠ g.name) ∧
      List.Forall₂ (fun f f' => (∃ rs ρ, Tracked s m f (m.visits s.lowerings) rs ρ f') ∧
        ∀ i ∈ f'.instructions, ∀ k, ¬ m.Lowers k i) m.others fs := by
  have hrun := runLowerings_of_lowerIntrinsics h
  have hframed : Framed s m m' [] (m.visits s.lowerings) :=
    keeps_runLowerings [] (fun l hl m₁ vs h₁ => keeps_framed hbase hl h₁) hrun (.refl s m [])
  obtain ⟨fs, added, hsplit, hadded, htracked⟩ :=
    hframed.exists_append (forall₂_of_runLowerings hbase hrun).1
  obtain ⟨hname, -, hglobals, hlayout⟩ := Module.mk.inj hframed.frame
  refine ⟨hname, hglobals, hlayout, fs, added, hsplit, hadded, ?_⟩
  refine forall₂_imp_of_mem htracked fun f f' hf' hff' => ⟨hff', fun i hi k hlowers => ?_⟩
  -- a function of a family that is declared is not called any more
  obtain ⟨g, hg, hk, hcallee⟩ := hlowers
  obtain ⟨l, hl, rfl⟩ := s.exists_lowering k
  refine not_calls_of_runLowerings (s.clean_lowerings hbase) (by rw [hk]; rfl) hrun
    (.inl ⟨⟨g, hg, rfl⟩, l, hl, hk⟩) ⟨f', ?_, Function.mem_callees.2 ⟨i, hi, hcallee⟩⟩
  rw [hsplit]
  exact List.mem_append_left _ hf'

/-- A kernel in which a cast and a sum, and then a shift and a sum, have the same number, and which
calls a copy that is not declared. -/
def repeatedIds : Module where
  name := "repeated"
  functions := [.declare "llvm.memset" .void [.ptr (.int 8), .int 8, .int 64, .int 1],
    { name := "kernel", returnType := .int 32
      params := [(0, .ptr (.array 2 (.int 32))), (1, .int 32)]
      blocks := [⟨7, [.cast 2 (.temp 0) (.ptr (.int 8)),
        .call none (.function "llvm.memset") [.temp 2, .const 0, .const 8, .const 0] .void none,
        .binary 2 .add (.temp 1) (.temp 1) (.int 32)]⟩,
        ⟨3, [
        .call (some 3) (.function "llvm.fshl.i32") [.temp 1, .temp 1, .const 7] (.int 32) none,
        .binary 3 .add (.temp 3) (.temp 1) (.int 32),
        .call none (.function "llvm.memcpy") [.temp 0, .temp 0] .void none,
        .ret (some (.temp 3))]⟩] },
    .declare "llvm.fshl.i32" (.int 32) [.int 32, .int 32, .int 32]]
  globals := [⟨"table", .int 32, false, none, .external⟩]

/-- Without the final check the copy stays where it is. -/
theorem frame_of_lowerIntrinsics_repeatedIds :
    Family.of? ("copy" ++ ".") = none ∧
    ∃ m', (repeatedIds.lowerIntrinsics ⟨"copy", false⟩).result = .ok (true, m') ∧
      m'.globals = repeatedIds.globals ∧ ∃ fs added, m'.functions = fs ++ added ∧
        List.Forall₂ (fun f f' => (∃ rs ρ, Tracked ⟨"copy", false⟩ repeatedIds f
            (repeatedIds.visits (Settings.mk "copy" false).lowerings) rs ρ f') ∧
          ∀ i ∈ f'.instructions, ∀ k, ¬ repeatedIds.Lowers k i) repeatedIds.others fs := by
  have hbase : Family.of? ("copy" ++ ".") = none := by decide +kernel
  obtain ⟨m', h⟩ : ∃ m', (repeatedIds.lowerIntrinsics ⟨"copy", false⟩).result = .ok (true, m') :=
    exists_eq_ok_of_flag (by decide +kernel)
  obtain ⟨-, hglobals, -, fs, added, hsplit, -, htracked⟩ :=
    frame_of_lowerIntrinsics ⟨"copy", false⟩ hbase repeatedIds m' true h
  exact ⟨hbase, m', h, hglobals, fs, added, hsplit, htracked⟩

end Module

end KernelIR

import KernelIR.Intrinsic.Family
import KernelIR.Proofs.CallSites

/-!
# What a lowering does to a module

`Lowering.Edit` lists the two ways in which a lowering changes a function: it replaces a call of
its family, or it drops a cast that nothing reads.  `Lowering.rewrites_of_run` says that a run does
nothing else: it removes the functions of the family, edits each of the others any number of times,
and adds functions after them.  Everything that is said about a run later on comes down to a
statement about a single edit.
-/

namespace KernelIR

/-! ### Two lists of functions side by side -/

section Lists

variable {α : Type} {R : α → α → Prop}

theorem forall₂_trans (ht : ∀ a b c, R a b → R b c → R a c) :
    ∀ {as bs cs : List α}, List.Forall₂ R as bs → List.Forall₂ R bs cs → List.Forall₂ R as cs
  | _, _, _, .nil, .nil => .nil
  | _, _, _, .cons h hs, .cons h' hs' => .cons (ht _ _ _ h h') (forall₂_trans ht hs hs')

/-- Changing one element of a list by a step of `R`. -/
theorem forall₂_modify (hr : ∀ a, R a a) {g : α → α} :
    ∀ {as : List α} {n : Nat}, (∀ a, as[n]? = some a → R a (g a)) →
      List.Forall₂ R as (as.modify n g)
  | [], n, _ => by simp
  | a :: as, 0, h => .cons (h a rfl) (List.forall₂_same.2 fun b _ => hr b)
  | a :: as, n + 1, h => .cons (hr a) (forall₂_modify hr fun b hb => h b (by simpa using hb))

/-- Two lists that agree on what is searched for lose the same position. -/
theorem forall₂_eraseP {p : α → Bool} (hp : ∀ a b, R a b → p a = p b) {as bs : List α}
    (h : List.Forall₂ R as bs) : List.Forall₂ R (as.eraseP p) (bs.eraseP p) := by
  induction h with
  | nil => exact .nil
  | @cons a b as bs hab hs ih =>
    rw [List.eraseP_cons, List.eraseP_cons, ← hp a b hab]
    cases p a with
    | true => exact hs
    | false => exact .cons hab ih

theorem forall₂_filter {p : α → Bool} (hp : ∀ a b, R a b → p a = p b) {as bs : List α}
    (h : List.Forall₂ R as bs) : List.Forall₂ R (as.filter p) (bs.filter p) := by
  induction h with
  | nil => exact .nil
  | @cons a b as bs hab hs ih =>
    rw [List.filter_cons, List.filter_cons, ← hp a b hab]
    cases p a with
    | true => exact .cons hab ih
    | false => exact ih

/-- What is removed is not one of those that are looked at. -/
theorem filter_eraseP {p q : α → Bool} (h : ∀ a, p a = true → q a = false) (as : List α) :
    (as.eraseP p).filter q = as.filter q := by
  rcases List.exists_or_eq_self_of_eraseP p as with heq | ⟨a, as₁, as₂, -, ha, hsplit, heq⟩
  · rw [heq]
  · rw [heq, hsplit]
    simp [h a ha]

theorem exists_of_forall₂_mem {β : Type} {R : α → β → Prop} {as : List α} {bs : List β}
    (h : List.Forall₂ R as bs) {b : β} (hb : b ∈ bs) : ∃ a ∈ as, R a b := by
  induction h with
  | nil => simp at hb
  | @cons a b' as bs hab _ ih =>
    rcases List.mem_cons.1 hb with rfl | hb
    · exact ⟨a, List.mem_cons_self, hab⟩
    · obtain ⟨a', ha', hab'⟩ := ih hb
      exact ⟨a', List.mem_cons_of_mem _ ha', hab'⟩

theorem exists_of_forall₂_append {β : Type} {R : α → β → Prop} {as : List α} {bs₁ bs₂ : List β}
    (h : List.Forall₂ R as (bs₁ ++ bs₂)) :
    ∃ as₁ as₂, as = as₁ ++ as₂ ∧ List.Forall₂ R as₁ bs₁ ∧ List.Forall₂ R as₂ bs₂ :=
  ⟨_, _, (List.take_append_drop _ as).symm, List.forall₂_take_append _ _ _ h,
    List.forall₂_drop_append _ _ _ h⟩

theorem forall₂_imp_of_mem {S : α → α → Prop} {as bs : List α} (h : List.Forall₂ R as bs)
    (hS : ∀ a b, b ∈ bs → R a b → S a b) : List.Forall₂ S as bs := by
  induction h with
  | nil => exact .nil
  | @cons a b as bs hab _ ih =>
    refine .cons (hS a b List.mem_cons_self hab) (ih fun a' b' hb' => ?_)
    exact hS a' b' (List.mem_cons_of_mem _ hb')

end Lists

/-! ### Modules with edited functions -/

/-- `m'` is `m` with each function changed by steps of `E`, and with functions of `A`, changed in
the same way, after them. -/
structure Module.Rewrites (E : Function → Function → Prop) (A : Function → Prop) (m m' : Module) :
    Prop where
  frame : { m' with functions := [] } = { m with functions := [] }
  functions : ∃ added, (∀ g ∈ added, A g) ∧
    List.Forall₂ (Relation.ReflTransGen E) (m.functions ++ added) m'.functions

namespace Module.Rewrites

variable {E E' : Function → Function → Prop} {A A' : Function → Prop} {m m' m'' : Module}

theorem refl (m : Module) : Rewrites E A m m :=
  ⟨rfl, [], by simp, by
    rw [List.append_nil]
    exact List.forall₂_same.2 fun f _ => .refl⟩

theorem trans (h : Rewrites E A m m') (h' : Rewrites E A m' m'') : Rewrites E A m m'' := by
  obtain ⟨added, hadded, hE⟩ := h.functions
  obtain ⟨added', hadded', hE'⟩ := h'.functions
  refine ⟨h'.frame.trans h.frame, added ++ added', ?_, ?_⟩
  · intro g hg
    rcases List.mem_append.1 hg with hg | hg
    · exact hadded g hg
    · exact hadded' g hg
  · rw [← List.append_assoc]
    have hstep : List.Forall₂ (Relation.ReflTransGen E) ((m.functions ++ added) ++ added')
        (m'.functions ++ added') :=
      List.rel_append hE (List.forall₂_same.2 fun g _ => .refl)
    exact forall₂_trans (fun _ _ _ => Relation.ReflTransGen.trans) hstep hE'

theorem mono (hE : ∀ f f', E f f' → E' f f') (hA : ∀ g, A g → A' g) (h : Rewrites E A m m') :
    Rewrites E' A' m m' := by
  obtain ⟨added, hadded, hE'⟩ := h.functions
  exact ⟨h.frame, added, fun g hg => hA g (hadded g hg),
    hE'.imp fun _ _ => Relation.ReflTransGen.mono hE _ _⟩

/-- Changing one function by a step. -/
theorem modifyFunction (m : Module) {i : Nat} {g : Function → Function}
    (h : ∀ f, m.functions[i]? = some f → E f (g f)) : Rewrites E A m (m.modifyFunction i g) :=
  ⟨rfl, [], by simp, by
    rw [List.append_nil]
    exact forall₂_modify (fun f => .refl) fun f hf => .single (h f hf)⟩

theorem addFunction (m : Module) {g : Function} (h : A g) : Rewrites E A m (m.addFunction g) :=
  ⟨rfl, [g], by simpa using h, List.forall₂_same.2 fun f _ => .refl⟩

/-- A property of functions that no step changes is that of the function it came from. -/
theorem invariant {β : Type} {v : Function → β} (hE : ∀ f f', E f f' → v f' = v f)
    {f f' : Function} (h : Relation.ReflTransGen E f f') : v f' = v f := by
  induction h with
  | refl => rfl
  | tail _ hs ih => exact (hE _ _ hs).trans ih

end Module.Rewrites

/-! ### The functions of a family -/

namespace Module

/-- The module without the functions of a family. -/
def without (m : Module) (k : Family) : Module :=
  { m with functions := m.functions.filter fun f => Family.of? f.name != some k }

theorem mem_namesIn {m : Module} {k : Option Family} {n : String} :
    n ∈ m.namesIn k ↔ Family.of? n = k ∧ ∃ f ∈ m.functions, f.name = n := by
  simp only [namesIn, List.mem_map, List.mem_filter, beq_iff_eq]
  constructor
  · rintro ⟨f, ⟨hf, hk⟩, rfl⟩
    exact ⟨hk, f, hf, rfl⟩
  · rintro ⟨hk, f, hf, rfl⟩
    exact ⟨f, ⟨hf, hk⟩, rfl⟩

theorem without_of_namesIn_eq_nil {m : Module} {k : Family} (h : m.namesIn (some k) = []) :
    m.without k = m := by
  have hf : m.functions.filter (fun f => Family.of? f.name != some k) = m.functions := by
    refine List.filter_eq_self.2 fun f hf => ?_
    have hk : f.name ∉ m.namesIn (some k) := by simp [h]
    rw [mem_namesIn] at hk
    simpa using fun hk' => hk ⟨hk', f, hf, rfl⟩
  rw [without, hf]

/-- The first name of a family is that of the first function of the family, so removing the
function of that name removes the first of the family. -/
theorem eraseFunction_of_namesIn_eq_cons {m : Module} {k : Family} {n : String} {ns : List String}
    (h : m.namesIn (some k) = n :: ns) :
    (m.eraseFunction n).namesIn (some k) = ns ∧ (m.eraseFunction n).without k = m.without k := by
  have hn : Family.of? n = some k := (mem_namesIn.1 (h ▸ List.mem_cons_self)).1
  unfold namesIn eraseFunction without at *
  simp only [Module.mk.injEq, true_and, and_true]
  generalize m.functions = fs at h
  induction fs with
  | nil => simp at h
  | cons f fs ih =>
    by_cases hf : Family.of? f.name = some k
    · simp only [List.filter_cons, hf, beq_self_eq_true, if_true, List.map_cons,
        List.cons.injEq] at h
      obtain ⟨rfl, rfl⟩ := h
      simp [hf]
    · have hne : f.name ≠ n := fun he => hf (he ▸ hn)
      have hs : ((fs.filter fun f => Family.of? f.name == some k).map (·.name)) = n :: ns := by
        simpa [hf] using h
      obtain ⟨h1, h2⟩ := ih hs
      simp [hne, hf, h1, h2]

namespace Rewrites

variable {E : Function → Function → Prop} {A : Function → Prop} {m m' : Module}

/-- Removing a function of the old module by its name. -/
theorem eraseFunction {n : String} (hE : ∀ f f', E f f' → f'.name = f.name)
    (h : Rewrites E A m m') (hn : ∃ f ∈ m.functions, f.name = n) :
    Rewrites E A (m.eraseFunction n) (m'.eraseFunction n) := by
  obtain ⟨added, hadded, hE'⟩ := h.functions
  obtain ⟨f, hf, rfl⟩ := hn
  refine ⟨h.frame, added, hadded, ?_⟩
  have hpos : (m.functions ++ added).eraseP (·.name == f.name) =
      m.functions.eraseP (·.name == f.name) ++ added :=
    List.eraseP_append_left (p := fun g => g.name == f.name) (beq_self_eq_true _) _ hf
  rw [Module.eraseFunction, ← hpos]
  refine forall₂_eraseP (fun g g' hg => ?_) hE'
  rw [invariant (v := Function.name) hE hg]

/-- Removing a family that no added function belongs to. -/
theorem without {k : Family} (hE : ∀ f f', E f f' → f'.name = f.name)
    (hA : ∀ g, A g → Family.of? g.name ≠ some k) (h : Rewrites E A m m') :
    Rewrites E A (m.without k) (m'.without k) := by
  obtain ⟨added, hadded, hE'⟩ := h.functions
  refine ⟨h.frame, added, hadded, ?_⟩
  have hkeep : added.filter (fun f => Family.of? f.name != some k) = added :=
    List.filter_eq_self.2 fun g hg => by simpa using hA g (hadded g hg)
  rw [Module.without, Module.without, ← hkeep, ← List.filter_append]
  refine forall₂_filter (fun g g' hg => ?_) hE'
  rw [invariant (v := Function.name) hE hg]

/-- The names of the functions are the old ones and those of the added functions. -/
theorem mem_names (hE : ∀ f f', E f f' → f'.name = f.name) (h : Rewrites E A m m') :
    ∃ added : List Function, (∀ g ∈ added, A g) ∧ ∀ n, (∃ f ∈ m'.functions, f.name = n) ↔
      (∃ f ∈ m.functions, f.name = n) ∨ ∃ g ∈ added, g.name = n := by
  obtain ⟨added, hadded, hE'⟩ := h.functions
  have hnames : m'.functions.map (·.name) = (m.functions ++ added).map (·.name) := by
    generalize m.functions ++ added = fs at hE'
    generalize m'.functions = fs' at hE'
    induction hE' with
    | nil => rfl
    | cons hf _ ih => rw [List.map_cons, List.map_cons, ih, invariant (v := Function.name) hE hf]
  refine ⟨added, hadded, fun n => ?_⟩
  have hn : n ∈ m'.functions.map (·.name) ↔ n ∈ (m.functions ++ added).map (·.name) := by
    rw [hnames]
  simpa only [List.map_append, List.mem_append, List.mem_map] using hn

end Rewrites

end Module

/-! ### The edits of a lowering -/

namespace Lowering

variable {l : Lowering} {m m' : Module} {name : String}

/-- A function that the lowering can add to a module. -/
def Adds (l : Lowering) (g : Function) : Prop :=
  ∃ m call r, (l.replace m call).result = .ok r ∧ r.declared = some g

/-- A temporary that the lowering can queue as a cast. -/
def Queues (l : Lowering) (t : TempId) : Prop :=
  ∃ m call r, (l.replace m call).result = .ok r ∧ t ∈ r.casts

/-- What a lowering can do to a function at once. -/
inductive Edit (l : Lowering) : Function → Function → Prop
  /-- A call of the family is replaced. -/
  | replace {m : Module} {f : Function} {s : Site} {b : Block} {result : Option TempId}
      {name : String} {args : List Value} {ty : Ty} {align : Option UInt64} {r : Replacement}
      (hf : m.functionAt? s = some f) (hb : f.blocks[s.block]? = some b)
      (hi : b.instructions[s.index]? = some (.call result (.function name) args ty align))
      (hn : Family.of? name = some l.family)
      (hr : (l.replace m ⟨s, f, name, result, args, ty, align⟩).result = .ok r) :
      Edit l f ((f.rename r.renamed).splice s.block s.index r.code)
  /-- A queued cast that nothing reads is dropped. -/
  | drop {f : Function} {t : TempId} (ht : l.Queues t) (hu : f.hasUsers t = false) :
      Edit l f (f.eraseDef t)

/-- An edit changes instructions only. -/
theorem Edit.skeleton_eq {f f' : Function} (h : l.Edit f f') : f'.skeleton = f.skeleton := by
  cases h with
  | replace => rw [Function.skeleton_splice, Function.skeleton_rename]
  | drop => exact Function.skeleton_eraseDef ..

theorem Edit.name_eq {f f' : Function} (h : l.Edit f f') : f'.name = f.name :=
  Function.name_of_skeleton_eq h.skeleton_eq

/-- `m'` comes from `m` by edits of the lowering and by the functions it adds. -/
abbrev Rewrites (l : Lowering) (m m' : Module) : Prop := Module.Rewrites l.Edit l.Adds m m'

/-! ### Working off the sites of a name -/

/-- Sites of calls to a name that wait to be lowered, the last of the module first. -/
structure Pending (m : Module) (name : String) (sites : List Site) : Prop where
  callee : ∀ s ∈ sites, m.calleeAt? s = some name
  order : sites.Pairwise fun s t => t.Before s

theorem pending_callSites (m : Module) (name : String) :
    Pending m name (m.callSites name).reverse where
  callee _ hs := Module.mem_callSites_iff.1 (List.mem_reverse.1 hs)
  order := List.pairwise_reverse.2 (m.pairwise_callSites name)

/-- After the first site is lowered, all others are still good. -/
theorem Pending.tail {s : Site} {sites : List Site} (h : Pending m name (s :: sites))
    (r : Replacement) : Pending (m.replaceCall s r) name sites where
  callee t ht := by
    obtain ⟨i, hi, -⟩ := Option.bind_eq_some_iff.1 (h.callee s List.mem_cons_self)
    rw [Module.calleeAt?_replaceCall_of_before r hi ((List.pairwise_cons.1 h.order).1 t ht)]
    exact h.callee t (List.mem_cons_of_mem _ ht)
  order := (List.pairwise_cons.1 h.order).2

theorem result_mapError_eq_ok {ε δ α : Type} {g : ε → δ} {x : Traced ε α} {a : α} :
    (x.mapError g).result = .ok a ↔ x.result = .ok a := by
  rw [Traced.result_mapError]
  cases x.result <;> simp [Except.mapError]

theorem lowerSites_cons_eq_ok {q : CastQueue} {s : Site} {sites : List Site}
    {x : Module × CastQueue} :
    (l.lowerSites m q (s :: sites)).result = .ok x ↔ ∃ call r, m.callAt s = .ok call ∧
      (l.replace m call).result = .ok r ∧
      (l.lowerSites (m.replaceCall s r) (q.insertAll s.function r.casts) sites).result = .ok x := by
  rw [lowerSites]
  simp only [Traced.result_bind_eq_ok, result_mapError_eq_ok, Traced.result_ofExcept,
    Traced.result_report]
  constructor
  · rintro ⟨call, hcall, -, -, r, hr, -, -, h⟩
    exact ⟨call, r, hcall, hr, h⟩
  · rintro ⟨call, r, hcall, hr, h⟩
    exact ⟨call, hcall, (), trivial, r, hr, (), trivial, h⟩

/-- Replacing the call at a site is an edit of its function, and the addition of what the code
needs. -/
theorem rewrites_replaceCall {s : Site} {f : Function} {b : Block} {result : Option TempId}
    {args : List Value} {ty : Ty} {align : Option UInt64} {r : Replacement}
    (hf : m.functionAt? s = some f) (hb : f.blocks[s.block]? = some b)
    (hi : b.instructions[s.index]? = some (.call result (.function name) args ty align))
    (hn : Family.of? name = some l.family)
    (hr : (l.replace m ⟨s, f, name, result, args, ty, align⟩).result = .ok r) :
    l.Rewrites m (m.replaceCall s r) := by
  have hedit : l.Rewrites m (m.modifyFunction s.function
      fun f => (f.rename r.renamed).splice s.block s.index r.code) := by
    refine .modifyFunction m fun g hg => ?_
    obtain rfl : f = g := Option.some.inj (hf.symm.trans hg)
    exact .replace hf hb hi hn hr
  unfold Module.replaceCall
  cases hd : r.declared with
  | none => exact hedit
  | some g => exact hedit.trans (.addFunction _ ⟨_, _, r, hr, hd⟩)

theorem queues_of_mem_insertAll {q : CastQueue} {n : Nat} {casts : List TempId}
    (hq : ∀ e ∈ q, l.Queues e.2) (hc : ∀ t ∈ casts, l.Queues t) :
    ∀ e ∈ q.insertAll n casts, l.Queues e.2 := by
  induction casts generalizing q with
  | nil => exact hq
  | cons t casts ih =>
    refine ih (q := CastQueue.insert (n, t) q) (fun e he => ?_)
      (fun u hu => hc u (List.mem_cons_of_mem _ hu))
    rcases CastQueue.mem_insert.1 he with rfl | he
    · exact hc t List.mem_cons_self
    · exact hq e he

/-- Lowering the pending sites of a name is a sequence of edits. -/
theorem rewrites_of_lowerSites (hn : Family.of? name = some l.family) :
    ∀ {sites : List Site} {m m' : Module} {q q' : CastQueue}, Pending m name sites →
      (∀ e ∈ q, l.Queues e.2) → (l.lowerSites m q sites).result = .ok (m', q') →
      l.Rewrites m m' ∧ ∀ e ∈ q', l.Queues e.2
  | [], m, m', q, q', _, hq, h => by
    obtain ⟨rfl, rfl⟩ := Prod.mk.inj (Except.ok.inj h)
    exact ⟨.refl m, hq⟩
  | s :: sites, m, m', q, q', hp, hq, h => by
    obtain ⟨call, r, hcall, hr, h⟩ := lowerSites_cons_eq_ok.1 h
    obtain ⟨f, b, result, args, ty, align, hf, hb, hi, hat⟩ :=
      Module.exists_call_of_calleeAt? (hp.callee s List.mem_cons_self)
    obtain rfl := Except.ok.inj (hat.symm.trans hcall)
    have hstep := rewrites_replaceCall hf hb hi hn hr
    obtain ⟨hrest, hq'⟩ := rewrites_of_lowerSites hn (hp.tail r)
      (queues_of_mem_insertAll hq fun t ht => ⟨_, _, r, hr, ht⟩) h
    exact ⟨hstep.trans hrest, hq'⟩

/-! ### Dropping casts -/

theorem rewrites_dropCasts (m : Module) {q : CastQueue} (hq : ∀ e ∈ q, l.Queues e.2) :
    l.Rewrites m (m.dropCasts q).module := by
  have hfold : ∀ (q : CastQueue) (d : Dropped), (∀ e ∈ q, l.Queues e.2) →
      l.Rewrites d.module (q.foldl Dropped.step d).module := by
    intro q
    induction q with
    | nil => intro d _; exact .refl _
    | cons e q ih =>
      intro d hq
      refine .trans ?_ (ih (d.step e) fun e' he' => hq e' (List.mem_cons_of_mem _ he'))
      unfold Dropped.step
      cases hf : d.module.functions[e.1]? with
      | none => exact .refl _
      | some f =>
        by_cases hu : f.hasUsers e.2
        · simp only [if_pos hu]
          exact .refl _
        · simp only [if_neg hu]
          refine .modifyFunction _ fun g hg => ?_
          obtain rfl : f = g := Option.some.inj (hf.symm.trans hg)
          exact .drop (hq e List.mem_cons_self) (by simpa using hu)
  exact hfold q ⟨m, 0, []⟩ hq

/-! ### Whole runs -/

theorem lowerFunction_eq_ok :
    (l.lowerFunction m name).result = .ok m' ↔ ∃ m₁ q,
      (l.lowerSites m [] (m.callSites name).reverse).result = .ok (m₁, q) ∧
      m' = (m₁.dropCasts q).module.eraseFunction name := by
  simp only [lowerFunction, Traced.result_bind_eq_ok, Traced.result_report, Traced.result_pure,
    Except.ok.injEq]
  constructor
  · rintro ⟨-, -, ⟨m₁, q⟩, h, -, -, -, -, rfl⟩
    exact ⟨m₁, q, h, rfl⟩
  · rintro ⟨m₁, q, h, rfl⟩
    exact ⟨(), trivial, (m₁, q), h, (), trivial, (), trivial, rfl⟩

theorem run_eq_ok {c : Bool} :
    (l.run m).result = .ok (c, m') ↔
      ((m.namesIn (some l.family)).foldlM l.lowerFunction m).result = .ok m' ∧
      c = !(m.namesIn (some l.family)).isEmpty := by
  simp only [run, Traced.result_bind_eq_ok, Traced.result_pure, Except.ok.injEq, Prod.mk.injEq]
  constructor
  · rintro ⟨m₁, h, rfl, rfl⟩
    exact ⟨h, rfl⟩
  · rintro ⟨h, rfl⟩
    exact ⟨m', h, rfl, rfl⟩

theorem rewrites_of_lowerFunction (hn : Family.of? name = some l.family)
    (h : (l.lowerFunction m name).result = .ok m') :
    ∃ m₁, l.Rewrites m m₁ ∧ m' = m₁.eraseFunction name := by
  obtain ⟨m₁, q, hs, rfl⟩ := lowerFunction_eq_ok.1 h
  obtain ⟨hr, hq⟩ := rewrites_of_lowerSites hn (pending_callSites m name) (by simp) hs
  exact ⟨_, hr.trans (rewrites_dropCasts m₁ hq), rfl⟩

/-- Lowering the functions of a family one by one.  `o` is the module as it was, less the functions
that are gone already; the names still to come are those of the family in `o`, whatever functions
were added meanwhile. -/
theorem rewrites_of_foldlM : ∀ {names : List String} {o m m' : Module},
    names = o.namesIn (some l.family) → l.Rewrites o m →
    (names.foldlM l.lowerFunction m).result = .ok m' → l.Rewrites (o.without l.family) m'
  | [], o, m, m', ho, hr, h => by
    obtain rfl : m = m' := Except.ok.inj h
    rwa [Module.without_of_namesIn_eq_nil ho.symm]
  | n :: names, o, m, m', ho, hr, h => by
    have hn := Module.mem_namesIn.1 (ho ▸ List.mem_cons_self)
    obtain ⟨hnames, hwithout⟩ := Module.eraseFunction_of_namesIn_eq_cons ho.symm
    rw [List.foldlM_cons, Traced.result_bind_eq_ok] at h
    obtain ⟨m₁, h₁, h⟩ := h
    obtain ⟨m₂, hr₂, rfl⟩ := rewrites_of_lowerFunction hn.1 h₁
    rw [← hwithout]
    refine rewrites_of_foldlM hnames.symm ?_ h
    exact (hr.trans hr₂).eraseFunction (fun _ _ he => he.name_eq) hn.2

/-- **What a run does**: it removes the functions of the family, edits the others and adds
functions after them; and it answers whether there was a function of the family. -/
theorem rewrites_of_run {c : Bool} (h : (l.run m).result = .ok (c, m')) :
    l.Rewrites (m.without l.family) m' ∧
      (c = true ↔ ∃ f ∈ m.functions, Family.of? f.name = some l.family) := by
  obtain ⟨hfold, rfl⟩ := run_eq_ok.1 h
  refine ⟨rewrites_of_foldlM rfl (.refl m) hfold, ?_⟩
  rw [Bool.not_eq_true', List.isEmpty_eq_false_iff_exists_mem]
  constructor
  · rintro ⟨n, hn⟩
    obtain ⟨hk, f, hf, rfl⟩ := Module.mem_namesIn.1 hn
    exact ⟨f, hf, hk⟩
  · rintro ⟨f, hf, hk⟩
    exact ⟨f.name, Module.mem_namesIn.2 ⟨hk, f, hf, rfl⟩⟩

end Lowering

end KernelIR

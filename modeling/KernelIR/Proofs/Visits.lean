import KernelIR.Proofs.Passes

/-!
# The calls that a run replaces

`Lowering.visits` lists the calls that a run replaces, in the order in which it does, each with the
module at that time and with what took its place; they are the positions of the run at which no
call is refused.  Statements about a run come from `Lowering.Keeps`: what is kept by replacing one
call, by looking at one queued cast and by removing one function of the family is kept by the whole
run (`Keeps.run`) and holds at every position that it goes to (`Keeps.reached`).
-/

namespace KernelIR

/-! ### The queue of casts -/

namespace CastQueue

/-- The queue is in order, and so without repetition. -/
def Sorted (q : CastQueue) : Prop := q.Pairwise fun a b => before a b = true

theorem before_iff {a b : Nat × TempId} :
    before a b = true ↔ a.1 < b.1 ∨ a.1 = b.1 ∧ a.2 < b.2 := by
  simp [before]

theorem before_trans {a b c : Nat × TempId} (hab : before a b = true) (hbc : before b c = true) :
    before a c = true := by
  rw [before_iff, UInt32.lt_iff_toNat_lt] at *
  omega

theorem before_of_not {a b : Nat × TempId} (hne : a ≠ b) (h : ¬ before a b = true) :
    before b a = true := by
  rw [before_iff, UInt32.lt_iff_toNat_lt] at *
  rcases Nat.lt_trichotomy a.1 b.1 with hlt | heq | hgt
  · omega
  · have hne' : a.2.toNat ≠ b.2.toNat := fun he => hne (Prod.ext heq (UInt32.toNat_inj.1 he))
    omega
  · omega

theorem Sorted.insert {q : CastQueue} (h : q.Sorted) (a : Nat × TempId) :
    Sorted (CastQueue.insert a q) := by
  induction q with
  | nil => exact List.pairwise_singleton ..
  | cons b q ih =>
    obtain ⟨hb, hq⟩ := List.pairwise_cons.1 h
    unfold CastQueue.insert
    split
    · exact h
    · next hne =>
      split
      · next hab =>
        refine List.pairwise_cons.2 ⟨fun c hc => ?_, h⟩
        rcases List.mem_cons.1 hc with rfl | hc
        · exact hab
        · exact before_trans hab (hb c hc)
      · next hab =>
        refine List.pairwise_cons.2 ⟨fun c hc => ?_, ih hq⟩
        rcases mem_insert.1 hc with rfl | hc
        · exact before_of_not hne hab
        · exact hb c hc

theorem Sorted.insertAll {q : CastQueue} (h : q.Sorted) (n : Nat) (casts : List TempId) :
    (q.insertAll n casts).Sorted := by
  unfold CastQueue.insertAll
  induction casts generalizing q with
  | nil => exact h
  | cons t casts ih => exact ih (h.insert (n, t))

/-- The first cast of the queue is in it once. -/
theorem Sorted.not_mem {e : Nat × TempId} {q : CastQueue} (h : Sorted (e :: q)) : e ∉ q := by
  intro he
  have hself := (List.pairwise_cons.1 h).1 e he
  rw [before_iff, UInt32.lt_iff_toNat_lt] at hself
  omega

theorem mem_insertAll {e : Nat × TempId} {q : CastQueue} {n : Nat} {casts : List TempId} :
    e ∈ q.insertAll n casts ↔ e ∈ q ∨ e.1 = n ∧ e.2 ∈ casts := by
  unfold CastQueue.insertAll
  induction casts generalizing q with
  | nil => simp
  | cons t casts ih =>
    rw [List.foldl_cons, ih, mem_insert, Prod.ext_iff, List.mem_cons]
    tauto

end CastQueue

/-- An element in the place of another that `v` does not tell from it. -/
theorem map_set_eq {α β : Type} {as : List α} {n : Nat} {a a' : α} {v : α → β}
    (ha : as[n]? = some a) (hv : v a' = v a) : (as.set n a').map v = as.map v := by
  obtain ⟨hn, rfl⟩ := List.getElem?_eq_some_iff.1 ha
  rw [List.map_set, hv]
  refine List.ext_getElem (by simp) fun k _ _ => ?_
  rw [List.getElem_set]
  split <;> simp_all

theorem Dropped.module_step (d : Dropped) (entry : Nat × TempId) :
    (d.step entry).module = d.module.dropCast entry := by
  unfold step Module.dropCast
  cases d.module.functions[entry.1]? with
  | none => rfl
  | some f => by_cases hu : f.hasUsers entry.2 <;> simp [hu]

namespace Module

variable {m : Module} {e : Nat × TempId}

theorem module_dropCasts (m : Module) (q : CastQueue) :
    (m.dropCasts q).module = q.foldl Module.dropCast m :=
  (List.foldl_hom Dropped.module fun d e => (d.module_step e).symm).symm

/-- Nothing happens, or one function loses a definition that nothing in it reads. -/
theorem functions_dropCast (m : Module) (e : Nat × TempId) :
    (m.dropCast e).functions = m.functions ∨ ∃ f, m.functions[e.1]? = some f ∧
      f.hasUsers e.2 = false ∧ (m.dropCast e).functions = m.functions.set e.1 (f.eraseDef e.2) := by
  unfold dropCast
  cases hf : m.functions[e.1]? with
  | none => exact .inl rfl
  | some f =>
    by_cases hu : f.hasUsers e.2
    · exact .inl (by simp only [if_pos hu])
    · refine .inr ⟨f, rfl, by simpa using hu, ?_⟩
      simp only [if_neg hu]
      rw [modifyFunction, List.modify_eq_set_getElem?, hf]
      rfl

theorem mem_functions_dropCast {g : Function} (hg : g ∈ (m.dropCast e).functions) :
    g ∈ m.functions ∨ ∃ f ∈ m.functions, f.hasUsers e.2 = false ∧ g = f.eraseDef e.2 := by
  rcases functions_dropCast m e with h | ⟨f, hf, hu, h⟩
  · exact .inl (h ▸ hg)
  · rw [h] at hg
    rcases List.mem_or_eq_of_mem_set hg with hg | hg
    · exact .inl hg
    · exact .inr ⟨f, List.mem_of_getElem? hf, hu, hg⟩

theorem names_dropCast (m : Module) (e : Nat × TempId) :
    (m.dropCast e).functions.map (·.name) = m.functions.map (·.name) := by
  rcases functions_dropCast m e with h | ⟨f, hf, -, h⟩
  · rw [h]
  · rw [h]
    exact map_set_eq hf (Function.name_of_skeleton_eq (Function.skeleton_eraseDef f e.2))

end Module

/-! ### Visits -/

/-- The instruction that a call was read from. -/
def Call.instruction (call : Call) : Instruction :=
  .call call.result (.function call.callee) call.args call.ty call.align

/-- The family whose function the instruction calls directly. -/
def Instruction.family? (i : Instruction) : Option Family := i.callee?.bind Family.of?

@[simp] theorem Instruction.family?_rename (r : Option (TempId × TempId)) (i : Instruction) :
    (i.rename r).family? = i.family? := by
  rw [family?, family?, callee?_rename]

/-- A call that was replaced, with the module at that time. -/
structure Visit where
  module : Module
  call : Call
  replacement : Replacement

namespace Visit

/-- The module with the call replaced. -/
def after (v : Visit) : Module := v.module.replaceCall v.call.site v.replacement

/-- The function of the call, with the replacement in its place. -/
def rewritten (v : Visit) : Function :=
  (v.call.caller.rename v.replacement.renamed).splice v.call.site.block v.call.site.index
    v.replacement.code

/-- The visit is one of the lowering: the call stands at its site, belongs to the family, and is
replaced as the lowering says. -/
structure Of (l : Lowering) (v : Visit) : Prop where
  function : v.module.functionAt? v.call.site = some v.call.caller
  instruction : ∃ b, v.call.caller.blocks[v.call.site.block]? = some b ∧
    b.instructions[v.call.site.index]? = some v.call.instruction
  family : Family.of? v.call.callee = some l.family
  replace : (l.replace v.module v.call).result = .ok v.replacement

variable {l : Lowering} {v : Visit}

theorem Of.replacedBy (h : v.Of l) : v.call.caller.ReplacedBy v.call.instruction
    v.replacement.renamed v.replacement.code v.rewritten := by
  obtain ⟨b, hb, hi⟩ := h.instruction
  exact Function.replacedBy_splice hb hi _ _

theorem Of.instruction_mem (h : v.Of l) : v.call.instruction ∈ v.call.caller.instructions := by
  obtain ⟨pre, post, hsplit, -⟩ := h.replacedBy.exists_instructions
  simp [hsplit]

/-- What is read at the site is the call. -/
theorem Of.callAt (h : v.Of l) : v.module.callAt v.call.site = .ok v.call := by
  obtain ⟨b, hb, hi⟩ := h.instruction
  have hat : v.module.instructionAt? v.call.site = some v.call.instruction := by
    simp [Module.instructionAt?, h.function, hb, hi]
  rw [Module.callAt, h.function, hat]
  rfl

/-- Of the functions only that of the call changes, and what the code needs comes after them. -/
theorem Of.functions_after (h : v.Of l) :
    v.after.functions = v.module.functions.set v.call.site.function v.rewritten ++
      v.replacement.declared.toList := by
  have hf : v.module.functions[v.call.site.function]? = some v.call.caller := h.function
  rw [after, Module.functions_replaceCall, List.modify_eq_set_getElem?, hf]
  rfl

theorem Of.function_after (h : v.Of l) :
    v.after.functions[v.call.site.function]? = some v.rewritten := by
  have hlt := (List.getElem?_eq_some_iff.1 h.function).1
  rw [h.functions_after, List.getElem?_append_left (by simpa using hlt), List.getElem?_set_self hlt]

theorem Of.function_after_of_ne {k : Nat} {f : Function} (h : v.Of l)
    (hk : v.call.site.function ≠ k) (hf : v.module.functions[k]? = some f) :
    v.after.functions[k]? = some f := by
  have hlt := (List.getElem?_eq_some_iff.1 hf).1
  rw [h.functions_after, List.getElem?_append_left (by simpa using hlt), List.getElem?_set_ne hk]
  exact hf

theorem Of.mem_functions_after (h : v.Of l) {g : Function} (hg : g ∈ v.after.functions) :
    g ∈ v.module.functions ∨ g = v.rewritten ∨ v.replacement.declared = some g := by
  rw [h.functions_after, List.mem_append, Option.mem_toList] at hg
  rcases hg with hg | hg
  · exact (List.mem_or_eq_of_mem_set hg).imp_right .inl
  · exact .inr (.inr hg)

theorem Of.caller_mem (h : v.Of l) : v.call.caller ∈ v.module.functions :=
  List.mem_of_getElem? h.function

theorem Of.names_after (h : v.Of l) :
    v.after.functions.map (·.name) =
      v.module.functions.map (·.name) ++ v.replacement.declared.toList.map (·.name) := by
  rw [h.functions_after, List.map_append,
    map_set_eq h.function (Function.name_of_skeleton_eq h.replacedBy.skeleton)]

end Visit

namespace Lowering

variable {l : Lowering} {m m' : Module} {name : String}

/-- The visit at a position that a run goes to.  There is none where a cast is looked at, and none
where a call is refused. -/
def visit? (l : Lowering) : Access → Option Visit
  | .call m _ s =>
    match m.callAt s with
    | .error _ => none
    | .ok call =>
      match (l.replace m call).result with
      | .error _ => none
      | .ok r => some ⟨m, call, r⟩
  | .cast .. => none

/-- The visits at the given sites of calls to a function. -/
def visitsAt (l : Lowering) (name : String) (m : Module) (q : CastQueue) (sites : List Site) :
    List Visit := (l.accessesAt name m q sites).filterMap l.visit?

/-- The visits of the calls to a function. -/
def visitsOf (l : Lowering) (m : Module) (name : String) : List Visit :=
  l.visitsAt name m [] (m.callSites name).reverse

/-- The visits of the calls to several functions. -/
def visitsIn (l : Lowering) (m : Module) (names : List String) : List Visit :=
  (l.accessesIn m names).filterMap l.visit?

/-- The visits of a run. -/
def visits (l : Lowering) (m : Module) : List Visit := (l.accesses m).filterMap l.visit?

theorem visit?_eq_some {a : Access} {v : Visit} (h : l.visit? a = some v) :
    ∃ name s, a = .call v.module name s ∧ v.module.callAt s = .ok v.call ∧
      (l.replace v.module v.call).result = .ok v.replacement := by
  cases a with
  | cast m e => exact nomatch h
  | call m name s =>
    simp only [visit?] at h
    split at h
    · exact nomatch h
    · next call hcall =>
      split at h
      · exact nomatch h
      · next r hr =>
        obtain rfl := Option.some.inj h
        exact ⟨name, s, rfl, hcall, hr⟩

theorem visitsAt_nil (m : Module) (q : CastQueue) : l.visitsAt name m q [] = [] := by
  show (m.castAccesses q).filterMap l.visit? = []
  induction q generalizing m with
  | nil => rfl
  | cons e q ih => exact ih (m.dropCast e)

theorem visitsAt_cons {q : CastQueue} {s : Site} {sites : List Site} {call : Call}
    {r : Replacement} (hcall : m.callAt s = .ok call) (hr : (l.replace m call).result = .ok r) :
    l.visitsAt name m q (s :: sites) = ⟨m, call, r⟩ ::
      l.visitsAt name (m.replaceCall s r) (q.insertAll s.function r.casts) sites := by
  have hvisit : l.visit? (.call m name s) = some ⟨m, call, r⟩ := by
    simp only [visit?, hcall, hr]
  rw [visitsAt, accessesAt_cons hcall hr, List.filterMap_cons_some hvisit]
  rfl

theorem visitsIn_cons {names : List String} (h : (l.lowerFunction m name).result = .ok m') :
    l.visitsIn m (name :: names) = l.visitsOf m name ++ l.visitsIn m' names := by
  simp only [visitsIn, accessesIn, h, List.filterMap_append]
  rfl

/-- The call at a pending site can be read, and what replaces it makes a visit. -/
theorem of_pending {s : Site} {sites : List Site} {call : Call} {r : Replacement}
    (hn : Family.of? name = some l.family) (hp : Pending m name (s :: sites))
    (hcall : m.callAt s = .ok call) (hr : (l.replace m call).result = .ok r) :
    (Visit.mk m call r).Of l ∧ call.site = s ∧ call.callee = name := by
  obtain ⟨f, b, result, args, ty, align, hf, hb, hi, hat⟩ :=
    Module.exists_call_of_calleeAt? (hp.callee s List.mem_cons_self)
  obtain rfl := Except.ok.inj (hat.symm.trans hcall)
  exact ⟨⟨hf, ⟨b, hb, hi⟩, hn, hr⟩, rfl, rfl⟩

/-! ### What a run keeps -/

/-- A statement about a module, the casts that are queued and the visits so far, which no step of a
run that starts at `m` breaks. -/
structure Keeps (l : Lowering) (m : Module) (I : Module → CastQueue → List Visit → Prop) :
    Prop where
  replace : ∀ {v : Visit} {q : CastQueue} {done : List Visit}, v.Of l →
    v.call.callee ∈ m.namesIn (some l.family) → I v.module q done →
    I v.after (q.insertAll v.call.site.function v.replacement.casts) (done ++ [v])
  drop : ∀ {m₁ : Module} {e : Nat × TempId} {q : CastQueue} {done : List Visit}, e ∉ q →
    I m₁ (e :: q) done → I (m₁.dropCast e) q done
  erase : ∀ {m₁ : Module} {n : String} {done : List Visit}, n ∈ m.namesIn (some l.family) →
    I m₁ [] done → I (m₁.eraseFunction n) [] done

namespace Keeps

variable {I : Module → CastQueue → List Visit → Prop} {m₁ m₂ : Module} {done : List Visit}

theorem lowerSites (hI : l.Keeps m I) (hn : name ∈ m.namesIn (some l.family)) :
    ∀ {sites : List Site} {m₁ m₂ : Module} {q q' : CastQueue} {done : List Visit},
      Pending m₁ name sites → (l.lowerSites m₁ q sites).result = .ok (m₂, q') → q.Sorted →
      I m₁ q done → I m₂ q' (done ++ l.visitsAt name m₁ q sites) ∧ q'.Sorted
  | [], m₁, m₂, q, q', done, _, h, hq, h₁ => by
    obtain ⟨rfl, rfl⟩ := Prod.mk.inj (Except.ok.inj h)
    rw [visitsAt_nil, List.append_nil]
    exact ⟨h₁, hq⟩
  | s :: sites, m₁, m₂, q, q', done, hp, h, hq, h₁ => by
    obtain ⟨call, r, hcall, hr, h⟩ := lowerSites_cons_eq_ok.1 h
    obtain ⟨hof, rfl, hname⟩ := of_pending (Module.mem_namesIn.1 hn).1 hp hcall hr
    rw [visitsAt_cons hcall hr, List.append_cons]
    refine lowerSites hI hn (hp.tail r) h (hq.insertAll _ _) ?_
    exact hI.replace hof (by rw [hname]; exact hn) h₁

theorem dropCasts (hI : l.Keeps m I) {q : CastQueue} (hq : q.Sorted) (h : I m₁ q done) :
    I (m₁.dropCasts q).module [] done := by
  rw [Module.module_dropCasts]
  induction q generalizing m₁ with
  | nil => exact h
  | cons e q ih => exact ih (List.pairwise_cons.1 hq).2 (hI.drop hq.not_mem h)

theorem lowerFunction (hI : l.Keeps m I) (hn : name ∈ m.namesIn (some l.family))
    (h : (l.lowerFunction m₁ name).result = .ok m₂) (h₁ : I m₁ [] done) :
    I m₂ [] (done ++ l.visitsOf m₁ name) := by
  obtain ⟨m₃, q, hsites, rfl⟩ := lowerFunction_eq_ok.1 h
  obtain ⟨h₃, hq⟩ := hI.lowerSites hn (pending_callSites m₁ name) hsites .nil h₁
  exact hI.erase hn (hI.dropCasts hq h₃)

theorem foldlM (hI : l.Keeps m I) : ∀ {names : List String} {m₁ m₂ : Module} {done : List Visit},
    (∀ n ∈ names, n ∈ m.namesIn (some l.family)) →
      (names.foldlM l.lowerFunction m₁).result = .ok m₂ → I m₁ [] done →
      I m₂ [] (done ++ l.visitsIn m₁ names)
  | [], m₁, m₂, done, _, h, h₁ => by
    obtain rfl : m₁ = m₂ := Except.ok.inj h
    rwa [visitsIn, accessesIn, List.filterMap_nil, List.append_nil]
  | name :: names, m₁, m₂, done, hn, h, h₁ => by
    rw [List.foldlM_cons, Traced.result_bind_eq_ok] at h
    obtain ⟨m₃, h₃, h⟩ := h
    rw [visitsIn_cons h₃, ← List.append_assoc]
    refine foldlM hI (fun n hmem => hn n (List.mem_cons_of_mem _ hmem)) h ?_
    exact hI.lowerFunction (hn name List.mem_cons_self) h₃ h₁

/-- **What every step keeps, the run keeps**, and the visits are those of the run. -/
theorem run {c : Bool} (hI : l.Keeps m I) (h : (l.run m).result = .ok (c, m'))
    (h₁ : I m [] done) : I m' [] (done ++ l.visits m) :=
  hI.foldlM (fun _ hn => hn) (run_eq_ok.1 h).1 h₁

end Keeps

end Lowering

/-! ### What holds at the positions of a run -/

/-- What is known when a run that started at `m` goes to a position, if `I` is kept: a call is one
of those that wait, and a cast is the next in the queue. -/
def Access.Reached (l : Lowering) (m : Module) (I : Module → CastQueue → List Visit → Prop) :
    Access → Prop
  | .call m₁ name s => name ∈ m.namesIn (some l.family) ∧
      (∃ sites, Lowering.Pending m₁ name (s :: sites)) ∧ ∃ q done, I m₁ q done
  | .cast m₁ e => ∃ q done, I m₁ (e :: q) done

namespace Lowering

variable {l : Lowering} {m : Module} {name : String}

namespace Keeps

variable {I : Module → CastQueue → List Visit → Prop}

theorem reached_castAccesses (hI : l.Keeps m I) {q : CastQueue} {m₁ : Module} {done : List Visit}
    (hq : q.Sorted) (h : I m₁ q done) : ∀ a ∈ m₁.castAccesses q, a.Reached l m I := by
  induction q generalizing m₁ with
  | nil => exact nofun
  | cons e q ih =>
    intro a ha
    rcases List.mem_cons.1 ha with rfl | ha
    · exact ⟨q, done, h⟩
    · exact ih (List.pairwise_cons.1 hq).2 (hI.drop hq.not_mem h) a ha

theorem reached_accessesAt (hI : l.Keeps m I) (hn : name ∈ m.namesIn (some l.family)) :
    ∀ {sites : List Site} {m₁ : Module} {q : CastQueue} {done : List Visit}, Pending m₁ name sites →
      q.Sorted → I m₁ q done → ∀ a ∈ l.accessesAt name m₁ q sites, a.Reached l m I
  | [], m₁, q, done, _, hq, h => hI.reached_castAccesses hq h
  | s :: sites, m₁, q, done, hp, hq, h => by
    intro a ha
    rcases List.mem_cons.1 ha with rfl | ha
    · exact ⟨hn, ⟨sites, hp⟩, q, done, h⟩
    · split at ha
      · exact nomatch ha
      · next call hcall =>
        split at ha
        · exact nomatch ha
        · next r hr =>
          obtain ⟨hof, rfl, hname⟩ := of_pending (Module.mem_namesIn.1 hn).1 hp hcall hr
          exact reached_accessesAt hI hn (hp.tail r) (hq.insertAll _ _)
            (hI.replace hof (by rw [hname]; exact hn) h) a ha

theorem reached_accessesIn (hI : l.Keeps m I) :
    ∀ {names : List String} {m₁ : Module} {done : List Visit},
      (∀ n ∈ names, n ∈ m.namesIn (some l.family)) → I m₁ [] done →
      ∀ a ∈ l.accessesIn m₁ names, a.Reached l m I
  | [], m₁, done, _, _ => nofun
  | name :: names, m₁, done, hn, h => by
    intro a ha
    have hname := hn name List.mem_cons_self
    rcases List.mem_append.1 ha with ha | ha
    · exact hI.reached_accessesAt hname (pending_callSites m₁ name) .nil h a ha
    · split at ha
      · exact nomatch ha
      · next m₂ h₂ =>
        exact reached_accessesIn hI (fun n hmem => hn n (List.mem_cons_of_mem _ hmem))
          (hI.lowerFunction hname h₂ h) a ha

/-- **What every step keeps holds wherever the run goes.** -/
theorem reached (hI : l.Keeps m I) (done : List Visit) (h : I m [] done) :
    ∀ a ∈ l.accesses m, a.Reached l m I := hI.reached_accessesIn (fun _ hn => hn) h

end Keeps

/-- The visits of a run are of calls to the functions that the family had at its start. -/
theorem of_mem_visits {v : Visit} (hv : v ∈ l.visits m) :
    v.Of l ∧ v.call.callee ∈ m.namesIn (some l.family) := by
  obtain ⟨a, ha, hvisit⟩ := List.mem_filterMap.1 hv
  obtain ⟨name, s, rfl, hcall, hr⟩ := visit?_eq_some hvisit
  have hI : l.Keeps m fun _ _ _ => True :=
    ⟨fun _ _ _ => trivial, fun _ _ => trivial, fun _ _ => trivial⟩
  obtain ⟨hn, ⟨sites, hp⟩, -⟩ := hI.reached [] trivial _ ha
  obtain ⟨hof, -, hname⟩ := of_pending (Module.mem_namesIn.1 hn).1 hp hcall hr
  exact ⟨hof, by rw [hname]; exact hn⟩

end Lowering

namespace Module

/-- The visits of several lowerings, one after the other. -/
def visits (m : Module) (ls : List Lowering) : List Visit :=
  (m.runs ls).flatMap fun x => x.1.visits x.2

theorem visits_cons {m m' : Module} {l : Lowering} {ls : List Lowering} {c : Bool}
    (h : (l.run m).result = .ok (c, m')) : m.visits (l :: ls) = l.visits m ++ m'.visits ls := by
  simp only [visits, runs_cons h, List.flatMap_cons]

/-- What every step of every lowering keeps, a run of several keeps.  For each lowering the
statement may be used at its start. -/
theorem keeps_runLowerings {I : Module → CastQueue → List Visit → Prop} {ls : List Lowering}
    (done : List Visit)
    (hI : ∀ l ∈ ls, ∀ (m : Module) (done : List Visit), I m [] done → l.Keeps m I)
    {m m' : Module} {c : Bool} (h : (m.runLowerings ls).result = .ok (c, m')) (h₁ : I m [] done) :
    I m' [] (done ++ m.visits ls) := by
  induction ls generalizing m c done with
  | nil =>
    obtain ⟨-, rfl⟩ := runLowerings_nil_eq_ok.1 h
    rwa [visits, runs, List.flatMap_nil, List.append_nil]
  | cons l ls ih =>
    obtain ⟨c₁, m₁, c₂, h₂, h, -⟩ := runLowerings_cons_eq_ok.1 h
    have hrun := (hI l List.mem_cons_self m done h₁).run h₂ h₁
    rw [visits_cons h₂, ← List.append_assoc]
    exact ih _ (fun l' hl' => hI l' (List.mem_cons_of_mem _ hl')) h hrun

/-- What every step of every lowering keeps holds at the start of each of their runs. -/
theorem keeps_runs {I : Module → CastQueue → List Visit → Prop} :
    ∀ {ls : List Lowering} {m : Module} {done : List Visit},
      (∀ l ∈ ls, ∀ (m : Module) (done : List Visit), I m [] done → l.Keeps m I) → I m [] done →
      ∀ x ∈ m.runs ls, ∃ done, I x.2 [] done
  | [], m, done, _, _ => nofun
  | l :: ls, m, done, hI, h => by
    intro x hx
    rcases List.mem_cons.1 hx with rfl | hx
    · exact ⟨done, h⟩
    · split at hx
      · exact nomatch hx
      · next c m' hrun =>
        exact keeps_runs (fun l' hl' => hI l' (List.mem_cons_of_mem _ hl'))
          ((hI l List.mem_cons_self m done h).run hrun h) x hx

end Module

end KernelIR

import KernelIR.Proofs.Locality

/-!
# Draining the queue of casts

The queue is drained in one pass, in the order of functions and numbers.  A queued cast goes exactly
if all that reads it is casts of the queue that went before it (`Module.drops_iff_forall_readers`).
So one that is read by a cast of larger number outlives its reader: it is looked at while the reader
is still there, and stays although nothing reads it in the end (`Module.isStray_dropCasts_iff`).
Draining the queue again removes something exactly if there are such casts
(`Module.removed_dropCasts_eq_zero_iff`).
-/

namespace KernelIR

/-! ### Functions -/

/-- With one definition for each temporary, erasing a definition takes away just that. -/
theorem mem_eraseP_result? {t : TempId} {i : Instruction} {is : List Instruction}
    (h : (defined is).Nodup) :
    i ∈ is.eraseP (·.result? == some t) ↔ i ∈ is ∧ i.result? ≠ some t := by
  induction is with
  | nil => simp
  | cons j is ih =>
    rw [defined_cons, List.nodup_append] at h
    obtain ⟨-, his, hj⟩ := h
    by_cases hjt : j.result? = some t
    · have hrest : i ∈ is → i.result? ≠ some t := by
        intro hi hit
        refine hj t ?_ t (List.mem_filterMap.2 ⟨i, hi, hit⟩) rfl
        rw [hjt]
        exact List.mem_singleton_self t
      rw [List.eraseP_cons_of_pos (by simpa using hjt), List.mem_cons]
      constructor
      · intro hi
        exact ⟨.inr hi, hrest hi⟩
      · rintro ⟨rfl | hi, hit⟩
        · exact absurd hjt hit
        · exact hi
    · rw [List.eraseP_cons_of_neg (by simpa using hjt), List.mem_cons, List.mem_cons, ih his]
      constructor
      · rintro (rfl | ⟨hi, hit⟩)
        · exact ⟨.inl rfl, hjt⟩
        · exact ⟨.inr hi, hit⟩
      · rintro ⟨rfl | hi, hit⟩
        · exact .inl rfl
        · exact .inr ⟨hi, hit⟩

namespace Function

variable {f : Function} {q q₁ q₂ : CastQueue} {e : Nat × TempId} {i : Instruction} {t u : TempId}

theorem hasUsers_iff : f.hasUsers t = true ↔ ∃ i ∈ f.instructions, i.usesTemp t = true :=
  List.any_eq_true

theorem isSome_findDef? :
    (f.findDef? t).isSome = true ↔ ∃ i ∈ f.instructions, i.result? = some t := by
  simp [findDef?]

theorem mem_instructions_eraseDef (hf : f.tempIds.Nodup) :
    i ∈ (f.eraseDef t).instructions ↔ i ∈ f.instructions ∧ i.result? ≠ some t := by
  rw [instructions_eraseDef]
  exact mem_eraseP_result? (List.nodup_append.1 hf).2.1

/-- The queued temporaries that nothing reads when their turn comes. -/
def dropped (f : Function) : CastQueue → List TempId
  | [] => []
  | e :: q => if f.hasUsers e.2 then f.dropped q else e.2 :: (f.eraseDef e.2).dropped q

theorem dropped_append (f : Function) (q₁ q₂ : CastQueue) :
    f.dropped (q₁ ++ q₂) = f.dropped q₁ ++ (f.dropCasts q₁).dropped q₂ := by
  induction q₁ generalizing f with
  | nil => rfl
  | cons e q₁ ih =>
    rw [List.cons_append, dropped, dropped, dropCasts_cons, dropCast]
    by_cases hu : f.hasUsers e.2 = true
    · rw [if_pos hu, if_pos hu, if_pos hu, ih]
    · rw [if_neg hu, if_neg hu, if_neg hu, ih, List.cons_append]

theorem exists_of_mem_dropped (h : t ∈ f.dropped q) : ∃ e ∈ q, e.2 = t := by
  induction q generalizing f with
  | nil => cases h
  | cons e q ih =>
    unfold dropped at h
    split at h
    · obtain ⟨e', he', rfl⟩ := ih h
      exact ⟨e', List.mem_cons_of_mem _ he', rfl⟩
    · rcases List.mem_cons.1 h with rfl | h
      · exact ⟨e, List.mem_cons_self, rfl⟩
      · obtain ⟨e', he', rfl⟩ := ih h
        exact ⟨e', List.mem_cons_of_mem _ he', rfl⟩

/-- What is left of a function are the instructions that define nothing that was dropped. -/
theorem mem_instructions_dropCasts (hf : f.tempIds.Nodup) :
    i ∈ (f.dropCasts q).instructions ↔
      i ∈ f.instructions ∧ ∀ t ∈ f.dropped q, i.result? ≠ some t := by
  induction q generalizing f with
  | nil => simp [dropCasts, dropped]
  | cons e q ih =>
    rw [dropCasts_cons, dropCast, dropped]
    by_cases hu : f.hasUsers e.2 = true
    · rw [if_pos hu, if_pos hu, ih hf]
    · rw [if_neg hu, if_neg hu, ih (nodup_eraseDef hf e.2), mem_instructions_eraseDef hf,
        List.forall_mem_cons, and_assoc]

theorem isSome_findDef?_dropCasts (hf : f.tempIds.Nodup) :
    ((f.dropCasts q).findDef? t).isSome = true ↔
      (f.findDef? t).isSome = true ∧ t ∉ f.dropped q := by
  simp only [isSome_findDef?, mem_instructions_dropCasts hf]
  constructor
  · rintro ⟨i, ⟨hi, hkept⟩, hit⟩
    exact ⟨⟨i, hi, hit⟩, fun ht => hkept t ht hit⟩
  · rintro ⟨⟨i, hi, hit⟩, ht⟩
    refine ⟨i, ⟨hi, fun u hu hiu => ht ?_⟩, hit⟩
    rwa [Option.some.inj (hit.symm.trans hiu)]

theorem hasUsers_dropCasts (hf : f.tempIds.Nodup) :
    (f.dropCasts q).hasUsers t = false ↔
      ∀ i ∈ f.instructions, i.usesTemp t = true → ∃ u ∈ f.dropped q, i.result? = some u := by
  rw [← Bool.not_eq_true, hasUsers_iff]
  simp only [mem_instructions_dropCasts hf]
  constructor
  · intro h i hi hit
    by_contra hnone
    exact h ⟨i, ⟨hi, fun u hu hiu => hnone ⟨u, hu, hiu⟩⟩, hit⟩
  · rintro h ⟨i, ⟨hi, hkept⟩, hit⟩
    obtain ⟨u, hu, hiu⟩ := h i hi hit
    exact hkept u hu hiu

/-- What was dropped before a queued cast is what was dropped of smaller number. -/
theorem mem_dropped_before (hq : (q₁ ++ e :: q₂).Pairwise (·.2 < ·.2)) :
    u ∈ f.dropped q₁ ↔ u ∈ f.dropped (q₁ ++ e :: q₂) ∧ u < e.2 := by
  obtain ⟨-, hq₂, hbefore⟩ := List.pairwise_append.1 hq
  rw [dropped_append, List.mem_append]
  constructor
  · intro hu
    obtain ⟨a, ha, rfl⟩ := exists_of_mem_dropped hu
    exact ⟨.inl hu, hbefore a ha e List.mem_cons_self⟩
  · rintro ⟨hu | hu, hlt⟩
    · exact hu
    · exfalso
      obtain ⟨a, ha, rfl⟩ := exists_of_mem_dropped hu
      rcases List.mem_cons.1 ha with rfl | ha
      · exact UInt32.lt_irrefl _ hlt
      · exact UInt32.lt_asymm hlt ((List.pairwise_cons.1 hq₂).1 a ha)

/-- **A queued cast is dropped if all that reads it was dropped before it.** -/
theorem mem_dropped_iff (hf : f.tempIds.Nodup) (hq : q.Pairwise (·.2 < ·.2)) (he : e ∈ q) :
    e.2 ∈ f.dropped q ↔ ∀ i ∈ f.instructions, i.usesTemp e.2 = true →
      ∃ u ∈ f.dropped q, u < e.2 ∧ i.result? = some u := by
  obtain ⟨q₁, q₂, rfl⟩ := List.append_of_mem he
  have hturn : e.2 ∈ f.dropped (q₁ ++ e :: q₂) ↔ (f.dropCasts q₁).hasUsers e.2 = false := by
    obtain ⟨-, hq₂, hbefore⟩ := List.pairwise_append.1 hq
    have hfirst : e.2 ∉ f.dropped q₁ := by
      intro h
      obtain ⟨a, ha, hae⟩ := exists_of_mem_dropped h
      exact UInt32.lt_irrefl e.2 (hae ▸ hbefore a ha e List.mem_cons_self)
    have hlast : ∀ g : Function, e.2 ∉ g.dropped q₂ := by
      intro g h
      obtain ⟨a, ha, hae⟩ := exists_of_mem_dropped h
      exact UInt32.lt_irrefl e.2 (hae ▸ (List.pairwise_cons.1 hq₂).1 a ha)
    rw [dropped_append, List.mem_append, or_iff_right hfirst, dropped]
    cases (f.dropCasts q₁).hasUsers e.2 with
    | true => simpa using hlast _
    | false => simp
  rw [hturn, hasUsers_dropCasts hf]
  simp only [mem_dropped_before hq, and_assoc]

/-- **A queued cast is left without a reader** if all that reads it is dropped, but something of it
only after its turn. -/
theorem stray_dropCasts_iff (hf : f.tempIds.Nodup) (hq : q.Pairwise (·.2 < ·.2)) (he : e ∈ q) :
    ((f.dropCasts q).findDef? e.2).isSome = true ∧ (f.dropCasts q).hasUsers e.2 = false ↔
      (f.findDef? e.2).isSome = true ∧
      (∀ i ∈ f.instructions, i.usesTemp e.2 = true → ∃ u ∈ f.dropped q, i.result? = some u) ∧
      ∃ i ∈ f.instructions, i.usesTemp e.2 = true ∧
        ∃ u ∈ f.dropped q, e.2 < u ∧ i.result? = some u := by
  rw [isSome_findDef?_dropCasts hf, hasUsers_dropCasts hf]
  constructor
  · rintro ⟨⟨hdef, hkept⟩, hread⟩
    refine ⟨hdef, hread, ?_⟩
    by_contra hlater
    refine hkept ((mem_dropped_iff hf hq he).2 fun i hi hit => ?_)
    obtain ⟨u, hu, hiu⟩ := hread i hi hit
    have hne : u ≠ e.2 := fun heq => hkept (heq ▸ hu)
    have hle : ¬ e.2 < u := fun hlt => hlater ⟨i, hi, hit, u, hu, hlt, hiu⟩
    exact ⟨u, hu, UInt32.lt_of_le_of_ne (UInt32.not_lt.1 hle) hne, hiu⟩
  · rintro ⟨hdef, hread, i, hi, hit, u, -, hlt, hiu⟩
    refine ⟨⟨hdef, fun hdropped => ?_⟩, hread⟩
    obtain ⟨u', -, hlt', hiu'⟩ := (mem_dropped_iff hf hq he).1 hdropped i hi hit
    obtain rfl := Option.some.inj (hiu.symm.trans hiu')
    exact UInt32.lt_asymm hlt hlt'

/-- A definition that is not there is erased by doing nothing. -/
theorem eraseDef_eq_self (h : f.findDef? t = none) : f.eraseDef t = f := by
  have hblocks : ∀ bs : List Block,
      (bs.flatMap (·.instructions)).find? (·.result? == some t) = none → eraseDefIn t bs = bs := by
    intro bs hbs
    induction bs with
    | nil => rfl
    | cons b bs ih =>
      rw [List.flatMap_cons, List.find?_append, Option.or_eq_none_iff] at hbs
      have hb : ¬ b.instructions.any (·.result? == some t) = true := by
        simpa using List.find?_eq_none.1 hbs.1
      rw [eraseDefIn, if_neg hb, ih hbs.2]
  rw [eraseDef, hblocks f.blocks h]

end Function

/-! ### Modules -/

namespace CastQueue

variable {q : CastQueue}

theorem mem_ofFunction {k : Nat} {e : Nat × TempId} : e ∈ ofFunction k q ↔ e ∈ q ∧ e.1 = k := by
  rw [ofFunction, List.mem_filter, beq_iff_eq]

/-- The casts of one function are in the order of their numbers. -/
theorem Sorted.pairwise_ofFunction (h : q.Sorted) (k : Nat) :
    (ofFunction k q).Pairwise (·.2 < ·.2) := by
  refine (List.Pairwise.filter _ h).imp_of_mem fun ha hb hab => ?_
  have ha := (mem_ofFunction.1 ha).2
  have hb := (mem_ofFunction.1 hb).2
  rcases before_iff.1 hab with hlt | ⟨-, hlt⟩
  · omega
  · exact hlt

end CastQueue

namespace Module

variable {m : Module} {q : CastQueue} {e : Nat × TempId}

/-- Whether a temporary of a function is the result of an instruction. -/
def defines (m : Module) (e : Nat × TempId) : Bool :=
  (m.functions[e.1]?.bind (·.findDef? e.2)).isSome

/-- The instructions that read a temporary of a function. -/
def readers (m : Module) (e : Nat × TempId) : List Instruction :=
  m.functions[e.1]?.elim [] fun f => f.instructions.filter (·.usesTemp e.2)

/-- Whether a temporary is defined although nothing reads it. -/
def isStray (m : Module) (e : Nat × TempId) : Bool := m.defines e && (m.readers e).isEmpty

/-- Whether dropping the casts of a queue takes the definition of a temporary away. -/
def drops (m : Module) (q : CastQueue) (e : Nat × TempId) : Bool :=
  m.defines e && !(m.dropCasts q).module.defines e

theorem defines_of_none (hf : m.functions[e.1]? = none) : m.defines e = false := by
  rw [defines, hf]
  rfl

section

variable {f : Function} (hf : m.functions[e.1]? = some f)
include hf

theorem function_dropCasts (q : CastQueue) : (m.dropCasts q).module.functions[e.1]? =
    some (f.dropCasts (CastQueue.ofFunction e.1 q)) := by
  rw [functions_dropCasts, hf, Option.map_some]

theorem defines_iff : m.defines e = true ↔ (f.findDef? e.2).isSome = true := by
  rw [defines, hf, Option.bind_some]

theorem mem_readers {i : Instruction} :
    i ∈ m.readers e ↔ i ∈ f.instructions ∧ i.usesTemp e.2 = true := by
  rw [readers, hf, Option.elim_some, List.mem_filter]

theorem isStray_iff : m.isStray e = true ↔
    (f.findDef? e.2).isSome = true ∧ f.hasUsers e.2 = false := by
  rw [isStray, Bool.and_eq_true, defines_iff hf, readers, hf, Option.elim_some, List.isEmpty_iff,
    List.filter_eq_nil_iff, Function.hasUsers, List.any_eq_false]

theorem drops_iff (hm : f.tempIds.Nodup) : m.drops q e = true ↔
    (f.findDef? e.2).isSome = true ∧ e.2 ∈ f.dropped (CastQueue.ofFunction e.1 q) := by
  rw [drops, Bool.and_eq_true, Bool.not_eq_true', ← Bool.not_eq_true, defines_iff hf,
    defines_iff (function_dropCasts hf q), Function.isSome_findDef?_dropCasts hm]
  tauto

/-- The result of an instruction of the function is defined there. -/
theorem drops_result_iff (hm : f.tempIds.Nodup) {i : Instruction} {u : TempId}
    (hi : i ∈ f.instructions) (hiu : i.result? = some u) :
    m.drops q (e.1, u) = true ↔ u ∈ f.dropped (CastQueue.ofFunction e.1 q) := by
  rw [drops_iff (e := (e.1, u)) hf hm]
  exact and_iff_right (Function.isSome_findDef?.2 ⟨i, hi, hiu⟩)

end

theorem modifyFunction_eraseDef {k : Nat} {t : TempId} {f : Function}
    (hf : m.functions[k]? = some f) (ht : f.findDef? t = none) :
    m.modifyFunction k (·.eraseDef t) = m := by
  obtain ⟨hk, rfl⟩ := List.getElem?_eq_some_iff.1 hf
  rw [modifyFunction, List.modify_eq_set_getElem?, hf]
  simp [Function.eraseDef_eq_self ht]

/-- A temporary is dropped if it is queued and all that reads it is dropped before it. -/
theorem drops_iff_forall_readers (hm : ∀ f ∈ m.functions, f.tempIds.Nodup) (hq : q.Sorted) :
    m.drops q e = true ↔ e ∈ q ∧ m.defines e = true ∧
      ∀ i ∈ m.readers e, ∃ u, u < e.2 ∧ i.result? = some u ∧ m.drops q (e.1, u) = true := by
  cases hf : m.functions[e.1]? with
  | none => simp [drops, defines_of_none hf]
  | some f =>
    have hnodup := hm f (List.mem_of_getElem? hf)
    have hsorted := hq.pairwise_ofFunction e.1
    rw [defines_iff hf, drops_iff hf hnodup]
    constructor
    · rintro ⟨hdef, hdrop⟩
      obtain ⟨e', he', htemp⟩ := Function.exists_of_mem_dropped hdrop
      obtain ⟨hmem, hfunction⟩ := CastQueue.mem_ofFunction.1 he'
      obtain rfl : e' = e := Prod.ext hfunction htemp
      refine ⟨hmem, hdef, fun i hi => ?_⟩
      obtain ⟨hi, hread⟩ := (mem_readers hf).1 hi
      obtain ⟨u, hu, hlt, hiu⟩ :=
        (Function.mem_dropped_iff hnodup hsorted he').1 hdrop i hi hread
      exact ⟨u, hlt, hiu, (drops_result_iff hf hnodup hi hiu).2 hu⟩
    · rintro ⟨hmem, hdef, hreaders⟩
      refine ⟨hdef, (Function.mem_dropped_iff hnodup hsorted
        (CastQueue.mem_ofFunction.2 ⟨hmem, rfl⟩)).2 fun i hi hread => ?_⟩
      obtain ⟨u, hlt, hiu, hu⟩ := hreaders i ((mem_readers hf).2 ⟨hi, hread⟩)
      exact ⟨u, (drops_result_iff hf hnodup hi hiu).1 hu, hlt, hiu⟩

/-- A queued cast is left behind if all that reads it is dropped, but some of it only later. -/
theorem isStray_dropCasts_iff (hm : ∀ f ∈ m.functions, f.tempIds.Nodup) (hq : q.Sorted)
    (he : e ∈ q) : (m.dropCasts q).module.isStray e = true ↔ m.defines e = true ∧
      (∀ i ∈ m.readers e, ∃ u, i.result? = some u ∧ m.drops q (e.1, u) = true) ∧
      ∃ i ∈ m.readers e, ∃ u, e.2 < u ∧ i.result? = some u ∧ m.drops q (e.1, u) = true := by
  cases hf : m.functions[e.1]? with
  | none =>
    have hf' : (m.dropCasts q).module.functions[e.1]? = none := by
      rw [functions_dropCasts, hf, Option.map_none]
    simp [isStray, defines_of_none hf, defines_of_none hf']
  | some f =>
    have hnodup := hm f (List.mem_of_getElem? hf)
    rw [isStray_iff (function_dropCasts hf q), defines_iff hf, Function.stray_dropCasts_iff hnodup
      (hq.pairwise_ofFunction e.1) (CastQueue.mem_ofFunction.2 ⟨he, rfl⟩)]
    simp only [mem_readers hf]
    refine and_congr_right fun _ => and_congr ?_ ?_
    · constructor
      · rintro h i ⟨hi, hread⟩
        obtain ⟨u, hu, hiu⟩ := h i hi hread
        exact ⟨u, hiu, (drops_result_iff hf hnodup hi hiu).2 hu⟩
      · intro h i hi hread
        obtain ⟨u, hiu, hu⟩ := h i ⟨hi, hread⟩
        exact ⟨u, (drops_result_iff hf hnodup hi hiu).1 hu, hiu⟩
    · constructor
      · rintro ⟨i, hi, hread, u, hu, hlt, hiu⟩
        exact ⟨i, ⟨hi, hread⟩, u, hlt, hiu, (drops_result_iff hf hnodup hi hiu).2 hu⟩
      · rintro ⟨i, ⟨hi, hread⟩, u, hlt, hiu, hu⟩
        exact ⟨i, hi, hread, u, (drops_result_iff hf hnodup hi hiu).1 hu, hlt, hiu⟩

end Module

/-! ### Draining twice -/

namespace Dropped

variable {d : Dropped} {e : Nat × TempId}

theorem removed_step_of_isStray (h : d.module.isStray e = true) :
    (d.step e).removed = d.removed + 1 := by
  unfold step
  cases hf : d.module.functions[e.1]? with
  | none => simp [Module.isStray, Module.defines_of_none hf] at h
  | some f =>
    obtain ⟨hdef, hu⟩ := (Module.isStray_iff hf).1 h
    simp [hu, hdef]

/-- Looking at what is no stray counts nothing and changes nothing. -/
theorem step_of_not_isStray (h : ¬ d.module.isStray e = true) :
    (d.step e).removed = d.removed ∧ (d.step e).module = d.module := by
  unfold step
  cases hf : d.module.functions[e.1]? with
  | none => exact ⟨rfl, rfl⟩
  | some f =>
    rw [Module.isStray_iff hf] at h
    cases hu : f.hasUsers e.2 with
    | true => simp [hu]
    | false =>
      have hdef : f.findDef? e.2 = none := by simpa [hu] using h
      simp only [hu, hdef]
      exact ⟨rfl, Module.modifyFunction_eraseDef hf hdef⟩

theorem removed_le_foldl_step (q : CastQueue) (d : Dropped) :
    d.removed ≤ (q.foldl step d).removed := by
  induction q generalizing d with
  | nil => exact Nat.le_refl _
  | cons e q ih =>
    refine Nat.le_trans ?_ (ih (d.step e))
    by_cases h : d.module.isStray e = true
    · rw [removed_step_of_isStray h]
      exact Nat.le_succ _
    · rw [(step_of_not_isStray h).1]

theorem removed_foldl_step_eq_iff (q : CastQueue) (d : Dropped) :
    (q.foldl step d).removed = d.removed ↔ ∀ e ∈ q, ¬ d.module.isStray e = true := by
  induction q generalizing d with
  | nil => simp
  | cons e q ih =>
    rw [List.foldl_cons, List.forall_mem_cons]
    by_cases h : d.module.isStray e = true
    · have hle := removed_le_foldl_step q (d.step e)
      rw [removed_step_of_isStray h] at hle
      constructor
      · intro heq
        omega
      · rintro ⟨hnot, -⟩
        exact absurd h hnot
    · obtain ⟨hremoved, hmodule⟩ := step_of_not_isStray h
      rw [← hremoved, ih, hmodule, and_iff_right h]

end Dropped

/-- Draining a queue removes nothing exactly if none of its casts is a stray. -/
theorem Module.removed_dropCasts_eq_zero_iff (m : Module) (q : CastQueue) :
    (m.dropCasts q).removed = 0 ↔ ∀ e ∈ q, ¬ m.isStray e = true :=
  Dropped.removed_foldl_step_eq_iff q ⟨m, 0, []⟩

end KernelIR

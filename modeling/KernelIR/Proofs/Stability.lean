import KernelIR.Proofs.Addresses
import KernelIR.Proofs.Verdicts

/-!
# What is seen of a call while others are lowered

A step of a lowering changes what is seen of no call but the one that it replaces.  The functions
have to be well-formed and may take addresses of functions outside the families only
(`Module.Orderly`).  Then every value that an instruction works on looks the same after the step
(`Module.sight_eq`).  So a replacement takes one call out of the calls that are seen
(`Orderly.perm_views_after`), and the other steps take none.
-/

namespace KernelIR

/-! ### Temporaries under an edit -/

namespace Function

/-- The pointer that the temporary is a cast of. -/
def castSource? (f : Function) (t : TempId) : Option Value :=
  match f.findDef? t with
  | some (.cast _ source ty) => if ty.isPtr then some source else none
  | _ => none

/-- The pointer behind a cast is an operand of that cast. -/
theorem exists_of_castSource? {f : Function} {t : TempId} {v : Value}
    (h : f.castSource? t = some v) : ∃ i ∈ f.instructions, v ∈ i.data := by
  unfold castSource? at h
  split at h
  · next source ty hdef =>
    split at h
    · obtain rfl := Option.some.inj h
      exact ⟨_, List.mem_of_find?_eq_some hdef, List.mem_singleton_self _⟩
    · cases h
  · cases h

/-- Some instruction of the function reads the temporary. -/
def Reads (f : Function) (t : TempId) : Prop := ∃ i ∈ f.instructions, t ∈ i.reads

/-- Every temporary that `f` reads is in `f'`, after the renaming, of the same type, and a cast of
the same pointer if it is a cast at all. -/
structure SeesSame (f : Function) (r : Option (TempId × TempId)) (f' : Function) : Prop where
  ty : ∀ t, f.Reads t → f'.tempType? (renameTemp r t) = f.tempType? t
  source : ∀ t, f.Reads t →
    f'.castSource? (renameTemp r t) = (f.castSource? t).map (Value.rename r)

variable {f f' : Function} {x : Instruction} {r : Option (TempId × TempId)}
  {code : List Instruction} {t : TempId}

theorem SeesSame.refl (f : Function) : f.SeesSame none f where
  ty _ _ := rfl
  source t _ := by
    show f.castSource? t = _
    cases f.castSource? t with
    | none => rfl
    | some v => cases v <;> rfl

/-- The definitions of a temporary that the replaced instruction and the code do not define. -/
theorem ReplacedBy.findDef?_map (h : f.ReplacedBy x r code f') (hx : x.result? ≠ some t)
    (hcode : t ∉ defined code) : f'.findDef? t = (f.findDef? t).map (·.rename r) := by
  cases hdef : f.findDef? t with
  | some i =>
    refine h.findDef?_eq hdef (fun hi => hx ?_) hcode
    rw [hi]
    simpa using List.find?_some hdef
  | none =>
    obtain ⟨pre, post, hf, hf'⟩ := h.exists_instructions
    rw [findDef?, List.find?_eq_none, hf] at hdef
    rw [Option.map_none, findDef?, List.find?_eq_none, hf']
    intro i hi hit
    simp only [List.mem_append, List.mem_map] at hi
    rcases hi with (⟨j, hj, rfl⟩ | hi) | ⟨j, hj, rfl⟩
    · exact hdef j (by simp [hj]) (by simpa using hit)
    · exact hcode (List.mem_filterMap.2 ⟨i, hi, by simpa using hit⟩)
    · exact hdef j (by simp [hj]) (by simpa using hit)

theorem tempType?_eq (hparams : f'.params = f.params)
    (hdef : f'.findDef? t = (f.findDef? t).map (·.rename r)) : f'.tempType? t = f.tempType? t := by
  unfold tempType?
  rw [hparams, hdef]
  cases f.params.find? (·.1 == t) with
  | some p => rfl
  | none =>
    cases f.findDef? t with
    | none => rfl
    | some i => simp [Instruction.rename_eq_mapOperands]

theorem castSource?_eq (hdef : f'.findDef? t = (f.findDef? t).map (·.rename r)) :
    f'.castSource? t = (f.castSource? t).map (Value.rename r) := by
  unfold castSource?
  rw [hdef]
  cases f.findDef? t with
  | none => rfl
  | some i =>
    rw [Option.map_some, Instruction.rename_eq_mapOperands]
    cases i with
    | cast result source ty =>
      simp only [Instruction.mapOperands]
      split <;> rfl
    | _ => rfl

/-- Whatever is read and is not the result of the replaced instruction looks the same after an edit
that defines new temporaries only. -/
theorem SeesSame.of_replacedBy (hf : f.WellFormed) (h : f.ReplacedBy x r code f')
    (hcode : ∀ u ∈ defined code, u ∉ f.tempIds)
    (hkeeps : ∀ t, x.result? ≠ some t → renameTemp r t = t)
    (hx : ∀ t, f.Reads t → x.result? = some t → f'.tempType? (renameTemp r t) = f.tempType? t ∧
      f'.castSource? (renameTemp r t) = (f.castSource? t).map (Value.rename r)) :
    f.SeesSame r f' := by
  have hsame : ∀ t, f.Reads t → f'.tempType? (renameTemp r t) = f.tempType? t ∧
      f'.castSource? (renameTemp r t) = (f.castSource? t).map (Value.rename r) := by
    rintro t ⟨i, hi, ht⟩
    by_cases hxt : x.result? = some t
    · exact hx t ⟨i, hi, ht⟩ hxt
    · have hdef := h.findDef?_map hxt fun hmem => hcode t hmem (hf.reads.mem_of_reads hi ht)
      rw [hkeeps t hxt]
      exact ⟨tempType?_eq (params_of_skeleton_eq h.skeleton) hdef, castSource?_eq hdef⟩
  exact ⟨fun t ht => (hsame t ht).1, fun t ht => (hsame t ht).2⟩

/-- The result of an instruction is defined by it, and is no parameter. -/
theorem WellFormed.findDef?_result (hf : f.WellFormed) (hx : x ∈ f.instructions)
    (ht : x.result? = some t) :
    f.findDef? t = some x ∧ f.params.find? (·.1 == t) = none := by
  obtain ⟨pre, post, hsplit⟩ := List.append_of_mem hx
  refine ⟨findDef?_of_nodup hf.nodup hx ht, List.find?_eq_none.2 fun p hp hpt => ?_⟩
  refine result?_ne_of_mem_before hf.nodup hsplit (List.mem_append_left _ ?_) ht
  exact List.mem_map.2 ⟨p, hp, by simpa using hpt⟩

/-- A new temporary is defined by the code. -/
theorem ReplacedBy.exists_findDef? (h : f.ReplacedBy x r code f') (hcode : t ∈ defined code)
    (hnew : t ∉ f.tempIds) : ∃ i ∈ code, f'.findDef? t = some i := by
  obtain ⟨pre, post, hf, hf'⟩ := h.exists_instructions
  have hpre : (pre.map (·.rename r)).find? (·.result? == some t) = none := by
    refine List.find?_eq_none.2 fun i hi hit => hnew (List.mem_append_right _ ?_)
    obtain ⟨j, hj, rfl⟩ := List.mem_map.1 hi
    exact List.mem_filterMap.2 ⟨j, by simp [hf, hj], by simpa using hit⟩
  obtain ⟨j, hj, hjt⟩ := List.mem_filterMap.1 hcode
  obtain ⟨i, hi⟩ := Option.isSome_iff_exists.1
    (List.find?_isSome (p := fun i => i.result? == some t) |>.2 ⟨j, hj, by simp [hjt]⟩)
  refine ⟨i, List.mem_of_find?_eq_some hi, ?_⟩
  rw [findDef?, hf', List.append_assoc, List.find?_append, hpre, Option.none_or, List.find?_append,
    hi, Option.some_or]

/-- The result of an instruction that is no cast looks like the new temporary that is read in its
place. -/
theorem ReplacedBy.seesSame_result (hf : f.WellFormed) (h : f.ReplacedBy x r code f')
    (ht : x.result? = some t) (hx : ∀ value ty, x ≠ .cast t value ty)
    (hnew : renameTemp r t ∈ defined code) (hfresh : renameTemp r t ∉ f.tempIds)
    (hcode : ∀ i ∈ code, i.resultType? = x.resultType? ∧ ∀ u value ty, i ≠ .cast u value ty) :
    f'.tempType? (renameTemp r t) = f.tempType? t ∧
      f'.castSource? (renameTemp r t) = (f.castSource? t).map (Value.rename r) := by
  obtain ⟨pre, post, hsplit, -⟩ := h.exists_instructions
  obtain ⟨hdef, hparam⟩ := hf.findDef?_result (by simp [hsplit]) ht
  obtain ⟨i, hi, hdef'⟩ := h.exists_findDef? hnew hfresh
  obtain ⟨hty, hcast⟩ := hcode i hi
  have hparam' : f'.params.find? (·.1 == renameTemp r t) = none := by
    rw [params_of_skeleton_eq h.skeleton]
    refine List.find?_eq_none.2 fun p hp hpt => hfresh (List.mem_append_left _ ?_)
    exact List.mem_map.2 ⟨p, hp, by simpa using hpt⟩
  constructor
  · rw [tempType?, tempType?, hparam, hparam', hdef, hdef']
    exact hty
  · have hsource : f.castSource? t = none := by
      rw [castSource?, hdef]
      cases x with
      | cast u value ty =>
        obtain rfl : u = t := Option.some.inj ht
        exact absurd rfl (hx value ty)
      | _ => rfl
    have hsource' : f'.castSource? (renameTemp r t) = none := by
      rw [castSource?, hdef']
      cases i with
      | cast u value ty => exact absurd rfl (hcast u value ty)
      | _ => rfl
    rw [hsource, hsource', Option.map_none]

end Function

/-! ### Values under an edit -/

theorem Instruction.data_subset_operands {i : Instruction} {v : Value} (hv : v ∈ i.data) :
    v ∈ i.operands := by
  cases i with
  | call result function args ty align => exact List.mem_cons_of_mem _ hv
  | _ => exact hv

namespace Module

/-- The module knows the same global variables, and its functions outside the families by the same
types. -/
structure Agrees (m m' : Module) : Prop where
  globals : m'.globals = m.globals
  ty : ∀ g ∈ m.functions, Family.of? g.name = none →
    (m'.function? g.name).map Function.ty = (m.function? g.name).map Function.ty

/-- The function takes addresses of functions of the module that are in no family. -/
def KnowsAddresses (m : Module) (f : Function) : Prop :=
  ∀ i ∈ f.instructions, ∀ n ∈ i.addresses, Family.of? n = none ∧ ∃ g ∈ m.functions, g.name = n

instance (m : Module) (f : Function) : Decidable (m.KnowsAddresses f) :=
  inferInstanceAs (Decidable (∀ i ∈ f.instructions, ∀ n ∈ i.addresses,
    Family.of? n = none ∧ ∃ g ∈ m.functions, g.name = n))

/-- What is seen of the pointer behind a value. -/
theorem map_reinterpretation? (m : Module) (f : Function) (v : Value) :
    (m.reinterpretation? f v).map (·.pointee) =
      ((v.temp?.bind f.castSource?).bind (m.valueType? f)).bind Ty.pointee? := by
  cases v with
  | temp t =>
    show Option.map _ ((f.findDef? t).bind _) = ((f.castSource? t).bind _).bind _
    unfold Function.castSource?
    cases f.findDef? t with
    | none => rfl
    | some i =>
      cases i with
      | cast result source ty =>
        simp only [Option.bind_some]
        by_cases hty : ty.isPtr
        · simp only [if_pos hty, Option.bind_some]
          show Option.map _ ((m.valueType? f source).bind _) = (m.valueType? f source).bind _
          cases m.valueType? f source with
          | none => rfl
          | some sourceTy =>
            show Option.map _ (sourceTy.pointee?.bind _) = sourceTy.pointee?
            cases sourceTy.pointee? <;> rfl
        · simp only [if_neg hty]
          rfl
      | _ => rfl
  | const | zero | global | function | undef => rfl

section Sight

variable {m m' : Module} {f f' : Function} {r : Option (TempId × TempId)}

theorem valueType?_eq (hm : m.Agrees m') (hf : f.SeesSame r f') (haddr : m.KnowsAddresses f)
    {i : Instruction} (hi : i ∈ f.instructions) {v : Value} (hv : v ∈ i.data) :
    m'.valueType? f' (v.rename r) = m.valueType? f v := by
  cases v with
  | temp t =>
    exact hf.ty t ⟨i, hi, Instruction.mem_reads.2 ⟨_, Instruction.data_subset_operands hv, rfl⟩⟩
  | global n =>
    show (m'.global? n).map _ = (m.global? n).map _
    rw [global?, global?, hm.globals]
  | function n =>
    obtain ⟨hn, g, hg, rfl⟩ := haddr i hi n (List.mem_filterMap.2 ⟨_, hv, rfl⟩)
    have hty := congrArg (Option.map Ty.ptr) (hm.ty g hg hn)
    rwa [Option.map_map, Option.map_map] at hty
  | const | zero | undef => rfl

/-- **An edit changes nothing about how a value looks.** -/
theorem sight_eq (hm : m.Agrees m') (hf : f.SeesSame r f') (haddr : m.KnowsAddresses f)
    {i : Instruction} (hi : i ∈ f.instructions) {v : Value} (hv : v ∈ i.data) :
    m'.sight f' (v.rename r) = m.sight f v := by
  have hbehind : ((v.rename r).temp?.bind f'.castSource?).bind (m'.valueType? f') =
      (v.temp?.bind f.castSource?).bind (m.valueType? f) := by
    cases v with
    | temp t =>
      show (f'.castSource? (renameTemp r t)).bind _ = (f.castSource? t).bind _
      rw [hf.source t
        ⟨i, hi, Instruction.mem_reads.2 ⟨_, Instruction.data_subset_operands hv, rfl⟩⟩]
      cases hsource : f.castSource? t with
      | none => rfl
      | some source =>
        obtain ⟨j, hj, hmem⟩ := Function.exists_of_castSource? hsource
        exact valueType?_eq hm hf haddr hj hmem
    | const | zero | global | function | undef => rfl
  have hcount : (v.rename r).count? = v.count? := by cases v <;> rfl
  have hzero : ZeroFill.isZero (v.rename r) = ZeroFill.isZero v := by cases v <;> rfl
  rw [sight, sight, valueType?_eq hm hf haddr hi hv, map_reinterpretation?, map_reinterpretation?,
    hbehind, hcount, hzero]

end Sight

/-! ### Functions known by their types -/

section Table

variable {m m' : Module}

theorem map_find?_name (fs : List Function) (n : String) :
    (fs.find? (·.name == n)).map Function.ty =
      ((fs.map fun f => (f.name, f.ty)).find? (·.1 == n)).map (·.2) := by
  rw [List.find?_map, Option.map_map]
  rfl

/-- Changing the body of one function, and adding functions after all. -/
theorem Agrees.of_set {n : Nat} {f f' : Function} {added : List Function}
    (hglobals : m'.globals = m.globals) (hf : m.functions[n]? = some f)
    (hskeleton : f'.skeleton = f.skeleton)
    (hfunctions : m'.functions = m.functions.set n f' ++ added) : m.Agrees m' where
  globals := hglobals
  ty g hg _ := by
    have hentry : (f'.name, f'.ty) = (f.name, f.ty) := by
      have hreturn : f'.skeleton.returnType = f.skeleton.returnType := by rw [hskeleton]
      have hvariadic : f'.skeleton.variadic = f.skeleton.variadic := by rw [hskeleton]
      rw [Function.ty, Function.ty, Function.name_of_skeleton_eq hskeleton,
        Function.params_of_skeleton_eq hskeleton]
      exact congrArg₂ (fun t v => (f.name, Ty.function t _ v)) hreturn hvariadic
    have htable := map_set_eq (v := fun f : Function => (f.name, f.ty)) hf hentry
    have hsame : ((m.functions.set n f').find? (·.name == g.name)).map Function.ty =
        (m.functions.find? (·.name == g.name)).map Function.ty := by
      rw [map_find?_name, map_find?_name, htable]
    obtain ⟨g', hg'⟩ := Option.isSome_iff_exists.1
      (List.find?_isSome (p := fun f => f.name == g.name) |>.2 ⟨g, hg, beq_self_eq_true _⟩)
    rw [hg'] at hsame
    obtain ⟨g'', hg'', -⟩ := Option.map_eq_some_iff.1 hsame
    rw [function?, function?, hfunctions, List.find?_append, hg', ← hsame, hg'']
    rfl

theorem Agrees.eraseFunction {n : String} {k : Family} (hk : Family.of? n = some k) :
    m.Agrees (m.eraseFunction n) where
  globals := rfl
  ty g _ hg := by
    have hne : ∀ f : Function, (f.name == n) = true → (f.name == g.name) = false := by
      intro f hf
      rw [beq_iff_eq.1 hf, beq_eq_false_iff_ne]
      rintro rfl
      exact nomatch hg.symm.trans hk
    rw [function?, function?, Module.eraseFunction, ← List.head?_filter, ← List.head?_filter,
      filter_eraseP hne]

end Table

end Module

/-! ### Views of the calls of a module -/

/-- What is seen of the instruction if it is a call of a family. -/
def Instruction.view (look : Value → Sight) : Instruction → Option CallView
  | .call _ function args ty align =>
    (function.function?.filter (Family.of? · |>.isSome)).map (⟨·, ty, align, args.map look⟩)
  | _ => none

theorem Instruction.view_eq_none {look : Value → Sight} {i : Instruction} (h : i.family? = none) :
    i.view look = none := by
  cases i with
  | call result function args ty align =>
    have hnone : function.function?.bind Family.of? = none := h
    show (function.function?.filter _).map _ = none
    cases hf : function.function? with
    | none => rfl
    | some n =>
      rw [hf, Option.bind_some] at hnone
      simp [hnone]
  | _ => rfl

theorem Instruction.view_rename {look look' : Value → Sight} {r : Option (TempId × TempId)}
    {i : Instruction} (h : ∀ v ∈ i.data, look' (v.rename r) = look v) :
    (i.rename r).view look' = i.view look := by
  rw [rename_eq_mapOperands]
  cases i with
  | call result function args ty align =>
    have hfunction : (function.rename r).function? = function.function? := by cases function <;> rfl
    have hargs : (args.map (Value.rename r)).map look' = args.map look := by
      rw [List.map_map]
      exact List.map_congr_left h
    simp only [mapOperands, view, hfunction, hargs]
  | _ => rfl

namespace Module

/-- What is seen of the calls of the families in a function. -/
def viewsIn (m : Module) (f : Function) : List CallView :=
  f.instructions.filterMap (·.view (m.sight f))

/-- What is seen of the calls of the families. -/
def views (m : Module) : List CallView := m.functions.flatMap m.viewsIn

section Views

variable {m m' : Module} {f f' : Function} {r : Option (TempId × TempId)}
  {code : List Instruction} {x : Instruction}

theorem filterMap_view_rename (hm : m.Agrees m') (hf : f.SeesSame r f') (haddr : m.KnowsAddresses f)
    {is : List Instruction} (his : ∀ i ∈ is, i ∈ f.instructions) :
    (is.map (·.rename r)).filterMap (·.view (m'.sight f')) =
      is.filterMap (·.view (m.sight f)) := by
  rw [List.filterMap_map]
  refine List.filterMap_congr fun i hi => Instruction.view_rename fun v hv => ?_
  exact sight_eq hm hf haddr (his i hi) hv

/-- A function that is not edited. -/
theorem viewsIn_eq (hm : m.Agrees m') (haddr : m.KnowsAddresses f) :
    m'.viewsIn f = m.viewsIn f := by
  have hsame := filterMap_view_rename hm (.refl f) haddr fun i hi => hi
  have hself : f.instructions.map (·.rename none) = f.instructions := List.map_id _
  rwa [hself] at hsame

theorem views_eq (hm : m.Agrees m') (haddr : ∀ g ∈ m.functions, m.KnowsAddresses g)
    (hsub : ∀ g ∈ m'.functions, g ∈ m.functions)
    (hsame : m'.functions.flatMap m.viewsIn = m.functions.flatMap m.viewsIn) :
    m'.views = m.views := by
  rw [views, views, ← hsame]
  exact List.flatMap_congr fun g hg => viewsIn_eq hm (haddr g (hsub g hg))

/-- An edit takes away the view of the replaced instruction. -/
theorem viewsIn_replacedBy (hm : m.Agrees m') (hf : f.SeesSame r f') (haddr : m.KnowsAddresses f)
    (h : f.ReplacedBy x r code f') (hcode : ∀ i ∈ code, i.family? = none) :
    (m.viewsIn f).Perm ((x.view (m.sight f)).toList ++ m'.viewsIn f') := by
  obtain ⟨pre, post, hsplit, hsplit'⟩ := h.exists_instructions
  have hnone : code.filterMap (·.view (m'.sight f')) = [] :=
    List.filterMap_eq_nil_iff.2 fun i hi => Instruction.view_eq_none (hcode i hi)
  have hx : (x :: post).filterMap (·.view (m.sight f)) =
      (x.view (m.sight f)).toList ++ post.filterMap (·.view (m.sight f)) := by
    cases hview : x.view (m.sight f) <;> simp [hview]
  rw [viewsIn, viewsIn, hsplit', hsplit, List.filterMap_append, List.filterMap_append,
    List.filterMap_append, hnone, List.append_nil, hx,
    filterMap_view_rename hm hf haddr fun i hi => by simp [hsplit, hi],
    filterMap_view_rename hm hf haddr fun i hi => by simp [hsplit, hi]]
  exact List.perm_append_comm_assoc _ _ _

/-- Editing one function and adding declarations after all takes away the view of the replaced
instruction. -/
theorem perm_views (hm : m.Agrees m') (haddr : ∀ g ∈ m.functions, m.KnowsAddresses g) {n : Nat}
    (hn : m.functions[n]? = some f) (hf : f.SeesSame r f') (h : f.ReplacedBy x r code f')
    (hcode : ∀ i ∈ code, i.family? = none) {added : List Function}
    (hadded : ∀ g ∈ added, g.blocks = [])
    (hfunctions : m'.functions = m.functions.set n f' ++ added) :
    m.views.Perm ((x.view (m.sight f)).toList ++ m'.views) := by
  obtain ⟨fs₁, fs₂, hfs, hlen⟩ := exists_append_of_getElem? hn
  have hset : m.functions.set n f' = fs₁ ++ f' :: fs₂ := by
    rw [List.set_eq_modify, hfs, modify_append_cons _ hlen]
  have hothers : ∀ gs : List Function, (∀ g ∈ gs, g ∈ m.functions) →
      gs.flatMap m'.viewsIn = gs.flatMap m.viewsIn := by
    intro gs hgs
    exact List.flatMap_congr fun g hg => viewsIn_eq hm (haddr g (hgs g hg))
  have hnew : added.flatMap m'.viewsIn = [] :=
    List.flatMap_eq_nil_iff.2 fun g hg => by simp [viewsIn, Function.instructions, hadded g hg]
  rw [views, views, hfunctions, hset, List.flatMap_append, hnew, List.append_nil, hfs,
    List.flatMap_append, List.flatMap_append, List.flatMap_cons, List.flatMap_cons,
    hothers fs₁ fun g hg => by simp [hfs, hg], hothers fs₂ fun g hg => by simp [hfs, hg]]
  have hedit := viewsIn_replacedBy hm hf (haddr f (List.mem_of_getElem? hn)) h hcode
  refine ((hedit.append_right _).append_left _).trans ?_
  rw [List.append_assoc]
  exact List.perm_append_comm_assoc _ _ _

end Views

/-! ### Orderly modules -/

theorem KnowsAddresses.of_keeps {m : Module} {f f' : Function} (h : m.KnowsAddresses f)
    (hff' : f.KeepsAddresses f') : m.KnowsAddresses f' := by
  intro i hi n hn
  obtain ⟨j, hj, hn⟩ := addressCount_pos_iff.1 (Nat.lt_of_lt_of_le
    (addressCount_pos_iff.2 ⟨i, hi, hn⟩) (hff'.addresses n))
  exact h j hj n hn

theorem KnowsAddresses.of_names {m m' : Module} {f : Function} (h : m.KnowsAddresses f)
    (hnames : ∀ g ∈ m.functions, Family.of? g.name = none → ∃ g' ∈ m'.functions, g'.name = g.name) :
    m'.KnowsAddresses f := by
  intro i hi n hn
  obtain ⟨hnone, g, hg, rfl⟩ := h i hi n hn
  exact ⟨hnone, hnames g hg hnone⟩

theorem knowsAddresses_of_blocks_eq_nil {m : Module} {f : Function} (h : f.blocks = []) :
    m.KnowsAddresses f := by
  intro i hi
  simp [Function.instructions, h] at hi

/-- The module is well-formed, has no bodies in the families, and takes addresses of its functions
outside the families only. -/
structure Orderly (m : Module) : Prop where
  wellFormed : m.WellFormed
  declarations : ∀ f ∈ m.functions, (Family.of? f.name).isSome → f.blocks = []
  addresses : ∀ f ∈ m.functions, m.KnowsAddresses f

namespace Orderly

variable {s : Settings} {l : Lowering} {v : Visit} {m : Module} {q : CastQueue} {e : Nat × TempId}

/-- The function of a call belongs to no family. -/
theorem caller_not_family (hv : v.Of l) (h : v.module.Orderly) :
    ¬ (Family.of? v.call.caller.name).isSome := by
  intro hk
  have hmem := hv.instruction_mem
  simp [Function.instructions, h.declarations _ hv.caller_mem hk] at hmem

theorem after (hl : l ∈ s.lowerings) (hv : v.Of l) (h : v.module.Orderly) : v.after.Orderly := by
  have hkeeps : v.call.caller.KeepsAddresses v.rewritten := .of_visit hl hv
  have hnames : ∀ g ∈ v.module.functions, Family.of? g.name = none →
      ∃ g' ∈ v.after.functions, g'.name = g.name := by
    intro g hg _
    refine List.mem_map.1 ?_
    rw [hv.names_after]
    exact List.mem_append_left _ (List.mem_map_of_mem hg)
  refine ⟨h.wellFormed.after hl hv, fun g hg hk => ?_, fun g hg => ?_⟩
  · rcases hv.mem_functions_after hg with hg | rfl | hg
    · exact h.declarations g hg hk
    · rw [Function.name_of_skeleton_eq hkeeps.skeleton] at hk
      exact absurd hk (h.caller_not_family hv)
    · exact Settings.blocks_of_declared hl hv.replace hg
  · rcases hv.mem_functions_after hg with hg | rfl | hg
    · exact (h.addresses g hg).of_names hnames
    · exact ((h.addresses _ hv.caller_mem).of_keeps hkeeps).of_names hnames
    · exact knowsAddresses_of_blocks_eq_nil (Settings.blocks_of_declared hl hv.replace hg)

theorem dropCast (hq : m.CastsQueued (e :: q)) (h : m.Orderly) : (m.dropCast e).Orderly := by
  have hnames : ∀ g ∈ m.functions, Family.of? g.name = none →
      ∃ g' ∈ (m.dropCast e).functions, g'.name = g.name := by
    intro g hg _
    refine List.mem_map.1 ?_
    rw [names_dropCast]
    exact List.mem_map_of_mem hg
  -- every function is one of before with no more addresses
  have hold : ∀ g ∈ (m.dropCast e).functions, ∃ f ∈ m.functions, f.KeepsAddresses g := by
    intro g hg
    rcases hq.functions_dropCast with hsame | ⟨f, value, ty, hf, -, hedit, hset⟩
    · exact ⟨g, hsame ▸ hg, .refl g⟩
    · rw [hset] at hg
      rcases List.mem_or_eq_of_mem_set hg with hg | rfl
      · exact ⟨g, hg, .refl g⟩
      · exact ⟨f, List.mem_of_getElem? hf, .of_dropped hedit⟩
  refine ⟨h.wellFormed.dropCast e, fun g hg hk => ?_, fun g hg => ?_⟩
  · obtain ⟨f, hf, hfg⟩ := hold g hg
    rw [Function.name_of_skeleton_eq hfg.skeleton] at hk
    have hblocks := congrArg Function.blocks hfg.skeleton
    simpa [Function.skeleton, h.declarations f hf hk] using hblocks
  · obtain ⟨f, hf, hfg⟩ := hold g hg
    exact ((h.addresses f hf).of_keeps hfg).of_names hnames

theorem eraseFunction {n : String} {k : Family} (hk : Family.of? n = some k) (h : m.Orderly) :
    (m.eraseFunction n).Orderly := by
  refine ⟨h.wellFormed.eraseFunction n, fun g hg => ?_, fun g hg => ?_⟩
  · exact h.declarations g (List.mem_of_mem_eraseP hg)
  · refine (h.addresses g (List.mem_of_mem_eraseP hg)).of_names fun g' hg' hnone => ?_
    have hne : ¬ (g'.name == n) = true := by
      intro heq
      rw [beq_iff_eq.1 heq, hk] at hnone
      cases hnone
    exact ⟨g', (List.mem_eraseP_of_neg (p := fun f : Function => f.name == n) hne).2 hg', rfl⟩

/-! ### One step -/

/-- What replaces a funnel shift has the type of the call all through. -/
theorem resultType?_of_mem_code (hl : l ∈ s.lowerings) (hv : v.Of l)
    (hfamily : l.family = .funnelShift) {i : Instruction} (hi : i ∈ v.replacement.code) :
    i.resultType? = some v.call.ty := by
  obtain rfl := s.eq_funnelShift hl hfamily
  obtain ⟨shift, base, hshift, -, heq⟩ := FunnelShift.replace_eq_ok.1 hv.replace
  rw [(FunnelShift.ofCall_eq_ok hshift).2.1]
  rw [heq] at hi
  simp only [FunnelShift.code, List.mem_cons, List.not_mem_nil, or_false] at hi
  rcases hi with rfl | rfl | rfl | rfl | rfl <;> rfl

/-- Everything that the function of a visited call reads looks the same in what became of it. -/
theorem seesSame (hl : l ∈ s.lowerings) (hv : v.Of l) (h : v.module.Orderly) :
    v.call.caller.SeesSame v.replacement.renamed v.rewritten := by
  obtain ⟨hwf, heffect⟩ := h.wellFormed _ hv.caller_mem
  obtain ⟨pre, post, hsplit, -⟩ := hv.replacedBy.exists_instructions
  have hresult : l.family ≠ .funnelShift → v.call.result = none :=
    heffect v.call.instruction hv.instruction_mem l.family hv.family
  have hfits := Lowering.fitsCalls_lowerings hl hv.replace hwf hsplit hresult
  refine .of_replacedBy hwf hv.replacedBy hfits.fresh hfits.keeps fun t _ ht => ?_
  have hshift : l.family = .funnelShift := by
    by_contra hne
    have hnone : v.call.instruction.result? = none := hresult hne
    exact nomatch hnone.symm.trans ht
  refine hv.replacedBy.seesSame_result hwf ht (fun _ _ hcast => (nomatch hcast)) (hfits.moves t ht)
    (hfits.fresh _ (hfits.moves t ht)) fun i hi => ⟨?_, fun u value ty hcast => ?_⟩
  · have hcall : v.call.result = some t := ht
    rw [resultType?_of_mem_code hl hv hshift hi, Call.instruction, hcall]
    rfl
  · have hemitted := s.emitted_of_mem_code hl hv.replace hi
    rw [hcast] at hemitted
    cases hemitted

theorem perm_views_after (hbase : Family.of? (s.copyBase ++ ".") = none) (hl : l ∈ s.lowerings)
    (hv : v.Of l) (h : v.module.Orderly) :
    v.module.views.Perm (v.module.callView v.call :: v.after.views) := by
  have hagrees : v.module.Agrees v.after :=
    .of_set (sameGround_replaceCall ..).globals hv.function hv.replacedBy.skeleton
      hv.functions_after
  have hcode : ∀ i ∈ v.replacement.code, i.family? = none := by
    intro i hi
    have hkept := (s.emitted_of_mem_code hl hv.replace hi).not_isRemovable hbase
    by_contra hfamily
    obtain ⟨k, hk⟩ := Option.ne_none_iff_exists'.1 hfamily
    exact Bool.false_ne_true (hkept.symm.trans (Instruction.isRemovable_of_family? hk))
  have hadded : ∀ g ∈ v.replacement.declared.toList, g.blocks = [] := fun g hg =>
    Settings.blocks_of_declared hl hv.replace (Option.mem_toList.1 hg)
  have hperm := perm_views hagrees h.addresses hv.function (h.seesSame hl hv) hv.replacedBy hcode
    hadded hv.functions_after
  have hview : v.call.instruction.view (v.module.sight v.call.caller) =
      some (v.module.callView v.call) := by
    simp [Call.instruction, Instruction.view, Value.function?, hv.family, Module.callView]
  rwa [hview] at hperm

theorem perm_views_dropCast (hq : m.CastsQueued (e :: q)) (h : m.Orderly) :
    m.views.Perm (m.dropCast e).views := by
  have hglobals := (sameGround_dropCast m e).globals
  rcases hq.functions_dropCast with hsame | ⟨f, value, ty, hf, hu, hedit, hset⟩
  · have hagrees : m.Agrees (m.dropCast e) := ⟨hglobals, fun g _ _ => by
      rw [function?, function?, hsame]⟩
    rw [views_eq hagrees h.addresses (fun g hg => hsame ▸ hg) (by rw [hsame])]
  · have hset' : (m.dropCast e).functions = m.functions.set e.1 (f.eraseDef e.2) ++ [] := by
      rw [hset, List.append_nil]
    have hwf := (h.wellFormed f (List.mem_of_getElem? hf)).1
    have hsees : f.SeesSame none (f.eraseDef e.2) := by
      refine .of_replacedBy hwf hedit (List.forall_mem_nil _) (fun _ _ => rfl) ?_
      intro t hread ht
      obtain rfl : e.2 = t := Option.some.inj ht
      obtain ⟨i, hi, hread⟩ := hread
      exact absurd hread (Function.not_mem_reads_of_hasUsers hu hi)
    exact perm_views (.of_set hglobals hf hedit.skeleton hset') h.addresses hf hsees hedit
      (List.forall_mem_nil _) (List.forall_mem_nil _) hset'

theorem views_eraseFunction {n : String} {k : Family} (hk : Family.of? n = some k)
    (h : m.Orderly) : (m.eraseFunction n).views = m.views := by
  refine views_eq (.eraseFunction hk) h.addresses (fun g hg => List.mem_of_mem_eraseP hg) ?_
  rcases List.exists_or_eq_self_of_eraseP (·.name == n) m.functions with
    heq | ⟨f, fs₁, fs₂, -, hf, hsplit, heq⟩
  · rw [Module.eraseFunction, heq]
  · have hblocks : f.blocks = [] := by
      refine h.declarations f (by simp [hsplit]) ?_
      rw [beq_iff_eq.1 hf, hk]
      rfl
    have hnone : m.viewsIn f = [] := by simp [viewsIn, Function.instructions, hblocks]
    rw [Module.eraseFunction, heq, hsplit, List.flatMap_append, List.flatMap_append,
      List.flatMap_cons, hnone, List.nil_append]

end Orderly

end Module

end KernelIR

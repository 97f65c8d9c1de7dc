import KernelIR.Proofs.Splicing

/-!
# Well-formed functions

In a well-formed function no two parameters or results share a number, and an instruction reads
only parameters and results of instructions before it.  Code that takes the place of an instruction
keeps this if its results have numbers of their own and what read the old result reads one of them
(`WellFormed.replace`).
-/

namespace KernelIR

/-! ### Renaming, temporary by temporary -/

/-- The temporary that is read after the renaming where `t` was read before. -/
def renameTemp : Option (TempId × TempId) → TempId → TempId
  | some (old, new), t => if t = old then new else t
  | none, t => t

@[simp] theorem renameTemp_self (old new : TempId) : renameTemp (some (old, new)) old = new :=
  if_pos rfl

theorem renameTemp_of_ne {old new t : TempId} (h : t ≠ old) :
    renameTemp (some (old, new)) t = t :=
  if_neg h

/-- The operand after the renaming. -/
def Value.rename (r : Option (TempId × TempId)) : Value → Value
  | .temp t => .temp (renameTemp r t)
  | v => v

namespace Instruction

/-- The temporaries that the instruction reads. -/
def reads (i : Instruction) : List TempId := i.operands.filterMap (·.temp?)

theorem mem_reads {i : Instruction} {t : TempId} :
    t ∈ i.reads ↔ ∃ v ∈ i.operands, v.temp? = some t :=
  List.mem_filterMap

theorem mem_reads_binary {result t : TempId} {op : BinOp} {lhs rhs : Value} {ty : Ty} :
    t ∈ (binary result op lhs rhs ty).reads ↔ lhs.temp? = some t ∨ rhs.temp? = some t := by
  simp [mem_reads, operands]

theorem mapOperands_congr {g h : Value → Value} {i : Instruction}
    (hgh : ∀ v ∈ i.operands, g v = h v) : i.mapOperands g = i.mapOperands h := by
  cases i with
  | binary result op lhs rhs ty => simp_all [operands, mapOperands]
  | call result function args ty align =>
    have hargs : args.map g = args.map h :=
      List.map_congr_left fun v hv => hgh v (List.mem_cons_of_mem _ hv)
    simp [mapOperands, hargs, hgh function (List.mem_cons_self ..)]
  | elementPtr result ptr indices ty =>
    have hindices : indices.map g = indices.map h :=
      List.map_congr_left fun v hv => hgh v (List.mem_cons_of_mem _ hv)
    simp [mapOperands, hindices, hgh ptr (List.mem_cons_self ..)]
  | ret value => cases value <;> simp_all [operands, mapOperands]
  | _ => simp_all [operands, mapOperands]

theorem mapOperands_id (i : Instruction) : i.mapOperands id = i := by
  cases i with
  | ret value => cases value <;> rfl
  | _ => simp [mapOperands]

theorem mapOperands_mapOperands (g h : Value → Value) (i : Instruction) :
    (i.mapOperands g).mapOperands h = i.mapOperands (h ∘ g) := by
  cases i with
  | ret value => cases value <;> rfl
  | _ => simp [mapOperands]

theorem rename_eq_mapOperands (r : Option (TempId × TempId)) (i : Instruction) :
    i.rename r = i.mapOperands (Value.rename r) := by
  cases r with
  | none =>
    refine (mapOperands_id i).symm.trans (mapOperands_congr fun v _ => ?_)
    cases v <;> rfl
  | some p =>
    refine mapOperands_congr fun v _ => ?_
    cases v with
    | temp t => by_cases h : t = p.1 <;> simp [Value.subst, Value.rename, renameTemp, h]
    | _ => simp [Value.subst, Value.rename]

theorem reads_rename (r : Option (TempId × TempId)) (i : Instruction) :
    (i.rename r).reads = i.reads.map (renameTemp r) := by
  rw [rename_eq_mapOperands, reads, reads, operands_mapOperands, List.filterMap_map,
    List.map_filterMap]
  refine List.filterMap_congr fun v _ => ?_
  cases v <;> rfl

/-- An instruction that does not read the old temporary stays as it is. -/
theorem rename_eq_self {r : Option (TempId × TempId)} {i : Instruction}
    (h : ∀ t ∈ i.reads, renameTemp r t = t) : i.rename r = i := by
  rw [rename_eq_mapOperands]
  refine (mapOperands_congr fun v hv => ?_).trans (mapOperands_id i)
  cases v with
  | temp t => exact congrArg Value.temp (h t (mem_reads.2 ⟨_, hv, rfl⟩))
  | _ => rfl

end Instruction

/-! ### Definitions before uses -/

/-- The temporaries that the instructions define. -/
def defined (is : List Instruction) : List TempId := is.filterMap (·.result?)

/-- Whether every temporary that is read is one of `defs` or defined by an instruction before. -/
def ReadsDefined : List TempId → List Instruction → Prop
  | _, [] => True
  | defs, i :: is => (∀ t ∈ i.reads, t ∈ defs) ∧ ReadsDefined (defs ++ i.result?.toList) is

instance decidableReadsDefined :
    ∀ (defs : List TempId) (is : List Instruction), Decidable (ReadsDefined defs is)
  | _, [] => isTrue trivial
  | defs, i :: is =>
    have := decidableReadsDefined (defs ++ i.result?.toList) is
    have := List.decidableBAll (· ∈ defs) i.reads
    inferInstanceAs (Decidable ((∀ t ∈ i.reads, t ∈ defs) ∧ _))

@[simp] theorem defined_append (is js : List Instruction) :
    defined (is ++ js) = defined is ++ defined js :=
  List.filterMap_append

theorem defined_cons (i : Instruction) (is : List Instruction) :
    defined (i :: is) = i.result?.toList ++ defined is := by
  cases h : i.result? <;> simp [defined, h]

@[simp] theorem defined_map_rename (r : Option (TempId × TempId)) (is : List Instruction) :
    defined (is.map (·.rename r)) = defined is := by
  simp [defined, List.filterMap_map]

theorem readsDefined_append {defs : List TempId} {is js : List Instruction} :
    ReadsDefined defs (is ++ js) ↔ ReadsDefined defs is ∧ ReadsDefined (defs ++ defined is) js := by
  induction is generalizing defs with
  | nil => simp [ReadsDefined, defined]
  | cons i is ih =>
    rw [List.cons_append, ReadsDefined, ReadsDefined, ih, defined_cons, List.append_assoc,
      and_assoc]

/-- A renaming that keeps the results of the instructions, and sends what was defined before them
to what is defined before them now. -/
theorem ReadsDefined.rename {r : Option (TempId × TempId)} {defs defs' : List TempId}
    {is : List Instruction} (h : ReadsDefined defs is)
    (hdefs : ∀ t ∈ defs, renameTemp r t ∈ defs') (his : ∀ t ∈ defined is, renameTemp r t = t) :
    ReadsDefined defs' (is.map (·.rename r)) := by
  induction is generalizing defs defs' with
  | nil => trivial
  | cons i is ih =>
    obtain ⟨hi, h⟩ := h
    rw [defined_cons] at his
    refine ⟨fun t ht => ?_, ih h (fun t ht => ?_) fun t ht => his t (List.mem_append_right _ ht)⟩
    · rw [Instruction.reads_rename] at ht
      obtain ⟨u, hu, rfl⟩ := List.mem_map.1 ht
      exact hdefs u (hi u hu)
    · rw [Instruction.result?_rename]
      rcases List.mem_append.1 ht with ht | ht
      · exact List.mem_append_left _ (hdefs t ht)
      · rw [his t (List.mem_append_left _ ht)]
        exact List.mem_append_right _ ht

theorem ReadsDefined.mem_of_reads {defs : List TempId} {is : List Instruction}
    (h : ReadsDefined defs is) {i : Instruction} (hi : i ∈ is) {t : TempId} (ht : t ∈ i.reads) :
    t ∈ defs ++ defined is := by
  induction is generalizing defs with
  | nil => exact nomatch hi
  | cons j is ih =>
    rw [defined_cons, ← List.append_assoc]
    rcases List.mem_cons.1 hi with rfl | hi
    · exact List.mem_append_left _ (List.mem_append_left _ (h.1 t ht))
    · exact ih h.2 hi

/-- What is never read need not be defined. -/
theorem ReadsDefined.of_reads {defs defs' : List TempId} {is : List Instruction}
    (h : ReadsDefined defs is) (hdefs : ∀ i ∈ is, ∀ t ∈ i.reads, t ∈ defs → t ∈ defs') :
    ReadsDefined defs' is := by
  induction is generalizing defs defs' with
  | nil => trivial
  | cons i is ih =>
    obtain ⟨hi, h⟩ := h
    refine ⟨fun t ht => hdefs i List.mem_cons_self t ht (hi t ht), ih h fun j hj t ht hmem => ?_⟩
    rcases List.mem_append.1 hmem with hmem | hmem
    · exact List.mem_append_left _ (hdefs j (List.mem_cons_of_mem _ hj) t ht hmem)
    · exact List.mem_append_right _ hmem

/-- Pieces of code that each read only what is defined before all of them, and what they define
themselves. -/
theorem readsDefined_flatMap {α : Type} {defs : List TempId} {g : α → List Instruction} {as : List α}
    (h : ∀ a ∈ as, ReadsDefined defs (g a)) : ReadsDefined defs (as.flatMap g) := by
  induction as with
  | nil => trivial
  | cons a as ih =>
    rw [List.flatMap_cons, readsDefined_append]
    refine ⟨h a List.mem_cons_self, ?_⟩
    exact (ih fun b hb => h b (List.mem_cons_of_mem _ hb)).of_reads
      fun _ _ _ _ ht => List.mem_append_left _ ht

namespace Function

/-- The function defines every temporary once, and before it is read. -/
structure WellFormed (f : Function) : Prop where
  nodup : f.tempIds.Nodup
  reads : ReadsDefined (f.params.map (·.1)) f.instructions

instance (f : Function) : Decidable f.WellFormed :=
  decidable_of_iff (f.tempIds.Nodup ∧ ReadsDefined (f.params.map (·.1)) f.instructions)
    ⟨fun h => ⟨h.1, h.2⟩, fun h => ⟨h.nodup, h.reads⟩⟩

/-! ### Free numbers -/

theorem reserve?_eq_some {f : Function} {count base : Nat} (h : f.reserve? count = some base) :
    base = f.nextTemp ∧ base + count < 2 ^ 32 := by
  unfold reserve? at h
  split at h
  · next hlt =>
    obtain rfl := Option.some.inj h
    exact ⟨rfl, hlt⟩
  · exact nomatch h

theorem ofNat_inj_of_lt {i j : Nat} (hi : i < 2 ^ 32) (hj : j < 2 ^ 32)
    (h : UInt32.ofNat i = UInt32.ofNat j) : i = j := by
  rw [← UInt32.toNat_ofNat_of_lt' hi, h, UInt32.toNat_ofNat_of_lt' hj]

/-- A row of temporaries. -/
def tempsFrom (base count : Nat) : List TempId :=
  (List.range count).map fun i => UInt32.ofNat (base + i)

variable {base count : Nat}

theorem toNat_of_mem_tempsFrom (h : base + count < 2 ^ 32) {t : TempId}
    (ht : t ∈ tempsFrom base count) : base ≤ t.toNat := by
  obtain ⟨i, hi, rfl⟩ := List.mem_map.1 ht
  rw [List.mem_range] at hi
  rw [UInt32.toNat_ofNat_of_lt' (show base + i < 2 ^ 32 by omega)]
  omega

theorem nodup_tempsFrom (h : base + count < 2 ^ 32) : (tempsFrom base count).Nodup := by
  refine List.Nodup.map_on (fun i hi j hj he => ?_) List.nodup_range
  rw [List.mem_range] at hi hj
  have hnat := ofNat_inj_of_lt (by omega) (by omega) he
  omega

/-- Reserved temporaries are none of the function's. -/
theorem not_mem_tempIds_of_reserve? {f : Function} (h : f.reserve? count = some base) {t : TempId}
    (ht : t ∈ tempsFrom base count) : t ∉ f.tempIds := by
  obtain ⟨rfl, hlt⟩ := reserve?_eq_some h
  intro hmem
  have hle := toNat_of_mem_tempsFrom hlt ht
  have hgt := lt_nextTemp hmem
  omega

/-! ### Code in the place of an instruction -/

/-- Code that can take the place of the instruction `i` after `pre`, if temporaries are renamed by
`r` at the same time. -/
structure Fits (f : Function) (pre : List Instruction) (i : Instruction)
    (code : List Instruction) (r : Option (TempId × TempId)) : Prop where
  fresh : ∀ t ∈ defined code, t ∉ f.tempIds
  nodup : (defined code).Nodup
  reads : ReadsDefined (f.params.map (·.1) ++ defined pre) code
  keeps : ∀ t, i.result? ≠ some t → renameTemp r t = t
  moves : ∀ t, i.result? = some t → renameTemp r t ∈ defined code

variable {f f' : Function} {pre post code : List Instruction} {i : Instruction}
  {r : Option (TempId × TempId)}

theorem tempIds_eq_of_instructions (h : f.instructions = pre ++ i :: post) :
    f.tempIds = (f.params.map (·.1) ++ defined pre) ++ (i.result?.toList ++ defined post) := by
  show f.params.map (·.1) ++ defined f.instructions = _
  rw [h, defined_append, defined_cons, List.append_assoc]

/-- Without users a temporary is read nowhere. -/
theorem not_mem_reads_of_hasUsers {t : TempId} (hu : f.hasUsers t = false)
    (hi : i ∈ f.instructions) : t ∉ i.reads := by
  intro ht
  obtain ⟨v, hv, htemp⟩ := Instruction.mem_reads.1 ht
  have hvt : v = .temp t := by
    cases v with
    | temp u => rw [Option.some.inj htemp]
    | const | zero | global | function | undef => exact nomatch htemp
  have huses : i.usesTemp t = true := List.contains_iff_mem.2 (hvt ▸ hv)
  exact Bool.false_ne_true (hu.symm.trans (List.any_eq_true.2 ⟨i, hi, huses⟩))

/-! ### One definition for each temporary -/

theorem result?_ne_of_mem_before (hf : f.tempIds.Nodup) (h : f.instructions = pre ++ i :: post)
    {t : TempId} (ht : t ∈ f.params.map (·.1) ++ defined pre) : i.result? ≠ some t := by
  intro hi
  rw [tempIds_eq_of_instructions h] at hf
  refine (List.nodup_append.1 hf).2.2 t ht t (List.mem_append_left _ ?_) rfl
  rw [hi]
  exact List.mem_singleton_self t

theorem result?_ne_of_mem_after (hf : f.tempIds.Nodup) (h : f.instructions = pre ++ i :: post)
    {t : TempId} (ht : t ∈ defined post) : i.result? ≠ some t := by
  intro hi
  rw [tempIds_eq_of_instructions h, hi] at hf
  exact (List.nodup_append.1 (List.nodup_append.1 hf).2.1).2.2 t (List.mem_singleton_self t) t
    ht rfl

/-- The only definition of the result of an instruction is that instruction. -/
theorem findDef?_of_nodup (hf : f.tempIds.Nodup) (hi : i ∈ f.instructions) {t : TempId}
    (ht : i.result? = some t) : f.findDef? t = some i := by
  obtain ⟨pre, post, hsplit⟩ := List.append_of_mem hi
  have hpre : pre.find? (·.result? == some t) = none := by
    refine List.find?_eq_none.2 fun j hj hjt => ?_
    refine result?_ne_of_mem_before hf hsplit (List.mem_append_right _ ?_) ht
    exact List.mem_filterMap.2 ⟨j, hj, by simpa using hjt⟩
  rw [findDef?, hsplit, List.find?_append, hpre, Option.none_or, List.find?_cons_of_pos]
  simp [ht]

/-- Code with numbers of its own keeps the numbers of a function apart. -/
theorem nodup_replace (hf : f.tempIds.Nodup) (hfresh : ∀ t ∈ defined code, t ∉ f.tempIds)
    (hcode : (defined code).Nodup) (hp : f'.params = f.params)
    (h : f.instructions = pre ++ i :: post)
    (h' : f'.instructions = pre.map (·.rename r) ++ code ++ post.map (·.rename r)) :
    f'.tempIds.Nodup := by
  show (f'.params.map (·.1) ++ defined f'.instructions).Nodup
  rw [tempIds_eq_of_instructions h] at hf hfresh
  rw [h', hp, defined_append, defined_append, defined_map_rename, defined_map_rename]
  simp only [List.nodup_append, List.mem_append, ne_eq] at hf hfresh ⊢
  grind

theorem nodup_eraseDef (hf : f.tempIds.Nodup) (t : TempId) : (f.eraseDef t).tempIds.Nodup := by
  refine hf.sublist (List.Sublist.append_left ?_ _)
  rw [instructions_eraseDef]
  exact List.eraseP_sublist.filterMap _

namespace WellFormed

/-- Nothing before the instruction reads its result. -/
theorem map_rename_before (hf : f.WellFormed) (h : f.instructions = pre ++ i :: post)
    (hr : ∀ t, i.result? ≠ some t → renameTemp r t = t) : pre.map (·.rename r) = pre := by
  have hreads := hf.reads
  rw [h, readsDefined_append] at hreads
  refine (List.map_congr_left fun j hj => ?_).trans (List.map_id pre)
  refine Instruction.rename_eq_self fun t ht => hr t ?_
  exact result?_ne_of_mem_before hf.nodup h (hreads.1.mem_of_reads hj ht)

/-- Code that fits keeps a function well-formed. -/
theorem replace (hf : f.WellFormed) (hfits : f.Fits pre i code r) (hp : f'.params = f.params)
    (h : f.instructions = pre ++ i :: post)
    (h' : f'.instructions = pre.map (·.rename r) ++ code ++ post.map (·.rename r)) :
    f'.WellFormed := by
  refine ⟨nodup_replace hf.nodup hfits.fresh hfits.nodup hp h h', ?_⟩
  have hreads := hf.reads
  rw [h, readsDefined_append, ReadsDefined] at hreads
  obtain ⟨hpre, -, hpost⟩ := hreads
  rw [h', hf.map_rename_before h hfits.keeps, hp, readsDefined_append, readsDefined_append,
    defined_append]
  refine ⟨⟨hpre, hfits.reads⟩, hpost.rename (fun t ht => ?_) fun t ht => ?_⟩
  · rw [← List.append_assoc]
    rcases List.mem_append.1 ht with ht | ht
    · rw [hfits.keeps t (result?_ne_of_mem_before hf.nodup h ht)]
      exact List.mem_append_left _ ht
    · exact List.mem_append_right _ (hfits.moves t (Option.mem_toList.1 ht))
  · exact hfits.keeps t (result?_ne_of_mem_after hf.nodup h ht)

/-- Without a definition that nothing reads, a function stays well-formed. -/
theorem eraseDef {t : TempId} (hf : f.WellFormed) (hu : f.hasUsers t = false) :
    (f.eraseDef t).WellFormed := by
  constructor
  · exact nodup_eraseDef hf.nodup t
  · rw [instructions_eraseDef]
    show ReadsDefined (f.params.map (·.1)) _
    have hreads := hf.reads
    rcases List.exists_or_eq_self_of_eraseP (·.result? == some t) f.instructions with
      heq | ⟨a, l₁, l₂, -, hat, hsplit, heq⟩
    · rwa [heq]
    · rw [heq, readsDefined_append]
      rw [hsplit, readsDefined_append, ReadsDefined] at hreads
      refine ⟨hreads.1, hreads.2.2.of_reads fun j hj u huj hmem => ?_⟩
      rcases List.mem_append.1 hmem with hmem | hmem
      · exact hmem
      · -- the result that is gone is read nowhere
        have hut : a.result? = some u := Option.mem_toList.1 hmem
        obtain rfl : u = t := by simpa [hut] using hat
        exact absurd huj (not_mem_reads_of_hasUsers hu (by simp [hsplit, hj]))

end WellFormed

end Function

end KernelIR

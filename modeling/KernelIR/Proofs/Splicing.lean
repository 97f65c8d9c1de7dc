import KernelIR.Lowering.Replacement
import KernelIR.Proofs.UseReplacement

/-!
# Edits of a function, seen on its list of instructions

A lowering changes a function in three ways: it renames a temporary where it is read (`rename`), it
puts code in the place of one instruction (`splice`), and it removes a definition (`eraseDef`).
Here each of them is described on `Function.instructions`, the instructions block after block.
None of them touches the `skeleton` of the function: its signature and the labels of its blocks.
-/

namespace KernelIR

/-! ### Positions in a list -/

section Positions

variable {α : Type}

/-- A position in a list splits it. -/
theorem exists_append_of_getElem? {l : List α} {n : Nat} {a : α}
    (h : l[n]? = some a) : ∃ l₁ l₂, l = l₁ ++ a :: l₂ ∧ l₁.length = n := by
  obtain ⟨hn, rfl⟩ := List.getElem?_eq_some_iff.1 h
  refine ⟨l.take n, l.drop (n + 1), ?_, List.length_take_of_le (Nat.le_of_lt hn)⟩
  rw [← List.drop_eq_getElem_cons hn, List.take_append_drop]

theorem modify_append_cons {l₁ l₂ : List α} {a : α} {n : Nat} (g : α → α)
    (h : l₁.length = n) : (l₁ ++ a :: l₂).modify n g = l₁ ++ g a :: l₂ := by
  subst h
  induction l₁ with
  | nil => rfl
  | cons b l₁ ih => exact congrArg (b :: ·) ih

theorem drop_append_cons {l₁ l₂ : List α} {a : α} {n : Nat} (h : l₁.length = n) :
    (l₁ ++ a :: l₂).drop (n + 1) = l₂ := by
  subst h
  simp

end Positions

namespace Instruction

/-- Reads another temporary in the place of one. -/
def rename : Option (TempId × TempId) → Instruction → Instruction
  | some (old, new) => mapOperands (Value.subst old (.temp new))
  | none => id

/-- A renaming of temporaries never touches the function of a direct call. -/
@[simp] theorem callee?_rename (r : Option (TempId × TempId)) (i : Instruction) :
    (i.rename r).callee? = i.callee? := by
  cases r with
  | none => rfl
  | some p =>
    cases i with
    | call result function args ty align =>
      show (Value.subst p.1 (.temp p.2) function).function? = function.function?
      by_cases h : function = .temp p.1
      · rw [h, Value.subst_temp_self]
        rfl
      · rw [Value.subst_of_ne h]
    | _ => rfl

@[simp] theorem result?_rename (r : Option (TempId × TempId)) (i : Instruction) :
    (i.rename r).result? = i.result? := by
  cases r with
  | none => rfl
  | some p => exact result?_mapOperands _ i

end Instruction

/-- The block with another temporary read in the place of one. -/
def Block.rename (r : Option (TempId × TempId)) (b : Block) : Block :=
  ⟨b.id, b.instructions.map (·.rename r)⟩

namespace Function

/-- The function with nothing in its blocks: its signature and its labels. -/
def skeleton (f : Function) : Function :=
  { f with blocks := f.blocks.map fun b => { b with instructions := [] } }

theorem name_of_skeleton_eq {f g : Function} (h : f.skeleton = g.skeleton) : f.name = g.name := by
  simpa [skeleton] using congrArg Function.name h

theorem params_of_skeleton_eq {f g : Function} (h : f.skeleton = g.skeleton) :
    f.params = g.params := by
  simpa [skeleton] using congrArg Function.params h

/-! ### Renaming -/

theorem rename_eq (f : Function) (r : Option (TempId × TempId)) :
    f.rename r = f.mapInstructions (·.rename r) := by
  cases r with
  | none => simp [rename, mapInstructions, Instruction.rename]
  | some p =>
    rw [rename, replaceUses_eq]
    rfl

@[simp] theorem skeleton_rename (f : Function) (r : Option (TempId × TempId)) :
    (f.rename r).skeleton = f.skeleton := by
  simp [rename_eq, skeleton, mapInstructions, Function.comp_def]

/-! ### Splicing -/

@[simp] theorem skeleton_splice (f : Function) (n k : Nat) (code : List Instruction) :
    (f.splice n k code).skeleton = f.skeleton := by
  unfold skeleton splice
  congr 1
  apply List.ext_getElem?
  intro j
  rw [List.getElem?_map, List.getElem?_map, List.getElem?_modify]
  cases f.blocks[j]? with
  | none => rfl
  | some b => by_cases h : n = j <;> simp [h]

/-- Splicing code into a renamed function: what stood before and after the instruction is renamed
and keeps its place. -/
theorem exists_instructions_splice {f : Function} {b : Block} {i : Instruction} {n k : Nat}
    (hb : f.blocks[n]? = some b) (hi : b.instructions[k]? = some i) :
    ∃ pre post, f.instructions = pre ++ i :: post ∧ ∀ r code,
      ((f.rename r).splice n k code).instructions =
        pre.map (·.rename r) ++ code ++ post.map (·.rename r) := by
  obtain ⟨bs₁, bs₂, hbs, hn⟩ := exists_append_of_getElem? hb
  obtain ⟨is₁, is₂, his, hk⟩ := exists_append_of_getElem? hi
  refine ⟨bs₁.flatMap (·.instructions) ++ is₁, is₂ ++ bs₂.flatMap (·.instructions), ?_, ?_⟩
  · simp [instructions, hbs, his]
  · intro r code
    simp only [rename_eq, splice, mapInstructions, instructions, hbs, his, List.map_append,
      List.map_cons]
    rw [modify_append_cons _ (by rw [List.length_map, hn])]
    simp [List.flatMap_map, List.map_flatMap, drop_append_cons, hk]

/-! ### Erasing a definition -/

/-- Of a list of blocks, erasing a definition removes the first instruction that defines it. -/
theorem flatMap_eraseDefIn (t : TempId) (bs : List Block) :
    (eraseDefIn t bs).flatMap (·.instructions) =
      (bs.flatMap (·.instructions)).eraseP (·.result? == some t) := by
  induction bs with
  | nil => rfl
  | cons b bs ih =>
    unfold eraseDefIn
    split
    · next h =>
      obtain ⟨i, hi, ht⟩ := List.any_eq_true.1 h
      rw [List.flatMap_cons, List.flatMap_cons,
        List.eraseP_append_left (p := fun i => i.result? == some t) ht _ hi]
    · next h =>
      have hb : ∀ i ∈ b.instructions, ¬ (i.result? == some t) = true :=
        fun i hi ht => h (List.any_eq_true.2 ⟨i, hi, ht⟩)
      rw [List.flatMap_cons, List.flatMap_cons, List.eraseP_append_right _ hb, ih]

theorem instructions_eraseDef (f : Function) (t : TempId) :
    (f.eraseDef t).instructions = f.instructions.eraseP (·.result? == some t) :=
  flatMap_eraseDefIn t f.blocks

@[simp] theorem skeleton_eraseDef (f : Function) (t : TempId) :
    (f.eraseDef t).skeleton = f.skeleton := by
  have h : ∀ bs : List Block, (eraseDefIn t bs).map (fun b => { b with instructions := [] }) =
      bs.map fun b => { b with instructions := [] } := by
    intro bs
    induction bs with
    | nil => rfl
    | cons b bs ih =>
      unfold eraseDefIn
      split
      · rfl
      · rw [List.map_cons, List.map_cons, ih]
  simp only [skeleton, eraseDef, h]

/-! ### The two edits in one form -/

/-- `f'` is `f` with all operands renamed by `r` and with `code` in the place of the instruction
`i`. -/
structure ReplacedBy (f : Function) (i : Instruction) (r : Option (TempId × TempId))
    (code : List Instruction) (f' : Function) : Prop where
  skeleton : f'.skeleton = f.skeleton
  blocks : ∃ bs₁ b bs₂ pre post, f.blocks = bs₁ ++ b :: bs₂ ∧ b.instructions = pre ++ i :: post ∧
    f'.blocks = bs₁.map (·.rename r) ++
      ⟨b.id, pre.map (·.rename r) ++ code ++ post.map (·.rename r)⟩ :: bs₂.map (·.rename r)

theorem replacedBy_splice {f : Function} {b : Block} {i : Instruction} {n k : Nat}
    (hb : f.blocks[n]? = some b) (hi : b.instructions[k]? = some i)
    (r : Option (TempId × TempId)) (code : List Instruction) :
    f.ReplacedBy i r code ((f.rename r).splice n k code) := by
  refine ⟨by rw [skeleton_splice, skeleton_rename], ?_⟩
  obtain ⟨bs₁, bs₂, hbs, hn⟩ := exists_append_of_getElem? hb
  obtain ⟨pre, post, his, hk⟩ := exists_append_of_getElem? hi
  refine ⟨bs₁, b, bs₂, pre, post, hbs, his, ?_⟩
  simp only [rename_eq, splice, mapInstructions, hbs, List.map_append, List.map_cons]
  rw [modify_append_cons _ (by rw [List.length_map, hn])]
  simp [Block.rename, his, drop_append_cons, hk]

theorem exists_eraseDefIn {t : TempId} {i : Instruction} : ∀ {bs : List Block},
    (bs.flatMap (·.instructions)).find? (·.result? == some t) = some i →
      ∃ bs₁ b bs₂ pre post, bs = bs₁ ++ b :: bs₂ ∧ b.instructions = pre ++ i :: post ∧
        eraseDefIn t bs = bs₁ ++ ⟨b.id, pre ++ post⟩ :: bs₂
  | [], h => nomatch h
  | b :: bs, h => by
    rw [List.flatMap_cons, List.find?_append] at h
    unfold eraseDefIn
    cases hb : b.instructions.find? (·.result? == some t) with
    | some j =>
      obtain rfl : j = i := by simpa [hb] using h
      obtain ⟨hj, pre, post, his, hpre⟩ := List.find?_eq_some_iff_append.1 hb
      have hany : b.instructions.any (·.result? == some t) = true :=
        List.any_eq_true.2 ⟨j, by simp [his], hj⟩
      refine ⟨[], b, bs, pre, post, rfl, his, ?_⟩
      rw [if_pos hany, his, List.eraseP_append_right _ fun k hk => by simpa using hpre k hk,
        List.eraseP_cons_of_pos (p := fun i : Instruction => i.result? == some t) hj]
      rfl
    | none =>
      have hany : ¬ b.instructions.any (·.result? == some t) = true := by
        simpa using List.find?_eq_none.1 hb
      rw [hb, Option.none_or] at h
      obtain ⟨bs₁, b', bs₂, pre, post, rfl, his, herase⟩ := exists_eraseDefIn h
      refine ⟨b :: bs₁, b', bs₂, pre, post, rfl, his, ?_⟩
      rw [if_neg hany, herase]
      rfl

theorem replacedBy_eraseDef {f : Function} {t : TempId} {i : Instruction}
    (h : f.findDef? t = some i) : f.ReplacedBy i none [] (f.eraseDef t) := by
  refine ⟨skeleton_eraseDef f t, ?_⟩
  obtain ⟨bs₁, b, bs₂, pre, post, hbs, his, herase⟩ := exists_eraseDefIn h
  refine ⟨bs₁, b, bs₂, pre, post, hbs, his, ?_⟩
  rw [eraseDef, herase]
  simp [Block.rename, Instruction.rename]

theorem ReplacedBy.exists_instructions {f f' : Function} {i : Instruction}
    {r : Option (TempId × TempId)} {code : List Instruction} (h : f.ReplacedBy i r code f') :
    ∃ pre post, f.instructions = pre ++ i :: post ∧
      f'.instructions = pre.map (·.rename r) ++ code ++ post.map (·.rename r) := by
  obtain ⟨bs₁, b, bs₂, pre, post, hbs, his, hbs'⟩ := h.blocks
  refine ⟨bs₁.flatMap (·.instructions) ++ pre, post ++ bs₂.flatMap (·.instructions), ?_, ?_⟩
  · simp [instructions, hbs, his]
  · simp [instructions, hbs', Block.rename, List.flatMap_map, List.map_flatMap]

end Function

end KernelIR

import KernelIR.Program.Function
import Mathlib

/-!
# Replacing the uses of a temporary

`Function.replaceUses` walks through the operands of a function, writes and counts.  `Counts x a k`
says what such a walk does: it answers `a` and adds `k` to the count.  There is one rule for each
way to put walks together, and with them the walk through a whole function changes every operand and
counts every read (`Function.replaceUses_eq`).

`Function.Redirected` says what the outcome should be without the walk: instruction by instruction,
the list of `operands` has the new value in the place of the temporary, and all else is as it was.
There is only one such function (`Function.Redirected.unique`).
-/

namespace KernelIR

/-! ### Walks that count -/

/-- The walk answers `a` and adds `k` to the count. -/
def Counts {α : Type} (x : StateM Nat α) (a : α) (k : Nat) : Prop :=
  ∀ n, x.run n = (a, n + k)

namespace Counts

variable {α β : Type} {x : StateM Nat α} {a : α} {b : β} {k l : Nat}

theorem pure (a : α) : Counts (Pure.pure a) a 0 := fun _ => rfl

theorem bind {y : α → StateM Nat β} (hx : Counts x a k) (hy : Counts (y a) b l) :
    Counts (x >>= y) b (k + l) := by
  intro n
  rw [StateT.run_bind, hx n]
  show (y a).run (n + k) = (b, n + (k + l))
  rw [hy, Nat.add_assoc]

/-- A last step that only builds the answer does not count. -/
theorem map (g : α → β) (hx : Counts x a k) : Counts (x >>= fun a => Pure.pure (g a)) (g a) k := by
  have h : Counts (x >>= fun a => Pure.pure (g a)) (g a) (k + 0) := hx.bind (.pure (g a))
  exact h

theorem of_eq (hx : Counts x a k) (h : k = l) : Counts x a l := h ▸ hx

/-- A walk through a list, from what it does at each member. -/
theorem mapM {y : α → StateM Nat β} {g : α → β} {c : α → Nat}
    (hy : ∀ a, Counts (y a) (g a) (c a)) (as : List α) :
    Counts (as.mapM y) (as.map g) (as.map c).sum := by
  induction as with
  | nil => exact .pure []
  | cons a as ih =>
    rw [List.mapM_cons]
    exact Counts.of_eq ((hy a).bind (ih.map (g a :: ·))) List.sum_cons.symm

end Counts

/-! ### The walk through a function -/

section Walk

variable (t : TempId) (v : Value)

theorem Value.counts_replaceTemp (a : Value) :
    Counts (Value.replaceTemp t v a) (Value.subst t v a) ([a].count (.temp t)) := by
  intro n
  by_cases h : a = .temp t
  · simp only [replaceTemp, subst, h, List.count_singleton_self]
    rfl
  · have hne : (a == .temp t) = false := by simpa using h
    simp only [replaceTemp, subst, if_neg h, List.count_singleton, hne]
    rfl

theorem Value.counts_mapM_replaceTemp (as : List Value) :
    Counts (as.mapM (Value.replaceTemp t v)) (as.map (Value.subst t v)) (as.count (.temp t)) := by
  refine (Counts.mapM (counts_replaceTemp t v) as).of_eq ?_
  rw [← List.flatMap_singleton' as, List.count_flatMap, List.flatMap_singleton']
  rfl

/-- The walk through an instruction writes to each operand and counts those that are the
temporary. -/
theorem Instruction.counts_traverseOperands (i : Instruction) :
    Counts (i.traverseOperands (Value.replaceTemp t v)) (i.mapOperands (Value.subst t v))
      (i.operands.count (.temp t)) := by
  have one := Value.counts_replaceTemp t v
  have many := Value.counts_mapM_replaceTemp t v
  have hcons (a : Value) (as : List Value) :
      [a].count (.temp t) + as.count (.temp t) = (a :: as).count (.temp t) := by
    rw [← List.count_append, List.singleton_append]
  -- Kind by kind, the walk meets what `operands` lists, in the same order.
  cases i with
  | binary result op lhs rhs ty =>
    exact Counts.of_eq ((one lhs).bind ((one rhs).map (binary result op _ · ty))) (hcons ..)
  | load result ptr ty => exact (one ptr).map (load result · ty)
  | store value ptr => exact Counts.of_eq ((one value).bind ((one ptr).map (store _))) (hcons ..)
  | elementPtr result ptr indices ty =>
    exact Counts.of_eq ((one ptr).bind ((many indices).map (elementPtr result _ · ty))) (hcons ..)
  | alloca result stored ty => exact .pure _
  | call result function args ty align =>
    exact Counts.of_eq ((one function).bind ((many args).map (call result _ · ty align)))
      (hcons ..)
  | cast result value ty => exact (one value).map (Instruction.cast result · ty)
  | ret value =>
    cases value with
    | none => exact .pure _
    | some value => exact (one value).map (ret <| some ·)
  | br target => exact .pure _
  | brCond condition ifTrue ifFalse => exact (one condition).map (brCond · ifTrue ifFalse)
  | comment text => exact .pure _

theorem Function.counts_traverseOperands (f : Function) :
    Counts (f.traverseOperands (Value.replaceTemp t v))
      (f.mapInstructions (·.mapOperands (Value.subst t v))) (f.useCount t) := by
  have hblock (b : Block) :=
    (Counts.mapM (Instruction.counts_traverseOperands t v) b.instructions).map (Block.mk b.id)
  have hblocks := (Counts.mapM hblock f.blocks).map fun bs => ({ f with blocks := bs } : Function)
  refine Counts.of_eq hblocks ?_
  -- The walk adds up over blocks and then over instructions, `useCount` counts in one list.
  rw [useCount, instructions, List.flatMap_assoc, List.count_flatMap]
  simp [Function.comp_def, List.count_flatMap]

/-- The walk changes every operand, and counts how often the temporary is read. -/
theorem Function.replaceUses_eq (f : Function) :
    f.replaceUses t v = (f.mapInstructions (·.mapOperands (Value.subst t v)), f.useCount t) := by
  rw [replaceUses, counts_traverseOperands t v f 0, Nat.zero_add]

end Walk

/-! ### What replacing should do -/

namespace Instruction

/-- Two instructions of one kind that agree in all but the values they read. -/
inductive SameForm : Instruction → Instruction → Prop
  | binary (result : TempId) (op : BinOp) (ty : Ty) (lhs rhs lhs' rhs' : Value) :
    SameForm (.binary result op lhs rhs ty) (.binary result op lhs' rhs' ty)
  | load (result : TempId) (ty : Ty) (ptr ptr' : Value) :
    SameForm (.load result ptr ty) (.load result ptr' ty)
  | store (value ptr value' ptr' : Value) : SameForm (.store value ptr) (.store value' ptr')
  | elementPtr (result : TempId) (ty : Ty) (ptr ptr' : Value) (indices indices' : List Value) :
    SameForm (.elementPtr result ptr indices ty) (.elementPtr result ptr' indices' ty)
  | alloca (result : TempId) (stored ty : Ty) :
    SameForm (.alloca result stored ty) (.alloca result stored ty)
  | call (result : Option TempId) (ty : Ty) (align : Option UInt64) (function function' : Value)
    (args args' : List Value) :
    SameForm (.call result function args ty align) (.call result function' args' ty align)
  | cast (result : TempId) (ty : Ty) (value value' : Value) :
    SameForm (.cast result value ty) (.cast result value' ty)
  | ret (value value' : Option Value) : SameForm (.ret value) (.ret value')
  | br (target : LabelId) : SameForm (.br target) (.br target)
  | brCond (ifTrue ifFalse : LabelId) (condition condition' : Value) :
    SameForm (.brCond condition ifTrue ifFalse) (.brCond condition' ifTrue ifFalse)
  | comment (text : String) : SameForm (.comment text) (.comment text)

theorem sameForm_mapOperands (g : Value → Value) (i : Instruction) :
    i.SameForm (i.mapOperands g) := by
  cases i <;> constructor

/-- The form of an instruction and its operands are all there is to it. -/
theorem SameForm.eq_of_operands {i j k : Instruction} (hj : i.SameForm j) (hk : i.SameForm k)
    (h : j.operands = k.operands) : j = k := by
  cases hj with
  | ret value value' =>
    cases hk with
    | ret _ value'' => cases value' <;> cases value'' <;> simp_all [operands]
  | _ =>
    cases hk
    simp_all [operands]

/-- `j` is `i` with `v` read where `i` reads `t`: the operands change position by position, and
nothing else does. -/
structure Redirected (t : TempId) (v : Value) (i j : Instruction) : Prop where
  operands : j.operands = i.operands.map fun a => if a = .temp t then v else a
  form : i.SameForm j
  result : j.result? = i.result?
  resultType : j.resultType? = i.resultType?

theorem redirected_mapOperands (t : TempId) (v : Value) (i : Instruction) :
    Redirected t v i (i.mapOperands (Value.subst t v)) where
  operands := operands_mapOperands _ i
  form := sameForm_mapOperands _ i
  result := result?_mapOperands _ i
  resultType := resultType?_mapOperands _ i

theorem Redirected.unique {t : TempId} {v : Value} {i j k : Instruction}
    (hj : Redirected t v i j) (hk : Redirected t v i k) : j = k :=
  hj.form.eq_of_operands hk.form (hj.operands.trans hk.operands.symm)

end Instruction

namespace Block

/-- The same for every instruction of a block, in its place. -/
structure Redirected (t : TempId) (v : Value) (b c : Block) : Prop where
  label : c.id = b.id
  instructions : List.Forall₂ (Instruction.Redirected t v) b.instructions c.instructions

theorem Redirected.unique {t : TempId} {v : Value} {b c d : Block} (hc : b.Redirected t v c)
    (hd : b.Redirected t v d) : c = d := by
  have hone : Relator.RightUnique (Instruction.Redirected t v) := fun _ _ _ =>
    Instruction.Redirected.unique
  have hcode : c.instructions = d.instructions :=
    List.right_unique_forall₂' hone hc.instructions hd.instructions
  calc c = ⟨b.id, c.instructions⟩ := by rw [← hc.label]
    _ = ⟨b.id, d.instructions⟩ := by rw [hcode]
    _ = d := by rw [← hd.label]

end Block

namespace Function

/-- The same for every block of a function, in its place; the signature stays. -/
structure Redirected (t : TempId) (v : Value) (f g : Function) : Prop where
  signature : g = { f with blocks := g.blocks }
  blocks : List.Forall₂ (Block.Redirected t v) f.blocks g.blocks

theorem Redirected.unique {t : TempId} {v : Value} {f g h : Function} (hg : f.Redirected t v g)
    (hh : f.Redirected t v h) : g = h := by
  have hone : Relator.RightUnique (Block.Redirected t v) := fun _ _ _ => Block.Redirected.unique
  rw [hg.signature, hh.signature, List.right_unique_forall₂' hone hg.blocks hh.blocks]

theorem redirected_replaceUses (f : Function) (t : TempId) (v : Value) :
    f.Redirected t v (f.replaceUses t v).1 := by
  rw [replaceUses_eq]
  refine ⟨rfl, List.forall₂_map_right_iff.2 (List.forall₂_same.2 fun b _ => ⟨rfl, ?_⟩)⟩
  exact List.forall₂_map_right_iff.2
    (List.forall₂_same.2 fun i _ => Instruction.redirected_mapOperands t v i)

end Function

/-! ### Readers and definitions after replacing -/

theorem Value.subst_eq_temp_iff {t : TempId} {v a : Value} :
    Value.subst t v a = .temp t ↔ v = .temp t ∧ a = .temp t := by
  by_cases h : a = .temp t
  · simp [h]
  · simp [subst_of_ne h, h]

namespace Function

theorem instructions_replaceUses (f : Function) (t : TempId) (v : Value) :
    (f.replaceUses t v).1.instructions =
      f.instructions.map (·.mapOperands (Value.subst t v)) := by
  rw [replaceUses_eq, instructions_mapInstructions]

/-- The temporary is read afterwards only if it takes its own place. -/
theorem hasUsers_replaceUses (f : Function) (t : TempId) (v : Value) :
    (f.replaceUses t v).1.hasUsers t = true ↔ v = .temp t ∧ f.hasUsers t = true := by
  have hone (i : Instruction) :
      (i.mapOperands (Value.subst t v)).usesTemp t = true ↔ v = .temp t ∧ i.usesTemp t = true := by
    simp [Instruction.usesTemp, Value.subst_eq_temp_iff, and_comm]
  simp only [hasUsers, instructions_replaceUses, List.any_map, List.any_eq_true,
    Function.comp_apply, hone]
  constructor
  · rintro ⟨i, hi, hv, hu⟩
    exact ⟨hv, i, hi, hu⟩
  · rintro ⟨hv, i, hi, hu⟩
    exact ⟨i, hi, hv, hu⟩

theorem findDef?_replaceUses (f : Function) (t : TempId) (v : Value) (u : TempId) :
    (f.replaceUses t v).1.findDef? u =
      (f.findDef? u).map (·.mapOperands (Value.subst t v)) := by
  have hsame : ((·.result? == some u) ∘ (·.mapOperands (Value.subst t v))) =
      fun i : Instruction => i.result? == some u := by
    funext i
    exact congrArg (· == some u) (Instruction.result?_mapOperands _ i)
  rw [findDef?, findDef?, instructions_replaceUses, List.find?_map, hsame]

/-- **Replacing the uses of a temporary is complete and exact.**  The number is how often `operands`
lists the temporary over all instructions.  The function that comes out is the only one that differs
from the old one in exactly these operands; nothing in it reads the temporary unless it took its own
place, and every temporary is defined by the instruction that defined it before. -/
theorem replaceUses_exact (f : Function) (t : TempId) (v : Value) :
    ∃ g, f.replaceUses t v = (g, (f.instructions.flatMap (·.operands)).count (.temp t)) ∧
      f.Redirected t v g ∧ (∀ h, f.Redirected t v h → h = g) ∧
      (g.hasUsers t = true ↔ v = .temp t ∧ f.hasUsers t = true) ∧
      ∀ u, Option.Rel (Instruction.Redirected t v) (f.findDef? u) (g.findDef? u) := by
  have hredirected := redirected_replaceUses f t v
  refine ⟨(f.replaceUses t v).1, ?_, hredirected, ?_, hasUsers_replaceUses f t v, ?_⟩
  · rw [replaceUses_eq, useCount]
  · intro h hh
    exact hh.unique hredirected
  · intro u
    rw [findDef?_replaceUses]
    cases f.findDef? u with
    | none => exact .none
    | some i => exact .some (Instruction.redirected_mapOperands t v i)

end Function

end KernelIR

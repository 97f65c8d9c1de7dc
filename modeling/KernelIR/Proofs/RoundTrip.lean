import KernelIR.Codec.Program
import Mathlib

/-!
# What is written as JSON can be read back

A codec is `Lawful` if every value is read back from its written form by a reader that may open as
many brackets as that form has.  Lawful codecs of the parts make lawful codecs of lists, pairs,
options, records and variants; an option needs in addition that its content is never written as
`null` (`NeverNull`).  Types are the one recursive case, where the levels of types inside one
another are counted along with the brackets (`Ty.ofJsonTo?_toJson`).
-/

namespace KernelIR

open Codec (encode decode?)

/-! ### Brackets -/

namespace Json

variable {name : String} {body : Json} {items : List Json} {members : List (String × Json)}
  {budget : Nat}

theorem depth_le_depthItems {j : Json} (h : j ∈ items) : j.depth ≤ depthItems items := by
  induction items with
  | nil => exact nomatch h
  | cons i items ih =>
    rw [depthItems]
    rcases List.mem_cons.1 h with rfl | h
    · exact Nat.le_max_left ..
    · exact (ih h).trans (Nat.le_max_right ..)

theorem depth_le_depthMembers {p : String × Json} (h : p ∈ members) :
    p.2.depth ≤ depthMembers members := by
  induction members with
  | nil => exact nomatch h
  | cons q members ih =>
    rw [depthMembers]
    rcases List.mem_cons.1 h with rfl | h
    · exact Nat.le_max_left ..
    · exact (ih h).trans (Nat.le_max_right ..)

/-- Brackets that are enough for an array are one more than what is enough for its items. -/
theorem exists_budget_of_arr (h : (arr items).depth ≤ budget) :
    ∃ inner, budget = inner + 1 ∧ ∀ j ∈ items, j.depth ≤ inner := by
  rw [depth] at h
  obtain ⟨inner, rfl⟩ := Nat.exists_eq_add_of_le' (Nat.le_of_add_left_le h)
  exact ⟨inner, rfl, fun j hj => (depth_le_depthItems hj).trans (Nat.le_of_succ_le_succ h)⟩

theorem exists_budget_of_obj (h : (obj members).depth ≤ budget) :
    ∃ inner, budget = inner + 1 ∧ ∀ p ∈ members, p.2.depth ≤ inner := by
  rw [depth] at h
  obtain ⟨inner, rfl⟩ := Nat.exists_eq_add_of_le' (Nat.le_of_add_left_le h)
  exact ⟨inner, rfl, fun p hp => (depth_le_depthMembers hp).trans (Nat.le_of_succ_le_succ h)⟩

theorem exists_budget_of_tag (h : (tag name body).depth ≤ budget) :
    ∃ inner, budget = inner + 1 ∧ body.depth ≤ inner := by
  obtain ⟨inner, rfl, hbody⟩ := exists_budget_of_obj h
  exact ⟨inner, rfl, hbody _ List.mem_cons_self⟩

/-- A variant that holds a record. -/
theorem exists_budget_of_record (h : (tag name (obj members)).depth ≤ budget) :
    ∃ inner, budget = inner + 2 ∧ ∀ p ∈ members, p.2.depth ≤ inner := by
  obtain ⟨budget, rfl, hbody⟩ := exists_budget_of_tag h
  obtain ⟨inner, rfl, hmembers⟩ := exists_budget_of_obj hbody
  exact ⟨inner, rfl, hmembers⟩

/-- A variant that holds something is not taken for one of another name that holds nothing, even
where what it holds is `null`. -/
theorem unit?_tag_ne {n : String} (h : name ≠ n) (budget : Nat) (body : Json) :
    unit? budget (tag name body) ≠ some n := by
  intro hunit
  unfold tag unit? at hunit
  split at hunit
  · next heq => cases heq
  · next heq =>
    obtain ⟨rfl, -⟩ := Prod.mk.inj (List.cons.inj (Json.obj.inj heq)).1
    exact h (Option.some.inj hunit)
  · cases hunit

theorem mapM_map_eq_some {α : Type} {write : α → Json} {read : Json → Option α} {as : List α}
    (h : ∀ a ∈ as, read (write a) = some a) : (as.map write).mapM read = some as := by
  induction as with
  | nil => rfl
  | cons a as ih =>
    rw [List.map_cons, List.mapM_cons, h a List.mem_cons_self,
      ih fun b hb => h b (List.mem_cons_of_mem _ hb)]
    rfl

end Json

/-! ### Lawful codecs -/

namespace Codec

/-- Every value is read back from its written form. -/
class Lawful (α : Type) [Codec α] : Prop where
  decode?_encode (a : α) {budget : Nat} (h : (encode a).depth ≤ budget) :
    decode? budget (encode a) = some a

/-- No value is written as `null`. -/
class NeverNull (α : Type) [Codec α] : Prop where
  encode_ne_null (a : α) : encode a ≠ .null

export Lawful (decode?_encode)

section Parts

variable {α β : Type} [Codec α] [Codec β]

theorem read?_encode [Lawful α] (a : α) : read? (encode a) = some a :=
  decode?_encode a (Nat.le_refl _)

instance : Lawful Bool := ⟨fun _ _ _ => rfl⟩

instance : Lawful String := ⟨fun _ _ _ => rfl⟩

instance : Lawful UInt32 where
  decode?_encode n _ _ := by
    show UInt32.ofNat <$> (if n.toNat < UInt32.size then some n.toNat else none) = some n
    rw [if_pos n.toNat_lt]
    simp

instance : Lawful UInt64 where
  decode?_encode n _ _ := by
    show UInt64.ofNat <$> (if n.toNat < UInt64.size then some n.toNat else none) = some n
    rw [if_pos n.toNat_lt]
    simp

/-- Both signs have the same bound, since a negative number is written by its distance to `-1`. -/
instance : Lawful Int64 where
  decode?_encode n budget _ := by
    have hlt := n.toInt_lt
    have hle := n.le_toInt
    have hof := Int64.ofInt_toInt n
    show decode? budget (.int n.toInt) = some n
    cases hn : n.toInt with
    | ofNat k =>
      rw [hn] at hlt hof
      rw [Int.ofNat_eq_natCast] at hlt
      have hk : k < Int64.size / 2 := show k < 2 ^ 63 by omega
      show (if k < Int64.size / 2 then some (Int64.ofInt (.ofNat k)) else none) = some n
      rw [if_pos hk, hof]
    | negSucc k =>
      rw [hn] at hle hof
      have hk : k < Int64.size / 2 := show k < 2 ^ 63 by omega
      show (if k < Int64.size / 2 then some (Int64.ofInt (.negSucc k)) else none) = some n
      rw [if_pos hk, hof]

instance : NeverNull String := ⟨fun _ h => nomatch h⟩

instance : NeverNull UInt32 := ⟨fun _ h => nomatch h⟩

instance : NeverNull UInt64 := ⟨fun _ h => nomatch h⟩

instance [Lawful α] [NeverNull α] : Lawful (Option α) where
  decode?_encode a budget h := by
    cases a with
    | none => rfl
    | some a =>
      have hread : decode? budget (encode a) = some a := decode?_encode a h
      have hnull := NeverNull.encode_ne_null a
      show decode? budget (encode a) = some (some a)
      generalize encode a = j at hread hnull
      cases j with
      | null => exact absurd rfl hnull
      | _ =>
        show some <$> decode? budget _ = _
        rw [hread]
        rfl

instance [Lawful α] : Lawful (List α) where
  decode?_encode as budget h := by
    obtain ⟨inner, rfl, hitems⟩ := Json.exists_budget_of_arr h
    exact Json.mapM_map_eq_some fun a ha => decode?_encode a (hitems _ (List.mem_map_of_mem ha))

instance [Lawful α] [Lawful β] : Lawful (α × β) where
  decode?_encode p budget h := by
    obtain ⟨inner, rfl, hitems⟩ := Json.exists_budget_of_arr h
    simp only [List.forall_mem_cons] at hitems
    show (do return (← decode? inner (encode p.1), ← decode? inner (encode p.2))) = some p
    simp [decode?_encode, hitems]

omit [Codec β] in
/-- A variant that holds one value is read back if its name is told apart. -/
theorem decode?_tag [Lawful α] {read : Nat → Json → Option β} {name : String} {make : α → β}
    (hread : ∀ inner body, read (inner + 1) (.tag name body) = make <$> decode? inner body)
    (a : α) {budget : Nat} (h : (Json.tag name (encode a)).depth ≤ budget) :
    read budget (.tag name (encode a)) = some (make a) := by
  obtain ⟨inner, rfl, ha⟩ := Json.exists_budget_of_tag h
  rw [hread, decode?_encode a ha]
  rfl

end Parts

end Codec

open Codec (Lawful NeverNull decode?_encode)

/-! ### Types -/

namespace Ty

/-- A variant that holds something is read by its name, with one level and one bracket less. -/
theorem exists_ofTagged? (name : String) (body : Json) {level inner : Nat} (h : name ≠ "Void")
    (hle : inner + 1 ≤ level) : ∃ below, inner ≤ below ∧
      ofJsonTo? level (inner + 1) (.tag name body) =
        ofTagged? (ofJsonTo? below) inner name body := by
  cases level with
  | zero => omega
  | succ below =>
    refine ⟨below, Nat.le_of_succ_le_succ hle, ?_⟩
    rw [ofJsonTo?, if_neg (Json.unit?_tag_ne h _ body)]
    rfl

mutual

/-- A type is read back from its written form.  A type inside another takes at least one bracket,
so that there are levels enough where there are brackets enough. -/
theorem ofJsonTo?_toJson : ∀ (t : Ty) {level budget : Nat}, budget ≤ level →
    t.toJson.depth ≤ budget → ofJsonTo? level budget t.toJson = some t
  | .void, level, budget, _, _ => by cases level <;> rfl
  | .int bits, level, budget, hle, h => by
    rw [toJson] at h ⊢
    obtain ⟨inner, rfl, hbits⟩ := Json.exists_budget_of_tag h
    obtain ⟨below, -, hread⟩ := exists_ofTagged? "Int" _ (by decide) hle
    rw [hread]
    show Ty.int <$> decode? inner (encode bits) = _
    rw [decode?_encode bits hbits]
    rfl
  | .ptr t, level, budget, hle, h => by
    rw [toJson] at h ⊢
    obtain ⟨inner, rfl, ht⟩ := Json.exists_budget_of_tag h
    obtain ⟨below, hbelow, hread⟩ := exists_ofTagged? "Ptr" _ (by decide) hle
    rw [hread]
    show Ty.ptr <$> ofJsonTo? below inner t.toJson = _
    rw [ofJsonTo?_toJson t hbelow ht]
    rfl
  | .array size t, level, budget, hle, h => by
    rw [toJson] at h ⊢
    obtain ⟨inner, rfl, hmembers⟩ := Json.exists_budget_of_record h
    obtain ⟨below, hbelow, hread⟩ := exists_ofTagged? "Array" _ (by decide) hle
    simp only [List.forall_mem_cons] at hmembers
    obtain ⟨hsize, ht, -⟩ := hmembers
    rw [hread]
    show (do
      return Ty.array (← decode? inner (encode size)) (← ofJsonTo? below inner t.toJson)) = _
    rw [decode?_encode size hsize, ofJsonTo?_toJson t (Nat.le_of_succ_le hbelow) ht]
    rfl
  | .vector lanes t, level, budget, hle, h => by
    rw [toJson] at h ⊢
    obtain ⟨inner, rfl, hmembers⟩ := Json.exists_budget_of_record h
    obtain ⟨below, hbelow, hread⟩ := exists_ofTagged? "Vector" _ (by decide) hle
    simp only [List.forall_mem_cons] at hmembers
    obtain ⟨hlanes, ht, -⟩ := hmembers
    rw [hread]
    show (do
      return Ty.vector (← decode? inner (encode lanes)) (← ofJsonTo? below inner t.toJson)) = _
    rw [decode?_encode lanes hlanes, ofJsonTo?_toJson t (Nat.le_of_succ_le hbelow) ht]
    rfl
  | .function result params variadic, level, budget, hle, h => by
    rw [toJson] at h ⊢
    obtain ⟨inner, rfl, hmembers⟩ := Json.exists_budget_of_record h
    obtain ⟨below, hbelow, hread⟩ := exists_ofTagged? "Function" _ (by decide) hle
    simp only [List.forall_mem_cons] at hmembers
    obtain ⟨hresult, hparams, hvariadic, -⟩ := hmembers
    rw [hread]
    show (do
      return Ty.function (← ofJsonTo? below inner result.toJson)
        (← Json.list? (ofJsonTo? below) inner (.arr (listToJson params)))
        (← decode? inner (encode variadic))) = _
    rw [ofJsonTo?_toJson result (Nat.le_of_succ_le hbelow) hresult,
      list?_listToJson params (Nat.le_of_succ_le hbelow) hparams, decode?_encode variadic hvariadic]
    rfl
  | .struct name fields packed, level, budget, hle, h => by
    rw [toJson] at h ⊢
    obtain ⟨inner, rfl, hmembers⟩ := Json.exists_budget_of_record h
    obtain ⟨below, hbelow, hread⟩ := exists_ofTagged? "Struct" _ (by decide) hle
    simp only [List.forall_mem_cons] at hmembers
    obtain ⟨hname, hfields, hpacked, -⟩ := hmembers
    rw [hread]
    show (do
      return Ty.struct (← decode? inner (encode name))
        (← Json.list? (ofJsonTo? below) inner (.arr (listToJson fields)))
        (← decode? inner (encode packed))) = _
    rw [decode?_encode name hname, list?_listToJson fields (Nat.le_of_succ_le hbelow) hfields,
      decode?_encode packed hpacked]
    rfl

theorem list?_listToJson : ∀ (ts : List Ty) {level budget : Nat}, budget ≤ level →
    (Json.arr (listToJson ts)).depth ≤ budget →
    Json.list? (ofJsonTo? level) budget (.arr (listToJson ts)) = some ts
  | ts, level, budget, hle, h => by
    obtain ⟨inner, rfl, hitems⟩ := Json.exists_budget_of_arr h
    exact mapM_listToJson ts (Nat.le_of_succ_le hle) hitems

theorem mapM_listToJson : ∀ (ts : List Ty) {level budget : Nat}, budget ≤ level →
    (∀ j ∈ listToJson ts, j.depth ≤ budget) →
    (listToJson ts).mapM (ofJsonTo? level budget) = some ts
  | [], _, _, _, _ => rfl
  | t :: ts, level, budget, hle, h => by
    rw [listToJson, List.forall_mem_cons] at h
    rw [listToJson, List.mapM_cons, ofJsonTo?_toJson t hle h.1, mapM_listToJson ts hle h.2]
    rfl

end

end Ty

instance : Lawful Ty where
  decode?_encode t _ h := t.ofJsonTo?_toJson (Nat.le_refl _) h

instance : Lawful DataLayout where
  decode?_encode l budget h := by
    obtain ⟨inner, rfl, hmembers⟩ := Json.exists_budget_of_obj h
    simp only [List.forall_mem_cons] at hmembers
    show (do return DataLayout.mk (← decode? inner (encode l.pointerBits))) = some l
    simp [decode?_encode, hmembers]

/-! ### Values and instructions -/

instance : NeverNull Value where
  encode_ne_null v h := by cases v <;> cases h

instance : Lawful Value where
  decode?_encode v budget h := by
    cases v with
    | temp a | const a | zero a | global a | function a =>
      exact Codec.decode?_tag (fun _ _ => if_neg (Json.unit?_tag_ne (by decide) _ _)) a h
    | undef => rfl

instance : Lawful BinOp where
  decode?_encode op _ _ := by cases op <;> rfl

instance : Lawful Instruction where
  decode?_encode i budget h := by
    cases i with
    | binary result op lhs rhs ty =>
      obtain ⟨inner, rfl, hmembers⟩ := Json.exists_budget_of_record h
      simp only [List.forall_mem_cons] at hmembers
      show (do
        return Instruction.binary (← decode? inner (encode result)) (← decode? inner (encode op))
          (← decode? inner (encode lhs)) (← decode? inner (encode rhs))
          (← decode? inner (encode ty))) = _
      simp [decode?_encode, hmembers]
    | load result ptr ty =>
      obtain ⟨inner, rfl, hmembers⟩ := Json.exists_budget_of_record h
      simp only [List.forall_mem_cons] at hmembers
      show (do
        return Instruction.load (← decode? inner (encode result)) (← decode? inner (encode ptr))
          (← decode? inner (encode ty))) = _
      simp [decode?_encode, hmembers]
    | store value ptr =>
      obtain ⟨inner, rfl, hmembers⟩ := Json.exists_budget_of_record h
      simp only [List.forall_mem_cons] at hmembers
      show (do
        return Instruction.store (← decode? inner (encode value))
          (← decode? inner (encode ptr))) = _
      simp [decode?_encode, hmembers]
    | elementPtr result ptr indices ty =>
      obtain ⟨inner, rfl, hmembers⟩ := Json.exists_budget_of_record h
      simp only [List.forall_mem_cons] at hmembers
      show (do
        return Instruction.elementPtr (← decode? inner (encode result))
          (← decode? inner (encode ptr)) (← decode? inner (encode indices))
          (← decode? inner (encode ty))) = _
      simp [decode?_encode, hmembers]
    | alloca result stored ty =>
      obtain ⟨inner, rfl, hmembers⟩ := Json.exists_budget_of_record h
      simp only [List.forall_mem_cons] at hmembers
      show (do
        return Instruction.alloca (← decode? inner (encode result))
          (← decode? inner (encode stored)) (← decode? inner (encode ty))) = _
      simp [decode?_encode, hmembers]
    | call result function args ty align =>
      obtain ⟨inner, rfl, hmembers⟩ := Json.exists_budget_of_record h
      simp only [List.forall_mem_cons] at hmembers
      show (do
        return Instruction.call (← decode? inner (encode result))
          (← decode? inner (encode function)) (← decode? inner (encode args))
          (← decode? inner (encode ty)) (← decode? inner (encode align))) = _
      simp [decode?_encode, hmembers]
    | cast result value ty =>
      obtain ⟨inner, rfl, hmembers⟩ := Json.exists_budget_of_record h
      simp only [List.forall_mem_cons] at hmembers
      show (do
        return Instruction.cast (← decode? inner (encode result)) (← decode? inner (encode value))
          (← decode? inner (encode ty))) = _
      simp [decode?_encode, hmembers]
    | brCond condition ifTrue ifFalse =>
      obtain ⟨inner, rfl, hmembers⟩ := Json.exists_budget_of_record h
      simp only [List.forall_mem_cons] at hmembers
      show (do
        return Instruction.brCond (← decode? inner (encode condition))
          (← decode? inner (encode ifTrue)) (← decode? inner (encode ifFalse))) = _
      simp [decode?_encode, hmembers]
    | ret a | br a | comment a => exact Codec.decode?_tag (fun _ _ => rfl) a h

/-! ### Functions, modules and settings -/

instance : Lawful Block where
  decode?_encode b budget h := by
    obtain ⟨inner, rfl, hmembers⟩ := Json.exists_budget_of_obj h
    simp only [List.forall_mem_cons] at hmembers
    show (do
      return Block.mk (← decode? inner (encode b.id))
        (← decode? inner (encode b.instructions))) = some b
    simp [decode?_encode, hmembers]

instance : Lawful Function where
  decode?_encode f budget h := by
    obtain ⟨inner, rfl, hmembers⟩ := Json.exists_budget_of_obj h
    simp only [List.forall_mem_cons] at hmembers
    show (do
      return Function.mk (← decode? inner (encode f.name)) (← decode? inner (encode f.returnType))
        (← decode? inner (encode f.params)) (← decode? inner (encode f.blocks))
        (← decode? inner (encode f.external)) (← decode? inner (encode f.variadic))) = some f
    simp [decode?_encode, hmembers]

instance : Lawful Linkage where
  decode?_encode l _ _ := by cases l <;> rfl

instance : Lawful Global where
  decode?_encode g budget h := by
    obtain ⟨inner, rfl, hmembers⟩ := Json.exists_budget_of_obj h
    simp only [List.forall_mem_cons] at hmembers
    show (do
      return Global.mk (← decode? inner (encode g.name)) (← decode? inner (encode g.ty))
        (← decode? inner (encode g.isConstant)) (← decode? inner (encode g.init))
        (← decode? inner (encode g.linkage))) = some g
    simp [decode?_encode, hmembers]

instance : Lawful Module where
  decode?_encode m budget h := by
    obtain ⟨inner, rfl, hmembers⟩ := Json.exists_budget_of_obj h
    simp only [List.forall_mem_cons] at hmembers
    show (do
      return Module.mk (← decode? inner (encode m.name)) (← decode? inner (encode m.functions))
        (← decode? inner (encode m.globals)) (← decode? inner (encode m.layout))) = some m
    simp [decode?_encode, hmembers]

instance : Lawful Settings where
  decode?_encode s budget h := by
    obtain ⟨inner, rfl, hmembers⟩ := Json.exists_budget_of_obj h
    simp only [List.forall_mem_cons] at hmembers
    show (do
      return Settings.mk (← decode? inner (encode s.copyBase))
        (← decode? inner (encode s.verify))) = some s
    simp [decode?_encode, hmembers]

open Codec in
/-- Every part of a program and every choice of settings is read back from its written form, at any
depth. -/
theorem read?_encode_program :
    (∀ m : Module, read? (encode m) = some m) ∧
    (∀ f : Function, read? (encode f) = some f) ∧
    (∀ b : Block, read? (encode b) = some b) ∧
    (∀ i : Instruction, read? (encode i) = some i) ∧
    (∀ v : Value, read? (encode v) = some v) ∧
    (∀ t : Ty, read? (encode t) = some t) ∧
    (∀ g : Global, read? (encode g) = some g) ∧
    (∀ l : DataLayout, read? (encode l) = some l) ∧
    ∀ s : Settings, read? (encode s) = some s :=
  ⟨read?_encode, read?_encode, read?_encode, read?_encode, read?_encode, read?_encode,
    read?_encode, read?_encode, read?_encode⟩

end KernelIR

import KernelIR.Proofs.CopyCoverage

/-!
# The bytes that a fill writes

The code of a zero fill is a row of pairs: the address of an element, and a store of a zero value to
it.  `ZeroFill.zeroStores?` reads the stores off the code.  Elements are as far apart as `allocSize`
says, and a store writes `storeSize` bytes; so the stores stay apart from each other and inside the
fill, and leave nothing out just where the two sizes agree (`ZeroFill.stores_of_replace`).
-/

namespace KernelIR

/-- What a type needs for a place in an array is enough to store it. -/
theorem DataLayout.exists_storeSize {layout : DataLayout} {t : Ty} {alloc : Nat}
    (h : layout.allocSize t = .ok alloc) :
    ∃ store, layout.storeSize t = .ok store ∧ store ≤ alloc := by
  obtain ⟨store, align, hstore, halign, hround⟩ := Extent.alloc_eq_ok.1 h
  have hpos := Quantity.pos_of_exists_two_pow (t.aligned_extent layout align halign)
  exact ⟨store, hstore, (Quantity.le_of_roundUp hpos hround).1⟩

namespace ZeroFill

/-- A store of the zero value of a type to an element of a pointer. -/
structure ZeroStore where
  ptr : Value
  index : Nat
  element : Ty
  deriving DecidableEq

/-- The stores that code makes, if it consists of pairs of an address with a single index and a
store of a zero value to that address. -/
def zeroStores? : List Instruction → Option (List ZeroStore)
  | [] => some []
  | .elementPtr slot ptr [index] ty :: .store (.zero element) (.temp target) :: is => do
    let i ← index.count?
    if target = slot ∧ ty = .ptr element then return ⟨ptr, i, element⟩ :: (← zeroStores? is)
    else none
  | _ => none

/-- The stores of neighbours. -/
def row (ptr : Value) (element : Ty) (count : Nat) : List ZeroStore :=
  (List.range count).map (⟨ptr, ·, element⟩)

/-- The byte is written by one of the stores, where elements are `alloc` bytes apart and `store`
bytes of each are written. -/
def Writes (alloc store : Nat) (stores : List ZeroStore) (b : Nat) : Prop :=
  Covered (fun s : ZeroStore => s.index * alloc) store stores b

theorem inRow_row (ptr : Value) (element : Ty) (alloc count : Nat) :
    InRow (fun s : ZeroStore => s.index * alloc) alloc count (row ptr element count) := by
  simp [InRow, row]

/-! ### The stores of the code -/

theorem zeroStores?_store (f : Fill) (base : Nat) {i : Nat} (hi : i < 2 ^ 63)
    (rest : List Instruction) :
    zeroStores? (store f base i ++ rest) = (zeroStores? rest).map (⟨f.ptr, i, f.element⟩ :: ·) := by
  rw [store]
  simp only [List.cons_append, List.nil_append]
  rw [zeroStores?, Value.count?_ofCount hi, Option.bind_eq_bind, Option.bind_some,
    if_pos ⟨rfl, rfl⟩]
  exact (Option.map_eq_bind ..).symm

theorem zeroStores?_code {f : Fill} (hcount : f.count < 2 ^ 32) (base : Nat) :
    zeroStores? (code f base) = some (row f.ptr f.element f.count) := by
  have hrow : ∀ is : List Nat, (∀ i ∈ is, i < 2 ^ 63) → zeroStores? (is.flatMap (store f base)) =
      some (is.map (⟨f.ptr, ·, f.element⟩)) := by
    intro is his
    induction is with
    | nil => rfl
    | cons i is ih =>
      rw [List.flatMap_cons, zeroStores?_store f base (his i List.mem_cons_self),
        ih fun j hj => his j (List.mem_cons_of_mem _ hj)]
      rfl
  refine hrow _ fun i hi => ?_
  have hlt := List.mem_range.1 hi
  omega

/-! ### A whole fill -/

/-- What takes the place of a call at a site that is read as a fill of `n` bytes.  The code consists
of `n / alloc` pairs of an address and a store of zero, for the elements `0, 1, ...` of the pointer
that is filled: the destination, or the pointer behind it where the destination is a cast.  The
bytes that the stores write are apart from each other and below `n`, and they are all bytes below
`n` just when there are none or `store` is `alloc`. -/
def WritesZeros (m : Module) (s : Site) (call : Call) (r : Replacement) : Prop :=
  ∃ n dest ptr element alloc store b function,
    call.args[2]?.bind (·.count?) = some n ∧ call.args[0]? = some dest ∧
    ptr = ((m.reinterpretation? call.caller dest).map (·.source)).getD dest ∧
    m.valueType? call.caller ptr = some (.ptr element) ∧
    m.layout.allocSize element = .ok alloc ∧ m.layout.storeSize element = .ok store ∧
    m.functionAt? s = some call.caller ∧ call.caller.blocks[s.block]? = some b ∧
    b.instructions[s.index]? = some (.call call.result function call.args call.ty call.align) ∧
    ((m.replaceCall s r).functionAt? s).bind (·.blocks[s.block]?) = some { b with
      instructions :=
        b.instructions.take s.index ++ r.code ++ b.instructions.drop (s.index + 1) } ∧
    let stores := row ptr element (n / alloc)
    zeroStores? r.code = some stores ∧
      (stores.Pairwise fun a b => a.index * alloc + store ≤ b.index * alloc) ∧
      (∀ a ∈ stores, a.index * alloc + store ≤ n) ∧
      ((∀ b, Writes alloc store stores b ↔ b < n) ↔ n = 0 ∨ store = alloc)

theorem writesZeros_of_replace {m : Module} {s : Site} {call : Call} {r : Replacement}
    (hcall : m.callAt s = .ok call) (h : (replace m call).result = .ok r) :
    WritesZeros m s call r := by
  obtain ⟨b, function, hcaller, hb, hi, hafter⟩ := Module.exists_block_of_callAt hcall
  obtain ⟨f, base, hf, -, rfl⟩ := replace_eq_ok.1 h
  obtain ⟨hdest, n, alloc, hbytes, halloc, hpos, hmod, hcount, hlt⟩ := ofCall_eq_ok hf
  obtain ⟨hty, dest, harg, hptr⟩ := destination_eq_ok hdest
  obtain ⟨store, hstore, hle⟩ := DataLayout.exists_storeSize halloc
  obtain ⟨size, hsize, hn⟩ := Call.constArg_eq_ok.1 hbytes
  have htotal : n / alloc * alloc = n := Nat.div_mul_cancel (Nat.dvd_of_mod_eq_zero hmod)
  have hrow := inRow_row f.ptr f.element alloc (n / alloc)
  refine ⟨n, dest, f.ptr, f.element, alloc, store, b, function, ?_, harg, ?_, hty, halloc, hstore,
    hcaller, hb, hi, hafter _ rfl, ?_, hrow.pairwise hle, ?_, ?_⟩
  · rw [hsize, Option.bind_some, hn]
  · rcases hptr with ⟨-, hptr, hnone⟩ | ⟨r, hr, -, hptr⟩
    · rw [hnone, hptr]
      rfl
    · rw [hr, hptr]
      rfl
  · rw [← hcount]
    exact zeroStores?_code hlt base
  · have hstop := hrow.stop_le hle
    rwa [htotal] at hstop
  · have hwrites := hrow.forall_covered_iff hle hpos
    rwa [htotal] at hwrites

/-- **The bytes of lowered fills.**  Every fill that is accepted is replaced by stores of zero, and
so is every fill that is replaced in a run. -/
theorem stores_of_replace (m : Module) :
    (∀ (s : Site) (call : Call) (r : Replacement), m.callAt s = .ok call →
      (Lowering.zeroFill.replace m call).result = .ok r → WritesZeros m s call r) ∧
    ∀ v ∈ Lowering.zeroFill.visits m,
      WritesZeros v.module v.call.site v.call v.replacement := by
  refine ⟨fun s call r hcall h => writesZeros_of_replace hcall h, fun v hv => ?_⟩
  obtain ⟨hof, -⟩ := Lowering.of_mem_visits hv
  exact writesZeros_of_replace hof.callAt hof.replace

/-- A kernel that fills two vectors of three words, each of which has room for a fourth. -/
def paddedFill : Module where
  name := "padded"
  functions := [.declare "llvm.memset" .void [.ptr (.int 8), .int 8, .int 64, .int 1],
    { name := "kernel", returnType := .void, params := [(0, .ptr (.vector 3 (.int 32)))]
      blocks := [⟨0, [.cast 1 (.temp 0) (.ptr (.int 8)),
        .call none (.function "llvm.memset") [.temp 1, .const 0, .const 32, .const 0] .void none,
        .ret none]⟩] }]

/-- The two stores write 12 bytes each, and leave the fourth words as they were. -/
theorem stores_of_replace_padded :
    ∃ v ∈ Lowering.zeroFill.visits paddedFill, v.call.site = ⟨1, 0, 1⟩ ∧
      zeroStores? v.replacement.code = some (row (.temp 0) (.vector 3 (.int 32)) 2) ∧
      ¬ ∀ b, Writes 16 12 (row (.temp 0) (.vector 3 (.int 32)) 2) b ↔ b < 32 := by
  obtain ⟨⟨_, call, r⟩, hvisits, rfl, hcall⟩ : ∃ v : Visit,
      Lowering.zeroFill.visits paddedFill = [v] ∧ paddedFill = v.module ∧
      paddedFill.callAt ⟨1, 0, 1⟩ = .ok v.call := ⟨_, rfl, rfl, rfl⟩
  have hvisit : ⟨paddedFill, call, r⟩ ∈ Lowering.zeroFill.visits paddedFill := by
    rw [hvisits]
    exact List.mem_singleton_self _
  obtain ⟨n, dest, ptr, element, alloc, store, b, function, hn, hdest, hptr, hty, halloc, hstore,
    -, -, -, -, hstores, -, -, hall⟩ := (stores_of_replace paddedFill).2 _ hvisit
  obtain rfl := Except.ok.inj hcall
  obtain rfl : 32 = n := Option.some.inj hn
  obtain rfl := Option.some.inj hdest
  obtain rfl : ptr = .temp 0 := hptr
  obtain rfl : Ty.vector 3 (.int 32) = element := Ty.ptr.inj (Option.some.inj hty)
  obtain rfl : 16 = alloc := Except.ok.inj halloc
  obtain rfl : 12 = store := Except.ok.inj hstore
  exact ⟨_, hvisit, rfl, hstores, fun h => absurd (hall.1 h) (by decide)⟩

end ZeroFill

end KernelIR

import KernelIR.Proofs.Addressing
import KernelIR.Proofs.Rows
import KernelIR.Proofs.Visits
import KernelIR.Proofs.WellFormed

/-!
# The bytes that a copy moves

The code of a block copy computes addresses and calls, for each pair of them, a function that moves
one element.  `BlockCopy.moves?` reads the moves off the code.  Where the elements lie without room
between them, the moves cover the bytes of the copy one after the other, and where they do not,
something is missed or moved beyond the end (`BlockCopy.moves_of_replace`).
-/

namespace KernelIR

/-- What a pointer points to, as seen inside `f`. -/
def Module.target? (m : Module) (f : Function) (v : Value) : Option Ty :=
  (m.valueType? f v).bind Ty.pointee?

theorem Value.count?_ofCount {n : Nat} (h : n < 2 ^ 63) : (ofCount n).count? = some n := by
  have hint : (Int64.ofNat n).toInt = n := Int64.toInt_ofNat_of_lt h
  show (if 0 ≤ (Int64.ofNat n).toInt then some (Int64.ofNat n).toInt.toNat else none) = some n
  rw [hint, if_pos (by omega), Int.toNat_natCast]

namespace BlockCopy

/-- A pointer that the code got from elsewhere, and the distance from it in bytes. -/
structure Address where
  root : Value
  offset : Nat
  deriving DecidableEq

/-- One element that is moved. -/
structure Move where
  dest : Address
  src : Address
  deriving DecidableEq

/-- The addresses that temporaries hold, as far as the code computed them. -/
abbrev Addresses := TempId → Option Address

/-- The address that an operand stands for. -/
def Addresses.of (known : Addresses) : Value → Address
  | .temp t => (known t).getD ⟨.temp t, 0⟩
  | v => ⟨v, 0⟩

/-- The addresses after one more was computed. -/
def Addresses.set (known : Addresses) (t : TempId) (a : Address) : Addresses :=
  fun u => if u = t then some a else known u

/-- The moves that code makes, in order, where `pointee?` gives what the pointers point to and
`copier` is the function that moves one element. -/
def moves? (layout : DataLayout) (pointee? : Value → Option Ty) (copier : String)
    (known : Addresses) : List Instruction → Option (List Move)
  | [] => some []
  | .elementPtr result ptr indices _ :: is => do
    let offset ← layout.elementOffset? (← pointee? ptr) (← indices.mapM (·.count?))
    let start := known.of ptr
    moves? layout pointee? copier (known.set result ⟨start.root, start.offset + offset⟩) is
  | .call none (.function name) (dest :: src :: _) _ _ :: is => do
    if name = copier then
      return ⟨known.of dest, known.of src⟩ :: (← moves? layout pointee? copier known is)
    else none
  | _ :: _ => none

/-! ### Constant indices -/

theorem mapM_count?_indices (depth : Nat) {i : Nat} (h : i < 2 ^ 63) :
    (indices depth i).mapM (·.count?) = some (List.replicate depth 0 ++ [i]) := by
  induction depth with
  | zero =>
    show (do let n ← (Value.ofCount i).count?; return [n]) = some [i]
    rw [Value.count?_ofCount h]
    rfl
  | succ depth ih =>
    have hcons : indices (depth + 1) i = .ofCount 0 :: indices depth i := rfl
    rw [hcons, List.mapM_cons, ih, Value.count?_ofCount (by decide)]
    rfl

/-! ### The pointers of a copy -/

theorem mem_tempIds_of_tempType? {f : Function} {t : TempId} {ty : Ty}
    (h : f.tempType? t = some ty) : t ∈ f.tempIds := by
  unfold Function.tempType? at h
  split at h
  · next t' ty' hfind =>
    have ht : t' = t := by simpa using List.find?_some hfind
    exact List.mem_append_left _ (List.mem_map.2 ⟨_, List.mem_of_find?_eq_some hfind, ht⟩)
  · obtain ⟨i, hi, -⟩ := Option.bind_eq_some_iff.1 h
    have ht : i.result? = some t := by simpa using List.find?_some hi
    exact List.mem_append_right _ (List.mem_filterMap.2 ⟨i, List.mem_of_find?_eq_some hi, ht⟩)

variable {m : Module} {call : Call}

/-- The pointer behind the cast points to the given type. -/
theorem valueType?_of_pointerArg {i : Nat} {r : Reinterpretation}
    (h : pointerArg m call i = .ok r) :
    m.valueType? call.caller r.source = some (.ptr r.pointee) := by
  obtain ⟨v, -, hr⟩ := pointerArg_eq_ok.1 h
  exact (Module.reinterpretation?_eq_some hr).2.1

/-! ### The moves of the code -/

section Moves

variable {layout : DataLayout} {pointee? : Value → Option Ty} {base : String} {c : Copy}
  {first : Nat} {start destStart srcStart : Nat → Nat} {known : Addresses}

/-- The `count` elements that the indices reach from a pointer lie where `start` says, and the
pointer is older than the temporaries of the code. -/
structure Reaches (layout : DataLayout) (pointee? : Value → Option Ty) (first count : Nat)
    (start : Nat → Nat) (r : Reinterpretation) (depth : Nat) : Prop where
  old : ∀ t, r.source.temp? = some t → t.toNat < first
  pointee : pointee? r.source = some r.pointee
  offset : ∀ i < count,
    layout.elementOffset? r.pointee (List.replicate depth 0 ++ [i]) = some (start i)

/-- A pointer that the code did not compute. -/
theorem Addresses.of_eq {v : Value} (h : ∀ t, v.temp? = some t → known t = none) :
    known.of v = ⟨v, 0⟩ := by
  cases v with
  | temp t => rw [of, h t rfl, Option.getD_none]
  | _ => rfl

theorem Addresses.of_set_self (known : Addresses) (t : TempId) (a : Address) :
    (known.set t a).of (.temp t) = a := by
  rw [of, set, if_pos rfl, Option.getD_some]

theorem Addresses.of_set_of_ne {t u : TempId} (h : u ≠ t) (a : Address) :
    (known.set t a).of (.temp u) = known.of (.temp u) := by
  rw [of, of, set, if_neg h]

theorem Addresses.set_of_lt {i : Nat} (h : first + i < 2 ^ 32)
    (hknown : ∀ t : TempId, t.toNat < first → known t = none) (a : Address) :
    ∀ t : TempId, t.toNat < first → known.set (UInt32.ofNat (first + i)) a t = none := by
  intro t ht
  have hne : t ≠ UInt32.ofNat (first + i) := by
    rintro rfl
    rw [UInt32.toNat_ofNat_of_lt' h] at ht
    omega
  rw [set, if_neg hne, hknown t ht]

/-- The address of an element. -/
theorem moves?_elementPtr {copier : String} {r : Reinterpretation} {depth count i : Nat}
    (h : Reaches layout pointee? first count start r depth)
    (hknown : ∀ t : TempId, t.toNat < first → known t = none) (hi : i < count)
    (hcount : count < 2 ^ 63) (result : TempId) (ty : Ty) (is : List Instruction) :
    moves? layout pointee? copier known (.elementPtr result r.source (indices depth i) ty :: is) =
      moves? layout pointee? copier (known.set result ⟨r.source, start i⟩) is := by
  rw [moves?, h.pointee, mapM_count?_indices depth (hi.trans hcount),
    Addresses.of_eq fun t ht => hknown t (h.old t ht)]
  simp [h.offset i hi]

/-- The code of one element makes one move. -/
theorem moves?_copyElement (base : String) {i : Nat} (hi : i < c.count)
    (hfirst : first + 2 * c.count < 2 ^ 32)
    (hdest : Reaches layout pointee? first c.count destStart c.request.dest c.shape.destDepth)
    (hsrc : Reaches layout pointee? first c.count srcStart c.request.src c.shape.srcDepth)
    (hknown : ∀ t : TempId, t.toNat < first → known t = none) :
    ∃ known' : Addresses, (∀ t : TempId, t.toNat < first → known' t = none) ∧ ∀ rest,
      moves? layout pointee? (primitive base c.shape.element).name known
          (copyElement base c first i ++ rest) =
        (moves? layout pointee? (primitive base c.shape.element).name known' rest).map
          (⟨⟨c.request.dest.source, destStart i⟩, ⟨c.request.src.source, srcStart i⟩⟩ :: ·) := by
  have hknown₁ := Addresses.set_of_lt (i := 2 * i) (by omega) hknown
    ⟨c.request.src.source, srcStart i⟩
  have hknown₂ := Addresses.set_of_lt (i := 2 * i + 1) (by omega) hknown₁
    ⟨c.request.dest.source, destStart i⟩
  refine ⟨_, hknown₂, fun rest => ?_⟩
  have hne : UInt32.ofNat (first + 2 * i) ≠ UInt32.ofNat (first + 2 * i + 1) := by
    intro he
    have hnat := Function.ofNat_inj_of_lt (by omega) (by omega) he
    omega
  rw [copyElement]
  simp only [List.cons_append, List.nil_append]
  rw [moves?_elementPtr hsrc hknown hi (by omega), moves?_elementPtr hdest hknown₁ hi (by omega)]
  rw [copyCall, moves?, if_pos rfl, Addresses.of_set_self, Addresses.of_set_of_ne hne,
    Addresses.of_set_self]
  exact (Option.map_eq_bind ..).symm

/-- Moves of the elements that lie where `destStart` and `srcStart` say. -/
def rowAt (dest src : Value) (destStart srcStart : Nat → Nat) (count : Nat) : List Move :=
  (List.range count).map fun i => ⟨⟨dest, destStart i⟩, ⟨src, srcStart i⟩⟩

/-- Moves of neighbours at the distance `stride`. -/
def row (dest src : Value) (stride count : Nat) : List Move :=
  (List.range count).map fun i => ⟨⟨dest, i * stride⟩, ⟨src, i * stride⟩⟩

theorem rowAt_eq_row {dest src : Value} {stride : Nat} (hdest : ∀ i, destStart i = i * stride)
    (hsrc : ∀ i, srcStart i = i * stride) (count : Nat) :
    rowAt dest src destStart srcStart count = row dest src stride count := by
  simp only [rowAt, row, hdest, hsrc]

/-- The code of several elements makes a move for each. -/
theorem moves?_elements (base : String) (hfirst : first + 2 * c.count < 2 ^ 32)
    (hdest : Reaches layout pointee? first c.count destStart c.request.dest c.shape.destDepth)
    (hsrc : Reaches layout pointee? first c.count srcStart c.request.src c.shape.srcDepth)
    {is : List Nat} (his : ∀ i ∈ is, i < c.count)
    (hknown : ∀ t : TempId, t.toNat < first → known t = none) :
    moves? layout pointee? (primitive base c.shape.element).name known
        (is.flatMap (copyElement base c first)) =
      some (is.map fun i =>
        ⟨⟨c.request.dest.source, destStart i⟩, ⟨c.request.src.source, srcStart i⟩⟩) := by
  -- what is known grows, but never below `first`
  induction is generalizing known with
  | nil => rfl
  | cons i is ih =>
    have hrest : ∀ j ∈ is, j < c.count := fun j hj => his j (List.mem_cons_of_mem _ hj)
    obtain ⟨known', hknown', hmoves⟩ :=
      moves?_copyElement base (his i List.mem_cons_self) hfirst hdest hsrc hknown
    rw [List.flatMap_cons, hmoves, ih hrest hknown']
    rfl

/-- The code of a copy moves the elements one after the other. -/
theorem moves?_code (hfirst : first + c.temps < 2 ^ 32)
    (hdest : Reaches layout pointee? first c.count destStart c.request.dest c.shape.destDepth)
    (hsrc : Reaches layout pointee? first c.count srcStart c.request.src c.shape.srcDepth) :
    moves? layout pointee? (primitive base c.shape.element).name (fun _ => none)
        (code base c first) =
      some (rowAt c.request.dest.source c.request.src.source destStart srcStart c.count) := by
  unfold code
  by_cases hwhole : c.isWhole
  · -- one call on the pointers themselves
    obtain ⟨⟨hdepth, hdepth'⟩, hcount⟩ :
        (c.shape.destDepth = 0 ∧ c.shape.srcDepth = 0) ∧ c.count = 1 := by
      simpa [Copy.isWhole] using hwhole
    rw [hdepth, hcount] at hdest
    rw [hdepth', hcount] at hsrc
    have hzero : destStart 0 = 0 := DataLayout.elementOffset?_zero (hdest.offset 0 Nat.one_pos)
    have hzero' : srcStart 0 = 0 := DataLayout.elementOffset?_zero (hsrc.offset 0 Nat.one_pos)
    rw [if_pos hwhole, hcount, copyCall, moves?, if_pos rfl, Addresses.of_eq fun _ _ => rfl,
      Addresses.of_eq fun _ _ => rfl, moves?]
    simp [rowAt, hzero, hzero']
  · rw [Copy.temps, if_neg hwhole] at hfirst
    rw [if_neg hwhole]
    exact moves?_elements base hfirst hdest hsrc (fun i hi => List.mem_range.1 hi) fun _ _ => rfl

end Moves

/-- The byte is moved by one of the moves of the given size. -/
def Covers (size : Nat) (moves : List Move) (b : Nat) : Prop :=
  Covered (fun mv : Move => mv.dest.offset) size moves b

theorem inRow_row (dest src : Value) (stride count : Nat) :
    InRow (fun mv : Move => mv.dest.offset) stride count (row dest src stride count) := by
  simp [InRow, row]

/-! ### A whole copy -/

theorem reaches_of_pointerArg {i first count depth : Nat} {start : Nat → Nat} {r : Reinterpretation}
    (h : pointerArg m call i = .ok r) (hfirst : first = call.caller.nextTemp)
    (hoffset : ∀ i < count, m.layout.elementOffset? r.pointee (List.replicate depth 0 ++ [i]) =
      some (start i)) :
    Reaches m.layout (m.target? call.caller) first count start r depth := by
  have hty := valueType?_of_pointerArg h
  refine ⟨fun t ht => ?_, ?_, hoffset⟩
  · cases hsource : r.source with
    | temp u =>
      rw [hsource] at ht hty
      obtain rfl : u = t := Option.some.inj ht
      rw [hfirst]
      exact Function.lt_nextTemp (mem_tempIds_of_tempType? hty)
    | const | zero | global | function | undef =>
      rw [hsource] at ht
      exact nomatch ht
  · rw [Module.target?, hty]
    rfl

/-- The call is accepted as a copy that is divided into elements, and its code has the temporaries
from `first` on. -/
structure Divides (m : Module) (call : Call) (c : Copy) (first : Nat) : Prop where
  request : ofCall m call = .ok c.request
  shape : (matchTypes m.layout c.request.dest.pointee c.request.src.pointee
    c.request.bytes).result = .ok c.shape
  divide : BlockCopy.divide m.layout call c.request c.shape = .ok c
  reserve : call.caller.reserve? c.temps = some first

theorem Divides.count_lt {c : Copy} {first : Nat} (h : Divides m call c first) :
    c.count < 2 ^ 32 := by
  obtain ⟨-, -, bits, -, -, -, -, hlt⟩ := divide_eq_ok h.divide
  exact hlt

/-- The code of an accepted copy: none if it copies nothing, or else that of its division into
elements. -/
theorem code_of_replace {base : String} {req : Request} {r : Replacement}
    (hreq : ofCall m call = .ok req) (h : (replace base m call).result = .ok r) :
    req.bytes = 0 ∧ r.code = [] ∨
    ∃ c first bits, c.request = req ∧ Divides m call c first ∧ r.code = code base c first ∧
      m.layout.sizeInBits c.shape.element = .ok bits ∧ 0 < bits / 8 ∧
      c.count * (bits / 8) = req.bytes ∧ c.count = req.bytes / (bits / 8) ∧ 0 < c.count := by
  obtain ⟨req', hreq', hcopy⟩ := replace_eq_ok.1 h
  obtain rfl : req = req' := Except.ok.inj (hreq.symm.trans hreq')
  obtain ⟨hzero, rfl⟩ | ⟨hbytes, shape, c, first, hshape, hdivide, hfirst, rfl⟩ := hcopy
  · exact .inl ⟨hzero, rfl⟩
  · obtain ⟨rfl, rfl, bits, hbits, hsize, hmod, hcount, -⟩ := divide_eq_ok hdivide
    have hdvd : bits / 8 ∣ c.request.bytes := Nat.dvd_of_mod_eq_zero hmod
    have htotal : c.count * (bits / 8) = c.request.bytes := by
      rw [hcount, Nat.div_mul_cancel hdvd]
    have hpos : 0 < c.count :=
      hcount ▸ Nat.div_pos (Nat.le_of_dvd (Nat.pos_of_ne_zero hbytes) hdvd) hsize
    exact .inr ⟨c, first, bits, rfl, ⟨hreq, hshape, hdivide, hfirst⟩, rfl, hbits, hsize, htotal,
      hcount, hpos⟩

/-- Where every element has a place on both sides, the code moves it from its place to its place. -/
theorem Divides.moves?_code {c : Copy} {first bits alloc : Nat} (h : Divides m call c first)
    (base : String) (hbits : m.layout.sizeInBits c.shape.element = .ok bits)
    (halloc : m.layout.allocSize c.shape.element = .ok alloc)
    (hdest : c.request.dest.pointee.HoldsRow c.shape.destDepth c.shape.element c.count)
    (hsrc : c.request.src.pointee.HoldsRow c.shape.srcDepth c.shape.element c.count) :
    moves? m.layout (m.target? call.caller) (primitive base c.shape.element).name (fun _ => none)
        (code base c first) =
      some (rowAt c.request.dest.source c.request.src.source
        (c.request.dest.pointee.elementStart c.shape.destDepth bits alloc)
        (c.request.src.pointee.elementStart c.shape.srcDepth bits alloc) c.count) := by
  obtain ⟨hnext, hlt⟩ := Function.reserve?_eq_some h.reserve
  obtain ⟨hdestArg, hsrcArg⟩ := ofCall_eq_ok h.request
  obtain ⟨hdestTy, hsrcTy, -⟩ := matchTypes_eq_ok h.shape
  refine BlockCopy.moves?_code hlt (reaches_of_pointerArg hdestArg hnext fun i hi => ?_)
    (reaches_of_pointerArg hsrcArg hnext fun i hi => ?_)
  · exact DataLayout.elementOffset?_indices hdestTy hbits halloc hdest hi
  · exact DataLayout.elementOffset?_indices hsrcTy hbits halloc hsrc hi

/-- What the code of a copy of `n` bytes moves.  The copy is divided into elements of `bits / 8`
bytes.  If this is the distance of neighbours, and the last index on either side runs over an array
or a vector (or over pointees), then the `i`-th call moves the `i`-th element on both sides and the
calls move the bytes below `n`, each once and in order.  Otherwise, with more than one element and
with arrays as the last types unpacked, the calls do not move just these bytes. -/
def MovesBytes (base : String) (m : Module) (call : Call) (req : Request)
    (code : List Instruction) : Prop :=
  ∃ shape bits store alloc,
    (matchTypes m.layout req.dest.pointee req.src.pointee req.bytes).result = .ok shape ∧
    m.layout.sizeInBits shape.element = .ok bits ∧
    m.layout.storeSize shape.element = .ok store ∧
    m.layout.allocSize shape.element = .ok alloc ∧
    let moves := moves? m.layout (m.target? call.caller) (primitive base shape.element).name
      (fun _ => none) code
    let elements := row req.dest.source req.src.source alloc (req.bytes / (bits / 8))
    (bits = 8 * alloc →
      (∀ v, req.dest.pointee.lastUnpacked? shape.destDepth = some v → v.element?.isSome) →
      (∀ v, req.src.pointee.lastUnpacked? shape.srcDepth = some v → v.element?.isSome) →
      moves = some elements ∧
        (elements.Pairwise fun a b => a.dest.offset + store ≤ b.dest.offset) ∧
        ∀ b, Covers store elements b ↔ b < req.bytes) ∧
    (1 < req.bytes / (bits / 8) →
      (∀ v, req.dest.pointee.lastUnpacked? shape.destDepth = some v → ∃ n t, v = .array n t) →
      (∀ v, req.src.pointee.lastUnpacked? shape.srcDepth = some v → ∃ n t, v = .array n t) →
      moves = some elements ∧
        ((∀ b, Covers store elements b ↔ b < req.bytes) → bits = 8 * alloc))

theorem movesBytes_of_replace {base : String} {req : Request} {r : Replacement}
    (hreq : ofCall m call = .ok req) (hn : 0 < req.bytes)
    (h : (replace base m call).result = .ok r) : MovesBytes base m call req r.code := by
  obtain ⟨hzero, -⟩ | ⟨c, first, bits, rfl, hc, hcode, hbits, hsize, htotal, hcount, -⟩ :=
    code_of_replace hreq h
  · omega
  · obtain ⟨store, align, alloc, hm⟩ := DataLayout.exists_measures hbits
    have hle := hm.bits_le
    have hstore := hm.store_le
    have hrow := inRow_row c.request.dest.source c.request.src.source alloc c.count
    refine ⟨c.shape, bits, store, alloc, hc.shape, hbits, hm.store_eq, hm.alloc_eq, ?_⟩
    rw [hcode, ← hcount]
    refine ⟨fun hdense hdest hsrc => ?_, fun hmany hdest hsrc => ?_⟩
    · have hmoves := hc.moves?_code base hbits hm.alloc_eq (Ty.holdsRow_of_element? hdest)
        (Ty.holdsRow_of_element? hsrc)
      obtain rfl : store = alloc := by omega
      obtain rfl : bits / 8 = store := by omega
      have hstart {t : Ty} {depth : Nat} := @Ty.elementStart_of_dense t depth _ _ hdense
      rw [rowAt_eq_row hstart hstart] at hmoves
      refine ⟨hmoves, hrow.pairwise (Nat.le_refl _), fun b => ?_⟩
      rw [← htotal]
      exact hrow.covered_dense hsize b
    · have hmoves := hc.moves?_code base hbits hm.alloc_eq (Ty.holdsRow_of_array hdest)
        (Ty.holdsRow_of_array hsrc)
      rw [rowAt_eq_row (Ty.elementStart_of_array hdest) (Ty.elementStart_of_array hsrc)] at hmoves
      refine ⟨hmoves, fun hcovers => ?_⟩
      have hstride := hrow.stride_eq_of_covered hmany hsize (by omega) hstore fun b hb => by
        rw [htotal]
        exact (hcovers b).1 hb
      omega

/-- **The bytes of lowered copies.**  Every copy that is accepted moves its bytes, and so does every
copy that is replaced in a run. -/
theorem moves_of_replace (base : String) (m : Module) :
    (∀ (call : Call) (req : Request) (r : Replacement), ofCall m call = .ok req → 0 < req.bytes →
      (replace base m call).result = .ok r → MovesBytes base m call req r.code) ∧
    ∀ v ∈ (Lowering.blockCopy base).visits m, ∃ req, ofCall v.module v.call = .ok req ∧
      (0 < req.bytes → MovesBytes base v.module v.call req v.replacement.code) := by
  refine ⟨fun call req r hreq hn h => movesBytes_of_replace hreq hn h, fun v hv => ?_⟩
  obtain ⟨hof, -⟩ := Lowering.of_mem_visits hv
  obtain ⟨req, hreq, -⟩ := replace_eq_ok.1 hof.replace
  exact ⟨req, hreq, fun hn => movesBytes_of_replace hreq hn hof.replace⟩

/-- A call that copies `bytes` bytes between pointers to the given types. -/
def castCopy (dest src : Ty) (bytes : Int64) (align : UInt64) : Call where
  site := ⟨1, 0, 2⟩
  caller :=
    { name := "kernel", returnType := .void, params := [(0, .ptr dest), (1, .ptr src)]
      blocks := [⟨0, [.cast 2 (.temp 0) (.ptr (.int 8)), .cast 3 (.temp 1) (.ptr (.int 8)),
        .call none (.function "llvm.memcpy") [.temp 2, .temp 3, .const bytes, .const 0] .void
          (some align),
        .ret none]⟩] }
  callee := "llvm.memcpy"
  result := none
  args := [.temp 2, .temp 3, .const bytes, .const 0]
  ty := .void
  align := some align

/-- The module of the call. -/
def castCopyModule (dest src : Ty) (bytes : Int64) (align : UInt64) : Module where
  name := "casts"
  functions := [.declare "llvm.memcpy" .void [.ptr (.int 8), .ptr (.int 8), .int 64, .int 1],
    (castCopy dest src bytes align).caller]

/-- If the copy is accepted, then a run replaces it. -/
theorem mem_visits_castCopyModule {base : String} {dest src : Ty} {bytes : Int64} {align : UInt64}
    {r : Replacement} (h : (replace base (castCopyModule dest src bytes align)
      (castCopy dest src bytes align)).result = .ok r) :
    ⟨castCopyModule dest src bytes align, castCopy dest src bytes align, r⟩ ∈
      (Lowering.blockCopy base).visits (castCopyModule dest src bytes align) := by
  have hcopy : Family.of? "llvm.memcpy" = some .blockCopy := by decide +kernel
  have hkernel : Family.of? "kernel" = none := by decide +kernel
  have hnames : (castCopyModule dest src bytes align).namesIn (some .blockCopy) =
      ["llvm.memcpy"] := by
    simp [Module.namesIn, castCopyModule, castCopy, Function.declare, hcopy, hkernel]
  have hsites : (castCopyModule dest src bytes align).callSites "llvm.memcpy" = [⟨1, 0, 2⟩] := rfl
  have hcall : (castCopyModule dest src bytes align).callAt ⟨1, 0, 2⟩ =
      .ok (castCopy dest src bytes align) := rfl
  refine List.mem_filterMap.2 ⟨.call (castCopyModule dest src bytes align) "llvm.memcpy" ⟨1, 0, 2⟩,
    ?_, ?_⟩
  · rw [Lowering.accesses, Lowering.blockCopy, hnames, Lowering.accessesIn, hsites]
    exact List.mem_append_left _ List.mem_cons_self
  · simp only [Lowering.visit?, hcall, Lowering.blockCopy, h]

/-- A square of words is copied to a row of them: the square is unpacked twice and the row once, and
the 16 bytes are moved word by word. -/
theorem moves_of_replace_flatten :
    let m := castCopyModule (.array 4 (.int 32)) (.array 2 (.array 2 (.int 32))) 16 4
    ∃ v ∈ (Lowering.blockCopy "copy").visits m, v.module = m ∧ v.call.site = ⟨1, 0, 2⟩ ∧
      moves? m.layout (m.target? v.call.caller) "copy.p0i32" (fun _ => none) v.replacement.code =
        some (row (.temp 0) (.temp 1) 4 4) ∧
      ∀ b, Covers 4 (row (.temp 0) (.temp 1) 4 4) b ↔ b < 16 := by
  intro m
  have hmatch : (matchTypes m.layout (.array 4 (.int 32)) (.array 2 (.array 2 (.int 32)))
      16).result = .ok ⟨.int 32, 1, 2⟩ := by cbv
  obtain ⟨r, hr⟩ : ∃ r, (replace "copy" m
      (castCopy (.array 4 (.int 32)) (.array 2 (.array 2 (.int 32))) 16 4)).result = .ok r :=
    ⟨_, replace_eq_ok.2 ⟨_, rfl, .inr ⟨by decide, _, _, _, hmatch, rfl, rfl, rfl⟩⟩⟩
  have hvisit := mem_visits_castCopyModule hr
  refine ⟨_, hvisit, rfl, rfl, ?_⟩
  obtain ⟨req, hreq, hmoves⟩ := (moves_of_replace "copy" m).2 _ hvisit
  obtain rfl := Except.ok.inj hreq
  obtain ⟨shape, bits, store, alloc, hshape, hbits, hstore, halloc, hdense, -⟩ := hmoves (by decide)
  obtain rfl : shape = ⟨.int 32, 1, 2⟩ := Except.ok.inj (hshape.symm.trans hmatch)
  obtain rfl : 32 = bits := Except.ok.inj hbits
  obtain rfl : 4 = store := Except.ok.inj hstore
  obtain rfl : 4 = alloc := Except.ok.inj halloc
  have hdest : ∀ v, (Ty.array 4 (.int 32)).lastUnpacked? 1 = some v → v.element?.isSome := by
    intro v hv
    obtain rfl := Option.some.inj hv
    rfl
  have hsrc : ∀ v, (Ty.array 2 (.array 2 (.int 32))).lastUnpacked? 2 = some v →
      v.element?.isSome := by
    intro v hv
    obtain rfl := Option.some.inj hv
    rfl
  obtain ⟨hmoves, -, hcovers⟩ := hdense rfl hdest hsrc
  exact ⟨hmoves, hcovers⟩

end BlockCopy

end KernelIR

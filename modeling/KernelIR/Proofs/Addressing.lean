import KernelIR.Lowering.Copy
import KernelIR.Proofs.Matching

/-!
# Addresses of elements

`DataLayout.elementOffset?` is the meaning of the indices of an `elementPtr` instruction: how far
from the pointer the element lies.  The indices that a copy uses lead down to the element that the
types were matched to, and from there on to its neighbours; how far these are apart depends only on
the type that was unpacked last (`DataLayout.elementOffset?_indices`).
-/

namespace KernelIR

namespace Ty

/-- The type that the last of a number of steps down led away from. -/
def lastUnpacked? : Nat → Ty → Option Ty
  | 0, _ => none
  | k + 1, t => t.below? k

/-- If a struct was unpacked last, then it starts with `count` fields of the element type. -/
def HoldsRow (t : Ty) (depth : Nat) (element : Ty) (count : Nat) : Prop :=
  ∀ name fields packed, t.lastUnpacked? depth = some (.struct name fields packed) →
    ∀ i < count, fields[i]? = some element

/-- Where element `i` starts, `depth` steps down: the lanes of a vector are as far apart as their
bits say, and all other elements as far as in an array. -/
def elementStart (t : Ty) (depth bits alloc i : Nat) : Nat :=
  match t.lastUnpacked? depth with
  | some (.vector _ _) => i * bits / 8
  | _ => i * alloc

variable {t : Ty} {depth bits alloc : Nat}

/-- Where lanes have no room between them, they are as far apart as in an array. -/
theorem elementStart_of_dense (h : bits = 8 * alloc) (i : Nat) :
    t.elementStart depth bits alloc i = i * alloc := by
  unfold elementStart
  split
  · rw [h, Nat.mul_left_comm, Nat.mul_div_cancel_left _ (by decide)]
  · rfl

theorem elementStart_of_array
    (h : ∀ v, t.lastUnpacked? depth = some v → ∃ n e, v = .array n e) (i : Nat) :
    t.elementStart depth bits alloc i = i * alloc := by
  unfold elementStart
  split
  · next hlast =>
    obtain ⟨n, e, he⟩ := h _ hlast
    exact nomatch he
  · rfl

/-- Only structs have to hold a row. -/
theorem holdsRow_of_element? {element : Ty} {count : Nat}
    (h : ∀ v, t.lastUnpacked? depth = some v → v.element?.isSome) :
    t.HoldsRow depth element count := by
  intro name fields packed hlast
  exact nomatch h _ hlast

theorem holdsRow_of_array {element : Ty} {count : Nat}
    (h : ∀ v, t.lastUnpacked? depth = some v → ∃ n e, v = .array n e) :
    t.HoldsRow depth element count := by
  refine holdsRow_of_element? fun v hv => ?_
  obtain ⟨n, e, rfl⟩ := h v hv
  rfl

end Ty

namespace DataLayout

/-- Where a field of a struct starts. -/
def fieldStart? (layout : DataLayout) (packed : Bool) (fields : List Ty) (i : Nat) :
    Option Nat := do
  let field ← fields[i]?
  let before := (fields.take i).map (·.extent layout)
  let (stop, _) ← (before.foldlM (Extent.place packed) (0, 1)).toOption
  let align ← ((field.extent layout).fieldAlign packed).toOption
  (Quantity.roundUp stop align).toOption

/-- How far from the start of an object the part lies that the indices select: a field of a struct,
an element of an array or a lane of a vector each. -/
def partOffset? (layout : DataLayout) : Ty → List Nat → Option Nat
  | _, [] => some 0
  | .array _ t, i :: is => do
    return i * (← (layout.allocSize t).toOption) + (← partOffset? layout t is)
  | .vector _ t, i :: is => do
    return i * (← (layout.sizeInBits t).toOption) / 8 + (← partOffset? layout t is)
  | .struct _ fields packed, i :: is => do
    return (← layout.fieldStart? packed fields i) + (← partOffset? layout (← fields[i]?) is)
  | _, _ :: _ => none

/-- How far from a pointer the element lies that the indices lead to.  The first index steps over
whole pointees. -/
def elementOffset? (layout : DataLayout) (pointee : Ty) : List Nat → Option Nat
  | [] => some 0
  | i :: is => do
    return i * (← (layout.allocSize pointee).toOption) + (← layout.partOffset? pointee is)

variable {layout : DataLayout} {t u element : Ty} {bits : Nat}

/-- The first field of a struct starts where the struct starts. -/
theorem fieldStart?_zero {packed : Bool} {fields : List Ty} (hu : layout.sizeInBits u = .ok bits) :
    layout.fieldStart? packed (u :: fields) 0 = some 0 := by
  obtain ⟨store, align, alloc, hm⟩ := exists_measures hu
  obtain ⟨a, ha, hpos⟩ : ∃ a, (u.extent layout).fieldAlign packed = .ok a ∧ 0 < a := by
    cases packed with
    | true => exact ⟨1, rfl, by decide⟩
    | false => exact ⟨align, hm.align_eq, Quantity.pos_of_exists_two_pow hm.align_pow⟩
  have hround : Quantity.roundUp 0 a = .ok 0 :=
    Quantity.roundUp_of_dvd hpos (Nat.dvd_zero a) (by decide)
  show (((u.extent layout).fieldAlign packed).toOption.bind fun align =>
    (Quantity.roundUp 0 align).toOption) = some 0
  rw [ha]
  exact congrArg Except.toOption hround

/-- The index zero leads to the type one step down, and moves nowhere. -/
theorem partOffset?_zero_cons (h : t.descend? = some u) (hu : layout.sizeInBits u = .ok bits)
    (is : List Nat) : layout.partOffset? t (0 :: is) = layout.partOffset? u is := by
  obtain ⟨store, align, alloc, hm⟩ := exists_measures hu
  have halloc : layout.allocSize u = .ok alloc := hm.alloc_eq
  cases t with
  | array size e =>
    obtain rfl : e = u := Option.some.inj h
    rw [partOffset?, halloc]
    cases layout.partOffset? e is <;> simp [Except.toOption]
  | vector lanes e =>
    obtain rfl : e = u := Option.some.inj h
    rw [partOffset?, hu]
    cases layout.partOffset? e is <;> simp [Except.toOption]
  | struct name fields packed =>
    cases fields with
    | nil => exact nomatch h
    | cons e fields =>
      obtain rfl : e = u := Option.some.inj h
      rw [partOffset?, fieldStart?_zero hu]
      cases hrest : layout.partOffset? e is <;> simp [hrest]
  | void | int | ptr | function => exact nomatch h

theorem partOffset?_of_unpacks {k : Nat} (h : layout.Unpacks t k u)
    (hu : layout.sizeInBits u = .ok bits) (is : List Nat) :
    layout.partOffset? t (List.replicate k 0 ++ is) = layout.partOffset? u is := by
  induction h with
  | refl => rfl
  | step _ hdescend h ih =>
    obtain ⟨bits', hv⟩ := h.exists_size hu
    rw [List.replicate_succ, List.cons_append, partOffset?_zero_cons hdescend hv, ih hu]

/-! ### Structs that start with a row -/

/-- After fields of its own type a field needs no padding. -/
theorem eq_mul_of_roundUp {packed : Bool} {e : Extent} {store align alloc a k start : Nat}
    (hm : e.Measures bits store align alloc) (ha : e.fieldAlign packed = .ok a)
    (h : Quantity.roundUp (k * alloc) a = .ok start) : start = k * alloc := by
  obtain ⟨hpos, hdvd⟩ : 0 < a ∧ a ∣ alloc := by
    cases packed with
    | true =>
      obtain rfl : 1 = a := Except.ok.inj ha
      exact ⟨Nat.one_pos, Nat.one_dvd alloc⟩
    | false =>
      obtain rfl : align = a := Except.ok.inj (hm.align_eq.symm.trans ha)
      exact ⟨Quantity.pos_of_exists_two_pow hm.align_pow, hm.align_dvd⟩
  obtain ⟨hle, hlt, hstart⟩ := Quantity.le_of_roundUp hpos h
  have hzero : start - k * alloc = 0 :=
    Nat.eq_zero_of_dvd_of_lt (Nat.dvd_sub hstart (Nat.dvd_mul_left_of_dvd hdvd k)) (by omega)
  omega

/-- Fields of one type are placed at the multiples of its distance in an array. -/
theorem stop_of_place_replicate {packed : Bool} {e : Extent} {store align alloc : Nat}
    (hm : e.Measures bits store align alloc) {n k : Nat} {state : Nat × Nat} {largest : Nat}
    (h : (List.replicate n e).foldlM (Extent.place packed) (k * alloc, largest) = .ok state) :
    state.1 = (k + n) * alloc := by
  induction n generalizing k largest with
  | zero =>
    obtain rfl := Except.ok.inj h
    rfl
  | succ n ih =>
    rw [List.replicate_succ, List.foldlM_cons, except_bind_eq_ok] at h
    obtain ⟨state', hplace, h⟩ := h
    obtain ⟨a, start, size, ha, hstart, hsize, -, rfl⟩ := Extent.place_eq_ok.1 hplace
    obtain rfl := eq_mul_of_roundUp hm ha hstart
    obtain rfl : alloc = size := Except.ok.inj (hm.alloc_eq.symm.trans hsize)
    rw [← Nat.succ_mul] at h
    rw [ih h, Nat.succ_add_eq_add_succ]

theorem take_eq_replicate {fields : List Ty} {n : Nat} (h : ∀ j < n, fields[j]? = some element) :
    fields.take n = List.replicate n element := by
  refine List.ext_getElem? fun j => ?_
  rw [List.getElem?_take, List.getElem?_replicate]
  split
  · next hj => exact h j hj
  · rfl

/-- The fields of a struct that has a size were all placed, and so were those of the row that it
starts with: the last of them right behind the others. -/
theorem exists_place_of_row {packed : Bool} {fields : List Ty} {store align alloc vbits i : Nat}
    {name : Option String} (hv : layout.sizeInBits (.struct name fields packed) = .ok vbits)
    (hm : (element.extent layout).Measures bits store align alloc)
    (hrow : fields.take (i + 1) = List.replicate (i + 1) element) :
    ∃ largest a, (List.replicate i (element.extent layout)).foldlM (Extent.place packed) (0, 1) =
        .ok (i * alloc, largest) ∧ (element.extent layout).fieldAlign packed = .ok a ∧
      Quantity.roundUp (i * alloc) a = .ok (i * alloc) := by
  obtain ⟨n, hn, -⟩ := except_bind_eq_ok.1 hv
  obtain ⟨_, hplace, -⟩ := except_bind_eq_ok.1 hn
  rw [Ty.extents_eq_map, ← List.take_append_drop (i + 1) fields, hrow, List.map_append,
    List.map_replicate, List.foldlM_append, except_bind_eq_ok] at hplace
  obtain ⟨_, hrow, -⟩ := hplace
  rw [List.replicate_succ', List.foldlM_append, except_bind_eq_ok] at hrow
  obtain ⟨⟨stop, largest⟩, hbefore, hlast⟩ := hrow
  have hstop : stop = i * alloc := by
    rw [← Nat.zero_mul alloc] at hbefore
    have hstop := stop_of_place_replicate hm hbefore
    rwa [Nat.zero_add] at hstop
  rw [List.foldlM_cons, except_bind_eq_ok] at hlast
  obtain ⟨_, hlast, -⟩ := hlast
  obtain ⟨a, start, size, ha, hstart, -, -, -⟩ := Extent.place_eq_ok.1 hlast
  rw [hstop] at hbefore hstart
  obtain rfl := eq_mul_of_roundUp hm ha hstart
  exact ⟨largest, a, hbefore, ha, hstart⟩

/-- A field of a struct that starts with a row lies where it would in an array. -/
theorem fieldStart?_of_row {packed : Bool} {fields : List Ty} {alloc vbits i : Nat}
    {name : Option String}
    (hv : layout.sizeInBits (.struct name fields packed) = .ok vbits)
    (hbits : layout.sizeInBits element = .ok bits) (halloc : layout.allocSize element = .ok alloc)
    (hfields : ∀ j ≤ i, fields[j]? = some element) :
    layout.fieldStart? packed fields i = some (i * alloc) := by
  obtain ⟨store, align, alloc', hm⟩ := exists_measures hbits
  obtain rfl : alloc = alloc' := Except.ok.inj (halloc.symm.trans hm.alloc_eq)
  have htake : fields.take i = List.replicate i element :=
    take_eq_replicate fun j hj => hfields j (Nat.le_of_lt hj)
  have hrow : fields.take (i + 1) = List.replicate (i + 1) element :=
    take_eq_replicate fun j hj => hfields j (Nat.le_of_lt_succ hj)
  obtain ⟨largest, a, hbefore, ha, hstart⟩ := exists_place_of_row hv hm hrow
  unfold fieldStart?
  rw [hfields i (Nat.le_refl i), htake, List.map_replicate]
  simp only [Option.bind_eq_bind, Option.bind_some, hbefore, ha, Except.toOption, hstart]

/-! ### The indices of a copy -/

/-- An index into what was unpacked last. -/
theorem partOffset?_singleton {vbits alloc i : Nat} (hv : layout.sizeInBits t = .ok vbits)
    (hdescend : t.descend? = some element) (hbits : layout.sizeInBits element = .ok bits)
    (halloc : layout.allocSize element = .ok alloc) (hrow : t.HoldsRow 1 element (i + 1)) :
    layout.partOffset? t [i] = some (t.elementStart 1 bits alloc i) := by
  cases t with
  | array n e =>
    obtain rfl : e = element := Option.some.inj hdescend
    rw [partOffset?, halloc]
    rfl
  | vector n e =>
    obtain rfl : e = element := Option.some.inj hdescend
    rw [partOffset?, hbits]
    rfl
  | struct name fields packed =>
    have hfields : ∀ j ≤ i, fields[j]? = some element := fun j hj =>
      hrow name fields packed rfl j (by omega)
    rw [partOffset?, fieldStart?_of_row hv hbits halloc hfields, hfields i (Nat.le_refl i)]
    rfl
  | void | int | ptr | function => exact nomatch hdescend

/-- **The elements of a copy** lie where the type that was unpacked last puts them, if it is no
struct or one that holds them all. -/
theorem elementOffset?_indices {depth alloc count i : Nat} (h : layout.Unpacks t depth element)
    (hbits : layout.sizeInBits element = .ok bits) (halloc : layout.allocSize element = .ok alloc)
    (hrow : t.HoldsRow depth element count) (hi : i < count) :
    layout.elementOffset? t (List.replicate depth 0 ++ [i]) =
      some (t.elementStart depth bits alloc i) := by
  cases depth with
  | zero =>
    cases h with
    | refl =>
      rw [List.replicate_zero, List.nil_append, elementOffset?, halloc]
      rfl
  | succ k =>
    obtain ⟨v, vbits, hv, hvbits, hdescend⟩ := h.exists_last
    obtain ⟨tbits, htbits⟩ := hv.exists_size hvbits
    obtain ⟨store, align, talloc, hm⟩ := exists_measures htbits
    have htalloc : layout.allocSize t = .ok talloc := hm.alloc_eq
    have hlast : t.lastUnpacked? (k + 1) = some v := hv.below?_eq
    have hrow' : v.HoldsRow 1 element (i + 1) := by
      intro name fields packed hself j hj
      obtain rfl := Option.some.inj hself
      exact hrow name fields packed hlast j (by omega)
    have hstart : t.elementStart (k + 1) bits alloc i = v.elementStart 1 bits alloc i := by
      unfold Ty.elementStart
      rw [hlast]
      rfl
    -- all indices but the last are zero and only lead down
    rw [List.replicate_succ, List.cons_append, elementOffset?, htalloc,
      partOffset?_of_unpacks hv hvbits, partOffset?_singleton hvbits hdescend hbits halloc hrow',
      hstart]
    simp [Except.toOption]

/-- The first pointee lies where the pointer points. -/
theorem elementOffset?_zero {n : Nat} (h : layout.elementOffset? t [0] = some n) : n = 0 := by
  obtain ⟨alloc, -, h⟩ := Option.bind_eq_some_iff.1 h
  obtain rfl : 0 * alloc + 0 = n := Option.some.inj h
  rw [Nat.zero_mul]

end DataLayout

end KernelIR

import KernelIR.Proofs.CopyCoverage

/-!
# What the addresses of a copy point to

`Module.addressed?` is the type that the indices of an `elementPtr` instruction lead to.  The code
of a copy takes every address to point to the element that the types were matched to.  This is so
for every index below a pointer, an array or a vector, but below a struct the index counts fields:
the addresses are well typed exactly if a struct that was unpacked last starts with as many fields
of the element type as there are elements (`BlockCopy.typesAddress_of_replace`).
-/

namespace KernelIR

namespace Ty

/-- The type of the part that an index selects: a field of a struct, an element of an array or a
lane of a vector. -/
def part? : Ty → Nat → Option Ty
  | .array _ t, _ | .vector _ t, _ => some t
  | .struct _ fields _, i => fields[i]?
  | _, _ => none

/-- The type of the part of an object that several indices lead to, one after the other. -/
def partAt? : Ty → List Nat → Option Ty
  | t, [] => some t
  | t, i :: is => (t.part? i).bind (partAt? · is)

/-- The type of the element that the indices behind a pointer lead to.  The first index steps over
whole pointees. -/
def elementAt? (pointee : Ty) : List Nat → Option Ty
  | [] => some pointee
  | _ :: is => pointee.partAt? is

/-- The type that index `i` selects where the last of `depth` steps down led to `element`. -/
def reached? (t : Ty) (depth : Nat) (element : Ty) (i : Nat) : Option Ty :=
  match t.lastUnpacked? depth with
  | some (.struct _ fields _) => fields[i]?
  | _ => some element

theorem reached?_eq_some_iff {t : Ty} {depth : Nat} {element : Ty} {count : Nat} :
    (∀ i < count, t.reached? depth element i = some element) ↔
      t.HoldsRow depth element count := by
  unfold reached?
  constructor
  · intro h name fields packed hlast i hi
    simpa only [hlast] using h i hi
  · intro h i hi
    split
    · next name fields packed hlast => exact h name fields packed hlast i hi
    · rfl

/-- A step down is the selection of the first part. -/
theorem part?_zero {t u : Ty} (h : t.descend? = some u) : t.part? 0 = some u := by
  cases t with
  | array | vector => exact h
  | struct name fields packed => cases fields <;> exact h
  | void | int | ptr | function => exact nomatch h

theorem partAt?_of_below? {k : Nat} {t u : Ty} (h : t.below? k = some u) (is : List Nat) :
    t.partAt? (List.replicate k 0 ++ is) = u.partAt? is := by
  induction k generalizing t with
  | zero =>
    obtain rfl : t = u := Option.some.inj h
    rfl
  | succ k ih =>
    obtain ⟨v, hv, h⟩ := Option.bind_eq_some_iff.1 h
    rw [List.replicate_succ, List.cons_append, partAt?, part?_zero hv, Option.bind_some, ih h]

/-- The last index of a copy selects the element from what was unpacked last. -/
theorem part?_eq_reached? {k : Nat} {t v element : Ty} (hv : t.below? k = some v)
    (hdescend : v.descend? = some element) (i : Nat) :
    v.part? i = t.reached? (k + 1) element i := by
  have hlast : t.lastUnpacked? (k + 1) = some v := hv
  rw [reached?, hlast]
  cases v with
  | array | vector => exact hdescend
  | struct name fields packed => rfl
  | void | int | ptr | function => exact nomatch hdescend

end Ty

namespace DataLayout.Unpacks

variable {layout : DataLayout} {t element : Ty} {depth : Nat}

/-- **The type behind the indices of a copy.**  All indices but the last lead down to what was
unpacked last. -/
theorem elementAt?_indices (h : layout.Unpacks t depth element) (i : Nat) :
    t.elementAt? (List.replicate depth 0 ++ [i]) = t.reached? depth element i := by
  cases depth with
  | zero =>
    cases h with
    | refl => rfl
  | succ k =>
    obtain ⟨v, -, hv, -, hdescend⟩ := h.exists_last
    rw [List.replicate_succ, List.cons_append, Ty.elementAt?, Ty.partAt?_of_below? hv.below?_eq,
      ← Ty.part?_eq_reached? hv.below?_eq hdescend i, Ty.partAt?]
    cases v.part? i <;> rfl

end DataLayout.Unpacks

namespace Module

/-- The type that constant indices behind a pointer lead to, as seen inside `f`. -/
def addressed? (m : Module) (f : Function) (ptr : Value) (indices : List Value) : Option Ty := do
  (← m.target? f ptr).elementAt? (← indices.mapM (·.count?))

/-- If the instruction computes an address, then it is one of an element of the given type, and its
result has the type of a pointer to it. -/
def TypesAddress (m : Module) (f : Function) (element : Ty) : Instruction → Prop
  | .elementPtr _ ptr indices ty => m.addressed? f ptr indices = some element ∧ ty = .ptr element
  | _ => True

end Module

namespace BlockCopy

variable {m : Module} {call : Call}

section Code

variable {base : String} {c : Copy} {first : Nat}

/-- The addresses that the code of a copy computes. -/
theorem elementPtr_mem_code {result : TempId} {ptr : Value} {is : List Value} {ty : Ty}
    (h : .elementPtr result ptr is ty ∈ code base c first) :
    ty = .ptr c.shape.element ∧ ∃ i < c.count,
      (ptr = c.request.dest.source ∧ is = indices c.shape.destDepth i ∨
        ptr = c.request.src.source ∧ is = indices c.shape.srcDepth i) := by
  unfold code at h
  split at h
  · exact nomatch List.mem_singleton.1 h
  · obtain ⟨i, hi, h⟩ := List.mem_flatMap.1 h
    simp only [copyElement, copyCall, List.mem_cons, List.not_mem_nil, or_false, reduceCtorEq,
      Instruction.elementPtr.injEq] at h
    obtain ⟨-, hptr, his, hty⟩ | ⟨-, hptr, his, hty⟩ := h
    · exact ⟨hty, i, List.mem_range.1 hi, .inr ⟨hptr, his⟩⟩
    · exact ⟨hty, i, List.mem_range.1 hi, .inl ⟨hptr, his⟩⟩

/-- Unless one whole object is copied, the code computes two addresses for each element. -/
theorem exists_elementPtr_mem_code (hwhole : c.isWhole = false) {i : Nat} (hi : i < c.count) :
    (∃ result, .elementPtr result c.request.dest.source (indices c.shape.destDepth i)
      (.ptr c.shape.element) ∈ code base c first) ∧
    ∃ result, .elementPtr result c.request.src.source (indices c.shape.srcDepth i)
      (.ptr c.shape.element) ∈ code base c first := by
  have hmem : ∀ inst ∈ copyElement base c first i, inst ∈ code base c first := by
    intro inst hinst
    rw [code, if_neg (by simp [hwhole])]
    exact List.mem_flatMap.2 ⟨i, List.mem_range.2 hi, hinst⟩
  exact ⟨⟨_, hmem _ (.tail _ (.head _))⟩, ⟨_, hmem _ (.head _)⟩⟩

/-- The code is well typed if the indices reach the matched type on both sides, for all elements. -/
theorem typesAddress_code_iff {f : Function}
    (hdest : ∀ i < c.count, m.addressed? f c.request.dest.source (indices c.shape.destDepth i) =
      c.request.dest.pointee.reached? c.shape.destDepth c.shape.element i)
    (hsrc : ∀ i < c.count, m.addressed? f c.request.src.source (indices c.shape.srcDepth i) =
      c.request.src.pointee.reached? c.shape.srcDepth c.shape.element i) :
    (∀ inst ∈ code base c first, m.TypesAddress f c.shape.element inst) ↔
      c.request.dest.pointee.HoldsRow c.shape.destDepth c.shape.element c.count ∧
      c.request.src.pointee.HoldsRow c.shape.srcDepth c.shape.element c.count := by
  rw [← Ty.reached?_eq_some_iff, ← Ty.reached?_eq_some_iff]
  constructor
  · intro h
    cases hwhole : c.isWhole with
    | true =>
      -- no address is computed, and nothing was unpacked
      obtain ⟨⟨hd, hs⟩, -⟩ : (c.shape.destDepth = 0 ∧ c.shape.srcDepth = 0) ∧ c.count = 1 := by
        simpa [Copy.isWhole] using hwhole
      rw [hd, hs]
      exact ⟨fun _ _ => rfl, fun _ _ => rfl⟩
    | false =>
      refine ⟨fun i hi => ?_, fun i hi => ?_⟩
      · obtain ⟨⟨result, hmem⟩, -⟩ := exists_elementPtr_mem_code hwhole hi
        exact (hdest i hi).symm.trans (h _ hmem).1
      · obtain ⟨-, result, hmem⟩ := exists_elementPtr_mem_code hwhole hi
        exact (hsrc i hi).symm.trans (h _ hmem).1
  · rintro ⟨hrowDest, hrowSrc⟩ inst hmem
    cases inst with
    | elementPtr result ptr is ty =>
      obtain ⟨hty, i, hi, ⟨rfl, rfl⟩ | ⟨rfl, rfl⟩⟩ := elementPtr_mem_code hmem
      · exact ⟨(hdest i hi).trans (hrowDest i hi), hty⟩
      · exact ⟨(hsrc i hi).trans (hrowSrc i hi), hty⟩
    | _ => trivial

end Code

/-- What an address of a copy points to. -/
theorem addressed?_indices {k depth i : Nat} {r : Reinterpretation} {element : Ty}
    (h : pointerArg m call k = .ok r) (hty : m.layout.Unpacks r.pointee depth element)
    (hi : i < 2 ^ 63) :
    m.addressed? call.caller r.source (indices depth i) = r.pointee.reached? depth element i := by
  rw [Module.addressed?, Module.target?, valueType?_of_pointerArg h, mapM_count?_indices depth hi]
  exact hty.elementAt?_indices i

/-- **The types behind the addresses of a lowered copy.**  Every address of the code is that of an
element of the copy, on one of its two sides, and has the type of a pointer to the matched type.  It
points to a value of this type exactly if the last type unpacked on that side is no struct, or is
one whose field of the element's number has the matched type. -/
theorem typesAddress_of_replace (base : String) (m : Module) (call : Call) (req : Request)
    (r : Replacement) (hreq : ofCall m call = .ok req)
    (h : (replace base m call).result = .ok r) :
    req.bytes = 0 ∧ r.code = [] ∨
    ∃ shape bits,
      (matchTypes m.layout req.dest.pointee req.src.pointee req.bytes).result = .ok shape ∧
      m.layout.sizeInBits shape.element = .ok bits ∧
      (∀ result ptr is ty, .elementPtr result ptr is ty ∈ r.code →
        ty = .ptr shape.element ∧ ∃ i < req.bytes / (bits / 8),
          (ptr = req.dest.source ∧ m.addressed? call.caller ptr is =
              req.dest.pointee.reached? shape.destDepth shape.element i ∨
            ptr = req.src.source ∧ m.addressed? call.caller ptr is =
              req.src.pointee.reached? shape.srcDepth shape.element i)) ∧
      ((∀ inst ∈ r.code, m.TypesAddress call.caller shape.element inst) ↔
        req.dest.pointee.HoldsRow shape.destDepth shape.element (req.bytes / (bits / 8)) ∧
        req.src.pointee.HoldsRow shape.srcDepth shape.element (req.bytes / (bits / 8))) := by
  obtain hzero | ⟨c, first, bits, rfl, hc, hcode, hbits, -, -, hcount, -⟩ :=
    code_of_replace hreq h
  · exact .inl hzero
  · obtain ⟨hdestArg, hsrcArg⟩ := ofCall_eq_ok hreq
    obtain ⟨hdestTy, hsrcTy, -⟩ := matchTypes_eq_ok hc.shape
    have hlt := hc.count_lt
    have hdest : ∀ i < c.count, _ := fun i hi =>
      addressed?_indices hdestArg hdestTy (i := i) (by omega)
    have hsrc : ∀ i < c.count, _ := fun i hi =>
      addressed?_indices hsrcArg hsrcTy (i := i) (by omega)
    refine .inr ⟨c.shape, bits, hc.shape, hbits, ?_⟩
    rw [hcode, ← hcount]
    constructor
    · intro result ptr is ty hmem
      obtain ⟨hty, i, hi, ⟨rfl, rfl⟩ | ⟨rfl, rfl⟩⟩ := elementPtr_mem_code hmem
      · exact ⟨hty, i, hi, .inl ⟨rfl, hdest i hi⟩⟩
      · exact ⟨hty, i, hi, .inr ⟨rfl, hsrc i hi⟩⟩
    · exact typesAddress_code_iff hdest hsrc

/-- Two words and a byte. -/
def wordPair : Ty := .struct none [.int 32, .int 32, .int 8] false

/-- Two words are copied from an array to the fields of a struct. -/
theorem typesAddress_of_replace_wordPair :
    let m := castCopyModule wordPair (.array 2 (.int 32)) 8 4
    ∃ call r, m.callAt ⟨1, 0, 2⟩ = .ok call ∧ (replace "copy" m call).result = .ok r ∧
      r.code.length = 6 ∧ ∀ inst ∈ r.code, m.TypesAddress call.caller (.int 32) inst := by
  intro m
  have hmatch : (matchTypes m.layout wordPair (.array 2 (.int 32)) 8).result =
      .ok ⟨.int 32, 1, 1⟩ := by cbv
  obtain ⟨r, hr, hlen⟩ : ∃ r,
      (replace "copy" m (castCopy wordPair (.array 2 (.int 32)) 8 4)).result = .ok r ∧
        r.code.length = 6 :=
    ⟨_, replace_eq_ok.2 ⟨_, rfl, .inr ⟨by decide, _, _, _, hmatch, rfl, rfl, rfl⟩⟩, rfl⟩
  refine ⟨_, r, rfl, hr, hlen, ?_⟩
  obtain ⟨hzero, -⟩ | ⟨shape, bits, hshape, hbits, -, hiff⟩ :=
    typesAddress_of_replace "copy" m _ _ r rfl hr
  · exact absurd hzero (by decide)
  · obtain rfl : shape = ⟨.int 32, 1, 1⟩ := Except.ok.inj (hshape.symm.trans hmatch)
    obtain rfl : 32 = bits := Except.ok.inj hbits
    refine hiff.2 ⟨?_, ?_⟩
    · intro name fields packed hlast i hi
      obtain ⟨rfl, rfl, rfl⟩ := Ty.struct.inj (Option.some.inj hlast)
      have hlt : i < 2 := hi
      interval_cases i <;> rfl
    · intro name fields packed hlast
      have hstruct : Ty.array 2 (.int 32) = .struct name fields packed := Option.some.inj hlast
      cases hstruct

/-- The second word of a copy to a struct of one word has no field. -/
theorem not_typesAddress_singleField :
    let m := castCopyModule (.struct none [.int 32] false) (.int 32) 8 4
    ∃ call r, m.callAt ⟨1, 0, 2⟩ = .ok call ∧ (replace "copy" m call).result = .ok r ∧
      (matchTypes m.layout (.struct none [.int 32] false) (.int 32) 8).result =
        .ok ⟨.int 32, 1, 0⟩ ∧
      ¬ ∀ inst ∈ r.code, m.TypesAddress call.caller (.int 32) inst := by
  intro m
  have hmatch : (matchTypes m.layout (.struct none [.int 32] false) (.int 32) 8).result =
      .ok ⟨.int 32, 1, 0⟩ := by cbv
  refine ⟨castCopy (.struct none [.int 32] false) (.int 32) 8 4, _, rfl,
    replace_eq_ok.2 ⟨_, rfl, .inr ⟨by decide, _, _, _, hmatch, rfl, rfl, rfl⟩⟩, hmatch, ?_⟩
  intro h
  obtain ⟨haddressed, -⟩ := h (.elementPtr 7 (.temp 0) (indices 1 1) (.ptr (.int 32)))
    (.tail _ (.tail _ (.tail _ (.tail _ (.head _)))))
  have hnone : none = some (Ty.int 32) := haddressed
  cases hnone

end BlockCopy

end KernelIR

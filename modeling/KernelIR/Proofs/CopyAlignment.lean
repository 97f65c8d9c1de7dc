import KernelIR.Proofs.ElementTypes

/-!
# The alignment that a copy promises

Every call in the code of a copy passes on the alignment of the whole block.  Where the two blocks
start at multiples of it, an element does so exactly if the alignment divides its distance from the
start.  So the promise is kept for all elements if the alignment divides the distance of neighbours,
and without room between them only then, or if there is no second one
(`BlockCopy.alignments_of_replace`).
-/

namespace KernelIR

namespace BlockCopy

/-- The alignment operand of a call to `copier`. -/
def alignment? (copier : String) : Instruction → Option Value
  | .call none (.function name) [_, _, align, _] _ _ => if name = copier then some align else none
  | _ => none

/-- The alignment operands of the calls to `copier`, in order. -/
def alignments (copier : String) (code : List Instruction) : List Value :=
  code.filterMap (alignment? copier)

/-- Each operand is positive and fits a signed 32-bit constant, and the distance of its element from
the start is a multiple of it, where `size` is the distance of neighbours. -/
def ValidAlignments (size : Nat) (operands : List Value) : Prop :=
  ∀ i v, operands[i]? = some v → ∃ a, v.count? = some a ∧ 0 < a ∧ a < 2 ^ 31 ∧ a ∣ i * size

/-- Where an address points to, if `place` tells where the pointers do that the code got. -/
def Address.resolve (place : Value → Nat) (a : Address) : Nat := place a.root + a.offset

/-- Wherever the pointers `dest` and `src` point to multiples of the alignment, so do both addresses
of every move. -/
def KeepsAlignment (align : Nat) (dest src : Value) (moves : List Move) : Prop :=
  ∀ place : Value → Nat, align ∣ place dest → align ∣ place src →
    ∀ mv ∈ moves, align ∣ mv.dest.resolve place ∧ align ∣ mv.src.resolve place

/-! ### Multiples -/

section Multiples

variable {align size count : Nat}

/-- A number divides the starts of all elements if it divides the start of the second. -/
theorem dvd_starts_iff (hcount : 0 < count) :
    (∀ i < count, align ∣ i * size) ↔ count = 1 ∨ align ∣ size := by
  constructor
  · intro h
    by_cases hone : count = 1
    · exact .inl hone
    · have hsecond := h 1 (by omega)
      rw [Nat.one_mul] at hsecond
      exact .inr hsecond
  · rintro (rfl | hsize) i hi
    · obtain rfl : i = 0 := by omega
      rw [Nat.zero_mul]
      exact Nat.dvd_zero align
    · exact Nat.dvd_mul_left_of_dvd hsize i

theorem validAlignments_replicate (hpos : 0 < align) (hlt : align < 2 ^ 31) :
    ValidAlignments size (List.replicate count (.ofCount align)) ↔
      ∀ i < count, align ∣ i * size := by
  have hcount? : (Value.ofCount align).count? = some align := Value.count?_ofCount (by omega)
  constructor
  · intro h i hi
    obtain ⟨a, ha, -, -, hdvd⟩ := h i _ (List.getElem?_replicate_of_lt hi)
    obtain rfl : align = a := Option.some.inj (hcount?.symm.trans ha)
    exact hdvd
  · intro h i v hv
    obtain ⟨hi, rfl⟩ : i < count ∧ Value.ofCount align = v := by
      simpa [List.getElem?_replicate] using hv
    exact ⟨align, hcount?, hpos, hlt, h i hi⟩

/-- Only the distances from the start count. -/
theorem keepsAlignment_rowAt {dest src : Value} {destStart srcStart : Nat → Nat} :
    KeepsAlignment align dest src (rowAt dest src destStart srcStart count) ↔
      ∀ i < count, align ∣ destStart i ∧ align ∣ srcStart i := by
  constructor
  · intro h i hi
    have hmove := h (fun _ => 0) (Nat.dvd_zero align) (Nat.dvd_zero align) _
      (List.mem_map_of_mem (List.mem_range.2 hi))
    simpa [Address.resolve] using hmove
  · intro h place hdest hsrc mv hmv
    obtain ⟨i, hi, rfl⟩ := List.mem_map.1 hmv
    obtain ⟨hd, hs⟩ := h i (List.mem_range.1 hi)
    exact ⟨Nat.dvd_add hdest hd, Nat.dvd_add hsrc hs⟩

end Multiples

/-! ### The operands of the code -/

theorem alignment?_copyCall (base : String) (c : Copy) (dest src : Value) :
    alignment? (primitive base c.shape.element).name (copyCall base c dest src) =
      some (.ofCount c.align) :=
  if_pos rfl

theorem alignments_copyElement (base : String) (c : Copy) (first i : Nat) :
    alignments (primitive base c.shape.element).name (copyElement base c first i) =
      [.ofCount c.align] := by
  rw [alignments, copyElement, List.filterMap_cons_none rfl, List.filterMap_cons_none rfl,
    List.filterMap_cons_some (alignment?_copyCall ..), List.filterMap_nil]

theorem alignments_elements (base : String) (c : Copy) (first : Nat) (is : List Nat) :
    alignments (primitive base c.shape.element).name (is.flatMap (copyElement base c first)) =
      List.replicate is.length (.ofCount c.align) := by
  induction is with
  | nil => rfl
  | cons i is ih =>
    have hone := alignments_copyElement base c first i
    unfold alignments at hone ih ⊢
    rw [List.flatMap_cons, List.filterMap_append, hone, ih]
    rfl

/-- The code has one operand for each element, and they are all the same. -/
theorem alignments_code (base : String) (c : Copy) (first : Nat) :
    alignments (primitive base c.shape.element).name (code base c first) =
      List.replicate c.count (.ofCount c.align) := by
  unfold code
  split
  · next hwhole =>
    have hcount : c.count = 1 := by
      simp only [Copy.isWhole, Bool.and_eq_true, beq_iff_eq] at hwhole
      exact hwhole.2
    rw [hcount]
    simp [alignments, alignment?_copyCall]
  · rw [alignments_elements, List.length_range]

/-- An accepted copy has the alignment of its call, a multiple of that of the element. -/
theorem align_of_divide {layout : DataLayout} {call : Call} {req : Request} {shape : TypeMatch}
    {c : Copy} (h : divide layout call req shape = .ok c) :
    c.align = (call.align.getD 1).toNat ∧
    ∃ required, layout.abiAlign shape.element = .ok required ∧ 0 < c.align ∧
      required ∣ c.align := by
  obtain ⟨-, -, bits, hbits, -⟩ := divide_eq_ok h
  obtain ⟨store, required, alloc, hm⟩ := DataLayout.exists_measures hbits
  have hpos : 0 < required := Quantity.pos_of_exists_two_pow hm.align_pow
  have habi : layout.abiAlign shape.element = .ok required := hm.align_eq
  have hrequired : requiredAlign layout shape.element = .ok required := by
    rw [requiredAlign, habi]
    rfl
  unfold divide at h
  obtain ⟨size, -, h⟩ := except_bind_eq_ok.1 h
  split at h
  · obtain ⟨required', hrequired', h⟩ := except_bind_eq_ok.1 h
    obtain rfl : required = required' := Except.ok.inj (hrequired.symm.trans hrequired')
    obtain ⟨_, hcheck, h⟩ := except_bind_eq_ok.1 h
    obtain ⟨count, -, h⟩ := except_bind_eq_ok.1 h
    obtain rfl := Except.ok.inj h
    unfold checkAlign at hcheck
    split at hcheck
    · cases hcheck
    · next hfits =>
      obtain ⟨hle, hmod⟩ : required ≤ (call.align.getD 1).toNat ∧
          (call.align.getD 1).toNat % required = 0 := by omega
      exact ⟨rfl, required, habi, Nat.lt_of_lt_of_le hpos hle, Nat.dvd_of_mod_eq_zero hmod⟩
  · cases h

/-- **The alignments of a lowered copy** whose alignment fits a signed 32-bit constant.  There is
one call for each element, and each is given the alignment of the whole block, a multiple of that of
the element.  The operands are all valid exactly if it divides the size of an element, or there is
one element only.  Where every element has a place on both sides, the alignment holds of all
addresses of the calls, whenever it does of the two pointers, exactly if it divides the distances of
the elements from them; and without room between the elements, exactly if the operands are
valid. -/
theorem alignments_of_replace (base : String) (m : Module) (call : Call) (req : Request)
    (r : Replacement) (hreq : ofCall m call = .ok req)
    (halign : (call.align.getD 1).toNat < 2 ^ 31) (h : (replace base m call).result = .ok r) :
    req.bytes = 0 ∧ r.code = [] ∨
    ∃ shape bits alloc required,
      (matchTypes m.layout req.dest.pointee req.src.pointee req.bytes).result = .ok shape ∧
      m.layout.sizeInBits shape.element = .ok bits ∧
      m.layout.allocSize shape.element = .ok alloc ∧
      m.layout.abiAlign shape.element = .ok required ∧
      let align := (call.align.getD 1).toNat
      let size := bits / 8
      let count := req.bytes / size
      let copier := (primitive base shape.element).name
      let operands := alignments copier r.code
      operands.map (·.count?) = List.replicate count (some align) ∧ 0 < align ∧ required ∣ align ∧
      (ValidAlignments size operands ↔ count = 1 ∨ align ∣ size) ∧
      (req.dest.pointee.HoldsRow shape.destDepth shape.element count →
        req.src.pointee.HoldsRow shape.srcDepth shape.element count →
        let destStart := req.dest.pointee.elementStart shape.destDepth bits alloc
        let srcStart := req.src.pointee.elementStart shape.srcDepth bits alloc
        let moves := rowAt req.dest.source req.src.source destStart srcStart count
        moves? m.layout (m.target? call.caller) copier (fun _ => none) r.code = some moves ∧
        (KeepsAlignment align req.dest.source req.src.source moves ↔
          ∀ i < count, align ∣ destStart i ∧ align ∣ srcStart i) ∧
        (bits = 8 * alloc →
          (KeepsAlignment align req.dest.source req.src.source moves ↔
            count = 1 ∨ align ∣ size))) := by
  obtain hzero | ⟨c, first, bits, rfl, hc, hcode, hbits, -, -, hcount, hcountPos⟩ :=
    code_of_replace hreq h
  · exact .inl hzero
  · obtain ⟨heq, required, hrequired, hpos, hdvd⟩ := align_of_divide hc.divide
    obtain ⟨store, _, alloc, hm⟩ := DataLayout.exists_measures hbits
    refine .inr ⟨c.shape, bits, alloc, required, hc.shape, hbits, hm.alloc_eq, hrequired, ?_⟩
    dsimp only
    rw [hcode, ← hcount, alignments_code]
    rw [← heq] at halign ⊢
    refine ⟨?_, hpos, hdvd, ?_, fun hdest hsrc => ⟨?_, keepsAlignment_rowAt, fun hdense => ?_⟩⟩
    · rw [List.map_replicate, Value.count?_ofCount (by omega)]
    · rw [validAlignments_replicate hpos halign, dvd_starts_iff hcountPos]
    · exact hc.moves?_code base hbits hm.alloc_eq hdest hsrc
    · have hsize : bits / 8 = alloc := by omega
      rw [keepsAlignment_rowAt, hsize, ← dvd_starts_iff hcountPos]
      simp only [Ty.elementStart_of_dense hdense, and_self]

/-- Two records of 12 bytes keep the alignment 4 of the block. -/
theorem alignments_of_replace_records :
    let m := castCopyModule wordPair (.array 2 wordPair) 24 4
    ∃ call r moves, m.callAt ⟨1, 0, 2⟩ = .ok call ∧ (call.align.getD 1).toNat = 4 ∧
      (replace "copy" m call).result = .ok r ∧
      ValidAlignments 12 (alignments (primitive "copy" wordPair).name r.code) ∧
      moves? m.layout (m.target? call.caller) (primitive "copy" wordPair).name (fun _ => none)
        r.code = some moves ∧
      moves.length = 2 ∧ KeepsAlignment 4 (.temp 0) (.temp 1) moves := by
  intro m
  have hmatch : (matchTypes m.layout wordPair (.array 2 wordPair) 24).result =
      .ok ⟨wordPair, 0, 1⟩ := by cbv
  obtain ⟨r, hr⟩ : ∃ r,
      (replace "copy" m (castCopy wordPair (.array 2 wordPair) 24 4)).result = .ok r :=
    ⟨_, replace_eq_ok.2 ⟨_, rfl, .inr ⟨by decide, _, _, _, hmatch, rfl, rfl, rfl⟩⟩⟩
  obtain ⟨hzero, -⟩ | ⟨shape, bits, alloc, required, hshape, hbits, halloc, -, -, -, -, hvalid,
      hmoves⟩ := alignments_of_replace "copy" m _ _ r rfl (by decide) hr
  · exact absurd hzero (by decide)
  · obtain rfl : shape = ⟨wordPair, 0, 1⟩ := Except.ok.inj (hshape.symm.trans hmatch)
    obtain rfl : 96 = bits := Except.ok.inj hbits
    obtain rfl : 12 = alloc := Except.ok.inj halloc
    have hdest : wordPair.HoldsRow 0 wordPair 2 :=
      Ty.holdsRow_of_element? fun v hv => by cases hv
    have hsrc : (Ty.array 2 wordPair).HoldsRow 1 wordPair 2 :=
      Ty.holdsRow_of_element? fun v hv => by
        obtain rfl := Option.some.inj hv
        rfl
    obtain ⟨hread, -, hkeeps⟩ := hmoves hdest hsrc
    exact ⟨_, r, _, rfl, rfl, hr, hvalid.2 (.inr (by decide)), hread, rfl,
      (hkeeps rfl).2 (.inr (by decide))⟩

/-- The second of two words in a block that is aligned to 8 bytes is not. -/
theorem not_validAlignments_words :
    let m := castCopyModule (.int 32) (.int 32) 8 8
    ∃ call r, m.callAt ⟨1, 0, 2⟩ = .ok call ∧ (replace "copy" m call).result = .ok r ∧
      (matchTypes m.layout (.int 32) (.int 32) 8).result = .ok ⟨.int 32, 0, 0⟩ ∧
      m.layout.sizeInBits (.int 32) = .ok 32 ∧
      ¬ ValidAlignments (32 / 8) (alignments (primitive "copy" (.int 32)).name r.code) := by
  intro m
  have hmatch : (matchTypes m.layout (.int 32) (.int 32) 8).result = .ok ⟨.int 32, 0, 0⟩ := by cbv
  refine ⟨castCopy (.int 32) (.int 32) 8 8, _, rfl,
    replace_eq_ok.2 ⟨_, rfl, .inr ⟨by decide, _, _, _, hmatch, rfl, rfl, rfl⟩⟩, hmatch, rfl, ?_⟩
  intro h
  obtain ⟨a, ha, -, -, hdvd⟩ := h 1 (.ofCount 8) (by decide +kernel)
  obtain rfl : 8 = a := Option.some.inj ha
  exact absurd hdvd (by decide)

end BlockCopy

end KernelIR

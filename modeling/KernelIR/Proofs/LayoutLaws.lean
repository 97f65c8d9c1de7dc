import KernelIR.Ty.Layout
import Mathlib

/-!
# Laws of the layout

A type that has a size in bits has all other measures too, and they fit together: alignments are
powers of two, a value fits the bytes that a store writes, and these fit the distance between
neighbours (`Extent.Measures`, `DataLayout.exists_measures`).  Unless the size in bits leaves the
word, a type has all of these measures or none of the sizes (`DataLayout.measures_or_unsized`).
-/

namespace KernelIR

/-! ### Computations that may fail -/

theorem except_bind_eq_ok {ε α β : Type} {x : Except ε α} {f : α → Except ε β} {b : β} :
    (x >>= f) = .ok b ↔ ∃ a, x = .ok a ∧ f a = .ok b := by
  cases x with
  | error e => exact ⟨nofun, nofun⟩
  | ok a => exact ⟨fun h => ⟨a, rfl, h⟩, fun ⟨_, h, h'⟩ => Except.ok.inj h ▸ h'⟩

/-- What every step of a fold keeps, the whole fold keeps. -/
theorem except_foldlM_invariant {ε α β : Type} {P : β → Prop} {f : β → α → Except ε β}
    {as : List α} (hstep : ∀ a ∈ as, ∀ b b', P b → f b a = .ok b' → P b') {b b' : β} (hb : P b)
    (h : as.foldlM f b = .ok b') : P b' := by
  induction as generalizing b with
  | nil => exact Except.ok.inj h ▸ hb
  | cons a as ih =>
    rw [List.foldlM_cons, except_bind_eq_ok] at h
    obtain ⟨b₁, h₁, h⟩ := h
    exact ih (fun a' ha' => hstep a' (List.mem_cons_of_mem _ ha'))
      (hstep a List.mem_cons_self b b₁ hb h₁) h

namespace Quantity

theorem fit_eq_ok {n r : Nat} : fit n = .ok r ↔ r = n ∧ n < 2 ^ 64 := by
  unfold fit
  split
  · next h => exact ⟨fun e => ⟨(Except.ok.inj e).symm, h⟩, fun e => by rw [e.1]⟩
  · next h => exact ⟨fun e => (nomatch e), fun e => absurd e.2 h⟩

/-- Rounding up goes to a multiple, and less than one step up. -/
theorem le_of_roundUp {n align r : Nat} (ha : 0 < align) (h : roundUp n align = .ok r) :
    n ≤ r ∧ r < n + align ∧ align ∣ r := by
  obtain ⟨rfl, -⟩ := fit_eq_ok.1 h
  have hm := Nat.div_add_mod (n + (align - 1)) align
  have hl := Nat.mod_lt (n + (align - 1)) ha
  rw [Nat.mul_comm] at hm
  exact ⟨by omega, by omega, Nat.dvd_mul_left ..⟩

theorem exists_ceilPow2_eq (n : Nat) : ∃ k, ceilPow2 n = 2 ^ k := by
  unfold ceilPow2
  split
  · exact ⟨0, rfl⟩
  · exact ⟨_, Nat.one_shiftLeft _⟩

theorem roundUp_of_dvd {n align : Nat} (ha : 0 < align) (hdvd : align ∣ n) (hn : n < 2 ^ 64) :
    roundUp n align = .ok n := by
  obtain ⟨k, rfl⟩ := hdvd
  have hdiv : (align * k + (align - 1)) / align = k := by
    rw [Nat.mul_add_div ha, Nat.div_eq_of_lt (by omega), Nat.add_zero]
  rw [roundUp, hdiv, Nat.mul_comm k]
  exact fit_eq_ok.2 ⟨rfl, hn⟩

theorem exists_roundUp_eq_ok {n align : Nat} (ha : 0 < align) (hn : n + align ≤ 2 ^ 64) :
    ∃ r, roundUp n align = .ok r := by
  refine ⟨_, fit_eq_ok.2 ⟨rfl, ?_⟩⟩
  have hle := Nat.div_mul_le_self (n + (align - 1)) align
  omega

theorem ceilPow2_le {n k : Nat} (h : n ≤ 2 ^ k) : ceilPow2 n ≤ 2 ^ k := by
  unfold ceilPow2
  split
  · exact Nat.one_le_two_pow
  · next hn =>
    have hlog : (n - 1).log2 < k := (Nat.log2_lt (by omega)).2 (by omega)
    rw [Nat.one_shiftLeft]
    exact Nat.pow_le_pow_right (by decide) hlog

theorem pos_of_exists_two_pow {a : Nat} (h : ∃ k, a = 2 ^ k) : 0 < a := by
  obtain ⟨k, rfl⟩ := h
  exact Nat.two_pow_pos k

theorem le_bytes (bits : Nat) : bits ≤ 8 * bytes bits := by
  unfold bytes
  omega

end Quantity

open Quantity

namespace Extent

/-- The measures of a type, and how they fit together. -/
structure Measures (e : Extent) (bits store align alloc : Nat) : Prop where
  bits_eq : e.bits = .ok bits
  store_eq : e.store = .ok store
  align_eq : e.align = .ok align
  alloc_eq : e.alloc = .ok alloc
  align_pow : ∃ k, align = 2 ^ k
  bits_le : bits ≤ 8 * store
  store_le : store ≤ alloc
  alloc_lt : alloc < store + align
  align_dvd : align ∣ alloc

/-- The alignment, if there is one, is a power of two. -/
def Aligned (e : Extent) : Prop := ∀ a, e.align = .ok a → ∃ k, a = 2 ^ k

variable {e : Extent} {bits : Nat}

/-- The measures follow from those of a store, if rounding up does not leave the word. -/
theorem measures_of_store {store align alloc : Nat} (hb : e.bits = .ok bits)
    (hs : e.store = .ok store) (ha : e.align = .ok align) (hpow : ∃ k, align = 2 ^ k)
    (hle : bits ≤ 8 * store) (h : roundUp store align = .ok alloc) :
    e.Measures bits store align alloc := by
  obtain ⟨h₁, h₂, h₃⟩ := le_of_roundUp (pos_of_exists_two_pow hpow) h
  have halloc : e.alloc = .ok alloc := by
    rw [Extent.alloc, hs, ha]
    exact h
  exact ⟨hb, hs, ha, halloc, hpow, hle, h₁, h₂, h₃⟩

/-! ### Scalars and vectors -/

theorem exists_min_ceilPow2 (n : Nat) : ∃ k, min (ceilPow2 n) 8 = 2 ^ k := by
  obtain ⟨k, hk⟩ := exists_ceilPow2_eq n
  rcases Nat.le_total (ceilPow2 n) 8 with h | h
  · exact ⟨k, by rw [Nat.min_eq_left h, hk]⟩
  · exact ⟨3, (Nat.min_eq_right h).trans (by decide)⟩

theorem measures_scalar (w : UInt32) :
    ∃ store align alloc, (scalar w).Measures w.toNat store align alloc := by
  have hpow := exists_min_ceilPow2 (max (bytes w.toNat) 1)
  have hlt : bytes w.toNat + min (ceilPow2 (max (bytes w.toNat) 1)) 8 ≤ 2 ^ 64 := by
    have hw := w.toNat_lt
    unfold bytes
    omega
  obtain ⟨alloc, halloc⟩ := exists_roundUp_eq_ok (pos_of_exists_two_pow hpow) hlt
  exact ⟨_, _, alloc, measures_of_store rfl rfl rfl hpow (le_bytes _) halloc⟩

theorem measures_vector {lanes : UInt32} (h : (vector lanes e).bits = .ok bits) :
    ∃ store align alloc, (vector lanes e).Measures bits store align alloc := by
  have hv : vectorBits lanes e = .ok bits := h
  have hlt : bits < 2 ^ 64 := by
    obtain ⟨n, -, hn⟩ := except_bind_eq_ok.1 hv
    obtain ⟨rfl, hlt⟩ := fit_eq_ok.1 hn
    exact hlt
  have hpow := exists_ceilPow2_eq (max (bytes bits) 1)
  have hbytes : max (bytes bits) 1 ≤ 2 ^ 61 := by
    unfold bytes
    omega
  have hle := ceilPow2_le hbytes
  have hsum : bytes bits + ceilPow2 (max (bytes bits) 1) ≤ 2 ^ 64 := by omega
  obtain ⟨alloc, halloc⟩ := exists_roundUp_eq_ok (pos_of_exists_two_pow hpow) hsum
  refine ⟨_, _, alloc, measures_of_store h ?_ ?_ hpow (le_bytes _) halloc⟩
  · exact congrArg (bytes <$> ·) hv
  · exact congrArg ((fun bits => ceilPow2 (max (bytes bits) 1)) <$> ·) hv

theorem aligned_vector (lanes : UInt32) (e : Extent) : (vector lanes e).Aligned := by
  intro a ha
  cases hv : vectorBits lanes e with
  | error fault =>
    rw [vector, hv] at ha
    exact nomatch ha
  | ok bits =>
    have ha' : (vector lanes e).align = .ok (ceilPow2 (max (bytes bits) 1)) := by
      rw [vector, hv]
      rfl
    rw [← Except.ok.inj (ha'.symm.trans ha)]
    exact exists_ceilPow2_eq _

/-! ### Arrays and structs -/

/-- An aggregate whose bytes are a multiple of its alignment: there is no space after it. -/
theorem measures_aggregate {store align : Quantity} {a : Nat}
    (h : (aggregate store align).bits = .ok bits) (ha : align = .ok a) (hpow : ∃ k, a = 2 ^ k)
    (hdvd : ∀ n, store = .ok n → a ∣ n) :
    ∃ n, (aggregate store align).Measures bits n a n ∧ bits = 8 * n := by
  obtain ⟨n, hn, h⟩ := except_bind_eq_ok.1 h
  obtain ⟨rfl, hlt⟩ := fit_eq_ok.1 h
  have hround := roundUp_of_dvd (pos_of_exists_two_pow hpow) (hdvd n hn) (by omega)
  refine ⟨n, measures_of_store ?_ hn ha hpow (by omega) hround, Nat.mul_comm n 8⟩
  subst hn
  exact h

theorem alloc_eq_ok {n : Nat} : e.alloc = .ok n ↔
    ∃ store align, e.store = .ok store ∧ e.align = .ok align ∧ roundUp store align = .ok n := by
  simp only [alloc, except_bind_eq_ok]
  constructor
  · rintro ⟨store, hs, align, ha, h⟩
    exact ⟨store, align, hs, ha, h⟩
  · rintro ⟨store, align, hs, ha, h⟩
    exact ⟨store, hs, align, ha, h⟩

theorem measures_array {size : UInt64} (he : e.Aligned) (h : (array size e).bits = .ok bits) :
    ∃ n align, (array size e).Measures bits n align n ∧ bits = 8 * n := by
  have hstore := h
  obtain ⟨n, hn, -⟩ := except_bind_eq_ok.1 hstore
  obtain ⟨stride, hstride, -⟩ := except_bind_eq_ok.1 hn
  obtain ⟨store, align, -, ha, hround⟩ := alloc_eq_ok.1 hstride
  have hpow := he align ha
  obtain ⟨-, -, hdvd⟩ := le_of_roundUp (pos_of_exists_two_pow hpow) hround
  obtain ⟨n, hm⟩ := measures_aggregate h ha hpow fun n hn => by
    obtain ⟨stride', hstride', hn⟩ := except_bind_eq_ok.1 hn
    obtain rfl : stride = stride' := Except.ok.inj (hstride.symm.trans hstride')
    obtain ⟨rfl, -⟩ := fit_eq_ok.1 hn
    exact Nat.dvd_mul_right_of_dvd hdvd _
  exact ⟨n, _, hm⟩

theorem place_eq_ok {packed : Bool} {state state' : Nat × Nat} :
    place packed state e = .ok state' ↔ ∃ align start size, e.fieldAlign packed = .ok align ∧
      roundUp state.1 align = .ok start ∧ e.alloc = .ok size ∧ start + size < 2 ^ 64 ∧
      state' = (start + size, max state.2 align) := by
  simp only [place, except_bind_eq_ok, fit_eq_ok]
  constructor
  · rintro ⟨align, ha, start, hs, size, hsize, stop, ⟨rfl, hlt⟩, h⟩
    exact ⟨align, start, size, ha, hs, hsize, hlt, (Except.ok.inj h).symm⟩
  · rintro ⟨align, start, size, ha, hs, hsize, hlt, rfl⟩
    exact ⟨align, ha, start, hs, size, hsize, _, ⟨rfl, hlt⟩, rfl⟩

theorem max_two_pow (j k : Nat) : ∃ i, max (2 ^ j) (2 ^ k) = 2 ^ i := by
  rcases Nat.le_total (2 ^ j) (2 ^ k) with h | h
  · exact ⟨k, Nat.max_eq_right h⟩
  · exact ⟨j, Nat.max_eq_left h⟩

/-- Placing fields that are not packed meets the largest of their alignments. -/
theorem foldlM_align_of_place {fields : List Extent} {start a stop align : Nat}
    (h : fields.foldlM (place false) (start, a) = .ok (stop, align)) :
    fields.foldlM (fun align e => do
      let a ← e.align
      return max align a) a = .ok align := by
  induction fields generalizing start a with
  | nil =>
    obtain ⟨-, rfl⟩ := Prod.mk.inj (Except.ok.inj h)
    rfl
  | cons e fields ih =>
    rw [List.foldlM_cons, except_bind_eq_ok] at h ⊢
    obtain ⟨s, hplace, h⟩ := h
    obtain ⟨b, start', size, hb, -, -, -, rfl⟩ := place_eq_ok.1 hplace
    have hb' : e.align = .ok b := hb
    refine ⟨max a b, ?_, ih h⟩
    rw [hb']
    rfl

/-- Placing the fields meets the alignment of the struct on the way. -/
theorem structAlign_eq_of_place {packed : Bool} {fields : List Extent} {stop align : Nat}
    (h : fields.foldlM (place packed) (0, 1) = .ok (stop, align)) :
    structAlign packed fields = .ok align := by
  cases packed with
  | true =>
    -- the alignment of a packed field is 1
    have hone : (stop, align).2 = 1 := by
      refine except_foldlM_invariant (P := fun state => state.2 = 1) (fun e _ s s' hs hplace => ?_)
        rfl h
      obtain ⟨a, start, size, ha, -, -, -, rfl⟩ := place_eq_ok.1 hplace
      obtain rfl : 1 = a := Except.ok.inj ha
      rw [hs]
      rfl
    rw [structAlign, if_pos rfl]
    exact congrArg Except.ok hone.symm
  | false =>
    rw [structAlign, if_neg Bool.false_ne_true]
    exact foldlM_align_of_place h

theorem aligned_struct {packed : Bool} {fields : List Extent} (h : ∀ e ∈ fields, e.Aligned) :
    (struct packed fields).Aligned := by
  intro a ha
  have ha' : structAlign packed fields = .ok a := ha
  unfold structAlign at ha'
  split at ha'
  · exact ⟨0, (Except.ok.inj ha').symm⟩
  · refine except_foldlM_invariant (P := fun a => ∃ k, a = 2 ^ k) (fun e he b b' hb hstep => ?_)
      ⟨0, rfl⟩ ha'
    obtain ⟨k, rfl⟩ := hb
    obtain ⟨c, hc, hstep⟩ := except_bind_eq_ok.1 hstep
    obtain ⟨j, rfl⟩ := h e he c hc
    obtain rfl := Except.ok.inj hstep
    exact max_two_pow k j

theorem measures_struct {packed : Bool} {fields : List Extent} (hf : ∀ e ∈ fields, e.Aligned)
    (h : (struct packed fields).bits = .ok bits) :
    ∃ n align, (struct packed fields).Measures bits n align n ∧ bits = 8 * n := by
  have hstore := h
  obtain ⟨n, hn, -⟩ := except_bind_eq_ok.1 hstore
  obtain ⟨⟨stop, align⟩, hplace, hround⟩ := except_bind_eq_ok.1 hn
  have ha := structAlign_eq_of_place hplace
  have hpow := aligned_struct hf align ha
  obtain ⟨n, hm⟩ := measures_aggregate h ha hpow fun n' hn' => by
    obtain rfl : n = n' := Except.ok.inj (hn.symm.trans hn')
    exact (le_of_roundUp (pos_of_exists_two_pow hpow) hround).2.2
  exact ⟨n, _, hm⟩

end Extent

/-! ### All types -/

namespace Ty

mutual

theorem aligned_extent (layout : DataLayout) : ∀ t : Ty, (t.extent layout).Aligned
  | .void | .function .. => nofun
  | .int _ | .ptr _ => by
    intro a ha
    obtain rfl := Except.ok.inj ha
    exact Extent.exists_min_ceilPow2 _
  | .array _ t => fun a ha => aligned_extent layout t a ha
  | .vector lanes t => Extent.aligned_vector lanes (t.extent layout)
  | .struct _ fields packed => Extent.aligned_struct (aligned_extents layout fields)

theorem aligned_extents (layout : DataLayout) :
    ∀ ts : List Ty, ∀ e ∈ extents layout ts, e.Aligned
  | [] => nofun
  | t :: ts => by
    intro e he
    rcases List.mem_cons.1 he with rfl | he
    · exact aligned_extent layout t
    · exact aligned_extents layout ts e he

end

/-- Whether the type is an array or a struct. -/
def isAggregate : Ty → Bool
  | .array .. | .struct .. => true
  | .void | .int _ | .ptr _ | .vector .. | .function .. => false

end Ty

namespace DataLayout

variable {layout : DataLayout} {t : Ty} {bits : Nat}

/-- Arrays and structs have no space after them. -/
theorem exists_measures_of_isAggregate (ht : t.isAggregate = true)
    (h : layout.sizeInBits t = .ok bits) :
    ∃ n align, (t.extent layout).Measures bits n align n ∧ bits = 8 * n := by
  cases t with
  | array size t => exact Extent.measures_array (t.aligned_extent layout) h
  | struct name fields packed => exact Extent.measures_struct (Ty.aligned_extents layout fields) h
  | void | int | ptr | vector | function => exact nomatch ht

/-- A type with a size in bits has all measures, and they fit together. -/
theorem exists_measures
    (h : layout.sizeInBits t = .ok bits) :
    ∃ store align alloc, (t.extent layout).Measures bits store align alloc := by
  cases t with
  | void | function => exact nomatch h
  | int w =>
    obtain rfl : w.toNat = bits := Except.ok.inj h
    exact Extent.measures_scalar w
  | ptr t =>
    obtain rfl : layout.pointerBits.toNat = bits := Except.ok.inj h
    exact Extent.measures_scalar layout.pointerBits
  | vector lanes t => exact Extent.measures_vector h
  | array | struct =>
    obtain ⟨n, align, hm, -⟩ := exists_measures_of_isAggregate rfl h
    exact ⟨n, align, n, hm⟩

/-! ### Types without a size -/

/-- A type without a size in bits has no bytes to store. -/
theorem storeSize_eq_unsized (h : layout.sizeInBits t = .error .unsized) :
    layout.storeSize t = .error .unsized := by
  -- the bits of an aggregate come from its bytes, and leave the word rather than have no value
  have haggregate : ∀ {store align : Quantity},
      (Extent.aggregate store align).bits = .error .unsized → store = .error .unsized := by
    intro store align hbits
    cases store with
    | error e => exact hbits
    | ok n =>
      have hfit : fit (n * 8) = .error .unsized := hbits
      unfold fit at hfit
      split at hfit
      · exact nomatch hfit
      · exact nomatch hfit
  cases t with
  | void | function => rfl
  | int | ptr => exact nomatch h
  | array | struct => exact haggregate h
  | vector lanes t =>
    have hbits : Extent.vectorBits lanes (t.extent layout) = .error .unsized := h
    exact congrArg (bytes <$> ·) hbits

theorem allocSize_eq_unsized (h : layout.storeSize t = .error .unsized) :
    layout.allocSize t = .error .unsized := by
  have hstore : (t.extent layout).store = .error .unsized := h
  rw [allocSize, Extent.alloc, hstore]
  rfl

/-- **The laws of the layout.**  All alignments are powers of two, so that every rounding has a
positive step: that of the type itself, that of the type as a field, and that of a struct, which is
the alignment its fields end with.  If the size in bits does not leave the word, then either the
type has none of the three sizes, or it has all of them and an alignment, and they fit together: the
bits fit the bytes of a store, these fit the distance of neighbours with less than one alignment to
spare, and the distance is a multiple of the alignment.  In arrays and structs nothing is to spare
at all. -/
theorem measures_or_unsized (layout : DataLayout) (t : Ty)
    (h : layout.sizeInBits t ≠ .error .overflow) :
    (∀ a, layout.abiAlign t = .ok a → ∃ k, a = 2 ^ k) ∧
    (∀ packed a, (t.extent layout).fieldAlign packed = .ok a → 0 < a) ∧
    (∀ name fields packed stop a, t = .struct name fields packed →
      (Ty.extents layout fields).foldlM (Extent.place packed) (0, 1) = .ok (stop, a) →
      layout.abiAlign t = .ok a) ∧
    (layout.sizeInBits t = .error .unsized ∧ layout.storeSize t = .error .unsized ∧
        layout.allocSize t = .error .unsized ∨
      ∃ bits store align alloc, layout.sizeInBits t = .ok bits ∧ layout.storeSize t = .ok store ∧
        layout.abiAlign t = .ok align ∧ layout.allocSize t = .ok alloc ∧ bits ≤ 8 * store ∧
        store ≤ alloc ∧ alloc < store + align ∧ align ∣ alloc ∧
        (t.isAggregate = true → alloc = store ∧ bits = 8 * alloc)) := by
  have hpow : ∀ a, layout.abiAlign t = .ok a → ∃ k, a = 2 ^ k := t.aligned_extent layout
  refine ⟨hpow, fun packed a ha => ?_, fun name fields packed stop a ht hfold => ?_, ?_⟩
  · cases packed with
    | true => exact Except.ok.inj ha ▸ Nat.one_pos
    | false => exact pos_of_exists_two_pow (hpow a ha)
  · subst ht
    exact Extent.structAlign_eq_of_place hfold
  · cases hbits : layout.sizeInBits t with
    | error e =>
      cases e with
      | overflow => exact absurd hbits h
      | unsized =>
        have hstore := storeSize_eq_unsized hbits
        exact .inl ⟨rfl, hstore, allocSize_eq_unsized hstore⟩
    | ok bits =>
      right
      by_cases ht : t.isAggregate = true
      · obtain ⟨n, align, hm, heq⟩ := exists_measures_of_isAggregate ht hbits
        exact ⟨bits, n, align, n, rfl, hm.store_eq, hm.align_eq, hm.alloc_eq, hm.bits_le,
          hm.store_le, hm.alloc_lt, hm.align_dvd, fun _ => ⟨rfl, heq⟩⟩
      · obtain ⟨store, align, alloc, hm⟩ := exists_measures hbits
        exact ⟨bits, store, align, alloc, rfl, hm.store_eq, hm.align_eq, hm.alloc_eq, hm.bits_le,
          hm.store_le, hm.alloc_lt, hm.align_dvd, fun h' => absurd h' ht⟩

/-- A 24-bit integer and a vector of three words: both take less room than their alignment asks
for. -/
def roomyRecord : Ty := .struct none [.int 24, .vector 3 (.int 32)] false

/-- The vector takes 12 bytes and is aligned to 16, so the record takes 32. -/
theorem measures_or_unsized_roomyRecord :
    ({} : DataLayout).sizeInBits roomyRecord = .ok 256 ∧
    ({} : DataLayout).sizeInBits roomyRecord ≠ .error .overflow ∧
    ∃ store align alloc, ({} : DataLayout).storeSize roomyRecord = .ok store ∧
      ({} : DataLayout).abiAlign roomyRecord = .ok align ∧
      ({} : DataLayout).allocSize roomyRecord = .ok alloc ∧
      align ∣ alloc ∧ alloc = store ∧ 256 = 8 * alloc := by
  have hbits : ({} : DataLayout).sizeInBits roomyRecord = .ok 256 := rfl
  have hfits : ({} : DataLayout).sizeInBits roomyRecord ≠ .error .overflow := by
    rw [hbits]
    exact nofun
  obtain ⟨-, -, -, ⟨hunsized, -⟩ |
    ⟨bits, store, align, alloc, h, hs, ha, hd, -, -, -, hdvd, heq⟩⟩ :=
      measures_or_unsized {} roomyRecord hfits
  · exact nomatch hbits.symm.trans hunsized
  · obtain rfl : 256 = bits := Except.ok.inj (hbits.symm.trans h)
    exact ⟨hbits, hfits, store, align, alloc, hs, ha, hd, hdvd, heq rfl⟩

end DataLayout

end KernelIR

import KernelIR.Proofs.Matching

/-!
# Which types can be matched

Below a type that has a size, and whose arrays and vectors are not empty, all types have sizes, and
these never grow on the way down (`DataLayout.Solid.exists_size`).  So two types that unpack to a
common one keep a common one while the larger of them is unpacked, also where a tie leads past it,
and `matchTypes` finds a match exactly if there is a common type that is no larger than the copy
(`matchTypes_ok_iff`).
-/

namespace KernelIR

namespace Ty

/-- The type itself and the types below it, in the order in which they are met. -/
def chain (t : Ty) : List Ty := t :: t.descents

/-- An array without elements or a vector without lanes. -/
def isVacant : Ty → Bool
  | .array size _ => size == 0
  | .vector lanes _ => lanes == 0
  | _ => false

/-- What is passed up from each type to the one above it holds of all types. -/
theorem descend_induction {P : Ty → Prop} (stop : ∀ t, t.descend? = none → P t)
    (step : ∀ t u, t.descend? = some u → P u → P t) (t : Ty) : P t :=
  match h : t.descend? with
  | none => stop t h
  | some u =>
    have := sizeOf_lt_of_descend? h
    step t u h (descend_induction stop step u)
termination_by sizeOf t

theorem mem_chain_self (t : Ty) : t ∈ t.chain := List.mem_cons_self

theorem mem_chain_of_stop {t u : Ty} (h : t.descend? = none) : u ∈ t.chain ↔ u = t := by
  rw [chain, descents_eq_nil h, List.mem_singleton]

theorem mem_chain_of_descend? {t u v : Ty} (h : t.descend? = some v) :
    u ∈ t.chain ↔ u = t ∨ u ∈ v.chain := by
  rw [chain, descents_eq_cons h, List.mem_cons, chain]

theorem mem_chain_trans {t u v : Ty} (hu : u ∈ t.chain) (hv : v ∈ u.chain) : v ∈ t.chain := by
  induction t using descend_induction with
  | stop t ht =>
    rw [mem_chain_of_stop ht] at hu
    rwa [hu] at hv
  | step t w ht ih =>
    rw [mem_chain_of_descend? ht] at hu ⊢
    rcases hu with rfl | hu
    · rwa [mem_chain_of_descend? ht] at hv
    · exact .inr (ih hu)

theorem below?_mem_chain {k : Nat} {t u : Ty} (h : t.below? k = some u) : u ∈ t.chain := by
  induction k generalizing t with
  | zero =>
    obtain rfl : t = u := Option.some.inj h
    exact t.mem_chain_self
  | succ k ih =>
    obtain ⟨v, hv, h⟩ := Option.bind_eq_some_iff.1 h
    exact (mem_chain_of_descend? hv).2 (.inr (ih h))

end Ty

namespace DataLayout

variable {layout : DataLayout} {t u : Ty} {n : Nat}

/-! ### Sizes on the way down -/

/-- A type whose neighbours have a distance has a size in bits, unless it leaves the word. -/
theorem exists_size_of_allocSize (h : layout.allocSize t = .ok n) (hn : n * 8 < 2 ^ 64) :
    ∃ bits, layout.sizeInBits t = .ok bits ∧ bits ≤ n * 8 := by
  obtain ⟨store, align, hstore, halign, hround⟩ := Extent.alloc_eq_ok.1 h
  have hpos := Quantity.pos_of_exists_two_pow (t.aligned_extent layout align halign)
  have hle : store ≤ n := (Quantity.le_of_roundUp hpos hround).1
  have haggregate :
      (do let s ← (t.extent layout).store; Quantity.fit (s * 8)) = .ok (store * 8) := by
    rw [hstore]
    exact Quantity.fit_eq_ok.2 ⟨rfl, by omega⟩
  obtain ⟨bits, hbits⟩ : ∃ bits, layout.sizeInBits t = .ok bits := by
    cases t with
    | void | function => exact nomatch hstore
    | int w => exact ⟨_, rfl⟩
    | ptr t => exact ⟨_, rfl⟩
    | array size e => exact ⟨_, haggregate⟩
    | struct name fields packed => exact ⟨_, haggregate⟩
    | vector lanes e =>
      cases hv : Extent.vectorBits lanes (e.extent layout) with
      | ok bits => exact ⟨bits, hv⟩
      | error fault =>
        have hstore' : (Quantity.bytes <$> Extent.vectorBits lanes (e.extent layout)) = .ok store :=
          hstore
        rw [hv] at hstore'
        exact nomatch hstore'
  obtain ⟨store', align', alloc, hm⟩ := exists_measures hbits
  obtain rfl : alloc = n := Except.ok.inj (hm.alloc_eq.symm.trans h)
  have hbits_le := hm.bits_le
  have hstore_le := hm.store_le
  exact ⟨bits, hbits, by omega⟩

/-- The first field of a struct is no longer than the struct. -/
theorem allocSize_le_structStore {packed : Bool} {fields : List Ty} {store : Nat}
    (h : Extent.structStore packed (Ty.extents layout (u :: fields)) = .ok store) :
    ∃ alloc, layout.allocSize u = .ok alloc ∧ alloc ≤ store := by
  obtain ⟨⟨stop, align⟩, hplace, hround⟩ := except_bind_eq_ok.1 h
  rw [Ty.extents, List.foldlM_cons, except_bind_eq_ok] at hplace
  obtain ⟨state, hfirst, hplace⟩ := hplace
  obtain ⟨a, start, alloc, -, -, halloc, -, rfl⟩ := Extent.place_eq_ok.1 hfirst
  -- the other fields only move the end up, and the alignment stays positive
  have hgrow : alloc ≤ (stop, align).1 ∧ 0 < (stop, align).2 := by
    refine except_foldlM_invariant (P := fun state => alloc ≤ state.1 ∧ 0 < state.2)
      (fun e he s s' hs hstep => ?_) ⟨Nat.le_add_left .., by omega⟩ hplace
    obtain ⟨b, start', size, hb, hstart, -, -, rfl⟩ := Extent.place_eq_ok.1 hstep
    have hbpos : 0 < b := by
      cases packed with
      | true => exact Except.ok.inj hb ▸ Nat.one_pos
      | false =>
        exact Quantity.pos_of_exists_two_pow (Ty.aligned_extents layout fields e he b hb)
    have hle := (Quantity.le_of_roundUp hbpos hstart).1
    exact ⟨by omega, by omega⟩
  have hle := (Quantity.le_of_roundUp hgrow.2 hround).1
  exact ⟨alloc, halloc, by omega⟩

/-- A step down does not lead to a larger type, unless it leads out of an empty array or vector. -/
theorem exists_size_of_descend? (hfull : t.isVacant = false) (h : t.descend? = some u)
    (hn : layout.sizeInBits t = .ok n) : ∃ k, layout.sizeInBits u = .ok k ∧ k ≤ n := by
  cases t with
  | array size e =>
    obtain rfl : e = u := Option.some.inj h
    obtain ⟨store, hstore, hbits⟩ := except_bind_eq_ok.1 hn
    obtain ⟨rfl, hlt⟩ := Quantity.fit_eq_ok.1 hbits
    obtain ⟨stride, hstride, hfit⟩ := except_bind_eq_ok.1 hstore
    obtain ⟨rfl, -⟩ := Quantity.fit_eq_ok.1 hfit
    have hsize : 0 < size.toNat := by
      have hne : size ≠ 0 := by simpa [Ty.isVacant] using hfull
      exact Nat.pos_of_ne_zero fun h0 => hne (UInt64.toNat_inj.1 h0)
    have hle : stride ≤ stride * size.toNat := Nat.le_mul_of_pos_right stride hsize
    obtain ⟨k, hk, hkle⟩ := exists_size_of_allocSize hstride (by omega)
    exact ⟨k, hk, by omega⟩
  | vector lanes e =>
    obtain rfl : e = u := Option.some.inj h
    obtain ⟨k, hk, hfit⟩ := except_bind_eq_ok.1 hn
    obtain ⟨rfl, -⟩ := Quantity.fit_eq_ok.1 hfit
    have hlanes : 0 < lanes.toNat := by
      have hne : lanes ≠ 0 := by simpa [Ty.isVacant] using hfull
      exact Nat.pos_of_ne_zero fun h0 => hne (UInt32.toNat_inj.1 h0)
    exact ⟨k, hk, Nat.le_mul_of_pos_left k hlanes⟩
  | struct name fields packed =>
    cases fields with
    | nil => exact nomatch h
    | cons e fields =>
      obtain rfl : e = u := Option.some.inj h
      obtain ⟨store, hstore, hbits⟩ := except_bind_eq_ok.1 hn
      obtain ⟨rfl, hlt⟩ := Quantity.fit_eq_ok.1 hbits
      obtain ⟨alloc, halloc, hle⟩ := allocSize_le_structStore hstore
      obtain ⟨k, hk, hkle⟩ := exists_size_of_allocSize halloc (by omega)
      exact ⟨k, hk, by omega⟩
  | void | int | ptr | function => exact nomatch h

/-- The type has a size, and no array or vector below it is empty. -/
structure Solid (layout : DataLayout) (t : Ty) : Prop where
  sized : ∃ bits, layout.sizeInBits t = .ok bits
  full : ∀ u ∈ t.chain, u.isVacant = false

namespace Solid

theorem descend (h : layout.Solid t) (hu : t.descend? = some u) : layout.Solid u := by
  obtain ⟨n, hn⟩ := h.sized
  obtain ⟨k, hk, -⟩ := exists_size_of_descend? (h.full t t.mem_chain_self) hu hn
  exact ⟨⟨k, hk⟩, fun v hv => h.full v ((Ty.mem_chain_of_descend? hu).2 (.inr hv))⟩

/-- Every type below has a size, and it is no larger than that of the type itself. -/
theorem exists_size (h : layout.Solid t) (hn : layout.sizeInBits t = .ok n) (hu : u ∈ t.chain) :
    ∃ k, layout.sizeInBits u = .ok k ∧ k ≤ n := by
  induction t using Ty.descend_induction generalizing n with
  | stop t ht =>
    obtain rfl := (Ty.mem_chain_of_stop ht).1 hu
    exact ⟨n, hn, Nat.le_refl n⟩
  | step t v ht ih =>
    rcases (Ty.mem_chain_of_descend? ht).1 hu with rfl | hu
    · exact ⟨n, hn, Nat.le_refl n⟩
    · obtain ⟨j, hj, hjn⟩ := exists_size_of_descend? (h.full t t.mem_chain_self) ht hn
      obtain ⟨k, hk, hkj⟩ := ih (h.descend ht) hj hu
      exact ⟨k, hk, Nat.le_trans hkj hjn⟩

end Solid

end DataLayout

namespace TypeMatch

variable {layout : DataLayout} {dest src element : Ty} {destDepth srcDepth bytes : Nat}

/-- The type has a size that is not above that of the copy. -/
def Fits (layout : DataLayout) (bytes : Nat) (t : Ty) : Prop :=
  ∃ bits, layout.sizeInBits t = .ok bits ∧ bits / 8 ≤ bytes

/-- The two types unpack to a common one that fits the copy. -/
def Meet (layout : DataLayout) (bytes : Nat) (dest src : Ty) : Prop :=
  ∃ t ∈ dest.chain, t ∈ src.chain ∧ Fits layout bytes t

/-- What fits the copy still fits it after steps down. -/
theorem Fits.of_mem_chain {t u : Ty} (ht : layout.Solid t) (h : Fits layout bytes t)
    (hu : u ∈ t.chain) : Fits layout bytes u := by
  obtain ⟨n, hn, hle⟩ := h
  obtain ⟨k, hk, hkn⟩ := ht.exists_size hn hu
  exact ⟨k, hk, Nat.le_trans (Nat.div_le_div_right hkn) hle⟩

theorem Meet.symm (h : Meet layout bytes dest src) : Meet layout bytes src dest := by
  obtain ⟨t, hd, hs, hfits⟩ := h
  exact ⟨t, hs, hd, hfits⟩

/-- The side that is unpacked, in terms of the sizes. -/
theorem destFirst_eq {d s : Nat} (hd : layout.sizeInBits dest = .ok d)
    (hs : layout.sizeInBits src = .ok s) :
    destFirst layout dest src = .ok (s < d || (s == d && dest.descend?.isSome)) := by
  rw [destFirst, size_eq_ok.2 hd, size_eq_ok.2 hs]
  rfl

/-! ### One step of unpacking -/

/-- If the types meet in one of them, the other one is above it and can be unpacked. -/
theorem exists_descend?_of_mem_chain (hne : dest ≠ src) (h : dest ∈ src.chain) :
    ∃ t, src.descend? = some t ∧ dest ∈ t.chain := by
  cases hs : src.descend? with
  | none => exact absurd ((Ty.mem_chain_of_stop hs).1 h) hne
  | some t => exact ⟨t, rfl, ((Ty.mem_chain_of_descend? hs).1 h).resolve_left hne⟩

/-- Unpacking a side keeps a common type, or else they meet only in that side and there it ends. -/
theorem Meet.descend (hdest : layout.Solid dest) (h : Meet layout bytes dest src) :
    (∃ t, dest.descend? = some t ∧ Meet layout bytes t src) ∨
      dest ∈ src.chain ∧ dest.descend? = none := by
  obtain ⟨u, hu, hsrc, hfits⟩ := h
  cases ht : dest.descend? with
  | none =>
    obtain rfl := (Ty.mem_chain_of_stop ht).1 hu
    exact .inr ⟨hsrc, rfl⟩
  | some t =>
    refine .inl ⟨t, rfl, ?_⟩
    rcases (Ty.mem_chain_of_descend? ht).1 hu with rfl | hu
    · -- the common type itself is unpacked, and the type below it is common as well
      have hbelow : t ∈ u.chain := (Ty.mem_chain_of_descend? ht).2 (.inr t.mem_chain_self)
      exact ⟨t, t.mem_chain_self, Ty.mem_chain_trans hsrc hbelow, hfits.of_mem_chain hdest hbelow⟩
    · exact ⟨u, hu, hsrc, hfits⟩

/-- The destination can be unpacked when it is its turn. -/
theorem exists_descend?_dest (hsrc : layout.Solid src) (hdest : layout.Solid dest)
    (h : Meet layout bytes dest src) (hfirst : destFirst layout dest src = .ok true) :
    ∃ t, dest.descend? = some t ∧ Meet layout bytes t src := by
  refine (h.descend hdest).resolve_right ?_
  rintro ⟨hmem, hstop⟩
  obtain ⟨s, hs⟩ := hsrc.sized
  obtain ⟨d, hd, hle⟩ := hsrc.exists_size hs hmem
  -- it lies below the source, so it is not the larger one
  rw [destFirst_eq hd hs, hstop] at hfirst
  simp only [Except.ok.injEq, Option.isSome_none, Bool.and_false, Bool.or_false,
    decide_eq_true_eq] at hfirst
  omega

/-- The source can be unpacked when it is its turn. -/
theorem exists_descend?_src (hsrc : layout.Solid src) (hdest : layout.Solid dest)
    (hne : dest ≠ src) (h : Meet layout bytes dest src)
    (hfirst : destFirst layout dest src = .ok false) :
    ∃ t, src.descend? = some t ∧ Meet layout bytes dest t := by
  rcases h.symm.descend hsrc with ⟨t, ht, hmeet⟩ | ⟨hmem, -⟩
  · exact ⟨t, ht, hmeet.symm⟩
  · exfalso
    obtain ⟨d, hd⟩ := hdest.sized
    obtain ⟨s, hs, hle⟩ := hdest.exists_size hd hmem
    obtain ⟨t, ht, -⟩ := exists_descend?_of_mem_chain hne.symm hmem
    -- it lies below the destination, so the destination would have come first
    rw [destFirst_eq hd hs, ht] at hfirst
    simp only [Except.ok.injEq, Option.isSome_some, Bool.and_true, Bool.or_eq_false_iff,
      decide_eq_false_iff_not, beq_eq_false_iff_ne] at hfirst
    omega

/-! ### Whole runs -/

/-- Two types that meet are unpacked to a type that still fits the copy, or lies above one that
does. -/
theorem exists_unpack (destDepth srcDepth : Nat) (hdest : layout.Solid dest)
    (hsrc : layout.Solid src) (h : Meet layout bytes dest src) :
    ∃ m, (unpack layout dest src destDepth srcDepth).result = .ok m ∧ layout.Solid m.element ∧
      ∃ t ∈ m.element.chain, Fits layout bytes t := by
  fun_induction unpack layout dest src destDepth srcDepth with
  | case1 dest destDepth srcDepth =>
    obtain ⟨t, ht, -, hfits⟩ := h
    exact ⟨_, rfl, hdest, t, ht, hfits⟩
  | case2 dest src destDepth srcDepth hne e hfirst =>
    obtain ⟨d, hd⟩ := hdest.sized
    obtain ⟨s, hs⟩ := hsrc.sized
    rw [destFirst_eq hd hs] at hfirst
    cases hfirst
  | case3 dest src destDepth srcDepth hne hfirst hstop =>
    obtain ⟨t, ht, -⟩ := exists_descend?_dest hsrc hdest h hfirst
    cases hstop.symm.trans ht
  | case4 dest src destDepth srcDepth hne hfirst t ht _ ih =>
    obtain ⟨t', ht', hmeet⟩ := exists_descend?_dest hsrc hdest h hfirst
    obtain rfl := Option.some.inj (ht'.symm.trans ht)
    exact ih (hdest.descend ht) hsrc hmeet
  | case5 dest src destDepth srcDepth hne hfirst hstop =>
    obtain ⟨t, ht, -⟩ := exists_descend?_src hsrc hdest hne h hfirst
    cases hstop.symm.trans ht
  | case6 dest src destDepth srcDepth hne hfirst t ht _ ih =>
    obtain ⟨t', ht', hmeet⟩ := exists_descend?_src hsrc hdest hne h hfirst
    obtain rfl := Option.some.inj (ht'.symm.trans ht)
    exact ih hdest (hsrc.descend ht) hmeet

/-- A common type above one that fits the copy is unpacked to one that does. -/
theorem exists_shrink (destDepth srcDepth : Nat) (helement : layout.Solid element)
    (h : ∃ t ∈ element.chain, Fits layout bytes t) :
    ∃ m, (shrink layout bytes element destDepth srcDepth).result = .ok m := by
  fun_induction shrink layout bytes element destDepth srcDepth with
  | case1 element destDepth srcDepth e hsize =>
    obtain ⟨n, hn⟩ := helement.sized
    rw [size_eq_ok.2 hn] at hsize
    cases hsize
  | case2 element destDepth srcDepth bits hsize hlt hstop =>
    obtain ⟨t, ht, n, hn, hle⟩ := h
    obtain rfl := (Ty.mem_chain_of_stop hstop).1 ht
    obtain rfl := Except.ok.inj (hn.symm.trans (size_eq_ok.1 hsize))
    omega
  | case3 element destDepth srcDepth bits hsize hlt u hu _ ih =>
    obtain ⟨t, ht, n, hn, hle⟩ := h
    refine ih (helement.descend hu) ⟨t, ?_, n, hn, hle⟩
    rcases (Ty.mem_chain_of_descend? hu).1 ht with rfl | ht
    · obtain rfl := Except.ok.inj (hn.symm.trans (size_eq_ok.1 hsize))
      omega
    · exact ht
  | case4 => exact ⟨_, rfl⟩

/-! ### Words at their end -/

theorem size_eq_overflow {t : Ty} (h : size layout dest src t = .error .overflow) :
    layout.sizeInBits t = .error .overflow := by
  unfold size at h
  split at h
  · exact nomatch h
  · exact nomatch h
  · assumption

theorem overflow_of_destFirst (h : destFirst layout dest src = .error .overflow) :
    layout.sizeInBits dest = .error .overflow ∨ layout.sizeInBits src = .error .overflow := by
  unfold destFirst at h
  cases hd : size layout dest src dest with
  | error e =>
    rw [hd] at h
    obtain rfl : e = .overflow := Except.error.inj h
    exact .inl (size_eq_overflow hd)
  | ok d =>
    cases hs : size layout dest src src with
    | error e =>
      rw [hd, hs] at h
      obtain rfl : e = .overflow := Except.error.inj h
      exact .inr (size_eq_overflow hs)
    | ok s =>
      rw [hd, hs] at h
      exact nomatch h

/-- Unpacking overflows only in the size of a type that was met. -/
theorem overflow_of_unpack
    (h : (unpack layout dest src destDepth srcDepth).result = .error .overflow) :
    ∃ t, (t ∈ dest.chain ∨ t ∈ src.chain) ∧ layout.sizeInBits t = .error .overflow := by
  fun_induction unpack layout dest src destDepth srcDepth with
  | case1 => simp at h
  | case2 dest src destDepth srcDepth hne e hfirst =>
    obtain rfl : e = .overflow := Except.error.inj h
    rcases overflow_of_destFirst hfirst with hd | hs
    · exact ⟨dest, .inl dest.mem_chain_self, hd⟩
    · exact ⟨src, .inr src.mem_chain_self, hs⟩
  | case3 => simp at h
  | case4 dest src destDepth srcDepth hne hfirst t ht _ ih =>
    obtain ⟨u, hu, hoverflow⟩ := ih h
    exact ⟨u, hu.imp_left fun hu => (Ty.mem_chain_of_descend? ht).2 (.inr hu), hoverflow⟩
  | case5 => simp at h
  | case6 dest src destDepth srcDepth hne hfirst t ht _ ih =>
    obtain ⟨u, hu, hoverflow⟩ := ih h
    exact ⟨u, hu.imp_right fun hu => (Ty.mem_chain_of_descend? ht).2 (.inr hu), hoverflow⟩

theorem overflow_of_shrink
    (h : (shrink layout bytes element destDepth srcDepth).result = .error .overflow) :
    ∃ t ∈ element.chain, layout.sizeInBits t = .error .overflow := by
  fun_induction shrink layout bytes element destDepth srcDepth with
  | case1 element destDepth srcDepth e hsize =>
    obtain rfl : e = .overflow := Except.error.inj h
    exact ⟨element, element.mem_chain_self, size_eq_overflow hsize⟩
  | case2 => simp at h
  | case3 element destDepth srcDepth bits hsize hlt u hu _ ih =>
    obtain ⟨t, ht, hoverflow⟩ := ih h
    exact ⟨t, (Ty.mem_chain_of_descend? hu).2 (.inr ht), hoverflow⟩
  | case4 => simp at h

end TypeMatch

open TypeMatch

section Match

variable {layout : DataLayout} {dest src : Ty} {bytes : Nat}

/-- Two types that meet have a match. -/
theorem exists_matchTypes (hdest : layout.Solid dest) (hsrc : layout.Solid src)
    (h : Meet layout bytes dest src) : ∃ m, (matchTypes layout dest src bytes).result = .ok m := by
  obtain ⟨common, hcommon, hsolid, hfits⟩ := exists_unpack 0 0 hdest hsrc h
  obtain ⟨m, hm⟩ := exists_shrink common.destDepth common.srcDepth hsolid hfits
  exact ⟨m, Traced.result_bind_eq_ok.2 ⟨common, hcommon, hm⟩⟩

/-- Matching overflows only in the size of a type below one of the two. -/
theorem overflow_of_matchTypes (h : (matchTypes layout dest src bytes).result = .error .overflow) :
    ∃ t, (t ∈ dest.chain ∨ t ∈ src.chain) ∧ layout.sizeInBits t = .error .overflow := by
  rw [matchTypes, Traced.result_bind] at h
  cases hcommon : (unpack layout dest src 0 0).result with
  | error e =>
    rw [hcommon] at h
    obtain rfl : e = .overflow := Except.error.inj h
    exact overflow_of_unpack hcommon
  | ok common =>
    rw [hcommon] at h
    obtain ⟨i, j, -, -, hdest, -⟩ := unpacks_of_unpack hcommon
    obtain ⟨t, ht, hoverflow⟩ := overflow_of_shrink h
    exact ⟨t, .inl (Ty.mem_chain_trans (Ty.below?_mem_chain hdest.below?_eq) ht), hoverflow⟩

/-- Of two types whose sizes are known down to their ends, matching says at worst that they do not
match. -/
theorem matchTypes_ok_or_stuck (hdest : layout.Solid dest) (hsrc : layout.Solid src) :
    (∃ m, (matchTypes layout dest src bytes).result = .ok m) ∨
      ∃ d s, (matchTypes layout dest src bytes).result = .error (.stuck d s) := by
  cases h : (matchTypes layout dest src bytes).result with
  | ok m => exact .inl ⟨m, rfl⟩
  | error e =>
    cases e with
    | stuck d s => exact .inr ⟨d, s, rfl⟩
    | overflow =>
      exfalso
      obtain ⟨t, ht | ht, hoverflow⟩ := overflow_of_matchTypes h
      · obtain ⟨n, hn⟩ := hdest.sized
        obtain ⟨k, hk, -⟩ := hdest.exists_size hn ht
        exact nomatch hk.symm.trans hoverflow
      · obtain ⟨n, hn⟩ := hsrc.sized
        obtain ⟨k, hk, -⟩ := hsrc.exists_size hn ht
        exact nomatch hk.symm.trans hoverflow

/-- **Matching is sound and complete.**  A match is a type that both sides unpack to in the given
numbers of steps, and it is no larger than the copy.  If both types have sizes and no array or
vector below them is empty, there is a match exactly if some type lies below both (or is one of
them) and is no larger than the copy; and if there is none, this is what is answered. -/
theorem matchTypes_ok_iff (layout : DataLayout) (dest src : Ty) (bytes : Nat) :
    (∀ m, (matchTypes layout dest src bytes).result = .ok m →
      dest.below? m.destDepth = some m.element ∧ src.below? m.srcDepth = some m.element ∧
        ∃ bits, layout.sizeInBits m.element = .ok bits ∧ bits / 8 ≤ bytes) ∧
    ∀ destBits srcBits, layout.sizeInBits dest = .ok destBits →
      layout.sizeInBits src = .ok srcBits →
      (∀ t ∈ dest.chain, t.isVacant = false) → (∀ t ∈ src.chain, t.isVacant = false) →
      ((∃ m, (matchTypes layout dest src bytes).result = .ok m) ↔
        ∃ t ∈ dest.chain, t ∈ src.chain ∧
          ∃ bits, layout.sizeInBits t = .ok bits ∧ bits / 8 ≤ bytes) ∧
      ((∃ m, (matchTypes layout dest src bytes).result = .ok m) ∨
        ∃ d s, (matchTypes layout dest src bytes).result = .error (.stuck d s)) := by
  constructor
  · intro m hm
    obtain ⟨hdest, hsrc, hfits⟩ := matchTypes_eq_ok hm
    exact ⟨hdest.below?_eq, hsrc.below?_eq, hfits⟩
  · intro destBits srcBits hdestBits hsrcBits hdestFull hsrcFull
    have hdest : layout.Solid dest := ⟨⟨destBits, hdestBits⟩, hdestFull⟩
    have hsrc : layout.Solid src := ⟨⟨srcBits, hsrcBits⟩, hsrcFull⟩
    refine ⟨⟨?_, fun h => exists_matchTypes hdest hsrc h⟩, matchTypes_ok_or_stuck hdest hsrc⟩
    rintro ⟨m, hm⟩
    obtain ⟨hdestTy, hsrcTy, hfits⟩ := matchTypes_eq_ok hm
    exact ⟨m.element, Ty.below?_mem_chain hdestTy.below?_eq, Ty.below?_mem_chain hsrcTy.below?_eq,
      hfits⟩

end Match

/-- A struct in a struct and the inner one by itself: the tie leads past the inner struct, which
both have in common, and the match is the word in it. -/
theorem matchTypes_ok_iff_nested :
    ∃ m, (matchTypes {} (.struct none [.int 32] false)
      (.struct none [.struct none [.int 32] false] false) 4).result = .ok m ∧
      (Ty.struct none [.int 32] false).below? m.destDepth = some m.element ∧
      (Ty.struct none [.struct none [.int 32] false] false).below? m.srcDepth = some m.element := by
  have hmatch := matchTypes_ok_iff {} (.struct none [.int 32] false)
    (.struct none [.struct none [.int 32] false] false) 4
  obtain ⟨m, hm⟩ := (hmatch.2 32 32 rfl rfl (by decide) (by decide)).1.2
    ⟨.struct none [.int 32] false, by decide, by decide, 32, rfl, by decide⟩
  obtain ⟨hdest, hsrc, -⟩ := hmatch.1 m hm
  exact ⟨m, hm, hdest, hsrc⟩

end KernelIR

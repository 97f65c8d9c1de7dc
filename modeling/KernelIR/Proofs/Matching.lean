import KernelIR.Lowering.TypeMatch
import KernelIR.Proofs.LayoutLaws

/-!
# What the types of a copy are matched to

`Unpacks t k u` says that `u` is what `k` steps down from `t` lead to, through types that have a
size.  `matchTypes` answers with a type that both its arguments unpack to, in as many steps as it
says, and that is no larger than the copy (`matchTypes_eq_ok`).
-/

namespace KernelIR

/-- The type that `k` steps down lead to. -/
def Ty.below? : Nat → Ty → Option Ty
  | 0, t => some t
  | k + 1, t => t.descend?.bind (below? k)

namespace DataLayout

/-- `k` steps down from `t` lead to `u`, and every type on the way has a size. -/
inductive Unpacks (layout : DataLayout) : Ty → Nat → Ty → Prop
  | refl (t : Ty) : Unpacks layout t 0 t
  | step {t v u : Ty} {k bits : Nat} (hsize : layout.sizeInBits t = .ok bits)
      (hdescend : t.descend? = some v) (h : Unpacks layout v k u) : Unpacks layout t (k + 1) u

namespace Unpacks

variable {layout : DataLayout} {t u v : Ty} {k j : Nat}

theorem below?_eq (h : layout.Unpacks t k u) : t.below? k = some u := by
  induction h with
  | refl => rfl
  | step _ hdescend _ ih => rw [Ty.below?, hdescend, Option.bind_some, ih]

theorem trans (h : layout.Unpacks t k v) (h' : layout.Unpacks v j u) :
    layout.Unpacks t (k + j) u := by
  induction h with
  | refl => rwa [Nat.zero_add]
  | step hsize hdescend _ ih =>
    rw [Nat.add_right_comm]
    exact .step hsize hdescend (ih h')

/-- The last step. -/
theorem exists_last (h : layout.Unpacks t (k + 1) u) :
    ∃ v bits, layout.Unpacks t k v ∧ layout.sizeInBits v = .ok bits ∧ v.descend? = some u := by
  induction k generalizing t with
  | zero =>
    cases h with
    | step hsize hdescend h =>
      cases h with
      | refl => exact ⟨t, _, .refl t, hsize, hdescend⟩
  | succ k ih =>
    cases h with
    | step hsize hdescend h =>
      obtain ⟨v, bits, hv, hbits, hu⟩ := ih h
      exact ⟨v, bits, .step hsize hdescend hv, hbits, hu⟩

/-- A type from which one gets to a type with a size has a size itself. -/
theorem exists_size (h : layout.Unpacks t k u) {bits : Nat} (hu : layout.sizeInBits u = .ok bits) :
    ∃ bits, layout.sizeInBits t = .ok bits := by
  cases h with
  | refl => exact ⟨bits, hu⟩
  | step hsize => exact ⟨_, hsize⟩

end Unpacks

end DataLayout

namespace TypeMatch

variable {layout : DataLayout} {dest src element : Ty} {destDepth srcDepth bytes : Nat}
  {m : TypeMatch}

theorem size_eq_ok {t : Ty} {bits : Nat} :
    size layout dest src t = .ok bits ↔ layout.sizeInBits t = .ok bits := by
  unfold size
  split
  · next h => rw [h, Except.ok.injEq, Except.ok.injEq]
  · next h => simp [h]
  · next h => simp [h]

/-- To choose a side the sizes of both are asked. -/
theorem sizes_of_destFirst {first : Bool} (h : destFirst layout dest src = .ok first) :
    (∃ bits, layout.sizeInBits dest = .ok bits) ∧ ∃ bits, layout.sizeInBits src = .ok bits := by
  obtain ⟨destBits, hdest, h⟩ := except_bind_eq_ok.1 h
  obtain ⟨srcBits, hsrc, -⟩ := except_bind_eq_ok.1 h
  exact ⟨⟨destBits, size_eq_ok.1 hdest⟩, srcBits, size_eq_ok.1 hsrc⟩

/-- Unpacking ends at a type that both sides unpack to. -/
theorem unpacks_of_unpack (h : (unpack layout dest src destDepth srcDepth).result = .ok m) :
    ∃ i j, m.destDepth = destDepth + i ∧ m.srcDepth = srcDepth + j ∧
      layout.Unpacks dest i m.element ∧ layout.Unpacks src j m.element := by
  fun_induction unpack layout dest src destDepth srcDepth with
  | case1 dest destDepth srcDepth =>
    obtain rfl := Except.ok.inj h
    exact ⟨0, 0, rfl, rfl, .refl _, .refl _⟩
  | case2 => exact nomatch h
  | case3 => exact nomatch h
  | case4 dest src destDepth srcDepth hne hfirst t hdescend _ ih =>
    obtain ⟨⟨bits, hbits⟩, -⟩ := sizes_of_destFirst hfirst
    obtain ⟨i, j, hi, hj, hdest, hsrc⟩ := ih h
    exact ⟨i + 1, j, by omega, hj, .step hbits hdescend hdest, hsrc⟩
  | case5 => exact nomatch h
  | case6 dest src destDepth srcDepth hne hfirst t hdescend _ ih =>
    obtain ⟨-, bits, hbits⟩ := sizes_of_destFirst hfirst
    obtain ⟨i, j, hi, hj, hdest, hsrc⟩ := ih h
    exact ⟨i, j + 1, hi, by omega, hdest, .step hbits hdescend hsrc⟩

/-- Shrinking ends at a type that the common one unpacks to and that the copy is not too small
for. -/
theorem unpacks_of_shrink (h : (shrink layout bytes element destDepth srcDepth).result = .ok m) :
    ∃ i bits, m.destDepth = destDepth + i ∧ m.srcDepth = srcDepth + i ∧
      layout.Unpacks element i m.element ∧ layout.sizeInBits m.element = .ok bits ∧
      bits / 8 ≤ bytes := by
  fun_induction shrink layout bytes element destDepth srcDepth with
  | case1 => exact nomatch h
  | case2 => exact nomatch h
  | case3 element destDepth srcDepth bits hsize hlt t hdescend _ ih =>
    obtain ⟨i, bits', hi, hj, hu, hbits', hle⟩ := ih h
    exact ⟨i + 1, bits', by omega, by omega, .step (size_eq_ok.1 hsize) hdescend hu, hbits', hle⟩
  | case4 element destDepth srcDepth bits hsize hle =>
    obtain rfl := Except.ok.inj h
    exact ⟨0, bits, rfl, rfl, .refl _, size_eq_ok.1 hsize, Nat.le_of_not_lt hle⟩

end TypeMatch

/-- The match is a type that both sides unpack to in the given numbers of steps, with a size that is
not above that of the copy. -/
theorem matchTypes_eq_ok {layout : DataLayout} {dest src : Ty} {bytes : Nat} {m : TypeMatch}
    (h : (matchTypes layout dest src bytes).result = .ok m) :
    layout.Unpacks dest m.destDepth m.element ∧ layout.Unpacks src m.srcDepth m.element ∧
      ∃ bits, layout.sizeInBits m.element = .ok bits ∧ bits / 8 ≤ bytes := by
  obtain ⟨common, hcommon, h⟩ := Traced.result_bind_eq_ok.1 h
  obtain ⟨i, j, hi, hj, hdest, hsrc⟩ := TypeMatch.unpacks_of_unpack hcommon
  obtain ⟨k, bits, hki, hkj, hshrink, hbits, hle⟩ := TypeMatch.unpacks_of_shrink h
  rw [Nat.zero_add] at hi hj
  rw [hki, hkj, hi, hj]
  exact ⟨hdest.trans hshrink, hsrc.trans hshrink, bits, hbits, hle⟩

end KernelIR

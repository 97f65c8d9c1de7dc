import Mathlib.Data.List.Basic

/-!
# Rows of elements

Fills and copies go through a block element by element: element `i` starts `i` strides from the
start of the block, and `size` of its bytes are written.  Here is which bytes such a row covers,
whatever the elements are: `start` tells where each begins.
-/

namespace KernelIR

/-- The byte lies in one of the ranges of `size` bytes. -/
def Covered {α : Type} (start : α → Nat) (size : Nat) (as : List α) (b : Nat) : Prop :=
  ∃ a ∈ as, start a ≤ b ∧ b < start a + size

/-- The elements start at the first `count` multiples of `stride`, one after the other. -/
def InRow {α : Type} (start : α → Nat) (stride count : Nat) (as : List α) : Prop :=
  as.map start = (List.range count).map (· * stride)

/-- An element ends before the next one starts. -/
theorem mul_add_le_mul {i j size stride : Nat} (hle : size ≤ stride) (hij : i < j) :
    i * stride + size ≤ j * stride := by
  have hmul : (i + 1) * stride ≤ j * stride := Nat.mul_le_mul_right stride hij
  rw [Nat.add_mul, Nat.one_mul] at hmul
  omega

namespace InRow

variable {α : Type} {start : α → Nat} {as : List α} {stride size count : Nat}

theorem covered_iff (h : InRow start stride count as) {b : Nat} :
    Covered start size as b ↔ ∃ i < count, i * stride ≤ b ∧ b < i * stride + size := by
  have hstarts : Covered start size as b ↔ ∃ s ∈ as.map start, s ≤ b ∧ b < s + size := by
    simp [Covered]
  rw [hstarts, h]
  simp

/-- Elements that are no longer than their distance are apart, and go up. -/
theorem pairwise (h : InRow start stride count as) (hle : size ≤ stride) :
    as.Pairwise fun a b => start a + size ≤ start b := by
  have hstarts : (as.map start).Pairwise fun s t => s + size ≤ t := by
    rw [h]
    exact List.pairwise_map.2 (List.pairwise_lt_range.imp fun hij => mul_add_le_mul hle hij)
  exact List.pairwise_map.1 hstarts

/-- They stay inside the row. -/
theorem stop_le (h : InRow start stride count as) (hle : size ≤ stride) :
    ∀ a ∈ as, start a + size ≤ count * stride := by
  intro a ha
  have hstart : start a ∈ as.map start := List.mem_map_of_mem ha
  rw [h] at hstart
  obtain ⟨i, hi, hstart⟩ := List.mem_map.1 hstart
  rw [← hstart]
  exact mul_add_le_mul hle (List.mem_range.1 hi)

/-- Elements as long as their distance leave nothing out. -/
theorem covered_dense (h : InRow start stride count as) (hpos : 0 < stride) (b : Nat) :
    Covered start stride as b ↔ b < count * stride := by
  rw [h.covered_iff]
  constructor
  · rintro ⟨i, hi, -, hb⟩
    exact Nat.lt_of_lt_of_le hb (mul_add_le_mul (Nat.le_refl stride) hi)
  · intro hb
    refine ⟨b / stride, (Nat.div_lt_iff_lt_mul hpos).2 hb, Nat.div_mul_le_self b stride, ?_⟩
    have hmod := Nat.div_add_mod' b stride
    have hlt := Nat.mod_lt b hpos
    omega

/-- A row is covered without gaps just when an element reaches up to the next one. -/
theorem forall_covered_iff (h : InRow start stride count as) (hle : size ≤ stride)
    (hpos : 0 < stride) :
    (∀ b, Covered start size as b ↔ b < count * stride) ↔ count * stride = 0 ∨ size = stride := by
  constructor
  · intro hall
    rcases Nat.eq_zero_or_pos count with rfl | hcount
    · exact .inl (Nat.zero_mul _)
    · right
      by_contra hne
      have hfirst : 1 * stride ≤ count * stride := Nat.mul_le_mul_right stride hcount
      -- the byte right after the first element
      obtain ⟨i, -, hstart, hstop⟩ := h.covered_iff.1 ((hall size).2 (by omega))
      rcases Nat.eq_zero_or_pos i with rfl | hi
      · omega
      · have hi' : 1 * stride ≤ i * stride := Nat.mul_le_mul_right stride hi
        omega
  · rintro (hzero | rfl) b
    · obtain rfl : count = 0 := (Nat.mul_eq_zero.1 hzero).resolve_right (Nat.ne_of_gt hpos)
      rw [h.covered_iff]
      simp
    · exact h.covered_dense hpos b

/-- Elements counted as shorter than their distance run over the end. -/
theorem stride_eq_of_covered {step : Nat} (h : InRow start stride count as) (hcount : 1 < count)
    (hstep : 0 < step) (hsize : step ≤ size) (hstride : size ≤ stride)
    (hinside : ∀ b, Covered start size as b → b < count * step) : stride = step := by
  obtain ⟨k, rfl⟩ : ∃ k, count = k + 2 := ⟨count - 2, by omega⟩
  obtain ⟨d, rfl⟩ : ∃ d, stride = step + d := ⟨stride - step, by omega⟩
  -- the last byte of the last element
  have hlast := hinside ((k + 1) * (step + d) + (size - 1))
    (h.covered_iff.2 ⟨k + 1, by omega, by omega, by omega⟩)
  have hd : (k + 1) * d < 1 := by
    have hsplit : (k + 1) * (step + d) = (k + 1) * step + (k + 1) * d := Nat.mul_add ..
    have hcount : (k + 2) * step = (k + 1) * step + step := Nat.succ_mul ..
    omega
  have hzero : d = 0 := by
    rcases Nat.mul_eq_zero.1 (Nat.lt_one_iff.1 hd) with hk | hd
    · omega
    · exact hd
  rw [hzero, Nat.add_zero]

end InRow

end KernelIR

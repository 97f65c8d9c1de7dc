import KernelIR.Code.BinOp
import Mathlib

/-!
# Folding as arithmetic modulo a power of two

`BinOp.fold` computes on 64-bit words with a mask.  For widths up to 64 this is arithmetic on
numbers below `2 ^ w`, which `BinOp.onNat?` writes down (`BinOp.toNat_fold`), and so the operation
on bit vectors of that width (`BinOp.onBitVec`).  A wider fold is one of whole words, or a shift
that faults (`BinOp.fold_eq_fold_word`).
-/

namespace KernelIR

namespace BinOp

/-! ### The mask in numbers -/

theorem toNat_mask (bits : UInt32) : (mask bits).toNat = 2 ^ min bits.toNat 64 - 1 := by
  unfold mask
  split
  · next h =>
    have h64 : 64 ≤ bits.toNat := by simpa using UInt32.le_iff_toNat_le.1 h
    rw [Nat.min_eq_right h64]
    rfl
  · next h =>
    have hlt : bits.toNat < 64 := by
      have := mt UInt32.le_iff_toNat_le.2 h
      simpa using this
    have hp : 2 ^ bits.toNat < 2 ^ 64 := Nat.pow_lt_pow_right (by decide) hlt
    have hs : ((1 : UInt64) <<< bits.toUInt64).toNat = 2 ^ bits.toNat := by
      simp only [UInt64.toNat_shiftLeft, UInt64.toNat_one, UInt32.toNat_toUInt64, Nat.shiftLeft_eq,
        Nat.one_mul, Nat.mod_eq_of_lt hlt]
      exact Nat.mod_eq_of_lt hp
    rw [Nat.min_eq_left (Nat.le_of_lt hlt), UInt64.toNat_sub_of_le, hs]
    · rfl
    · rw [UInt64.le_iff_toNat_le, hs]
      exact Nat.one_le_two_pow

/-- Cutting a word to the width is taking it modulo a power of two. -/
theorem toNat_and_mask (x : UInt64) (bits : UInt32) :
    (x &&& mask bits).toNat = x.toNat % 2 ^ min bits.toNat 64 := by
  rw [UInt64.toNat_and, toNat_mask, Nat.and_two_pow_sub_one_eq_mod]

/-- The operation on two numbers below `2 ^ w`.  There is no quotient by zero, and a shift by the
width or more moves all bits out. -/
def onNat? (op : BinOp) (w a b : Nat) : Option Nat :=
  match op with
  | .add => some ((a + b) % 2 ^ w)
  | .sub => some ((a + 2 ^ w - b) % 2 ^ w)
  | .mul => some (a * b % 2 ^ w)
  | .udiv => if b = 0 then none else some (a / b)
  | .urem => if b = 0 then none else some (a % b)
  | .and => some (a &&& b)
  | .or => some (a ||| b)
  | .xor => some (a ^^^ b)
  | .shl => some (if b < w then (a <<< b) % 2 ^ w else 0)
  | .lshr => some (if b < w then a >>> b else 0)

variable {op : BinOp} {bits : UInt32}

/-- The number of a word that was cut to the width after the operation. -/
theorem toNat_and_mask_of_le (h : bits.toNat ≤ 64) (x : UInt64) :
    (x &&& mask bits).toNat = x.toNat % 2 ^ bits.toNat := by
  rw [toNat_and_mask, Nat.min_eq_left h]

theorem toNat_mod_two_pow (h : bits.toNat ≤ 64) (n : Nat) :
    n % 2 ^ 64 % 2 ^ bits.toNat = n % 2 ^ bits.toNat :=
  Nat.mod_mod_of_dvd n (Nat.pow_dvd_pow 2 h)

theorem sub_mod_two_pow {w a b : Nat} (h : w ≤ 64) (hb : b < 2 ^ w) :
    (2 ^ 64 - b + a) % 2 ^ w = (a + 2 ^ w - b) % 2 ^ w := by
  obtain ⟨k, hk⟩ : 2 ^ w ∣ 2 ^ 64 := Nat.pow_dvd_pow 2 h
  have hk1 : 1 ≤ k := by
    rcases Nat.eq_zero_or_pos k with rfl | hpos
    · simp at hk
    · exact hpos
  obtain ⟨j, rfl⟩ := Nat.exists_eq_add_of_le hk1
  have hsplit : 2 ^ 64 - b + a = (a + 2 ^ w - b) + 2 ^ w * j := by
    rw [hk, Nat.mul_add, Nat.mul_one]
    omega
  rw [hsplit, Nat.add_mul_mod_self_left]

/-- A shift with its comparisons on numbers. -/
theorem shift_eq_ite (bits : UInt32) (move : UInt64 → UInt64) (amount : UInt64) :
    shift bits move amount =
      if bits.toNat ≤ amount.toNat then .ok 0
      else if 64 ≤ amount.toNat then .error .shiftTooFar
      else .ok (move amount) := by
  simp only [shift, UInt64.le_iff_toNat_le, UInt32.toNat_toUInt64]
  rfl

/-- A shift of a word by an amount that is cut to the width. -/
theorem shift_eq (h : bits.toNat ≤ 64) (move : UInt64 → UInt64) (amount : UInt64) :
    shift bits move amount = .ok (if amount.toNat < bits.toNat then move amount else 0) := by
  rw [shift_eq_ite]
  by_cases hlt : amount.toNat < bits.toNat
  · rw [if_neg (by omega), if_neg (by omega), if_pos hlt]
  · rw [if_pos (by omega), if_neg hlt]

/-- The operation on two words below `2 ^ w`, cut to the width. -/
theorem toNat_apply (op : BinOp) (h : bits.toNat ≤ 64) {a b : UInt64}
    (ha : a.toNat < 2 ^ bits.toNat) (hb : b.toNat < 2 ^ bits.toNat) :
    (op.apply bits a b).toOption.map (·.toNat % 2 ^ bits.toNat) =
      op.onNat? bits.toNat a.toNat b.toNat := by
  have hmod := toNat_mod_two_pow h
  have hok (v : UInt64) {n : Nat} (hn : v.toNat % 2 ^ bits.toNat = n) :
      (Except.ok v : Except FoldFault UInt64).toOption.map (·.toNat % 2 ^ bits.toNat) = some n :=
    congrArg some hn
  cases op with
  | add =>
    refine hok (a + b) ?_
    rw [UInt64.toNat_add, hmod]
  | sub =>
    refine hok (a - b) ?_
    rw [UInt64.toNat_sub, hmod, sub_mod_two_pow h hb]
  | mul =>
    refine hok (a * b) ?_
    rw [UInt64.toNat_mul, hmod]
  | udiv =>
    by_cases hz : b = 0
    · simp [apply, onNat?, hz, Except.toOption]
    · have hz' : b.toNat ≠ 0 := fun h0 => hz (UInt64.toNat_inj.1 h0)
      rw [apply, onNat?, if_neg hz, if_neg hz']
      refine hok (a / b) ?_
      rw [UInt64.toNat_div, Nat.mod_eq_of_lt (Nat.lt_of_le_of_lt (Nat.div_le_self _ _) ha)]
  | urem =>
    by_cases hz : b = 0
    · simp [apply, onNat?, hz, Except.toOption]
    · have hz' : b.toNat ≠ 0 := fun h0 => hz (UInt64.toNat_inj.1 h0)
      rw [apply, onNat?, if_neg hz, if_neg hz']
      refine hok (a % b) ?_
      rw [UInt64.toNat_mod, Nat.mod_eq_of_lt (Nat.lt_of_le_of_lt (Nat.mod_le _ _) ha)]
  | and =>
    refine hok (a &&& b) ?_
    rw [UInt64.toNat_and, Nat.mod_eq_of_lt (Nat.and_lt_two_pow _ hb)]
  | or =>
    refine hok (a ||| b) ?_
    rw [UInt64.toNat_or, Nat.mod_eq_of_lt (Nat.or_lt_two_pow ha hb)]
  | xor =>
    refine hok (a ^^^ b) ?_
    rw [UInt64.toNat_xor, Nat.mod_eq_of_lt (Nat.xor_lt_two_pow ha hb)]
  | shl =>
    rw [apply, onNat?, shift_eq h]
    refine hok _ ?_
    by_cases hlt : b.toNat < bits.toNat
    · rw [if_pos hlt, if_pos hlt, UInt64.toNat_shiftLeft, hmod,
        Nat.mod_eq_of_lt (Nat.lt_of_lt_of_le hlt h)]
    · rw [if_neg hlt, if_neg hlt, UInt64.toNat_zero, Nat.zero_mod]
  | lshr =>
    rw [apply, onNat?, shift_eq h]
    refine hok _ ?_
    by_cases hlt : b.toNat < bits.toNat
    · rw [if_pos hlt, if_pos hlt, UInt64.toNat_shiftRight,
        Nat.mod_eq_of_lt (Nat.lt_of_lt_of_le hlt h), Nat.mod_eq_of_lt]
      exact Nat.lt_of_le_of_lt (Nat.shiftRight_le _ _) ha
    · rw [if_neg hlt, if_neg hlt, UInt64.toNat_zero, Nat.zero_mod]

/-- **Folding is arithmetic on numbers below a power of two.** -/
theorem toNat_fold (op : BinOp) (h : bits.toNat ≤ 64) (lhs rhs : UInt64) :
    (op.fold bits lhs rhs).toOption.map UInt64.toNat =
      op.onNat? bits.toNat (lhs.toNat % 2 ^ bits.toNat) (rhs.toNat % 2 ^ bits.toNat) := by
  have hcut := toNat_and_mask_of_le h
  have hlt (x : UInt64) : (x &&& mask bits).toNat < 2 ^ bits.toNat := by
    rw [hcut]
    exact Nat.mod_lt _ (Nat.two_pow_pos _)
  rw [← hcut lhs, ← hcut rhs, ← toNat_apply op h (hlt lhs) (hlt rhs), fold]
  cases op.apply bits (lhs &&& mask bits) (rhs &&& mask bits) with
  | error e => rfl
  | ok v => exact congrArg some (hcut v)

theorem toOption_fold (h : bits.toNat ≤ 64) {lhs rhs : UInt64} {n : Nat}
    (hn : op.onNat? bits.toNat (lhs.toNat % 2 ^ bits.toNat) (rhs.toNat % 2 ^ bits.toNat) = some n) :
    (op.fold bits lhs rhs).toOption = some (.ofNat n) := by
  rw [← toNat_fold op h] at hn
  obtain ⟨v, hv, rfl⟩ := Option.map_eq_some_iff.1 hn
  rw [hv, UInt64.ofNat_toNat]

/-! ### Faults -/

variable {lhs rhs lhs' rhs' : UInt64}

/-- A shift goes too far below the width, but from the size of a word on. -/
theorem shift_eq_shiftTooFar_iff {move : UInt64 → UInt64} {amount : UInt64} :
    shift bits move amount = .error .shiftTooFar ↔
      64 ≤ amount.toNat ∧ amount.toNat < bits.toNat := by
  rw [shift_eq_ite]
  split_ifs with hwidth hword
  · exact ⟨nofun, fun h => absurd hwidth (Nat.not_le.2 h.2)⟩
  · exact ⟨fun _ => ⟨hword, Nat.not_le.1 hwidth⟩, fun _ => rfl⟩
  · exact ⟨nofun, fun h => absurd h.1 hword⟩

theorem shift_ne_divisionByZero (move : UInt64 → UInt64) (amount : UInt64) :
    shift bits move amount ≠ .error .divisionByZero := by
  rw [shift_eq_ite]
  split_ifs <;> exact nofun

/-- A shift that does not go too far is the one at the size of a word. -/
theorem shift_eq_shift_word {move : UInt64 → UInt64} {amount : UInt64} (h : 64 ≤ bits.toNat)
    (hfar : shift bits move amount ≠ .error .shiftTooFar) :
    shift bits move amount = shift 64 move amount := by
  rw [Ne, shift_eq_shiftTooFar_iff, not_and_or, Nat.not_le, Nat.not_lt] at hfar
  have hword := shift_eq (show (64 : UInt32).toNat ≤ 64 by decide) move amount
  rw [shift_eq_ite, hword]
  rcases hfar with hlt | hle
  · rw [if_neg (by omega), if_neg (by omega)]
    exact congrArg Except.ok (if_pos hlt).symm
  · rw [if_pos hle]
    exact congrArg Except.ok (if_neg (Nat.not_lt.2 (Nat.le_trans h hle))).symm

/-- Cutting the result to the width hides no fault. -/
theorem fold_eq_error_iff {e : FoldFault} :
    op.fold bits lhs rhs = .error e ↔
      op.apply bits (lhs &&& mask bits) (rhs &&& mask bits) = .error e := by
  rw [fold]
  cases op.apply bits (lhs &&& mask bits) (rhs &&& mask bits) with
  | error e' => exact Iff.rfl
  | ok v => exact ⟨nofun, nofun⟩

theorem fold_eq_shiftTooFar_iff :
    op.fold bits lhs rhs = .error .shiftTooFar ↔
      (op = .shl ∨ op = .lshr) ∧ 64 ≤ rhs.toNat % 2 ^ min bits.toNat 64 ∧
        rhs.toNat % 2 ^ min bits.toNat 64 < bits.toNat := by
  rw [fold_eq_error_iff, ← toNat_and_mask]
  generalize rhs &&& mask bits = b
  cases op with
  | shl => simp [apply, shift_eq_shiftTooFar_iff]
  | lshr => simp [apply, shift_eq_shiftTooFar_iff]
  | udiv => by_cases hz : b = 0 <;> simp [apply, hz]
  | urem => by_cases hz : b = 0 <;> simp [apply, hz]
  | _ => simp [apply]

theorem fold_eq_divisionByZero_iff :
    op.fold bits lhs rhs = .error .divisionByZero ↔
      (op = .udiv ∨ op = .urem) ∧ rhs.toNat % 2 ^ min bits.toNat 64 = 0 := by
  rw [fold_eq_error_iff, ← toNat_and_mask]
  generalize rhs &&& mask bits = b
  have hzero : b = 0 ↔ b.toNat = 0 := by rw [← UInt64.toNat_inj, UInt64.toNat_zero]
  cases op with
  | shl => simp [apply, shift_ne_divisionByZero]
  | lshr => simp [apply, shift_ne_divisionByZero]
  | udiv => by_cases hz : b = 0 <;> simp [apply, hz, ← hzero]
  | urem => by_cases hz : b = 0 <;> simp [apply, hz, ← hzero]
  | _ => simp [apply]

/-! ### Widths up to that of a word -/

theorem fold_ne_shiftTooFar (h : bits.toNat ≤ 64) : op.fold bits lhs rhs ≠ .error .shiftTooFar := by
  intro hfold
  obtain ⟨-, hword, hwidth⟩ := fold_eq_shiftTooFar_iff.1 hfold
  omega

/-- Only the lowest bits of the operands count. -/
theorem fold_congr (h : bits.toNat ≤ 64) (hl : lhs'.toNat ≡ lhs.toNat [MOD 2 ^ bits.toNat])
    (hr : rhs'.toNat ≡ rhs.toNat [MOD 2 ^ bits.toNat]) :
    op.fold bits lhs' rhs' = op.fold bits lhs rhs := by
  have hcut {x y : UInt64} (hxy : x.toNat ≡ y.toNat [MOD 2 ^ bits.toNat]) :
      x &&& mask bits = y &&& mask bits := by
    apply UInt64.toNat_inj.1
    rw [toNat_and_mask_of_le h, toNat_and_mask_of_le h]
    exact hxy
  rw [fold, fold, hcut hl, hcut hr]

/-- The operation on integers modulo `2 ^ w`.  Quotient, remainder and shift amount are those of the
numbers from `0` to `2 ^ w - 1`, and a shift by the width or more gives zero. -/
def onBitVec (op : BinOp) {w : Nat} (a b : BitVec w) : BitVec w :=
  match op with
  | .add => a + b
  | .sub => a - b
  | .mul => a * b
  | .udiv => a / b
  | .urem => a % b
  | .and => a &&& b
  | .or => a ||| b
  | .xor => a ^^^ b
  | .shl => if b.toNat < w then a <<< b.toNat else 0
  | .lshr => if b.toNat < w then a >>> b.toNat else 0

/-- On the numbers of two bit vectors, `onNat?` is the operation on the bit vectors themselves. -/
theorem onNat?_eq (op : BinOp) {w : Nat} (a b : BitVec w) :
    op.onNat? w a.toNat b.toNat =
      if (op = .udiv ∨ op = .urem) ∧ b.toNat = 0 then none else some (op.onBitVec a b).toNat := by
  cases op with
  | sub =>
    -- `BitVec.toNat_sub` adds the complement of `b` to `a`, `onNat?` borrows first.
    have hb := b.isLt
    have hsum : a.toNat + 2 ^ w - b.toNat = 2 ^ w - b.toNat + a.toNat := by omega
    simp [onNat?, onBitVec, BitVec.toNat_sub, hsum]
  | shl => by_cases hlt : b.toNat < w <;> simp [onNat?, onBitVec, hlt]
  | lshr => by_cases hlt : b.toNat < w <;> simp [onNat?, onBitVec, hlt]
  | _ => simp [onNat?, onBitVec]

/-- Unless it divides by zero, a fold has the value of the operation at the width. -/
theorem exists_fold_eq (h : bits.toNat ≤ 64)
    (hz : ¬ ((op = .udiv ∨ op = .urem) ∧ rhs.toNat % 2 ^ bits.toNat = 0)) :
    ∃ r, op.fold bits lhs rhs = .ok r ∧ r.toNat =
      (op.onBitVec (.ofNat bits.toNat lhs.toNat) (.ofNat bits.toNat rhs.toNat)).toNat := by
  have hfold := toNat_fold op h lhs rhs
  have hnat := onNat?_eq op (.ofNat bits.toNat lhs.toNat) (.ofNat bits.toNat rhs.toNat)
  rw [BitVec.toNat_ofNat, BitVec.toNat_ofNat, if_neg hz] at hnat
  rw [hnat] at hfold
  cases hr : op.fold bits lhs rhs with
  | error e => simp [hr, Except.toOption] at hfold
  | ok r => exact ⟨r, rfl, by simpa [hr, Except.toOption] using hfold⟩

/-! ### Wider ones -/

theorem mask_eq_mask_word (h : 64 ≤ bits.toNat) : mask bits = mask 64 := by
  have hle : 64 ≤ bits := UInt32.le_iff_toNat_le.2 h
  rw [mask, if_pos hle]
  rfl

/-- From the size of a word on, folding that does not fault is folding of whole words. -/
theorem fold_eq_fold_word (h : 64 ≤ bits.toNat)
    (hfar : op.fold bits lhs rhs ≠ .error .shiftTooFar) :
    op.fold bits lhs rhs = op.fold 64 lhs rhs := by
  rw [Ne, fold_eq_error_iff] at hfar
  have happly : op.apply bits (lhs &&& mask bits) (rhs &&& mask bits) =
      op.apply 64 (lhs &&& mask bits) (rhs &&& mask bits) := by
    cases op with
    | shl => exact shift_eq_shift_word h hfar
    | lshr => exact shift_eq_shift_word h hfar
    | _ => rfl
  rw [fold, fold, happly, mask_eq_mask_word h]

/-- **Folding is exact arithmetic at the width.**  Up to 64 bits it never goes too far, sees the
operands modulo `2 ^ bits` only, has no value exactly for a division by zero, and has the value of
the operation on integers modulo `2 ^ bits` otherwise.  Above 64 bits a shift goes too far exactly
from 64 to below the width, and all else is as at 64 bits. -/
theorem fold_exact (op : BinOp) (bits : UInt32) (lhs rhs : UInt64) :
    (bits.toNat ≤ 64 →
      op.fold bits lhs rhs ≠ .error .shiftTooFar ∧
      (∀ lhs' rhs' : UInt64, lhs'.toNat ≡ lhs.toNat [MOD 2 ^ bits.toNat] →
        rhs'.toNat ≡ rhs.toNat [MOD 2 ^ bits.toNat] →
          op.fold bits lhs' rhs' = op.fold bits lhs rhs) ∧
      (op.fold bits lhs rhs = .error .divisionByZero ↔
        (op = .udiv ∨ op = .urem) ∧ rhs.toNat % 2 ^ bits.toNat = 0) ∧
      (¬ ((op = .udiv ∨ op = .urem) ∧ rhs.toNat % 2 ^ bits.toNat = 0) →
        ∃ r, op.fold bits lhs rhs = .ok r ∧ r.toNat =
          (op.onBitVec (.ofNat bits.toNat lhs.toNat) (.ofNat bits.toNat rhs.toNat)).toNat)) ∧
    (64 < bits.toNat →
      (op.fold bits lhs rhs = .error .shiftTooFar ↔
        (op = .shl ∨ op = .lshr) ∧ 64 ≤ rhs.toNat ∧ rhs.toNat < bits.toNat) ∧
      (op.fold bits lhs rhs ≠ .error .shiftTooFar →
        op.fold bits lhs rhs = op.fold 64 lhs rhs)) := by
  constructor
  · intro h
    refine ⟨fold_ne_shiftTooFar h, fun _ _ => fold_congr h, ?_, exists_fold_eq h⟩
    rw [fold_eq_divisionByZero_iff, Nat.min_eq_left h]
  · intro h
    refine ⟨?_, fold_eq_fold_word (Nat.le_of_lt h)⟩
    rw [fold_eq_shiftTooFar_iff, Nat.min_eq_right (Nat.le_of_lt h),
      Nat.mod_eq_of_lt rhs.toNat_lt]

/-- As bytes, `0x1FF` is `0xFF` and the amount `0x104` is 4; at 100 bits 70 is too far. -/
theorem fold_exact_shifts :
    (∃ r, shl.fold 8 0x1FF 0x104 = .ok r ∧ r.toNat = 0xF0) ∧
      lshr.fold 100 1 70 = .error .shiftTooFar := by
  constructor
  · obtain ⟨r, hr, hval⟩ := ((fold_exact .shl 8 0x1FF 0x104).1 (by decide)).2.2.2 (by decide)
    exact ⟨r, hr, hval.trans (by decide)⟩
  · exact ((fold_exact .lshr 100 1 70).2 (by decide)).1.2 ⟨.inr rfl, by decide, by decide⟩

end BinOp

end KernelIR

import KernelIR.Ty.Text
import Mathlib

/-!
# Types that are told apart by their spelling

The spelling of a type has no marks between its parts: a number runs on into the spelling of what it
counts.  It can be read back all the same, since every spelling starts with a letter and so ends the
number before it (`toDigits_append_inj`).  A type without structs and functions is spelled like no
other type (`Ty.mangle_eq_iff`).
-/

namespace KernelIR

/-! ### Numbers and what follows them -/

/-- The characters do not start with a digit. -/
def EndsNumber (cs : List Char) : Prop := ∀ c ∈ cs.head?, c.isDigit = false

theorem endsNumber_nil : EndsNumber [] := by
  simp [EndsNumber]

theorem takeWhile_isDigit_toDigits (n : Nat) {cs : List Char} (h : EndsNumber cs) :
    (Nat.toDigits 10 n ++ cs).takeWhile Char.isDigit = Nat.toDigits 10 n := by
  have hdigits : ∀ c ∈ Nat.toDigits 10 n, c.isDigit = true :=
    fun c hc => Nat.isDigit_of_mem_toDigits (by decide) (by decide) hc
  rw [List.takeWhile_append_of_pos hdigits]
  cases cs with
  | nil => simp
  | cons c cs => simp [h c rfl]

/-- A number that is ended by what follows it can be read off. -/
theorem toDigits_append_inj {m n : Nat} {as bs : List Char} (has : EndsNumber as)
    (hbs : EndsNumber bs) (h : Nat.toDigits 10 m ++ as = Nat.toDigits 10 n ++ bs) :
    m = n ∧ as = bs := by
  have hdigits : Nat.toDigits 10 m = Nat.toDigits 10 n := by
    rw [← takeWhile_isDigit_toDigits m has, h, takeWhile_isDigit_toDigits n hbs]
  constructor
  · rw [← Nat.ofDigitChars_ten_toDigits (n := m), hdigits, Nat.ofDigitChars_ten_toDigits]
  · rw [hdigits] at h
    exact List.append_cancel_left h

/-- A number has a first digit. -/
theorem not_endsNumber_toDigits_append (n : Nat) (cs : List Char) :
    ¬ EndsNumber (Nat.toDigits 10 n ++ cs) := by
  intro h
  obtain ⟨d, ds, hds⟩ := List.exists_cons_of_ne_nil (Nat.toDigits_ne_nil (n := n) (b := 10))
  have hdigit : d.isDigit = true :=
    Nat.isDigit_of_mem_toDigits (n := n) (b := 10) (by decide) (by decide) (by simp [hds])
  rw [hds] at h
  exact Bool.false_ne_true ((h d rfl).symm.trans hdigit)

namespace Ty

/-! ### Spellings, character by character -/

theorem toList_mangle_void : void.mangle.toList = ['v', 'o', 'i', 'd'] := by
  simp [mangle]

theorem toList_mangle_int (bits : UInt32) :
    (int bits).mangle.toList = 'i' :: Nat.toDigits 10 bits.toNat := by
  show ("i" ++ toString bits.toNat).toList = _
  simp

theorem toList_mangle_ptr (t : Ty) : (ptr t).mangle.toList = 'p' :: '0' :: t.mangle.toList := by
  simp [mangle]

theorem toList_mangle_array (size : UInt64) (t : Ty) :
    (array size t).mangle.toList = 'a' :: (Nat.toDigits 10 size.toNat ++ t.mangle.toList) := by
  rw [mangle]
  show ("a" ++ toString size.toNat ++ t.mangle).toList = _
  simp

theorem toList_mangle_vector (lanes : UInt32) (t : Ty) :
    (vector lanes t).mangle.toList = 'v' :: (Nat.toDigits 10 lanes.toNat ++ t.mangle.toList) := by
  rw [mangle]
  show ("v" ++ toString lanes.toNat ++ t.mangle).toList = _
  simp

/-- The letter that the spelling starts with. -/
def initial : Ty → Char
  | .void | .vector .. => 'v'
  | .int _ => 'i'
  | .ptr _ => 'p'
  | .array .. => 'a'
  | .function .. => 'f'
  | .struct .. => 's'

theorem head?_mangle (t : Ty) : t.mangle.toList.head? = some t.initial := by
  cases t with
  | void | function => simp [mangle, initial]
  | int bits => simp [toList_mangle_int, initial]
  | ptr t => simp [toList_mangle_ptr, initial]
  | array size t => simp [toList_mangle_array, initial]
  | vector lanes t => simp [toList_mangle_vector, initial]
  | struct name fields packed => cases name <;> simp [mangle, initial]

/-- Types that are spelled alike start with the same letter. -/
theorem initial_eq_of_mangle_eq {t u : Ty} (h : t.mangle = u.mangle) : t.initial = u.initial := by
  have hhead := t.head?_mangle
  rw [h, head?_mangle] at hhead
  exact (Option.some.inj hhead).symm

theorem endsNumber_mangle (t : Ty) : EndsNumber t.mangle.toList := by
  intro c hc
  rw [head?_mangle] at hc
  obtain rfl := Option.some.inj hc
  cases t <;> rfl

/-! ### One spelling, one type -/

/-- Whether the type is built without structs and functions. -/
def isPlain : Ty → Bool
  | .void | .int _ => true
  | .ptr t | .array _ t | .vector _ t => t.isPlain
  | .function .. | .struct .. => false

/-- Both `void` and vectors start with `v`, but only in a vector a number follows. -/
theorem mangle_vector_ne_void (lanes : UInt32) (t : Ty) :
    (vector lanes t).mangle ≠ void.mangle := by
  intro h
  have hchars := congrArg String.toList h
  rw [toList_mangle_vector, toList_mangle_void] at hchars
  refine not_endsNumber_toDigits_append lanes.toNat t.mangle.toList ?_
  rw [List.tail_eq_of_cons_eq hchars]
  exact fun c hc => Option.some.inj hc ▸ rfl

theorem eq_of_mangle_eq : ∀ (t u : Ty), t.isPlain = true → t.mangle = u.mangle → t = u
  | .void, u, _, h => by
    cases u with
    | void => rfl
    | vector lanes t => exact absurd h.symm (mangle_vector_ne_void lanes t)
    | _ => cases initial_eq_of_mangle_eq h
  | .int bits, u, _, h => by
    cases u with
    | int bits' =>
      have hchars := congrArg String.toList h
      rw [toList_mangle_int, toList_mangle_int] at hchars
      have hdigits : Nat.toDigits 10 bits.toNat ++ [] = Nat.toDigits 10 bits'.toNat ++ [] := by
        rw [List.tail_eq_of_cons_eq hchars]
      obtain ⟨hbits, -⟩ := toDigits_append_inj endsNumber_nil endsNumber_nil hdigits
      rw [UInt32.toNat_inj.1 hbits]
    | _ => cases initial_eq_of_mangle_eq h
  | .ptr t, u, ht, h => by
    cases u with
    | ptr t' =>
      have hchars := congrArg String.toList h
      rw [toList_mangle_ptr, toList_mangle_ptr] at hchars
      have hspelling :=
        String.toList_inj.1 (List.tail_eq_of_cons_eq (List.tail_eq_of_cons_eq hchars))
      rw [eq_of_mangle_eq t t' ht hspelling]
    | _ => cases initial_eq_of_mangle_eq h
  | .array size t, u, ht, h => by
    cases u with
    | array size' t' =>
      have hchars := congrArg String.toList h
      rw [toList_mangle_array, toList_mangle_array] at hchars
      obtain ⟨hsize, hspelling⟩ := toDigits_append_inj t.endsNumber_mangle t'.endsNumber_mangle
        (List.tail_eq_of_cons_eq hchars)
      rw [UInt64.toNat_inj.1 hsize, eq_of_mangle_eq t t' ht (String.toList_inj.1 hspelling)]
    | _ => cases initial_eq_of_mangle_eq h
  | .vector lanes t, u, ht, h => by
    cases u with
    | void => exact absurd h (mangle_vector_ne_void lanes t)
    | vector lanes' t' =>
      have hchars := congrArg String.toList h
      rw [toList_mangle_vector, toList_mangle_vector] at hchars
      obtain ⟨hlanes, hspelling⟩ := toDigits_append_inj t.endsNumber_mangle t'.endsNumber_mangle
        (List.tail_eq_of_cons_eq hchars)
      rw [UInt32.toNat_inj.1 hlanes, eq_of_mangle_eq t t' ht (String.toList_inj.1 hspelling)]
    | _ => cases initial_eq_of_mangle_eq h

/-- **A type without structs and functions is spelled like no other type**, whatever the other type
is built of. -/
theorem mangle_eq_iff (t u : Ty) (ht : t.isPlain = true) : t.mangle = u.mangle ↔ t = u :=
  ⟨eq_of_mangle_eq t u ht, fun h => by rw [h]⟩

/-- `a2v0void` and `a2void` are spellings of different types. -/
theorem mangle_eq_iff_void :
    (Ty.array 2 (.vector 0 .void)).isPlain = true ∧
      (Ty.array 2 (.vector 0 .void)).mangle ≠ (Ty.array 2 .void).mangle := by
  have hplain : (Ty.array 2 (.vector 0 .void)).isPlain = true := by decide
  exact ⟨hplain, (mangle_eq_iff _ (.array 2 .void) hplain).not.2 (by decide)⟩

end Ty

end KernelIR

/-!
# Types

`Ty` is the type language of the kernel representation: integers of any width, pointers, arrays,
vectors, functions and structs.  `Ty.descend?` is the step from an aggregate to what lies at its
start, and `Ty.descents` is the list of types met by repeating it.
-/

namespace KernelIR

/-- A type.  Widths and lane counts are 32-bit words, array sizes 64-bit words. -/
inductive Ty where
  | void
  | int (bits : UInt32)
  | ptr (pointee : Ty)
  | array (size : UInt64) (element : Ty)
  | vector (lanes : UInt32) (element : Ty)
  | function (result : Ty) (params : List Ty) (variadic : Bool)
  | struct (name : Option String) (fields : List Ty) (packed : Bool)

namespace Ty

/-! ### Equality is decidable -/

mutual

/-- Decides equality of two types by walking both at once. -/
def decEq : (a b : Ty) → Decidable (a = b)
  | .void, b => match b with
    | .void => isTrue rfl
    | .int _ | .ptr _ | .array .. | .vector .. | .function .. | .struct .. => isFalse (by simp)
  | .int n, b => match b with
    | .int m => decidable_of_iff (n = m) (by simp)
    | .void | .ptr _ | .array .. | .vector .. | .function .. | .struct .. => isFalse (by simp)
  | .ptr t, b => match b with
    | .ptr u =>
      have := t.decEq u
      decidable_of_iff (t = u) (by simp)
    | .void | .int _ | .array .. | .vector .. | .function .. | .struct .. => isFalse (by simp)
  | .array n t, b => match b with
    | .array m u =>
      have := t.decEq u
      decidable_of_iff (n = m ∧ t = u) (by simp)
    | .void | .int _ | .ptr _ | .vector .. | .function .. | .struct .. => isFalse (by simp)
  | .vector n t, b => match b with
    | .vector m u =>
      have := t.decEq u
      decidable_of_iff (n = m ∧ t = u) (by simp)
    | .void | .int _ | .ptr _ | .array .. | .function .. | .struct .. => isFalse (by simp)
  | .function r ps v, b => match b with
    | .function r' ps' v' =>
      have := r.decEq r'
      have := decEqList ps ps'
      decidable_of_iff (r = r' ∧ ps = ps' ∧ v = v') (by simp)
    | .void | .int _ | .ptr _ | .array .. | .vector .. | .struct .. => isFalse (by simp)
  | .struct n fs p, b => match b with
    | .struct n' fs' p' =>
      have := decEqList fs fs'
      decidable_of_iff (n = n' ∧ fs = fs' ∧ p = p') (by simp)
    | .void | .int _ | .ptr _ | .array .. | .vector .. | .function .. => isFalse (by simp)

/-- Decides equality of two lists of types. -/
def decEqList : (as bs : List Ty) → Decidable (as = bs)
  | [], bs => match bs with
    | [] => isTrue rfl
    | _ :: _ => isFalse (by simp)
  | a :: as, bs => match bs with
    | [] => isFalse (by simp)
    | b :: bs =>
      have := a.decEq b
      have := decEqList as bs
      decidable_of_iff (a = b ∧ as = bs) (by simp)

end

instance : DecidableEq Ty := decEq

instance : Inhabited Ty := ⟨.void⟩

/-! ### Questions about one type -/

/-- The width of an integer type. -/
def intBits? : Ty → Option UInt32
  | .int bits => some bits
  | _ => none

/-- Whether the type is an integer type. -/
def isInt (t : Ty) : Bool := t.intBits?.isSome

/-- What a pointer type points to. -/
def pointee? : Ty → Option Ty
  | .ptr t => some t
  | _ => none

/-- Whether the type is a pointer type. -/
def isPtr (t : Ty) : Bool := t.pointee?.isSome

/-- The element of an array or the lane of a vector. -/
def element? : Ty → Option Ty
  | .array _ t | .vector _ t => some t
  | _ => none

/-- The type at the start of an aggregate: the first field of a struct, the element of an array,
the lane of a vector.  Scalars, pointers and structs without fields have nothing below them. -/
def descend? : Ty → Option Ty
  | .array _ t | .vector _ t => some t
  | .struct _ fields _ => fields.head?
  | _ => none

/-- A step down makes the type smaller. -/
theorem sizeOf_lt_of_descend? {t u : Ty} (h : t.descend? = some u) : sizeOf u < sizeOf t := by
  cases t with
  | array n e =>
    simp only [descend?, Option.some.injEq] at h
    subst h
    rw [array.sizeOf_spec]
    omega
  | vector n e =>
    simp only [descend?, Option.some.injEq] at h
    subst h
    rw [vector.sizeOf_spec]
    omega
  | struct n fs p =>
    cases fs with
    | nil => simp [descend?] at h
    | cons f fs =>
      simp only [descend?, List.head?_cons, Option.some.injEq] at h
      subst h
      rw [struct.sizeOf_spec, List.cons.sizeOf_spec]
      omega
  | void | int | ptr | function => simp [descend?] at h

/-- The types met by stepping down again and again, the type itself left out. -/
def descents : Ty → List Ty
  | .array _ t | .vector _ t => t :: t.descents
  | .struct _ (t :: _) _ => t :: t.descents
  | _ => []

theorem descents_eq_nil {t : Ty} (h : t.descend? = none) : t.descents = [] := by
  cases t with
  | array | vector => simp [descend?] at h
  | struct n fs p => cases fs <;> simp_all [descend?, descents]
  | void | int | ptr | function => rfl

theorem descents_eq_cons {t u : Ty} (h : t.descend? = some u) : t.descents = u :: u.descents := by
  cases t with
  | array | vector => simp_all [descend?, descents]
  | struct n fs p => cases fs <;> simp_all [descend?, descents]
  | void | int | ptr | function => simp [descend?] at h

end Ty

end KernelIR

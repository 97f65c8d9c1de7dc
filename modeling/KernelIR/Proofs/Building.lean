import KernelIR.Lowering.Copy
import KernelIR.Lowering.Fill
import KernelIR.Lowering.Funnel
import Mathlib.Data.List.Basic

/-!
# What the builder builds

A small program logic for `Build`: `Builds x count answer code` says that `x` takes `count`
temporaries in a row and, if they are there, answers and emits what `answer` and `code` say of the
first of them.  There is a rule for each operation and for each way to put computations together.

From it the code of shifts, fills and copies is known without the builder (`runIn?_build`): it is
built exactly if the temporaries can be reserved, and it is the list that `code` gives.
-/

namespace KernelIR

namespace Build

variable {α β : Type}

/-- The computation takes `count` temporaries.  With `base` for the first, it answers `answer base`
and emits `code base`; and it has no result if they leave 32 bits. -/
def Builds (x : Build α) (count : Nat) (answer : Nat → α) (code : Nat → List Instruction) : Prop :=
  ∀ b : Builder, x b =
    if b.next.toNat + count < UInt32.size then
      some (answer b.next.toNat,
        ⟨UInt32.ofNat (b.next.toNat + count), b.code ++ code b.next.toNat⟩)
    else none

theorem Builds.of_eq {x : Build α} {n n' : Nat} {a a' : Nat → α} {c c' : Nat → List Instruction}
    (h : Builds x n a c) (hn : n = n') (ha : ∀ base, a base = a' base)
    (hc : ∀ base, c base = c' base) : Builds x n' a' c' := by
  obtain rfl := hn
  obtain rfl := funext ha
  obtain rfl := funext hc
  exact h

theorem builds_pure (a : α) : Builds (pure a) 0 (fun _ => a) (fun _ => []) := by
  intro b
  have hb : b.next.toNat + 0 < UInt32.size := b.next.toNat_lt
  rw [if_pos hb, Nat.add_zero, UInt32.ofNat_toNat, Array.appendList_nil]
  rfl

theorem builds_emit (i : Instruction) : Builds (emit i) 0 (fun _ => ()) (fun _ => [i]) := by
  intro b
  have hb : b.next.toNat + 0 < UInt32.size := b.next.toNat_lt
  rw [if_pos hb, Nat.add_zero, UInt32.ofNat_toNat]
  rfl

theorem builds_fresh : Builds fresh 1 UInt32.ofNat (fun _ => []) := by
  intro b
  unfold fresh
  split
  · next h => simp [UInt32.ofNat_add]
  · rfl

/-- One computation after the other: the second takes its temporaries after those of the first. -/
theorem Builds.bind {x : Build α} {f : α → Build β} {n k : Nat} {a : Nat → α} {a' : α → Nat → β}
    {c : Nat → List Instruction} {c' : α → Nat → List Instruction} (hx : Builds x n a c)
    (hf : ∀ v, Builds (f v) k (a' v) (c' v)) :
    Builds (x >>= f) (n + k) (fun base => a' (a base) (base + n))
      (fun base => c base ++ c' (a base) (base + n)) := by
  intro b
  show (x b).bind (fun p => f p.1 p.2) = _
  rw [hx b]
  by_cases h : b.next.toNat + n < UInt32.size
  · have hnext : (UInt32.ofNat (b.next.toNat + n)).toNat = b.next.toNat + n :=
      UInt32.toNat_ofNat_of_lt' h
    have hcode (cs cs' : List Instruction) : b.code ++ cs ++ cs' = b.code ++ (cs ++ cs') :=
      Array.toList_inj.1 (by simp)
    rw [if_pos h, Option.bind_some, hf]
    simp only [hnext, Nat.add_assoc, hcode]
  · rw [if_neg h, if_neg (by omega)]
    rfl

theorem Builds.map {x : Build α} {n : Nat} {a : Nat → α} {c : Nat → List Instruction}
    (g : α → β) (hx : Builds x n a c) : Builds (g <$> x) n (fun base => g (a base)) c := by
  intro b
  show (x b).bind (fun p => some (g p.1, p.2)) = _
  rw [hx b]
  split <;> rfl

theorem builds_define (i : TempId → Instruction) :
    Builds (define i) 1 UInt32.ofNat (fun base => [i (.ofNat base)]) :=
  builds_fresh.bind fun t => (builds_emit (i t)).bind fun _ => builds_pure t

theorem builds_binary {op : BinOp} {lhs rhs : Value} {ty : Ty} :
    Builds (binary op lhs rhs ty) 1 UInt32.ofNat
      (fun base => [.binary (.ofNat base) op lhs rhs ty]) := builds_define _

theorem builds_elementPtr {ptr : Value} {indices : List Value} {ty : Ty} :
    Builds (elementPtr ptr indices ty) 1 (fun base => .temp (.ofNat base))
      (fun base => [.elementPtr (.ofNat base) ptr indices ty]) := (builds_define _).map _

/-- A loop whose rounds take `k` temporaries each. -/
theorem builds_forEach {f : Nat → Build Unit} {k : Nat} {c : Nat → Nat → List Instruction}
    (hf : ∀ i, Builds (f i) k (fun _ => ()) (c i)) : ∀ i count : Nat,
    Builds (forEach f i count) (count * k) (fun _ => ())
      (fun base => (List.range count).flatMap fun j => c (i + j) (base + j * k))
  | i, 0 => (builds_pure ()).of_eq (Nat.zero_mul k).symm (fun _ => rfl) fun _ => rfl
  | i, count + 1 => by
    refine ((hf i).bind fun _ => builds_forEach hf (i + 1) count).of_eq ?_ (fun _ => rfl) ?_
    · rw [Nat.succ_mul, Nat.add_comm]
    · intro base
      rw [List.range_succ_eq_map, List.flatMap_cons, List.flatMap_map, Nat.add_zero, Nat.zero_mul,
        Nat.add_zero]
      refine congrArg (c i base ++ ·) (List.flatMap_congr fun j _ => ?_)
      rw [Nat.succ_mul, Nat.add_right_comm i, Nat.add_assoc base, Nat.add_comm k, Nat.add_assoc i]

/-- Inside a function the temporaries are those that it can reserve. -/
theorem Builds.runIn? {x : Build α} {n : Nat} {a : Nat → α} {c : Nat → List Instruction}
    (h : Builds x n a c) (f : Function) :
    x.runIn? f = (f.reserve? n).map fun base => (a base, c base) := by
  unfold Build.runIn? Builder.forFunction? Function.reserve?
  by_cases h0 : f.nextTemp + 0 < UInt32.size
  · rw [if_pos h0]
    show ((x ⟨UInt32.ofNat f.nextTemp, #[]⟩).bind fun p => some (p.1, p.2.code.toList)) = _
    have hnext : (UInt32.ofNat f.nextTemp).toNat = f.nextTemp := UInt32.toNat_ofNat_of_lt' h0
    rw [h, hnext]
    split
    · simp
    · rfl
  · rw [if_neg h0, if_neg (by omega)]
    rfl

end Build

open Build

/-! ### Funnel shifts -/

namespace FunnelShift

/-- The number of temporaries in the code of a shift. -/
def temps : Nat := 5

/-- The code of a shift, with temporaries from `base` on.  The last one holds the result. -/
def code (s : Shift) (base : Nat) : List Instruction :=
  let ty := Ty.int s.width
  let t (i : Nat) : TempId := UInt32.ofNat (base + i)
  let w := s.width.toNat
  [.binary (t 0) .and s.amount (.ofCount (w - 1)) ty,
   .binary (t 1) .sub (.ofCount w) (.temp (t 0)) ty,
   .binary (t 2) .shl s.hi (.temp (t 0)) ty,
   .binary (t 3) .lshr s.lo (.temp (t 1)) ty,
   .binary (t 4) .or (.temp (t 3)) (.temp (t 2)) ty]

theorem runIn?_build (s : Shift) (f : Function) :
    (build s).runIn? f =
      (f.reserve? temps).map fun base => (UInt32.ofNat (base + 4), code s base) := by
  have hcode : Builds (build s) temps (fun base => .ofNat (base + 4)) (code s) :=
    builds_binary.bind fun amount => builds_binary.bind fun down =>
      builds_binary.bind fun high => builds_binary.bind fun low => builds_binary
  exact hcode.runIn? f

end FunnelShift

/-! ### Zero fills -/

namespace ZeroFill

/-- The store to element `i`, whose address is the temporary `base + i`. -/
def store (f : Fill) (base i : Nat) : List Instruction :=
  let slot : TempId := UInt32.ofNat (base + i)
  [.elementPtr slot f.ptr [.ofCount i] (.ptr f.element), .store (.zero f.element) (.temp slot)]

/-- The code of a fill, with temporaries from `base` on. -/
def code (f : Fill) (base : Nat) : List Instruction := (List.range f.count).flatMap (store f base)

theorem runIn?_build (f : Fill) (caller : Function) :
    (build f).runIn? caller = (caller.reserve? f.count).map fun base => ((), code f base) := by
  have hstore (i : Nat) : Builds (buildStore f i) 1 (fun _ => ()) fun base =>
      [.elementPtr (.ofNat base) f.ptr [.ofCount i] (.ptr f.element),
       .store (.zero f.element) (.temp (.ofNat base))] :=
    builds_elementPtr.bind fun _ => builds_emit _
  have hcode : Builds (build f) f.count (fun _ => ()) (code f) := by
    refine (builds_forEach hstore 0 f.count).of_eq (Nat.mul_one _) (fun _ => rfl) fun base => ?_
    refine List.flatMap_congr fun i _ => ?_
    rw [Nat.zero_add, Nat.mul_one, store]
  exact hcode.runIn? caller

end ZeroFill

/-! ### Block copies -/

namespace BlockCopy

/-- The call that copies one element. -/
def copyCall (base : String) (c : Copy) (dest src : Value) : Instruction :=
  .call none (.function (primitive base c.shape.element).name)
    [dest, src, .ofCount c.align, .ofCount c.request.isVolatile] .void none

/-- The copy of element `i`, with the temporaries `first + 2 i` and `first + 2 i + 1` for the
addresses. -/
def copyElement (base : String) (c : Copy) (first i : Nat) : List Instruction :=
  let src : TempId := UInt32.ofNat (first + 2 * i)
  let dest : TempId := UInt32.ofNat (first + 2 * i + 1)
  let ptr := Ty.ptr c.shape.element
  [.elementPtr src c.request.src.source (indices c.shape.srcDepth i) ptr,
   .elementPtr dest c.request.dest.source (indices c.shape.destDepth i) ptr,
   copyCall base c (.temp dest) (.temp src)]

/-- The number of temporaries in the code of a copy. -/
def Copy.temps (c : Copy) : Nat := if c.isWhole then 0 else 2 * c.count

/-- The code of a copy, with temporaries from `first` on. -/
def code (base : String) (c : Copy) (first : Nat) : List Instruction :=
  if c.isWhole then [copyCall base c c.request.dest.source c.request.src.source]
  else (List.range c.count).flatMap (copyElement base c first)

theorem builds_buildCall {base : String} {c : Copy} {dest src : Value} :
    Builds (buildCall base c dest src) 0 (fun _ => ()) fun _ => [copyCall base c dest src] :=
  ((builds_emit _).bind fun _ => builds_pure _).bind fun _ => builds_pure ()

theorem runIn?_build (base : String) (c : Copy) (f : Function) :
    (build base c).runIn? f = (f.reserve? c.temps).map fun first => ((), code base c first) := by
  refine Builds.runIn? ?_ f
  unfold build Copy.temps code
  split
  · exact builds_buildCall
  · have helement (i : Nat) : Builds (buildElement base c i) 2 (fun _ => ()) fun first =>
        [.elementPtr (.ofNat first) c.request.src.source (indices c.shape.srcDepth i)
          (.ptr c.shape.element),
         .elementPtr (.ofNat (first + 1)) c.request.dest.source (indices c.shape.destDepth i)
          (.ptr c.shape.element),
         copyCall base c (.temp (.ofNat (first + 1))) (.temp (.ofNat first))] :=
      builds_elementPtr.bind fun _ => builds_elementPtr.bind fun _ => builds_buildCall
    refine (builds_forEach helement 0 c.count).of_eq (Nat.mul_comm ..) (fun _ => rfl)
      fun first => ?_
    refine List.flatMap_congr fun i _ => ?_
    rw [Nat.zero_add, Nat.mul_comm i, copyElement]

end BlockCopy

end KernelIR

import KernelIR.Proofs.Descent
import KernelIR.Proofs.Replacements

/-!
# Why a call is refused

A lowering of a call either blames that call or runs out of the machine's words
(`Settings.guards_replace`); that a name of a family is left over is for the final check alone to
say.  It runs out of words only where a type that it measures is too large, or where the caller has
not enough temporaries left (`Call.Overflows`, `Settings.overflows_of_replace`).  And nothing is
ever divided by zero (`DataLayout.positiveDivisors`).
-/

namespace KernelIR

/-! ### Which faults a computation can end with -/

section Faults

variable {ε α β : Type} {P Q : ε → Prop}

/-- If the computation fails, its fault is one of `P`. -/
def Faults (P : ε → Prop) (x : Except ε α) : Prop := ∀ e, x = .error e → P e

theorem faults_ok (a : α) : Faults P (.ok a : Except ε α) := fun _ h => nomatch h

theorem faults_error {e : ε} (h : P e) : Faults P (.error e : Except ε α) := by
  rintro _ ⟨⟩
  exact h

theorem Faults.bind {x : Except ε α} {f : α → Except ε β} (hx : Faults P x)
    (hf : ∀ a, x = .ok a → Faults P (f a)) : Faults P (x >>= f) := by
  intro e h
  cases x with
  | ok a => exact hf a rfl e h
  | error e' =>
    have he : (.error e' : Except ε β) = .error e := h
    exact hx e (congrArg Except.error (Except.error.inj he))

theorem Faults.mono {x : Except ε α} (hx : Faults P x) (h : ∀ e, P e → Q e) : Faults Q x :=
  fun e he => h e (hx e he)

theorem Faults.mapError {δ : Type} {g : δ → ε} {x : Except δ α} (hx : Faults (P ∘ g) x) :
    Faults P (x.mapError g) := by
  cases x with
  | ok a => exact faults_ok a
  | error e => exact faults_error (hx e rfl)

end Faults

/-! ### Calls that overflow -/

/-- The call cannot be lowered as one of the family, since a number leaves the machine's words. -/
inductive Call.Overflows (m : Module) (call : Call) : Family → Prop
  /-- The temporaries of a shift. -/
  | shiftTemps (h : call.caller.reserve? FunnelShift.temps = none) : Overflows m call .funnelShift
  /-- The distance of the elements of a fill. -/
  | fillSize {ptr : Value} {element : Ty} {cast : Option TempId}
      (hdest : ZeroFill.destination m call = .ok (ptr, element, cast))
      (h : m.layout.allocSize element = .error .overflow) : Overflows m call .blockFill
  /-- The temporaries of a fill, one for each element. -/
  | fillTemps {f : ZeroFill.Fill} (hf : ZeroFill.ofCall m call = .ok f)
      (h : call.caller.reserve? f.count = none) : Overflows m call .blockFill
  /-- The size of a type that the types of a copy unpack to. -/
  | copySize {req : BlockCopy.Request} {t : Ty} (hreq : BlockCopy.ofCall m call = .ok req)
      (ht : t ∈ req.dest.pointee.chain ∨ t ∈ req.src.pointee.chain)
      (h : m.layout.sizeInBits t = .error .overflow) : Overflows m call .blockCopy
  /-- The temporaries of a copy, two for each element. -/
  | copyTemps {req : BlockCopy.Request} {shape : TypeMatch} {c : BlockCopy.Copy}
      (hreq : BlockCopy.ofCall m call = .ok req)
      (hshape : (matchTypes m.layout req.dest.pointee req.src.pointee req.bytes).result = .ok shape)
      (hc : BlockCopy.divide m.layout call req shape = .ok c)
      (h : call.caller.reserve? c.temps = none) : Overflows m call .blockCopy

/-! ### The faults of a call -/

namespace Call

variable {call : Call} {P : Prop} {α : Type}

/-- A fault that says what is wrong with the call, or the end of the machine's words. -/
def Blames (call : Call) (e : Fault) : Prop := e = .overflow ∨ ∃ o, e = call.fault o

/-- The computation has no faults but those that blame the call. -/
abbrev Guards (call : Call) (x : Except Fault α) : Prop := Faults call.Blames x

/-- A fault that says what is wrong with the call, or the end of the machine's words, which comes
only if `P` holds. -/
def BlamesOr (call : Call) (P : Prop) (e : Fault) : Prop :=
  e = .overflow ∧ P ∨ ∃ o, e = call.fault o

/-- The computation blames the call, and leaves the machine's words only if `P` holds. -/
abbrev GuardsOr (call : Call) (P : Prop) (x : Except Fault α) : Prop := Faults (call.BlamesOr P) x

theorem guardsOr_fault (o : Obstacle) :
    call.GuardsOr P (.error (call.fault o) : Except Fault α) := faults_error (.inr ⟨o, rfl⟩)

theorem guardsOr_overflow (h : P) : call.GuardsOr P (.error .overflow : Except Fault α) :=
  faults_error (.inl ⟨rfl, h⟩)

theorem guardsOr_arg (i : Nat) : call.GuardsOr P (call.arg i) := by
  unfold arg
  cases call.args[i]? with
  | some v => exact faults_ok v
  | none => exact guardsOr_fault _

theorem guardsOr_constArg (i : Nat) : call.GuardsOr P (call.constArg i) := by
  refine (guardsOr_arg i).bind fun v _ => ?_
  cases v.count? with
  | some n => exact faults_ok n
  | none => exact guardsOr_fault _

theorem guardsOr_checkCount (n : Nat) : call.GuardsOr P (call.checkCount n) := by
  unfold checkCount
  split
  · exact faults_ok n
  · exact guardsOr_fault _

theorem guardsOr_known? {q : Quantity} (h : q = .error .overflow → P) :
    call.GuardsOr P q.known? := by
  cases q with
  | ok n => exact faults_ok _
  | error e =>
    cases e with
    | unsized => exact faults_ok _
    | overflow => exact guardsOr_overflow (h rfl)

theorem guardsOr_elementSize (t : Ty) {q : Quantity} (h : q = .error .overflow → P) :
    call.GuardsOr P (call.elementSize t q) := by
  refine (guardsOr_known? h).bind fun n _ => ?_
  split
  · exact faults_ok _
  · exact guardsOr_fault _

theorem guardsOr_elementCount (bytes : Nat) (t : Ty) (size : Nat) :
    call.GuardsOr P (call.elementCount bytes t size) := by
  unfold elementCount
  split
  · exact guardsOr_checkCount _
  · exact guardsOr_fault _

end Call

open Call

/-! ### The lowerings -/

section Lowerings

variable {m : Module} {call : Call} {P : Prop}

namespace FunnelShift

theorem guardsOr_ofCall : call.GuardsOr P (ofCall m call) := by
  unfold ofCall
  split
  · split
    · split
      · split
        · exact guardsOr_fault _
        · exact faults_ok _
      · exact guardsOr_fault _
    · exact guardsOr_fault _
  · exact guardsOr_fault _

theorem guardsOr_replace : call.GuardsOr (call.Overflows m .funnelShift) (replace m call) := by
  refine guardsOr_ofCall.bind fun s _ => ?_
  rw [runIn?_build]
  cases h : call.caller.reserve? temps with
  | some base => exact faults_ok _
  | none => exact guardsOr_overflow (.shiftTemps h)

end FunnelShift

namespace ZeroFill

theorem guardsOr_destination : call.GuardsOr P (destination m call) := by
  refine (guardsOr_arg 0).bind fun v _ => ?_
  split
  · exact faults_ok _
  · split
    · exact guardsOr_fault _
    · exact faults_ok _
    · exact guardsOr_fault _

theorem guardsOr_ofCall : call.GuardsOr (call.Overflows m .blockFill) (ofCall m call) := by
  refine (guardsOr_arg 1).bind fun v _ => ?_
  split
  · refine (guardsOr_constArg 2).bind fun bytes _ => guardsOr_destination.bind fun d hd => ?_
    refine (guardsOr_elementSize _ fun h => .fillSize hd h).bind fun size _ => ?_
    exact (guardsOr_elementCount _ _ _).bind fun count _ => faults_ok _
  · exact guardsOr_fault _

theorem guardsOr_replace :
    call.GuardsOr (call.Overflows m .blockFill) (replace m call).result := by
  rw [replace, Traced.result_bind]
  refine guardsOr_ofCall.bind fun f hf => ?_
  rw [Traced.result_bind]
  refine Faults.bind (faults_ok ()) fun _ _ => ?_
  rw [runIn?_build]
  cases h : call.caller.reserve? f.count with
  | some base => exact faults_ok _
  | none => exact guardsOr_overflow (.fillTemps hf h)

end ZeroFill

namespace BlockCopy

theorem guardsOr_pointerArg (i : Nat) : call.GuardsOr P (pointerArg m call i) := by
  refine (guardsOr_arg i).bind fun v _ => ?_
  split
  · exact faults_ok _
  · exact guardsOr_fault _

theorem guardsOr_ofCall : call.GuardsOr P (ofCall m call) := by
  refine (guardsOr_pointerArg 0).bind fun d _ => (guardsOr_pointerArg 1).bind fun s _ => ?_
  refine (guardsOr_constArg 2).bind fun n _ => (guardsOr_constArg 3).bind fun v _ => ?_
  exact faults_ok _

/-- Dividing a copy leaves the machine's words only at the size of the element: a type that has a
size has an alignment. -/
theorem guardsOr_divide {layout : DataLayout} (req : Request) {shape : TypeMatch}
    (h : layout.sizeInBits shape.element = .error .overflow → P) :
    call.GuardsOr P (divide layout call req shape) := by
  refine Faults.bind (guardsOr_elementSize _ fun he => h ?_) fun size hok => ?_
  · cases hbits : layout.sizeInBits shape.element with
    | ok bits =>
      rw [hbits] at he
      exact nomatch he
    | error e =>
      rw [hbits] at he
      exact he
  · obtain ⟨align, halign⟩ : ∃ align, layout.abiAlign shape.element = .ok align := by
      obtain ⟨hq, -⟩ := elementSize_eq_ok.1 hok
      cases hbits : layout.sizeInBits shape.element with
      | ok bits =>
        obtain ⟨store, align, alloc, hm⟩ := DataLayout.exists_measures hbits
        exact ⟨align, hm.align_eq⟩
      | error e =>
        rw [hbits] at hq
        exact nomatch hq
    split
    · have hrequired : call.GuardsOr P (requiredAlign layout shape.element) := by
        rw [requiredAlign, halign]
        exact faults_ok _
      refine hrequired.bind fun required _ => Faults.bind ?_ fun _ _ => ?_
      · unfold checkAlign
        split
        · exact guardsOr_fault _
        · exact faults_ok _
      · exact (guardsOr_checkCount _).bind fun count _ => faults_ok _
    · exact guardsOr_fault _

theorem guardsOr_replace {base : String} :
    call.GuardsOr (call.Overflows m .blockCopy) (replace base m call).result := by
  rw [replace, Traced.result_bind]
  refine guardsOr_ofCall.bind fun req hreq => ?_
  by_cases hb : req.bytes = 0
  · simp only [if_pos hb]
    exact faults_ok _
  · simp only [if_neg hb, Traced.result_bind, Traced.result_mapError, Traced.result_report]
    cases hmatch : (matchTypes m.layout req.dest.pointee req.src.pointee req.bytes).result with
    | error e =>
      refine Faults.bind ?_ fun shape hshape => by cases hshape
      cases e with
      | stuck => exact guardsOr_fault _
      | overflow =>
        obtain ⟨t, ht, hsize⟩ := overflow_of_matchTypes hmatch
        exact guardsOr_overflow (.copySize hreq ht hsize)
    | ok shape =>
      -- the element lies below the destination, so its size is one of those that `copySize` names
      refine Faults.bind (faults_ok shape) fun shape' hshape => ?_
      obtain rfl : shape = shape' := Except.ok.inj hshape
      obtain ⟨hdest, -⟩ := matchTypes_eq_ok hmatch
      have hmem : shape.element ∈ req.dest.pointee.chain := Ty.below?_mem_chain hdest.below?_eq
      refine (guardsOr_divide req fun h => .copySize hreq (.inl hmem) h).bind fun c hc =>
        Faults.bind (faults_ok ()) fun _ _ => ?_
      rw [runIn?_build]
      cases h : call.caller.reserve? c.temps with
      | some first => exact faults_ok _
      | none => exact guardsOr_overflow (.copyTemps hreq hmatch hc h)

end BlockCopy

end Lowerings

namespace Settings

variable {l : Lowering}

theorem guardsOr_replace (s : Settings) (hl : l ∈ s.lowerings) (m : Module) (call : Call) :
    call.GuardsOr (call.Overflows m l.family) (l.replace m call).result := by
  simp only [Settings.lowerings, List.mem_cons, List.not_mem_nil, or_false] at hl
  rcases hl with rfl | rfl | rfl | rfl
  · exact faults_ok _
  · exact FunnelShift.guardsOr_replace
  · exact ZeroFill.guardsOr_replace
  · exact BlockCopy.guardsOr_replace

/-- The lowering of a call blames that call, or the machine. -/
theorem guards_replace (s : Settings) (hl : l ∈ s.lowerings) (m : Module) (call : Call) :
    call.Guards (l.replace m call).result :=
  (s.guardsOr_replace hl m call).mono fun _ => Or.imp_left And.left

/-- **Where a lowering overflows**: at a call that is one of those listed. -/
theorem overflows_of_replace (s : Settings) (hl : l ∈ s.lowerings) {m : Module} {call : Call}
    (h : (l.replace m call).result = .error .overflow) : call.Overflows m l.family := by
  rcases s.guardsOr_replace hl m call _ h with ⟨-, h⟩ | ⟨o, ho⟩
  · exact h
  · exact nomatch ho

end Settings

/-! ### Divisors -/

/-- Whatever the measures of types and the lowerings divide by is positive. -/
structure DataLayout.PositiveDivisors (layout : DataLayout) : Prop where
  /-- The size of an element, by which fills and copies divide their bytes. -/
  elementSize : ∀ (call : Call) (t : Ty) (q : Quantity) (n : Nat),
    call.elementSize t q = .ok n → 0 < n
  /-- The alignment of the element of a copy, by which that of the call is divided. -/
  requiredAlign : ∀ (t : Ty) (n : Nat), BlockCopy.requiredAlign layout t = .ok n → 0 < n
  /-- The alignment to which the size of a type is rounded up. -/
  abiAlign : ∀ (t : Ty) (n : Nat), layout.abiAlign t = .ok n → 0 < n
  /-- The alignment to which the start of a field is rounded up. -/
  fieldAlign : ∀ (t : Ty) (packed : Bool) (n : Nat),
    (t.extent layout).fieldAlign packed = .ok n → 0 < n
  /-- The alignment to which the end of a struct is rounded up. -/
  structAlign : ∀ (fields : List Ty) (packed : Bool) (stop n : Nat),
    (Ty.extents layout fields).foldlM (Extent.place packed) (0, 1) = .ok (stop, n) → 0 < n

theorem DataLayout.positiveDivisors (layout : DataLayout) : layout.PositiveDivisors := by
  have habi : ∀ (t : Ty) (n : Nat), layout.abiAlign t = .ok n → 0 < n := fun t n h =>
    Quantity.pos_of_exists_two_pow (Ty.aligned_extent layout t n h)
  refine ⟨fun call t q n h => (Call.elementSize_eq_ok.1 h).2, fun t n h => ?_, habi,
    fun t packed n h => ?_, fun fields packed stop n h => ?_⟩
  · obtain ⟨a, ha, h⟩ := except_bind_eq_ok.1 h
    obtain rfl := Except.ok.inj h
    cases hq : layout.abiAlign t with
    | ok k =>
      rw [hq] at ha
      obtain rfl : some k = a := Except.ok.inj ha
      exact habi t k hq
    | error e =>
      rw [hq] at ha
      cases e with
      | unsized =>
        obtain rfl : none = a := Except.ok.inj ha
        exact Nat.one_pos
      | overflow => exact nomatch ha
  · cases packed with
    | true =>
      obtain rfl : 1 = n := Except.ok.inj h
      exact Nat.one_pos
    | false => exact habi t n h
  · have halign := Extent.structAlign_eq_of_place h
    exact Quantity.pos_of_exists_two_pow
      (Extent.aligned_struct (Ty.aligned_extents layout fields) n halign)

end KernelIR

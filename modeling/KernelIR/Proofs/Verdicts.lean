import KernelIR.Proofs.Visits

/-!
# What the verdict on a call depends on

Whether a lowering refuses a call depends on the layout and on what can be seen of the call
(`CallView`): its type and alignment, and of each argument its type, what it points to behind a
cast, and its value if it is a constant (`Sight`).  Two calls that look alike in this sense, be they
in different modules, are both refused or both not (`Settings.refuses_iff_of_alike`); one of them
may still run out of free temporaries.
-/

namespace KernelIR

/-! ### Computations that end alike -/

/-- Both computations give values that are related, both overflow, or both refuse. -/
inductive EndsLike {α β : Type} (R : α → β → Prop) : Except Fault α → Except Fault β → Prop
  | ok {a : α} {b : β} (h : R a b) : EndsLike R (.ok a) (.ok b)
  | overflow : EndsLike R (.error .overflow) (.error .overflow)
  | refused (e e' : LoweringError) : EndsLike R (.error (.error e)) (.error (.error e'))

/-- The computation ends with an error. -/
def Refused {α : Type} (x : Except Fault α) : Prop := ∃ e, x = .error (.error e)

section EndsLike

variable {α β γ δ : Type} {R : α → β → Prop} {S : γ → δ → Prop} {x : Except Fault α}
  {y : Except Fault β}

theorem EndsLike.bind {f : α → Except Fault γ} {g : β → Except Fault δ} (h : EndsLike R x y)
    (hfg : ∀ a b, R a b → EndsLike S (f a) (g b)) : EndsLike S (x >>= f) (y >>= g) := by
  cases h with
  | ok hab => exact hfg _ _ hab
  | overflow => exact .overflow
  | refused e e' => exact .refused e e'

theorem EndsLike.refused_bind_iff {f : α → Except Fault γ} {g : β → Except Fault δ}
    (h : EndsLike R x y) (hfg : ∀ a b, R a b → (Refused (f a) ↔ Refused (g b))) :
    Refused (x >>= f) ↔ Refused (y >>= g) := by
  cases h with
  | ok hab => exact hfg _ _ hab
  | overflow => exact ⟨fun ⟨e, he⟩ => (nomatch he), fun ⟨e, he⟩ => (nomatch he)⟩
  | refused e e' => exact ⟨fun _ => ⟨e', rfl⟩, fun _ => ⟨e, rfl⟩⟩

theorem not_refused_ok (a : α) : ¬ Refused (.ok a) := fun ⟨_, he⟩ => nomatch he

theorem not_refused_overflow : ¬ Refused (.error .overflow : Except Fault α) :=
  fun ⟨_, he⟩ => nomatch he

end EndsLike

/-! ### Calls that look alike -/

/-- What a lowering can see of an argument. -/
structure Sight where
  ty : Option Ty
  /-- What the pointer behind a cast points to. -/
  behind : Option Ty
  count : Option Nat
  isZero : Bool

/-- What can be seen of a value inside `f`. -/
def Module.sight (m : Module) (f : Function) (v : Value) : Sight where
  ty := m.valueType? f v
  behind := (m.reinterpretation? f v).map (·.pointee)
  count := v.count?
  isZero := ZeroFill.isZero v

/-- What a lowering can see of a call. -/
structure CallView where
  callee : String
  ty : Ty
  align : Option UInt64
  args : List Sight

/-- What can be seen of a call inside its caller. -/
def Module.callView (m : Module) (call : Call) : CallView where
  callee := call.callee
  ty := call.ty
  align := call.align
  args := call.args.map (m.sight call.caller)

/-- A lowering sees the same of both calls. -/
structure Call.Alike (m₁ : Module) (call₁ : Call) (m₂ : Module) (call₂ : Call) : Prop where
  layout : m₁.layout = m₂.layout
  view : m₁.callView call₁ = m₂.callView call₂

/-- The lowering has something against the call. -/
def Lowering.Refuses (l : Lowering) (m : Module) (call : Call) : Prop :=
  Refused (l.replace m call).result

namespace Call.Alike

variable {m₁ m₂ : Module} {call₁ call₂ : Call}

/-- The same is seen of the arguments at one position. -/
abbrev Same (m₁ : Module) (call₁ : Call) (m₂ : Module) (call₂ : Call) (v₁ v₂ : Value) : Prop :=
  m₁.sight call₁.caller v₁ = m₂.sight call₂.caller v₂

theorem ty (h : Alike m₁ call₁ m₂ call₂) : call₁.ty = call₂.ty := congrArg CallView.ty h.view

theorem align (h : Alike m₁ call₁ m₂ call₂) : call₁.align = call₂.align :=
  congrArg CallView.align h.view

theorem args (h : Alike m₁ call₁ m₂ call₂) :
    call₁.args.map (m₁.sight call₁.caller) = call₂.args.map (m₂.sight call₂.caller) :=
  congrArg CallView.args h.view

theorem arg (h : Alike m₁ call₁ m₂ call₂) (i : Nat) :
    EndsLike (Same m₁ call₁ m₂ call₂) (call₁.arg i) (call₂.arg i) := by
  have hi := congrArg (·[i]?) h.args
  simp only [List.getElem?_map] at hi
  unfold Call.arg
  cases h₁ : call₁.args[i]? with
  | none =>
    rw [h₁] at hi
    rw [Option.map_eq_none_iff.1 hi.symm]
    exact .refused _ _
  | some v₁ =>
    rw [h₁] at hi
    obtain ⟨v₂, h₂, hsight⟩ := Option.map_eq_some_iff.1 hi.symm
    rw [h₂]
    exact .ok hsight.symm

theorem constArg (h : Alike m₁ call₁ m₂ call₂) (i : Nat) :
    EndsLike Eq (call₁.constArg i) (call₂.constArg i) := by
  refine (h.arg i).bind fun v₁ v₂ hv => ?_
  have hcount : v₁.count? = v₂.count? := congrArg Sight.count hv
  rw [hcount]
  cases v₂.count? with
  | some n => exact .ok rfl
  | none => exact .refused _ _

theorem checkCount (call₁ call₂ : Call) (n : Nat) :
    EndsLike Eq (call₁.checkCount n) (call₂.checkCount n) := by
  unfold Call.checkCount
  split
  · exact .ok rfl
  · exact .refused _ _

theorem known? (q : Quantity) : EndsLike Eq q.known? q.known? := by
  cases q with
  | ok n => exact .ok rfl
  | error e =>
    cases e with
    | unsized => exact .ok rfl
    | overflow => exact .overflow

theorem elementSize (call₁ call₂ : Call) (t : Ty) (q : Quantity) :
    EndsLike Eq (call₁.elementSize t q) (call₂.elementSize t q) := by
  refine (known? q).bind ?_
  rintro n _ rfl
  split
  · exact .ok rfl
  · exact .refused _ _

theorem elementCount (call₁ call₂ : Call) (bytes : Nat) (t : Ty) (size : Nat) :
    EndsLike Eq (call₁.elementCount bytes t size) (call₂.elementCount bytes t size) := by
  unfold Call.elementCount
  split
  · exact checkCount call₁ call₂ _
  · exact .refused _ _

end Call.Alike

open Call (Alike)

/-! ### Funnel shifts -/

namespace FunnelShift

variable {m₁ m₂ : Module} {call₁ call₂ : Call}

theorem mistyped?_congr {f₁ f₂ : Function} (ty : Ty) : ∀ {vs₁ vs₂ : List Value} (i : Nat),
    vs₁.map (m₁.valueType? f₁) = vs₂.map (m₂.valueType? f₂) →
      mistyped? m₁ f₁ ty i vs₁ = mistyped? m₂ f₂ ty i vs₂
  | [], [], _, _ => rfl
  | [], _ :: _, _, h => nomatch h
  | _ :: _, [], _, h => nomatch h
  | v₁ :: vs₁, v₂ :: vs₂, i, h => by
    obtain ⟨hv, hvs⟩ := List.cons.inj h
    unfold mistyped?
    rw [hv, mistyped?_congr ty (i + 1) hvs]

theorem endsLike_ofCall (h : Alike m₁ call₁ m₂ call₂) :
    EndsLike (fun _ _ => True) (ofCall m₁ call₁) (ofCall m₂ call₂) := by
  have htypes : call₁.args.map (m₁.valueType? call₁.caller) =
      call₂.args.map (m₂.valueType? call₂.caller) := by
    have hsight := congrArg (List.map Sight.ty) h.args
    rwa [List.map_map, List.map_map] at hsight
  have hmistyped := mistyped?_congr call₁.ty 0 htypes
  have hlength : call₁.args.length = call₂.args.length := by
    simpa using congrArg List.length htypes
  unfold ofCall
  rw [← h.ty]
  cases call₁.ty.intBits? with
  | none => exact .refused _ _
  | some width =>
    by_cases hwidth : width ∈ widths
    · simp only [if_pos hwidth]
      -- both have three operands or both have not
      split
      · next hi lo amount hargs₁ =>
        rw [hargs₁] at hlength
        obtain ⟨hi', lo', amount', hargs₂⟩ := List.length_eq_three.1 hlength.symm
        rw [hargs₂]
        simp only [← hargs₂, hmistyped]
        cases mistyped? m₂ call₂.caller call₁.ty 0 call₂.args with
        | some p => exact .refused _ _
        | none => exact .ok trivial
      · next args₁ hargs₁ =>
        split
        · next hi lo amount hargs₂ =>
          rw [hargs₂] at hlength
          obtain ⟨hi', lo', amount', hargs⟩ := List.length_eq_three.1 hlength
          exact absurd hargs (hargs₁ _ _ _)
        · exact .refused _ _
    · simp only [if_neg hwidth]
      exact .refused _ _

theorem refuses_iff (h : Alike m₁ call₁ m₂ call₂) :
    Refused (replace m₁ call₁) ↔ Refused (replace m₂ call₂) := by
  refine (endsLike_ofCall h).refused_bind_iff fun s₁ s₂ _ => iff_of_false ?_ ?_
  · cases (build s₁).runIn? call₁.caller with
    | some x => exact not_refused_ok _
    | none => exact not_refused_overflow
  · cases (build s₂).runIn? call₂.caller with
    | some x => exact not_refused_ok _
    | none => exact not_refused_overflow

end FunnelShift

/-! ### Fills -/

namespace ZeroFill

variable {m₁ m₂ : Module} {call₁ call₂ : Call}

theorem endsLike_destination (h : Alike m₁ call₁ m₂ call₂) :
    EndsLike (fun d₁ d₂ => d₁.2.1 = d₂.2.1) (destination m₁ call₁) (destination m₂ call₂) := by
  refine (h.arg 0).bind fun v₁ v₂ hv => ?_
  have hbehind : (m₁.reinterpretation? call₁.caller v₁).map (·.pointee) =
      (m₂.reinterpretation? call₂.caller v₂).map (·.pointee) := congrArg Sight.behind hv
  have hty : m₁.valueType? call₁.caller v₁ = m₂.valueType? call₂.caller v₂ :=
    congrArg Sight.ty hv
  cases h₁ : m₁.reinterpretation? call₁.caller v₁ with
  | some r₁ =>
    rw [h₁] at hbehind
    obtain ⟨r₂, h₂, hpointee⟩ := Option.map_eq_some_iff.1 hbehind.symm
    rw [h₂]
    exact .ok hpointee.symm
  | none =>
    rw [h₁] at hbehind
    rw [Option.map_eq_none_iff.1 hbehind.symm, hty]
    cases m₂.valueType? call₂.caller v₂ with
    | none => exact .refused _ _
    | some t =>
      cases t with
      | ptr t => exact .ok rfl
      | void | int | array | vector | function | struct => exact .refused _ _

theorem endsLike_ofCall (h : Alike m₁ call₁ m₂ call₂) :
    EndsLike (fun _ _ => True) (ofCall m₁ call₁) (ofCall m₂ call₂) := by
  refine (h.arg 1).bind fun v₁ v₂ hv => ?_
  have hzero : isZero v₁ = isZero v₂ := congrArg Sight.isZero hv
  rw [hzero]
  split
  · refine (h.constArg 2).bind ?_
    rintro bytes _ rfl
    refine (endsLike_destination h).bind ?_
    rintro ⟨ptr₁, element, cast₁⟩ ⟨ptr₂, element₂, cast₂⟩ rfl
    rw [h.layout]
    refine (Alike.elementSize call₁ call₂ element _).bind ?_
    rintro size _ rfl
    refine (Alike.elementCount call₁ call₂ bytes element size).bind fun _ _ _ => ?_
    exact .ok trivial
  · exact .refused _ _

theorem refuses_iff (h : Alike m₁ call₁ m₂ call₂) :
    Refused (replace m₁ call₁).result ↔ Refused (replace m₂ call₂).result := by
  rw [replace, replace, Traced.result_bind, Traced.result_bind]
  refine (endsLike_ofCall h).refused_bind_iff fun f₁ f₂ _ => iff_of_false ?_ ?_
  · rw [Traced.result_bind]
    cases (build f₁).runIn? call₁.caller with
    | some x => exact not_refused_ok _
    | none => exact not_refused_overflow
  · rw [Traced.result_bind]
    cases (build f₂).runIn? call₂.caller with
    | some x => exact not_refused_ok _
    | none => exact not_refused_overflow

end ZeroFill

/-! ### Copies -/

namespace BlockCopy

variable {m₁ m₂ : Module} {call₁ call₂ : Call}

theorem endsLike_pointerArg (h : Alike m₁ call₁ m₂ call₂) (i : Nat) :
    EndsLike (fun r₁ r₂ => r₁.pointee = r₂.pointee) (pointerArg m₁ call₁ i)
      (pointerArg m₂ call₂ i) := by
  refine (h.arg i).bind fun v₁ v₂ hv => ?_
  have hbehind : (m₁.reinterpretation? call₁.caller v₁).map (·.pointee) =
      (m₂.reinterpretation? call₂.caller v₂).map (·.pointee) := congrArg Sight.behind hv
  cases h₁ : m₁.reinterpretation? call₁.caller v₁ with
  | some r₁ =>
    rw [h₁] at hbehind
    obtain ⟨r₂, h₂, hpointee⟩ := Option.map_eq_some_iff.1 hbehind.symm
    rw [h₂]
    exact .ok hpointee.symm
  | none =>
    rw [h₁] at hbehind
    rw [Option.map_eq_none_iff.1 hbehind.symm]
    exact .refused _ _

/-- The requests are the same but for the pointers. -/
structure Request.Like (r₁ r₂ : Request) : Prop where
  dest : r₁.dest.pointee = r₂.dest.pointee
  src : r₁.src.pointee = r₂.src.pointee
  bytes : r₁.bytes = r₂.bytes

theorem endsLike_ofCall (h : Alike m₁ call₁ m₂ call₂) :
    EndsLike Request.Like (ofCall m₁ call₁) (ofCall m₂ call₂) := by
  refine (endsLike_pointerArg h 0).bind fun dest₁ dest₂ hdest => ?_
  refine (endsLike_pointerArg h 1).bind fun src₁ src₂ hsrc => ?_
  refine (h.constArg 2).bind fun bytes₁ bytes₂ hbytes => ?_
  refine (h.constArg 3).bind fun _ _ _ => ?_
  exact .ok ⟨hdest, hsrc, hbytes⟩

theorem endsLike_shape (call₁ call₂ : Call) (x : Except MatchFault TypeMatch) :
    EndsLike Eq (x.mapError (shapeFault call₁)) (x.mapError (shapeFault call₂)) := by
  cases x with
  | ok shape => exact .ok rfl
  | error e =>
    cases e with
    | stuck dest src => exact .refused _ _
    | overflow => exact .overflow

theorem endsLike_divide (halign : call₁.align = call₂.align) {r₁ r₂ : Request} (hr : r₁.Like r₂)
    (layout : DataLayout) (shape : TypeMatch) : EndsLike (fun _ _ => True)
      (divide layout call₁ r₁ shape) (divide layout call₂ r₂ shape) := by
  unfold divide
  rw [halign, hr.bytes]
  refine (Alike.elementSize call₁ call₂ shape.element _).bind ?_
  rintro size _ rfl
  split
  · refine EndsLike.bind (R := Eq) ((Alike.known? _).bind ?_) ?_
    · rintro align _ rfl
      exact .ok rfl
    · rintro required _ rfl
      refine EndsLike.bind (R := fun _ _ => True) ?_ fun _ _ _ => ?_
      · unfold checkAlign
        split
        · exact .refused _ _
        · exact .ok trivial
      · exact (Alike.checkCount call₁ call₂ _).bind fun _ _ _ => .ok trivial
  · exact .refused _ _

theorem refuses_iff (base : String) (h : Alike m₁ call₁ m₂ call₂) :
    Refused (replace base m₁ call₁).result ↔ Refused (replace base m₂ call₂).result := by
  rw [replace, replace, Traced.result_bind, Traced.result_bind]
  refine (endsLike_ofCall h).refused_bind_iff fun r₁ r₂ hr => ?_
  by_cases hb : r₂.bytes = 0
  · simp only [hr.bytes, if_pos hb]
    exact iff_of_false (not_refused_ok _) (not_refused_ok _)
  · simp only [hr.bytes, hr.dest, hr.src, h.layout, if_neg hb]
    rw [Traced.result_bind, Traced.result_bind]
    refine (endsLike_shape call₁ call₂ _).refused_bind_iff ?_
    rintro shape _ rfl
    rw [Traced.result_bind, Traced.result_bind]
    refine (endsLike_divide h.align hr m₂.layout shape).refused_bind_iff fun c₁ c₂ _ =>
      iff_of_false ?_ ?_
    · rw [Traced.result_bind]
      cases (build base c₁).runIn? call₁.caller with
      | some x => exact not_refused_ok _
      | none => exact not_refused_overflow
    · rw [Traced.result_bind]
      cases (build base c₂).runIn? call₂.caller with
      | some x => exact not_refused_ok _
      | none => exact not_refused_overflow

end BlockCopy

/-! ### All lowerings -/

/-- **Calls that look alike get the same verdict.** -/
theorem Settings.refuses_iff_of_alike {s : Settings} {l : Lowering} (hl : l ∈ s.lowerings)
    {m₁ m₂ : Module} {call₁ call₂ : Call} (h : Alike m₁ call₁ m₂ call₂) :
    l.Refuses m₁ call₁ ↔ l.Refuses m₂ call₂ := by
  simp only [lowerings, List.mem_cons, List.not_mem_nil, or_false] at hl
  rcases hl with rfl | rfl | rfl | rfl
  · exact iff_of_false (not_refused_ok _) (not_refused_ok _)
  · exact FunnelShift.refuses_iff h
  · exact ZeroFill.refuses_iff h
  · exact BlockCopy.refuses_iff s.copyBase h

/-- A call that is not refused is replaced, unless the machine's words are at their end. -/
theorem Settings.exists_replacement {s : Settings} {l : Lowering} (hl : l ∈ s.lowerings)
    {m : Module} {call : Call} (h : ¬ l.Refuses m call)
    (hoverflow : (l.replace m call).result ≠ .error .overflow) :
    ∃ r, (l.replace m call).result = .ok r := by
  cases hr : (l.replace m call).result with
  | ok r => exact ⟨r, rfl⟩
  | error e =>
    rcases s.guards_replace hl m call e hr with rfl | ⟨o, rfl⟩
    · exact absurd hr hoverflow
    · exact absurd ⟨_, hr⟩ h

end KernelIR

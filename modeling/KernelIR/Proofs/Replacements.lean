import KernelIR.Lowering.Pass
import KernelIR.Proofs.Building
import KernelIR.Proofs.LayoutLaws

/-!
# What takes the place of a call

For each lowering: when it accepts a call and what it puts in its place (`replace_eq_ok`); and what
all lowerings have in common: which instructions they emit and which functions they declare.
-/

namespace KernelIR

namespace Call

variable {call : Call}

/-- A size is accepted when it is known and not zero. -/
theorem elementSize_eq_ok {t : Ty} {q : Quantity} {n : Nat} :
    call.elementSize t q = .ok n ↔ q = .ok n ∧ 0 < n := by
  unfold elementSize
  rw [except_bind_eq_ok]
  constructor
  · rintro ⟨k, hk, h⟩
    split at h
    · obtain rfl := Except.ok.inj h
      cases q with
      | ok n =>
        obtain rfl := Option.some.inj (Except.ok.inj hk)
        exact ⟨rfl, Nat.succ_pos _⟩
      | error e => cases e <;> exact nomatch hk
    · exact nomatch h
  · rintro ⟨rfl, h⟩
    obtain ⟨k, rfl⟩ := Nat.exists_eq_succ_of_ne_zero (Nat.ne_of_gt h)
    exact ⟨some (k + 1), rfl, rfl⟩

theorem checkCount_eq_ok {n k : Nat} : call.checkCount n = .ok k ↔ k = n ∧ n < 2 ^ 32 := by
  unfold checkCount
  split
  · next h => exact ⟨fun e => ⟨(Except.ok.inj e).symm, h⟩, fun e => by rw [e.1]⟩
  · next h => exact ⟨fun e => (nomatch e), fun e => absurd e.2 h⟩

theorem elementCount_eq_ok {bytes : Nat} {t : Ty} {size k : Nat} :
    call.elementCount bytes t size = .ok k ↔
      bytes % size = 0 ∧ k = bytes / size ∧ bytes / size < 2 ^ 32 := by
  unfold elementCount
  split
  · next h => rw [checkCount_eq_ok, and_iff_right h]
  · next h => exact ⟨fun e => (nomatch e), fun e => absurd e.1 h⟩

theorem arg_eq_ok {i : Nat} {v : Value} : call.arg i = .ok v ↔ call.args[i]? = some v := by
  unfold arg
  cases call.args[i]? with
  | some w => rw [Except.ok.injEq, Option.some.injEq]
  | none => exact ⟨fun h => (nomatch h), fun h => (nomatch h)⟩

theorem constArg_eq_ok {i n : Nat} :
    call.constArg i = .ok n ↔ ∃ v, call.args[i]? = some v ∧ v.count? = some n := by
  rw [constArg, except_bind_eq_ok]
  refine exists_congr fun v => and_congr arg_eq_ok ?_
  cases v.count? with
  | some k => rw [Except.ok.injEq, Option.some.injEq]
  | none => exact ⟨fun h => (nomatch h), fun h => (nomatch h)⟩

end Call

open Call

/-! ### Pointers behind a cast -/

/-- A value with a pointer behind it is the result of a cast to a pointer type, and the first
definition of its temporary is that cast. -/
theorem Module.reinterpretation?_eq_some {m : Module} {f : Function} {v : Value}
    {r : Reinterpretation} (h : m.reinterpretation? f v = some r) :
    v = .temp r.cast ∧ m.valueType? f r.source = some (.ptr r.pointee) ∧
      ∃ ty, ty.isPtr ∧ f.findDef? r.cast = some (.cast r.cast r.source ty) := by
  simp only [reinterpretation?, Option.bind_eq_bind, Option.bind_eq_some_iff] at h
  obtain ⟨t, ht, i, hi, h⟩ := h
  have hv : v = .temp t := by
    cases v with
    | temp u => rw [Option.some.inj ht]
    | const | zero | global | function | undef => exact nomatch ht
  have hresult : i.result? = some t := by simpa using List.find?_some hi
  split at h
  · next t' source ty =>
    by_cases hty : ty.isPtr
    · rw [if_pos hty] at h
      simp only [Option.bind_eq_some_iff, Option.pure_def] at h
      obtain ⟨sourceTy, hsource, pointee, hpointee, h⟩ := h
      obtain rfl := Option.some.inj h
      obtain rfl : t' = t := Option.some.inj hresult
      refine ⟨hv, ?_, ty, hty, hi⟩
      cases sourceTy with
      | ptr t =>
        obtain rfl : t = pointee := Option.some.inj hpointee
        exact hsource
      | void | int | array | vector | function | struct => exact nomatch hpointee
    · rw [if_neg hty] at h
      exact nomatch h
  · exact nomatch h

/-! ### Funnel shifts -/

namespace FunnelShift

variable {m : Module} {call : Call} {r : Replacement}

theorem replace_eq_ok :
    replace m call = .ok r ↔ ∃ s base, ofCall m call = .ok s ∧
      call.caller.reserve? temps = some base ∧
      r = { code := code s base, renamed := call.result.map (·, UInt32.ofNat (base + 4)) } := by
  rw [replace, except_bind_eq_ok]
  constructor
  · rintro ⟨s, hs, h⟩
    rw [runIn?_build] at h
    cases hb : call.caller.reserve? temps with
    | none =>
      rw [hb] at h
      exact nomatch h
    | some base =>
      rw [hb] at h
      exact ⟨s, base, hs, rfl, (Except.ok.inj h).symm⟩
  · rintro ⟨s, base, hs, hb, rfl⟩
    exact ⟨s, hs, by rw [runIn?_build, hb]; rfl⟩

theorem ofCall_eq_ok {s : Shift} (h : ofCall m call = .ok s) :
    s.width ∈ widths ∧ call.ty = .int s.width ∧ call.args = [s.hi, s.lo, s.amount] := by
  unfold ofCall at h
  split at h
  · next width hty =>
    have hcall : call.ty = .int width := by
      cases hc : call.ty with
      | int bits =>
        rw [hc] at hty
        rw [Option.some.inj hty]
      | void | ptr | array | vector | function | struct =>
        rw [hc] at hty
        exact nomatch hty
    split at h
    · next hw =>
      split at h
      · next hi lo amount hargs =>
        split at h
        · exact nomatch h
        · obtain rfl := Except.ok.inj h
          exact ⟨hw, hcall, hargs⟩
      · exact nomatch h
    · exact nomatch h
  · exact nomatch h

end FunnelShift

/-! ### Zero fills -/

namespace ZeroFill

variable {m : Module} {call : Call} {r : Replacement}

theorem replace_eq_ok :
    (replace m call).result = .ok r ↔ ∃ f base, ofCall m call = .ok f ∧
      call.caller.reserve? f.count = some base ∧
      r = { code := code f base, casts := f.cast.toList } := by
  simp only [replace, Traced.result_bind_eq_ok, Traced.result_ofExcept, Traced.result_report]
  constructor
  · rintro ⟨f, hf, -, -, h⟩
    rw [runIn?_build] at h
    cases hb : call.caller.reserve? f.count with
    | none =>
      rw [hb] at h
      exact nomatch h
    | some base =>
      rw [hb] at h
      exact ⟨f, base, hf, hb, (Except.ok.inj h).symm⟩
  · rintro ⟨f, base, hf, hb, rfl⟩
    exact ⟨f, hf, (), trivial, by rw [runIn?_build, hb]; rfl⟩

/-- The pointer that is filled: the destination, or the pointer behind it if it is a cast. -/
theorem destination_eq_ok {ptr : Value} {element : Ty} {cast : Option TempId}
    (h : destination m call = .ok (ptr, element, cast)) :
    m.valueType? call.caller ptr = some (.ptr element) ∧ ∃ dest, call.args[0]? = some dest ∧
      (cast = none ∧ ptr = dest ∧ m.reinterpretation? call.caller dest = none ∨
      ∃ r, m.reinterpretation? call.caller dest = some r ∧ cast = some r.cast ∧ ptr = r.source) := by
  unfold destination at h
  obtain ⟨dest, hdest, h⟩ := except_bind_eq_ok.1 h
  split at h
  · next r hr =>
    obtain ⟨rfl, rfl, rfl⟩ : r.source = ptr ∧ r.pointee = element ∧ some r.cast = cast := by
      simpa using h
    exact ⟨(Module.reinterpretation?_eq_some hr).2.1, dest, arg_eq_ok.1 hdest,
      .inr ⟨r, hr, rfl, rfl⟩⟩
  · next hr =>
    split at h
    · exact nomatch h
    · next t hty =>
      obtain ⟨rfl, rfl, rfl⟩ : dest = ptr ∧ t = element ∧ none = cast := by simpa using h
      exact ⟨hty, dest, arg_eq_ok.1 hdest, .inl ⟨rfl, rfl, hr⟩⟩
    · exact nomatch h

theorem ofCall_eq_ok {f : Fill} (h : ofCall m call = .ok f) :
    destination m call = .ok (f.ptr, f.element, f.cast) ∧ ∃ bytes alloc,
      call.constArg 2 = .ok bytes ∧ m.layout.allocSize f.element = .ok alloc ∧ 0 < alloc ∧
      bytes % alloc = 0 ∧ f.count = bytes / alloc ∧ f.count < 2 ^ 32 := by
  unfold ofCall at h
  obtain ⟨fill, -, h⟩ := except_bind_eq_ok.1 h
  split at h
  · obtain ⟨bytes, hbytes, h⟩ := except_bind_eq_ok.1 h
    obtain ⟨⟨ptr, element, cast⟩, hdest, h⟩ := except_bind_eq_ok.1 h
    obtain ⟨alloc, halloc, h⟩ := except_bind_eq_ok.1 h
    obtain ⟨count, hcount, h⟩ := except_bind_eq_ok.1 h
    obtain ⟨hsize, hpos⟩ := elementSize_eq_ok.1 halloc
    obtain ⟨hmod, rfl, hlt⟩ := elementCount_eq_ok.1 hcount
    obtain rfl := Except.ok.inj h
    exact ⟨hdest, bytes, alloc, hbytes, hsize, hpos, hmod, rfl, hlt⟩
  · exact nomatch h

end ZeroFill

/-! ### Block copies -/

namespace BlockCopy

variable {base : String} {m : Module} {call : Call} {r : Replacement}

theorem replace_eq_ok :
    (replace base m call).result = .ok r ↔ ∃ req, ofCall m call = .ok req ∧
      (req.bytes = 0 ∧ r = { casts := [req.dest.cast, req.src.cast] } ∨
      req.bytes ≠ 0 ∧ ∃ shape c first,
        (matchTypes m.layout req.dest.pointee req.src.pointee req.bytes).result = .ok shape ∧
        divide m.layout call req shape = .ok c ∧ call.caller.reserve? c.temps = some first ∧
        r = { code := code base c first, declared := missing? m (primitive base shape.element),
              casts := [req.dest.cast, req.src.cast] }) := by
  rw [replace, Traced.result_bind_eq_ok]
  refine exists_congr fun req => and_congr_right fun hreq => ?_
  by_cases hb : req.bytes = 0
  · rw [if_pos hb, or_iff_left fun h => h.1 hb, and_iff_right hb]
    simp only [Traced.result_bind_eq_ok, Traced.result_report, Traced.result_pure,
      Except.ok.injEq]
    exact ⟨fun ⟨_, _, h⟩ => h.symm, fun h => ⟨(), trivial, h.symm⟩⟩
  · rw [if_neg hb, or_iff_right fun h => hb h.1, and_iff_right hb]
    simp only [Traced.result_bind_eq_ok, Traced.result_report, Traced.result_ofExcept]
    constructor
    · rintro ⟨shape, hshape, c, hc, -, -, h⟩
      rw [Traced.result_mapError] at hshape
      cases hm : (matchTypes m.layout req.dest.pointee req.src.pointee req.bytes).result with
      | error e =>
        rw [hm] at hshape
        exact nomatch hshape
      | ok shape' =>
        rw [hm] at hshape
        obtain rfl : shape' = shape := Except.ok.inj hshape
        rw [runIn?_build] at h
        cases hfirst : call.caller.reserve? c.temps with
        | none =>
          rw [hfirst] at h
          exact nomatch h
        | some first =>
          rw [hfirst] at h
          exact ⟨shape', c, first, rfl, hc, hfirst, (Except.ok.inj h).symm⟩
    · rintro ⟨shape, c, first, hshape, hc, hfirst, rfl⟩
      refine ⟨shape, ?_, c, hc, (), trivial, ?_⟩
      · rw [Traced.result_mapError, hshape]
        rfl
      · rw [runIn?_build, hfirst]
        rfl

theorem pointerArg_eq_ok {i : Nat} {p : Reinterpretation} : pointerArg m call i = .ok p ↔
    ∃ v, call.args[i]? = some v ∧ m.reinterpretation? call.caller v = some p := by
  rw [pointerArg, except_bind_eq_ok]
  refine exists_congr fun v => and_congr arg_eq_ok ?_
  cases m.reinterpretation? call.caller v with
  | some p' => rw [Except.ok.injEq, Option.some.injEq]
  | none => exact ⟨fun h => (nomatch h), fun h => (nomatch h)⟩

theorem ofCall_eq_ok {req : Request} (h : ofCall m call = .ok req) :
    pointerArg m call 0 = .ok req.dest ∧ pointerArg m call 1 = .ok req.src := by
  obtain ⟨dest, hdest, h⟩ := except_bind_eq_ok.1 h
  obtain ⟨src, hsrc, h⟩ := except_bind_eq_ok.1 h
  obtain ⟨bytes, -, h⟩ := except_bind_eq_ok.1 h
  obtain ⟨isVolatile, -, h⟩ := except_bind_eq_ok.1 h
  obtain rfl := Except.ok.inj h
  exact ⟨hdest, hsrc⟩

theorem divide_eq_ok {layout : DataLayout} {req : Request} {shape : TypeMatch} {c : Copy}
    (h : divide layout call req shape = .ok c) :
    c.request = req ∧ c.shape = shape ∧ ∃ bits, layout.sizeInBits shape.element = .ok bits ∧
      0 < bits / 8 ∧ req.bytes % (bits / 8) = 0 ∧ c.count = req.bytes / (bits / 8) ∧
      c.count < 2 ^ 32 := by
  unfold divide at h
  obtain ⟨size, hsize, h⟩ := except_bind_eq_ok.1 h
  obtain ⟨hq, hpos⟩ := elementSize_eq_ok.1 hsize
  split at h
  · next hdiv =>
    obtain ⟨required, -, h⟩ := except_bind_eq_ok.1 h
    obtain ⟨-, -, h⟩ := except_bind_eq_ok.1 h
    obtain ⟨count, hcount, h⟩ := except_bind_eq_ok.1 h
    obtain ⟨rfl, hlt⟩ := checkCount_eq_ok.1 hcount
    obtain rfl := Except.ok.inj h
    cases hb : layout.sizeInBits shape.element with
    | error e =>
      rw [hb] at hq
      exact nomatch hq
    | ok bits =>
      rw [hb] at hq
      obtain rfl : bits / 8 = size := Except.ok.inj hq
      exact ⟨rfl, rfl, bits, rfl, hpos, hdiv, rfl, hlt⟩
  · exact nomatch h

/-- The code of a copy computes addresses and calls the function for the element. -/
theorem mem_code {c : Copy} {first : Nat} {i : Instruction} (hi : i ∈ code base c first) :
    (∃ result ptr indices ty, i = .elementPtr result ptr indices ty) ∨
      ∃ dest src, i = copyCall base c dest src := by
  unfold code at hi
  split at hi
  · exact .inr ⟨_, _, List.mem_singleton.1 hi⟩
  · obtain ⟨k, -, hi⟩ := List.mem_flatMap.1 hi
    simp only [copyElement, List.mem_cons, List.not_mem_nil, or_false] at hi
    rcases hi with rfl | rfl | rfl
    · exact .inl ⟨_, _, _, _, rfl⟩
    · exact .inl ⟨_, _, _, _, rfl⟩
    · exact .inr ⟨_, _, rfl⟩

/-- A copy declares the function for its element, if the module has none of that name. -/
theorem declared_eq_some {g : Function} (h : (replace base m call).result = .ok r)
    (hg : r.declared = some g) :
    (∃ element, g = primitive base element) ∧ ∀ f ∈ m.functions, f.name ≠ g.name := by
  obtain ⟨req, -, ⟨-, rfl⟩ | ⟨-, shape, c, first, -, -, -, rfl⟩⟩ := replace_eq_ok.1 h
  · exact nomatch hg
  · simp only [missing?] at hg
    split at hg
    · exact nomatch hg
    · next hnone =>
      obtain rfl := Option.some.inj hg
      refine ⟨⟨shape.element, rfl⟩, fun f hf hname => hnone ?_⟩
      exact List.find?_isSome.2 ⟨f, hf, by simpa using hname⟩

end BlockCopy

/-! ### What all lowerings have in common -/

/-- An instruction that a lowering can emit; the only calls are those of copying functions. -/
inductive Instruction.Emitted (base : String) : Instruction → Prop
  | binary (result : TempId) (op : BinOp) (lhs rhs : Value) (ty : Ty) :
      Emitted base (.binary result op lhs rhs ty)
  | elementPtr (result : TempId) (ptr : Value) (indices : List Value) (ty : Ty) :
      Emitted base (.elementPtr result ptr indices ty)
  | store (value ptr : Value) : Emitted base (.store value ptr)
  | copy (element : Ty) (args : List Value) : Emitted base
      (.call none (.function (BlockCopy.primitive base element).name) args .void none)

theorem Settings.emitted_of_mem_code (s : Settings) {l : Lowering} (hl : l ∈ s.lowerings)
    {m : Module} {call : Call} {r : Replacement} (h : (l.replace m call).result = .ok r)
    {i : Instruction} (hi : i ∈ r.code) : i.Emitted s.copyBase := by
  simp only [Settings.lowerings, List.mem_cons, List.not_mem_nil, or_false] at hl
  rcases hl with rfl | rfl | rfl | rfl
  · obtain rfl : {} = r := Except.ok.inj h
    exact absurd hi List.not_mem_nil
  · obtain ⟨s, base, -, -, rfl⟩ := FunnelShift.replace_eq_ok.1 h
    simp only [FunnelShift.code, List.mem_cons, List.not_mem_nil, or_false] at hi
    rcases hi with rfl | rfl | rfl | rfl | rfl <;> exact .binary ..
  · obtain ⟨f, base, -, -, rfl⟩ := ZeroFill.replace_eq_ok.1 h
    obtain ⟨k, -, hi⟩ := List.mem_flatMap.1 hi
    simp only [ZeroFill.store, List.mem_cons, List.not_mem_nil, or_false] at hi
    rcases hi with rfl | rfl
    · exact .elementPtr ..
    · exact .store ..
  · obtain ⟨req, -, ⟨-, rfl⟩ | ⟨-, shape, c, first, -, -, -, rfl⟩⟩ := BlockCopy.replace_eq_ok.1 h
    · exact absurd hi List.not_mem_nil
    · obtain ⟨result, ptr, indices, ty, rfl⟩ | ⟨dest, src, rfl⟩ := BlockCopy.mem_code hi
      · exact .elementPtr ..
      · exact .copy ..

/-- Only copies declare functions. -/
theorem Settings.declared_eq_some (s : Settings) {l : Lowering} (hl : l ∈ s.lowerings) {m : Module}
    {call : Call} {r : Replacement} {g : Function} (h : (l.replace m call).result = .ok r)
    (hg : r.declared = some g) :
    (∃ element, g = BlockCopy.primitive s.copyBase element) ∧
      ∀ f ∈ m.functions, f.name ≠ g.name := by
  simp only [Settings.lowerings, List.mem_cons, List.not_mem_nil, or_false] at hl
  rcases hl with rfl | rfl | rfl | rfl
  · obtain rfl : {} = r := Except.ok.inj h
    exact nomatch hg
  · obtain ⟨s, base, -, -, rfl⟩ := FunnelShift.replace_eq_ok.1 h
    exact nomatch hg
  · obtain ⟨f, base, -, -, rfl⟩ := ZeroFill.replace_eq_ok.1 h
    exact nomatch hg
  · exact BlockCopy.declared_eq_some h hg

end KernelIR

import KernelIR.Proofs.Addresses

/-!
# What happens to a function does not depend on the bodies of others

Calls in different functions are replaced in one go, positions of functions shift as declarations
are removed, and functions are added as copies need them.  Yet what becomes of one function depends
only on itself, on the global variables and on the layout.  The reason is that a replacement hardly
depends on the module (`Settings.replace_congr`): the types of functions may decide whether a call
is accepted, but never what takes its place.  So the steps of a run that concern one function
(`Lowering.Works`) have one outcome, and two runs that work on the same names in the same order
treat equal functions alike (`Module.body_of_lowerIntrinsics`).
-/

namespace KernelIR

/-! ### The module behind a replacement -/

namespace Module.SameGround

variable {m₁ m₂ m₃ : Module}

theorem refl (m : Module) : m.SameGround m := ⟨rfl, rfl⟩

theorem symm (h : m₁.SameGround m₂) : m₂.SameGround m₁ := ⟨h.globals.symm, h.layout.symm⟩

theorem trans (h : m₁.SameGround m₂) (h' : m₂.SameGround m₃) : m₁.SameGround m₃ :=
  ⟨h.globals.trans h'.globals, h.layout.trans h'.layout⟩

theorem valueType?_eq (h : m₁.SameGround m₂) {f : Function} {v : Value} (hv : v.function? = none) :
    m₁.valueType? f v = m₂.valueType? f v := by
  cases v with
  | global n =>
    show (m₁.global? n).map _ = (m₂.global? n).map _
    rw [global?, global?, h.globals]
  | function n => cases hv
  | temp | const | zero | undef => rfl

theorem reinterpretation?_eq (h : m₁.SameGround m₂) {f : Function} {v : Value}
    {p : Reinterpretation} (hp : m₁.reinterpretation? f v = some p)
    (hsource : p.source.function? = none) : m₂.reinterpretation? f v = some p := by
  obtain ⟨rfl, hty, ty, hptr, hdef⟩ := reinterpretation?_eq_some hp
  rw [h.valueType?_eq hsource] at hty
  simp [reinterpretation?, Value.temp?, hdef, hptr, hty, Ty.pointee?]

end Module.SameGround

/-- What takes the place of a call, less the function that has to be declared for it. -/
def Replacement.edit (r : Replacement) :
    List Instruction × Option (TempId × TempId) × List TempId :=
  (r.code, r.renamed, r.casts)

/-- A funnel shift is read from the call alone. -/
theorem FunnelShift.ofCall_congr {m₁ m₂ : Module} {call : Call} {s₁ s₂ : Shift}
    (h₁ : ofCall m₁ call = .ok s₁) (h₂ : ofCall m₂ call = .ok s₂) : s₁ = s₂ := by
  obtain ⟨-, hty₁, hargs₁⟩ := ofCall_eq_ok h₁
  obtain ⟨-, hty₂, hargs₂⟩ := ofCall_eq_ok h₂
  obtain ⟨width₁, hi₁, lo₁, amount₁⟩ := s₁
  obtain ⟨width₂, hi₂, lo₂, amount₂⟩ := s₂
  rw [hty₂] at hty₁
  rw [hargs₂] at hargs₁
  obtain rfl := Ty.int.inj hty₁
  simp only [List.cons.injEq, and_true] at hargs₁
  obtain ⟨rfl, rfl, rfl⟩ := hargs₁
  rfl

namespace ZeroFill

variable {m₁ m₂ : Module} {call : Call} {f₁ f₂ : Fill}

/-- A pointer behind a cast that is no function is seen from both modules. -/
theorem destination_eq (h : m₁.SameGround m₂) {ptr₁ ptr₂ : Value} {element₁ element₂ : Ty}
    {cast₁ cast₂ : Option TempId} (h₁ : destination m₁ call = .ok (ptr₁, element₁, cast₁))
    (h₂ : destination m₂ call = .ok (ptr₂, element₂, cast₂)) (hptr₁ : ptr₁.function? = none)
    (hptr₂ : ptr₂.function? = none) : (ptr₁, element₁, cast₁) = (ptr₂, element₂, cast₂) := by
  obtain ⟨hty₁, dest, hdest, hcase₁⟩ := destination_eq_ok h₁
  obtain ⟨hty₂, dest₂, hdest₂, hcase₂⟩ := destination_eq_ok h₂
  obtain rfl := Option.some.inj (hdest.symm.trans hdest₂)
  have hsame : ptr₁ = ptr₂ ∧ cast₁ = cast₂ := by
    rcases hcase₁ with ⟨rfl, rfl, hnone₁⟩ | ⟨p₁, hp₁, rfl, rfl⟩
    · rcases hcase₂ with ⟨rfl, rfl, -⟩ | ⟨p₂, hp₂, rfl, rfl⟩
      · exact ⟨rfl, rfl⟩
      · exact nomatch hnone₁.symm.trans (h.symm.reinterpretation?_eq hp₂ hptr₂)
    · have hp := h.reinterpretation?_eq hp₁ hptr₁
      rcases hcase₂ with ⟨rfl, rfl, hnone₂⟩ | ⟨p₂, hp₂, rfl, rfl⟩
      · exact nomatch hnone₂.symm.trans hp
      · obtain rfl := Option.some.inj (hp₂.symm.trans hp)
        exact ⟨rfl, rfl⟩
  obtain ⟨rfl, rfl⟩ := hsame
  rw [h.valueType?_eq hptr₁, hty₂] at hty₁
  rw [Ty.ptr.inj (Option.some.inj hty₁)]

theorem ofCall_congr (h : m₁.SameGround m₂) (h₁ : ofCall m₁ call = .ok f₁)
    (h₂ : ofCall m₂ call = .ok f₂) : f₁ = f₂ := by
  obtain ⟨hdest₁, bytes₁, alloc₁, hbytes₁, halloc₁, -, -, hcount₁, -⟩ := ofCall_eq_ok h₁
  obtain ⟨hdest₂, bytes₂, alloc₂, hbytes₂, halloc₂, -, -, hcount₂, -⟩ := ofCall_eq_ok h₂
  have hdest := destination_eq h hdest₁ hdest₂ (function?_ptr h₁) (function?_ptr h₂)
  obtain ⟨ptr₁, element₁, cast₁, count₁⟩ := f₁
  obtain ⟨ptr₂, element₂, cast₂, count₂⟩ := f₂
  simp only [Prod.mk.injEq] at hdest hcount₁ hcount₂ halloc₁ halloc₂
  obtain ⟨rfl, rfl, rfl⟩ := hdest
  rw [h.layout, halloc₂] at halloc₁
  obtain rfl := Except.ok.inj halloc₁
  obtain rfl := Except.ok.inj (hbytes₁.symm.trans hbytes₂)
  rw [hcount₁, hcount₂]

end ZeroFill

namespace BlockCopy

variable {m₁ m₂ : Module} {call : Call} {req₁ req₂ : Request}

theorem constants_of_ofCall {m : Module} {req : Request} (h : ofCall m call = .ok req) :
    call.constArg 2 = .ok req.bytes ∧ call.constArg 3 = .ok req.isVolatile := by
  obtain ⟨dest, -, h⟩ := except_bind_eq_ok.1 h
  obtain ⟨src, -, h⟩ := except_bind_eq_ok.1 h
  obtain ⟨bytes, hbytes, h⟩ := except_bind_eq_ok.1 h
  obtain ⟨isVolatile, hvolatile, h⟩ := except_bind_eq_ok.1 h
  obtain rfl := Except.ok.inj h
  exact ⟨hbytes, hvolatile⟩

/-- The cast is the operand itself, whatever is behind it. -/
theorem cast_eq_of_pointerArg {i : Nat} {p₁ p₂ : Reinterpretation}
    (h₁ : pointerArg m₁ call i = .ok p₁) (h₂ : pointerArg m₂ call i = .ok p₂) :
    p₁.cast = p₂.cast := by
  obtain ⟨v, hv, hp₁⟩ := pointerArg_eq_ok.1 h₁
  obtain ⟨v₂, hv₂, hp₂⟩ := pointerArg_eq_ok.1 h₂
  obtain rfl := Option.some.inj (hv.symm.trans hv₂)
  have heq₁ := (Module.reinterpretation?_eq_some hp₁).1
  have heq₂ := (Module.reinterpretation?_eq_some hp₂).1
  exact Value.temp.inj (heq₁.symm.trans heq₂)

theorem pointerArg_congr (h : m₁.SameGround m₂) {i : Nat} {p₁ p₂ : Reinterpretation}
    (h₁ : pointerArg m₁ call i = .ok p₁) (h₂ : pointerArg m₂ call i = .ok p₂)
    (hsource : p₁.source.function? = none) : p₁ = p₂ := by
  obtain ⟨v, hv, hp₁⟩ := pointerArg_eq_ok.1 h₁
  obtain ⟨v₂, hv₂, hp₂⟩ := pointerArg_eq_ok.1 h₂
  obtain rfl := Option.some.inj (hv.symm.trans hv₂)
  exact Option.some.inj ((h.reinterpretation?_eq hp₁ hsource).symm.trans hp₂)

theorem bytes_congr (h₁ : ofCall m₁ call = .ok req₁) (h₂ : ofCall m₂ call = .ok req₂) :
    req₁.bytes = req₂.bytes :=
  Except.ok.inj ((constants_of_ofCall h₁).1.symm.trans (constants_of_ofCall h₂).1)

/-- The pointers of a copy that has a shape are no functions, so both modules see the same. -/
theorem ofCall_congr (h : m₁.SameGround m₂) {shape : TypeMatch} (h₁ : ofCall m₁ call = .ok req₁)
    (h₂ : ofCall m₂ call = .ok req₂)
    (hshape : (matchTypes m₁.layout req₁.dest.pointee req₁.src.pointee req₁.bytes).result =
      .ok shape) : req₁ = req₂ := by
  obtain ⟨hdest, hsrc⟩ := function?_sources h₁ hshape
  have hbytes := bytes_congr h₁ h₂
  have hvolatile : req₁.isVolatile = req₂.isVolatile :=
    Except.ok.inj ((constants_of_ofCall h₁).2.symm.trans (constants_of_ofCall h₂).2)
  obtain ⟨hdest₁, hsrc₁⟩ := ofCall_eq_ok h₁
  obtain ⟨hdest₂, hsrc₂⟩ := ofCall_eq_ok h₂
  have hdests := pointerArg_congr h hdest₁ hdest₂ hdest
  have hsrcs := pointerArg_congr h hsrc₁ hsrc₂ hsrc
  obtain ⟨dest₁, src₁, bytes₁, volatile₁⟩ := req₁
  obtain ⟨dest₂, src₂, bytes₂, volatile₂⟩ := req₂
  rw [Request.mk.injEq]
  exact ⟨hdests, hsrcs, hbytes, hvolatile⟩

theorem edit_congr {base : String} (h : m₁.SameGround m₂) {r₁ r₂ : Replacement}
    (h₁ : (replace base m₁ call).result = .ok r₁) (h₂ : (replace base m₂ call).result = .ok r₂) :
    r₁.edit = r₂.edit := by
  obtain ⟨req₁, hreq₁, hr₁⟩ := replace_eq_ok.1 h₁
  obtain ⟨req₂, hreq₂, hr₂⟩ := replace_eq_ok.1 h₂
  have hbytes := bytes_congr hreq₁ hreq₂
  rcases hr₁ with ⟨hempty₁, rfl⟩ | ⟨hne₁, shape₁, c₁, first₁, hshape₁, hc₁, hfirst₁, rfl⟩
  · rcases hr₂ with ⟨-, rfl⟩ | ⟨hne₂, -⟩
    · obtain ⟨hdest₁, hsrc₁⟩ := ofCall_eq_ok hreq₁
      obtain ⟨hdest₂, hsrc₂⟩ := ofCall_eq_ok hreq₂
      rw [Replacement.edit, Replacement.edit, cast_eq_of_pointerArg hdest₁ hdest₂,
        cast_eq_of_pointerArg hsrc₁ hsrc₂]
    · exact absurd (hbytes.symm.trans hempty₁) hne₂
  · rcases hr₂ with ⟨hempty₂, -⟩ | ⟨-, shape₂, c₂, first₂, hshape₂, hc₂, hfirst₂, rfl⟩
    · exact absurd (hbytes.trans hempty₂) hne₁
    · obtain rfl := ofCall_congr h hreq₁ hreq₂ hshape₁
      rw [h.layout, hshape₂] at hshape₁
      obtain rfl := Except.ok.inj hshape₁
      rw [h.layout, hc₂] at hc₁
      obtain rfl := Except.ok.inj hc₁
      obtain rfl := Option.some.inj (hfirst₁.symm.trans hfirst₂)
      rfl

end BlockCopy

/-- **Two modules with the same ground put the same in the place of a call**, if both accept it. -/
theorem Settings.replace_congr {s : Settings} {l : Lowering} (hl : l ∈ s.lowerings)
    {m₁ m₂ : Module} (h : m₁.SameGround m₂) {call : Call} {r₁ r₂ : Replacement}
    (h₁ : (l.replace m₁ call).result = .ok r₁) (h₂ : (l.replace m₂ call).result = .ok r₂) :
    r₁.edit = r₂.edit := by
  simp only [lowerings, List.mem_cons, List.not_mem_nil, or_false] at hl
  rcases hl with rfl | rfl | rfl | rfl
  · obtain rfl : {} = r₁ := Except.ok.inj h₁
    obtain rfl : {} = r₂ := Except.ok.inj h₂
    rfl
  · obtain ⟨s₁, base₁, hs₁, hbase₁, rfl⟩ := FunnelShift.replace_eq_ok.1 h₁
    obtain ⟨s₂, base₂, hs₂, hbase₂, rfl⟩ := FunnelShift.replace_eq_ok.1 h₂
    obtain rfl := FunnelShift.ofCall_congr hs₁ hs₂
    obtain rfl := Option.some.inj (hbase₁.symm.trans hbase₂)
    rfl
  · obtain ⟨f₁, base₁, hf₁, hbase₁, rfl⟩ := ZeroFill.replace_eq_ok.1 h₁
    obtain ⟨f₂, base₂, hf₂, hbase₂, rfl⟩ := ZeroFill.replace_eq_ok.1 h₂
    obtain rfl := ZeroFill.ofCall_congr h hf₁ hf₂
    obtain rfl := Option.some.inj (hbase₁.symm.trans hbase₂)
    rfl
  · exact BlockCopy.edit_congr h h₁ h₂

/-! ### The part of a run that concerns one function -/

namespace CastQueue

/-- The queued casts of one function. -/
def ofFunction (k : Nat) (q : CastQueue) : CastQueue := q.filter (·.1 == k)

theorem ofFunction_insert_of_ne {a : Nat × TempId} {k : Nat} (h : a.1 ≠ k) (q : CastQueue) :
    ofFunction k (insert a q) = ofFunction k q := by
  unfold ofFunction
  induction q with
  | nil => simp [insert, h]
  | cons b q ih =>
    unfold insert
    split
    · rfl
    · split
      · simp [h]
      · rw [List.filter_cons, List.filter_cons, ih]

/-- What comes before all of a queue goes to its front. -/
theorem insert_of_before {a : Nat × TempId} {q : CastQueue} (h : ∀ b ∈ q, before a b = true) :
    insert a q = a :: q := by
  cases q with
  | nil => rfl
  | cons b q =>
    have hb := h b List.mem_cons_self
    have hne : a ≠ b := by
      rintro rfl
      rw [before_iff, UInt32.lt_iff_toNat_lt] at hb
      omega
    rw [insert, if_neg hne, if_pos hb]

theorem ofFunction_insert {k : Nat} {t : TempId} {q : CastQueue} (h : q.Sorted) :
    ofFunction k (insert (k, t) q) = insert (k, t) (ofFunction k q) := by
  unfold ofFunction
  induction q with
  | nil => simp [insert]
  | cons b q ih =>
    obtain ⟨hb, hq⟩ := List.pairwise_cons.1 h
    by_cases heq : (k, t) = b
    · subst heq
      simp [insert]
    · by_cases hbefore : before (k, t) b = true
      · have hfront : ∀ c ∈ (b :: q).filter (·.1 == k), before (k, t) c = true := by
          intro c hc
          rcases List.mem_cons.1 (List.mem_filter.1 hc).1 with rfl | hc
          · exact hbefore
          · exact before_trans hbefore (hb c hc)
        rw [insert_of_before hfront, insert, if_neg heq, if_pos hbefore]
        simp
      · rw [insert, if_neg heq, if_neg hbefore, List.filter_cons, List.filter_cons, ih hq]
        split
        · rw [insert, if_neg heq, if_neg hbefore]
        · rfl

theorem ofFunction_insertAll {k : Nat} {casts : List TempId} {q : CastQueue} (h : q.Sorted) :
    ofFunction k (q.insertAll k casts) = insertAll (ofFunction k q) k casts := by
  unfold insertAll
  induction casts generalizing q with
  | nil => rfl
  | cons t casts ih =>
    rw [List.foldl_cons, List.foldl_cons, ih (h.insert (k, t)), ofFunction_insert h]

theorem ofFunction_insertAll_of_ne {n k : Nat} (hn : n ≠ k) (casts : List TempId) (q : CastQueue) :
    ofFunction k (q.insertAll n casts) = ofFunction k q := by
  unfold insertAll
  induction casts generalizing q with
  | nil => rfl
  | cons t casts ih => rw [List.foldl_cons, ih, ofFunction_insert_of_ne hn]

end CastQueue

namespace Function

/-- The sites of the direct calls to a name in a function at position `k`. -/
def callSites (f : Function) (k : Nat) (name : String) : List Site :=
  f.blocks.zipIdx.flatMap fun (b, j) =>
    b.instructions.zipIdx.filterMap fun (inst, n) =>
      if inst.callee? = some name then some ⟨k, j, n⟩ else none

theorem function_of_mem_callSites {f : Function} {k : Nat} {name : String} {s : Site}
    (h : s ∈ f.callSites k name) : s.function = k := by
  obtain ⟨⟨b, j⟩, -, h⟩ := List.mem_flatMap.1 h
  obtain ⟨⟨i, n⟩, -, h⟩ := List.mem_filterMap.1 h
  obtain ⟨-, rfl⟩ : _ ∧ Site.mk k j n = s := by simpa using h
  rfl

/-- Drops a cast of the function unless something reads it. -/
def dropCast (f : Function) (t : TempId) : Function := if f.hasUsers t then f else f.eraseDef t

@[simp] theorem skeleton_dropCast (f : Function) (t : TempId) :
    (f.dropCast t).skeleton = f.skeleton := by
  unfold dropCast
  split
  · rfl
  · exact skeleton_eraseDef f t

/-- The function without those of the queued casts that nothing reads. -/
def dropCasts (f : Function) (q : CastQueue) : Function := q.foldl (fun f e => f.dropCast e.2) f

theorem dropCasts_cons (f : Function) (e : Nat × TempId) (q : CastQueue) :
    f.dropCasts (e :: q) = (f.dropCast e.2).dropCasts q :=
  rfl

theorem skeleton_dropCasts (f : Function) (q : CastQueue) :
    (f.dropCasts q).skeleton = f.skeleton := by
  unfold dropCasts
  induction q generalizing f with
  | nil => rfl
  | cons e q ih => rw [List.foldl_cons, ih, skeleton_dropCast]

end Function

/-- The sites of a module that lie in one function. -/
theorem Module.filter_callSites {m : Module} {k : Nat} {f : Function}
    (hf : m.functions[k]? = some f) (name : String) :
    (m.callSites name).filter (·.function == k) = f.callSites k name := by
  obtain ⟨pre, post, hsplit, hlen⟩ := exists_append_of_getElem? hf
  have hsites : m.callSites name =
      m.functions.zipIdx.flatMap fun p => p.1.callSites p.2 name := rfl
  have hothers : ∀ ps : List (Function × Nat), (∀ p ∈ ps, p.2 ≠ k) →
      (ps.flatMap fun p => p.1.callSites p.2 name).filter (·.function == k) = [] := by
    intro ps hps
    refine List.filter_eq_nil_iff.2 fun s hs => ?_
    obtain ⟨p, hp, hs⟩ := List.mem_flatMap.1 hs
    simpa [Function.function_of_mem_callSites hs] using hps p hp
  have hself : (f.callSites k name).filter (·.function == k) = f.callSites k name :=
    List.filter_eq_self.2 fun s hs => by simpa using Function.function_of_mem_callSites hs
  rw [hsites, hsplit, List.zipIdx_append, List.zipIdx_cons, List.flatMap_append,
    List.flatMap_cons, List.filter_append, List.filter_append, Nat.zero_add, hlen, hself,
    hothers _ fun p hp => ?_, hothers _ fun p hp => ?_, List.nil_append, List.append_nil]
  · have hlt := (List.mem_zipIdx hp).1
    omega
  · have hlt := (List.mem_zipIdx hp).2.1
    omega

namespace Lowering

/-- `f'` is what the replacements at the sites make of `f`, in modules with the ground of `o`; the
casts that fed them go from `q` to `q'`. -/
def Works (l : Lowering) (o : Module) :
    List Site → Function → CastQueue → Function → CastQueue → Prop
  | [], f, q, f', q' => f' = f ∧ q' = q
  | s :: sites, f, q, f', q' => ∃ m call r, m.SameGround o ∧ m.functionAt? s = some f ∧
      m.callAt s = .ok call ∧ (l.replace m call).result = .ok r ∧
      l.Works o sites ((f.rename r.renamed).splice s.block s.index r.code)
        (q.insertAll s.function r.casts) f' q'

/-- `f'` is what becomes of `f` at position `k` when the calls to a name are lowered. -/
def Reworks (l : Lowering) (o : Module) (name : String) (k : Nat) (f f' : Function) : Prop :=
  ∃ f₁ q, l.Works o (f.callSites k name).reverse f [] f₁ q ∧ f' = f₁.dropCasts q

variable {s : Settings} {l : Lowering} {o : Module}

theorem Works.skeleton_eq : ∀ {sites : List Site} {f f' : Function} {q q' : CastQueue},
    l.Works o sites f q f' q' → f'.skeleton = f.skeleton
  | [], f, f', q, q', h => by rw [h.1]
  | s :: sites, f, f', q, q', h => by
    obtain ⟨m, call, r, -, -, -, -, h⟩ := h
    rw [Works.skeleton_eq h, Function.skeleton_splice, Function.skeleton_rename]

theorem Reworks.skeleton_eq {name : String} {k : Nat} {f f' : Function}
    (h : l.Reworks o name k f f') : f'.skeleton = f.skeleton := by
  obtain ⟨f₁, q, hworks, rfl⟩ := h
  rw [Function.skeleton_dropCasts, hworks.skeleton_eq]

/-- The call at a site is read from its function alone. -/
theorem callAt_congr {m m' : Module} {site : Site}
    (h : m.functionAt? site = m'.functionAt? site) : m.callAt site = m'.callAt site := by
  simp only [Module.callAt, Module.instructionAt?, h]

/-- **The outcome is determined by the function and the ground.** -/
theorem Works.unique (hl : l ∈ s.lowerings) :
    ∀ {sites : List Site} {f f₁ f₂ : Function} {q q₁ q₂ : CastQueue},
      l.Works o sites f q f₁ q₁ → l.Works o sites f q f₂ q₂ → f₁ = f₂ ∧ q₁ = q₂
  | [], f, f₁, f₂, q, q₁, q₂, h₁, h₂ => by
    obtain ⟨rfl, rfl⟩ := h₁
    obtain ⟨rfl, rfl⟩ := h₂
    exact ⟨rfl, rfl⟩
  | site :: sites, f, f₁, f₂, q, q₁, q₂, h₁, h₂ => by
    obtain ⟨m₁, call₁, r₁, hm₁, hf₁, hcall₁, hr₁, h₁⟩ := h₁
    obtain ⟨m₂, call₂, r₂, hm₂, hf₂, hcall₂, hr₂, h₂⟩ := h₂
    rw [callAt_congr (hf₁.trans hf₂.symm), hcall₂] at hcall₁
    obtain rfl := Except.ok.inj hcall₁
    have hedit := Settings.replace_congr hl (hm₁.trans hm₂.symm) hr₁ hr₂
    simp only [Replacement.edit, Prod.mk.injEq] at hedit
    obtain ⟨hcode, hrenamed, hcasts⟩ := hedit
    rw [hcode, hrenamed, hcasts] at h₁
    exact Works.unique hl h₁ h₂

theorem Reworks.unique (hl : l ∈ s.lowerings) {name : String} {k : Nat} {f f₁ f₂ : Function}
    (h₁ : l.Reworks o name k f f₁) (h₂ : l.Reworks o name k f f₂) : f₁ = f₂ := by
  obtain ⟨g₁, q₁, hworks₁, rfl⟩ := h₁
  obtain ⟨g₂, q₂, hworks₂, rfl⟩ := h₂
  obtain ⟨rfl, rfl⟩ := hworks₁.unique hl hworks₂
  rfl

end Lowering

/-! ### A function in its place -/

namespace Module

/-- The function stands in the module right after functions of the given names. -/
structure Places (m : Module) (ns : List String) (f : Function) : Prop where
  function : m.functions[ns.length]? = some f
  names : (m.functions.map (·.name)).take ns.length = ns

/-- The names of the functions of all families, in order. -/
def familyNames (m : Module) : List String :=
  (m.functions.map (·.name)).filter (Family.of? · |>.isSome)

theorem namesIn_eq (m : Module) (k : Family) :
    m.namesIn (some k) = m.familyNames.filter (Family.of? · == some k) := by
  rw [namesIn, familyNames, List.filter_filter, List.filter_map]
  refine congrArg _ (List.filter_congr fun f _ => ?_)
  cases h : Family.of? f.name <;> simp [h]

variable {s : Settings} {l : Lowering} {m m' : Module} {ns : List String} {f : Function}

theorem places_iff : m.Places ns f ↔
    ∃ pre post, m.functions = pre ++ f :: post ∧ pre.map (·.name) = ns := by
  constructor
  · rintro ⟨hf, hnames⟩
    obtain ⟨pre, post, hsplit, hlen⟩ := exists_append_of_getElem? hf
    refine ⟨pre, post, hsplit, ?_⟩
    rw [← hnames, hsplit, List.map_append, List.take_append_of_le_length (by simp [hlen]),
      List.take_of_length_le (by simp [hlen])]
  · rintro ⟨pre, post, hsplit, rfl⟩
    refine ⟨?_, ?_⟩
    · rw [hsplit, List.length_map, List.getElem?_append_right (Nat.le_refl _)]
      simp
    · rw [hsplit, List.map_append, List.take_append_of_le_length (Nat.le_refl _),
        List.take_length]

/-- Functions are changed elsewhere, and added after all others. -/
theorem Places.of_functions {f' : Function} (h : m.Places ns f)
    (hf : m'.functions[ns.length]? = some f') {added : List String}
    (hnames : m'.functions.map (·.name) = m.functions.map (·.name) ++ added) : m'.Places ns f' where
  function := hf
  names := by
    have hlt := (List.getElem?_eq_some_iff.1 h.function).1
    rw [hnames, List.take_append_of_le_length (by rw [List.length_map]; omega)]
    exact h.names

/-- A visit in another function. -/
theorem Places.after_of_ne {v : Visit} (hv : v.Of l) (hne : v.call.site.function ≠ ns.length)
    (h : v.module.Places ns f) : v.after.Places ns f :=
  h.of_functions (hv.function_after_of_ne hne h.function) hv.names_after

/-- A visit in the function itself. -/
theorem Places.after {v : Visit} (hv : v.Of l) (heq : v.call.site.function = ns.length)
    (h : v.module.Places ns f) : v.after.Places ns v.rewritten :=
  h.of_functions (heq ▸ hv.function_after) hv.names_after

theorem functions_dropCast_eq_modify (m : Module) (e : Nat × TempId) :
    (m.dropCast e).functions = m.functions.modify e.1 (·.dropCast e.2) := by
  unfold Module.dropCast
  rw [List.modify_eq_set_getElem?]
  cases hf : m.functions[e.1]? with
  | none => rfl
  | some f =>
    by_cases hu : f.hasUsers e.2
    · have hself : m.functions.set e.1 f = m.functions := by
        obtain ⟨hlt, rfl⟩ := List.getElem?_eq_some_iff.1 hf
        exact List.set_getElem_self hlt
      simp [hu, Function.dropCast, hself]
    · simp [hu, Function.dropCast, modifyFunction, List.modify_eq_set_getElem?, hf]

/-- Each function loses the casts that are queued for it and not read. -/
theorem functions_dropCasts (m : Module) (q : CastQueue) (k : Nat) :
    (m.dropCasts q).module.functions[k]? =
      m.functions[k]?.map (·.dropCasts (CastQueue.ofFunction k q)) := by
  rw [module_dropCasts]
  unfold CastQueue.ofFunction
  induction q generalizing m with
  | nil => simp [Function.dropCasts]
  | cons e q ih =>
    rw [List.foldl_cons, ih, functions_dropCast_eq_modify, List.getElem?_modify]
    by_cases heq : e.1 = k
    · rw [List.filter_cons_of_pos (by simpa using heq)]
      cases m.functions[k]? <;> simp [heq, Function.dropCasts_cons]
    · rw [List.filter_cons_of_neg (by simpa using heq)]
      simp [heq]

theorem frame_dropCasts (m : Module) (q : CastQueue) :
    (m.dropCasts q).module.functions.map (·.name) = m.functions.map (·.name) ∧
      (m.dropCasts q).module.SameGround m := by
  rw [module_dropCasts]
  induction q generalizing m with
  | nil => exact ⟨rfl, .refl m⟩
  | cons e q ih =>
    obtain ⟨hnames, hground⟩ := ih (m.dropCast e)
    exact ⟨hnames.trans (names_dropCast m e), hground.trans (sameGround_dropCast m e)⟩

theorem Places.dropCasts (h : m.Places ns f) (q : CastQueue) :
    (m.dropCasts q).module.Places ns (f.dropCasts (CastQueue.ofFunction ns.length q)) := by
  refine h.of_functions ?_ ((frame_dropCasts m q).1.trans (List.append_nil _).symm)
  rw [functions_dropCasts, h.function, Option.map_some]

theorem Places.eraseFunction {name : String} (h : m.Places ns f) (hf : f.name ≠ name) :
    (m.eraseFunction name).Places (ns.erase name) f := by
  obtain ⟨pre, post, hsplit, rfl⟩ := places_iff.1 h
  have hname : ¬ (f.name == name) = true := by simpa using hf
  rw [places_iff, Module.eraseFunction, hsplit, List.erase_eq_eraseP', List.eraseP_map,
    List.eraseP_append]
  split
  · exact ⟨_, post, rfl, rfl⟩
  · next hany =>
    have hnone : ∀ g ∈ pre, ¬ (g.name == name) = true := by simpa using hany
    refine ⟨pre, post.eraseP (·.name == name), ?_, ?_⟩
    · rw [List.eraseP_cons_of_neg (p := fun g : Function => g.name == name) hname]
    · exact congrArg _ (List.eraseP_of_forall_not hnone).symm

end Module

/-! ### One run, seen from one function -/

namespace Lowering

variable {s : Settings} {l : Lowering} {o : Module} {name : String} {ns : List String}

/-- Lowering the pending sites of a name does to a function what its own sites say. -/
theorem works_of_lowerSites (hn : Family.of? name = some l.family) :
    ∀ {sites : List Site} {m m' : Module} {q q' : CastQueue} {f : Function},
      Pending m name sites → (l.lowerSites m q sites).result = .ok (m', q') → q.Sorted →
      m.SameGround o → m.Places ns f → ∃ f', m'.Places ns f' ∧
        l.Works o (sites.filter (·.function == ns.length)) f (CastQueue.ofFunction ns.length q) f'
          (CastQueue.ofFunction ns.length q')
  | [], m, m', q, q', f, _, h, _, _, hf => by
    obtain ⟨rfl, rfl⟩ := Prod.mk.inj (Except.ok.inj h)
    exact ⟨f, hf, rfl, rfl⟩
  | site :: sites, m, m', q, q', f, hp, h, hq, hm, hf => by
    obtain ⟨call, r, hcall, hr, h⟩ := lowerSites_cons_eq_ok.1 h
    obtain ⟨hof, rfl, -⟩ := of_pending hn hp hcall hr
    have hground := (Module.sameGround_replaceCall m call.site r).trans hm
    by_cases heq : call.site.function = ns.length
    · have hcaller : call.caller = f := by
        have hfunction : m.functions[call.site.function]? = some call.caller := hof.function
        rw [heq, hf.function] at hfunction
        exact (Option.some.inj hfunction).symm
      obtain ⟨f', hf', hworks⟩ := works_of_lowerSites hn (hp.tail r) h (hq.insertAll _ _) hground
        (hf.after hof heq)
      refine ⟨f', hf', ?_⟩
      rw [List.filter_cons_of_pos (by simpa using heq)]
      refine ⟨m, call, r, hm, hcaller ▸ hof.function, hcall, hr, ?_⟩
      rw [heq, CastQueue.ofFunction_insertAll hq] at hworks
      rw [heq, ← hcaller]
      exact hworks
    · obtain ⟨f', hf', hworks⟩ := works_of_lowerSites hn (hp.tail r) h (hq.insertAll _ _) hground
        (hf.after_of_ne hof heq)
      refine ⟨f', hf', ?_⟩
      rw [List.filter_cons_of_neg (by simpa using heq)]
      rwa [CastQueue.ofFunction_insertAll_of_ne heq] at hworks

/-- The names of the families and the ground stay while sites are worked off. -/
theorem familyNames_of_lowerSites (hbase : Family.of? (s.copyBase ++ ".") = none)
    (hl : l ∈ s.lowerings) (hn : Family.of? name = some l.family) :
    ∀ {sites : List Site} {m m' : Module} {q q' : CastQueue}, Pending m name sites →
      (l.lowerSites m q sites).result = .ok (m', q') →
      m'.familyNames = m.familyNames ∧ m'.SameGround m
  | [], m, m', q, q', _, h => by
    obtain ⟨rfl, rfl⟩ := Prod.mk.inj (Except.ok.inj h)
    exact ⟨rfl, .refl m⟩
  | site :: sites, m, m', q, q', hp, h => by
    obtain ⟨call, r, hcall, hr, h⟩ := lowerSites_cons_eq_ok.1 h
    obtain ⟨hof, rfl, -⟩ := of_pending hn hp hcall hr
    obtain ⟨hnames, hground⟩ := familyNames_of_lowerSites hbase hl hn (hp.tail r) h
    refine ⟨hnames.trans ?_, hground.trans (Module.sameGround_replaceCall m call.site r)⟩
    have hafter : (m.replaceCall call.site r).functions.map (·.name) =
        m.functions.map (·.name) ++ r.declared.toList.map (·.name) := hof.names_after
    have hnew : (r.declared.toList.map (·.name)).filter (Family.of? · |>.isSome) = [] := by
      refine List.filter_eq_nil_iff.2 fun n hmem => ?_
      obtain ⟨g, hg, rfl⟩ := List.mem_map.1 hmem
      simp [(s.clean_lowerings hbase l hl).name ⟨_, _, _, hr, Option.mem_toList.1 hg⟩]
    rw [Module.familyNames, hafter, List.filter_append, hnew, List.append_nil]
    rfl

theorem familyNames_eraseFunction {m : Module} {k : Family} (hk : Family.of? name = some k) :
    (m.eraseFunction name).familyNames = m.familyNames.erase name := by
  have hmap : (m.functions.eraseP (·.name == name)).map (·.name) =
      (m.functions.map (·.name)).eraseP (· == name) := by
    rw [List.eraseP_map]
    rfl
  rw [Module.familyNames, Module.familyNames, Module.eraseFunction, hmap, List.erase_eq_eraseP',
    List.eraseP_filter]
  congr 2
  funext n
  by_cases hn : n = name
  · simp [hn, hk]
  · simp [hn]

/-- What lowering all calls to a function does to another. -/
theorem reworks_of_lowerFunction (hbase : Family.of? (s.copyBase ++ ".") = none)
    (hl : l ∈ s.lowerings) (hn : Family.of? name = some l.family) {m m' : Module} {f : Function}
    (h : (l.lowerFunction m name).result = .ok m') (hm : m.SameGround o) (hf : m.Places ns f)
    (hnone : Family.of? f.name = none) :
    m'.SameGround o ∧ m'.familyNames = m.familyNames.erase name ∧
      ∃ f', m'.Places (ns.erase name) f' ∧ l.Reworks o name ns.length f f' := by
  obtain ⟨m₁, q, hsites, rfl⟩ := lowerFunction_eq_ok.1 h
  have hp := pending_callSites m name
  obtain ⟨f₁, hf₁, hworks⟩ := works_of_lowerSites hn hp hsites .nil hm hf
  obtain ⟨hnames₁, hground₁⟩ := familyNames_of_lowerSites hbase hl hn hp hsites
  obtain ⟨hnames₂, hground₂⟩ := Module.frame_dropCasts m₁ q
  rw [List.filter_reverse, Module.filter_callSites hf.function] at hworks
  have hreworks : l.Reworks o name ns.length f (f₁.dropCasts (CastQueue.ofFunction ns.length q)) :=
    ⟨f₁, _, hworks, rfl⟩
  have hground := (hground₂.trans hground₁).trans hm
  refine ⟨⟨hground.globals, hground.layout⟩, ?_, _, (hf₁.dropCasts q).eraseFunction ?_, hreworks⟩
  · rw [familyNames_eraseFunction hn, Module.familyNames, hnames₂, ← hnames₁]
    rfl
  · rw [Function.name_of_skeleton_eq hreworks.skeleton_eq]
    rintro rfl
    exact nomatch hnone.symm.trans hn

end Lowering

/-! ### Two runs side by side -/

/-- The same function stands in both modules after functions of the same names, and the modules have
the same ground and the same functions of the families. -/
structure Module.Twins (m₁ m₂ : Module) (ns : List String) (f : Function) : Prop where
  ground : m₁.SameGround m₂
  familyNames : m₁.familyNames = m₂.familyNames
  left : m₁.Places ns f
  right : m₂.Places ns f
  outside : Family.of? f.name = none

/-- The names of no family. -/
def outsideNames (ns : List String) : List String := ns.filter (Family.of? · |>.isNone)

theorem outsideNames_erase {name : String} {k : Family} (hk : Family.of? name = some k)
    (ns : List String) : outsideNames (ns.erase name) = outsideNames ns := by
  rw [List.erase_eq_eraseP']
  refine filter_eraseP (fun n hn => ?_) ns
  rw [beq_iff_eq.1 hn, hk]
  rfl

namespace Module.Twins

variable {s : Settings} {l : Lowering} {m₁ m₂ m₁' m₂' : Module} {ns : List String} {f : Function}

/-- What is left of twins after a run of each: they are twins still, around what became of the
function. -/
def Survive (m₁ m₂ : Module) (ns : List String) (f : Function) : Prop :=
  ∃ ns' f', Twins m₁ m₂ ns' f' ∧ f'.skeleton = f.skeleton ∧ outsideNames ns' = outsideNames ns

/-- Survival in two stretches of a run. -/
theorem Survive.and_then (h : Survive m₁ m₂ ns f)
    (hrest : ∀ {ns' f'}, Twins m₁ m₂ ns' f' → Survive m₁' m₂' ns' f') : Survive m₁' m₂' ns f := by
  obtain ⟨ns₁, f₁, htwins, hskeleton₁, hnames₁⟩ := h
  obtain ⟨ns₂, f₂, htwins₂, hskeleton₂, hnames₂⟩ := hrest htwins
  exact ⟨ns₂, f₂, htwins₂, hskeleton₂.trans hskeleton₁, hnames₂.trans hnames₁⟩

theorem lowerFunction (hbase : Family.of? (s.copyBase ++ ".") = none) (hl : l ∈ s.lowerings)
    {name : String} (hn : Family.of? name = some l.family) (h : Twins m₁ m₂ ns f)
    (h₁ : (l.lowerFunction m₁ name).result = .ok m₁')
    (h₂ : (l.lowerFunction m₂ name).result = .ok m₂') : Survive m₁' m₂' ns f := by
  obtain ⟨hground₁, hnames₁, f₁, hf₁, hworks₁⟩ :=
    Lowering.reworks_of_lowerFunction hbase hl hn h₁ h.ground h.left h.outside
  obtain ⟨hground₂, hnames₂, f₂, hf₂, hworks₂⟩ :=
    Lowering.reworks_of_lowerFunction hbase hl hn h₂ (.refl m₂) h.right h.outside
  obtain rfl := hworks₁.unique hl hworks₂
  have hskeleton := hworks₁.skeleton_eq
  refine ⟨ns.erase name, f₁, ⟨hground₁.trans hground₂.symm, ?_, hf₁, hf₂, ?_⟩, hskeleton,
    outsideNames_erase hn ns⟩
  · rw [hnames₁, hnames₂, h.familyNames]
  · rw [Function.name_of_skeleton_eq hskeleton]
    exact h.outside

theorem foldlM (hbase : Family.of? (s.copyBase ++ ".") = none) (hl : l ∈ s.lowerings) :
    ∀ {names : List String} {m₁ m₂ : Module} {ns : List String} {f : Function},
      (∀ n ∈ names, Family.of? n = some l.family) → Twins m₁ m₂ ns f →
      (names.foldlM l.lowerFunction m₁).result = .ok m₁' →
      (names.foldlM l.lowerFunction m₂).result = .ok m₂' → Survive m₁' m₂' ns f
  | [], m₁, m₂, ns, f, _, h, h₁, h₂ => by
    obtain rfl : m₁ = m₁' := Except.ok.inj h₁
    obtain rfl : m₂ = m₂' := Except.ok.inj h₂
    exact ⟨ns, f, h, rfl, rfl⟩
  | name :: names, m₁, m₂, ns, f, hn, h, h₁, h₂ => by
    rw [List.foldlM_cons, Traced.result_bind_eq_ok] at h₁ h₂
    obtain ⟨m₃, h₃, h₁⟩ := h₁
    obtain ⟨m₄, h₄, h₂⟩ := h₂
    refine (h.lowerFunction hbase hl (hn name List.mem_cons_self) h₃ h₄).and_then fun h => ?_
    exact foldlM hbase hl (fun n hmem => hn n (List.mem_cons_of_mem _ hmem)) h h₁ h₂

theorem run (hbase : Family.of? (s.copyBase ++ ".") = none) (hl : l ∈ s.lowerings) {c₁ c₂ : Bool}
    (h : Twins m₁ m₂ ns f) (h₁ : (l.run m₁).result = .ok (c₁, m₁'))
    (h₂ : (l.run m₂).result = .ok (c₂, m₂')) : Survive m₁' m₂' ns f := by
  have hnames : m₁.namesIn (some l.family) = m₂.namesIn (some l.family) := by
    rw [namesIn_eq, namesIn_eq, h.familyNames]
  have hfold₁ := (Lowering.run_eq_ok.1 h₁).1
  have hfold₂ := (Lowering.run_eq_ok.1 h₂).1
  rw [← hnames] at hfold₂
  exact h.foldlM hbase hl (fun n hn => (mem_namesIn.1 hn).1) hfold₁ hfold₂

theorem runLowerings (hbase : Family.of? (s.copyBase ++ ".") = none) :
    ∀ {ls : List Lowering} {m₁ m₂ : Module} {ns : List String} {f : Function} {c₁ c₂ : Bool},
      (∀ l ∈ ls, l ∈ s.lowerings) → Twins m₁ m₂ ns f →
      (m₁.runLowerings ls).result = .ok (c₁, m₁') →
      (m₂.runLowerings ls).result = .ok (c₂, m₂') → Survive m₁' m₂' ns f
  | [], m₁, m₂, ns, f, c₁, c₂, _, h, h₁, h₂ => by
    obtain ⟨-, rfl⟩ := runLowerings_nil_eq_ok.1 h₁
    obtain ⟨-, rfl⟩ := runLowerings_nil_eq_ok.1 h₂
    exact ⟨ns, f, h, rfl, rfl⟩
  | l :: ls, m₁, m₂, ns, f, c₁, c₂, hls, h, h₁, h₂ => by
    obtain ⟨c₃, m₃, c₁', h₃, h₁, -⟩ := runLowerings_cons_eq_ok.1 h₁
    obtain ⟨c₄, m₄, c₂', h₄, h₂, -⟩ := runLowerings_cons_eq_ok.1 h₂
    refine (h.run hbase (hls l List.mem_cons_self) h₃ h₄).and_then fun h => ?_
    exact runLowerings hbase (fun l' hl' => hls l' (List.mem_cons_of_mem _ hl')) h h₁ h₂

end Module.Twins

namespace Module

/-- **The lowering is local.**  If two modules have the same global variables, the same layout and
functions of the same names in the same order, and a function outside the families is the same in
both, then the checked or unchecked lowering, if it succeeds on both, makes the same of it, whatever
the bodies and types of the other functions are.  In both results it stands after the functions
outside the families that it stood after. -/
theorem body_of_lowerIntrinsics (s : Settings) (hbase : Family.of? (s.copyBase ++ ".") = none)
    (m₁ m₂ : Module) (hglobals : m₁.globals = m₂.globals) (hlayout : m₁.layout = m₂.layout)
    (hnames : m₁.functions.map (·.name) = m₂.functions.map (·.name)) (k : Nat) (f : Function)
    (hf₁ : m₁.functions[k]? = some f) (hf₂ : m₂.functions[k]? = some f)
    (hf : Family.of? f.name = none) (c₁ c₂ : Bool) (m₁' m₂' : Module)
    (h₁ : (m₁.lowerIntrinsics s).result = .ok (c₁, m₁'))
    (h₂ : (m₂.lowerIntrinsics s).result = .ok (c₂, m₂')) :
    ∃ j f', j = ((m₁.functions.take k).filter fun g => (Family.of? g.name).isNone).length ∧
      f'.skeleton = f.skeleton ∧ m₁'.functions[j]? = some f' ∧ m₂'.functions[j]? = some f' := by
  have hrun₁ := runLowerings_of_lowerIntrinsics h₁
  have hrun₂ := runLowerings_of_lowerIntrinsics h₂
  have hlen : ((m₁.functions.map (·.name)).take k).length = k := by
    have hlt := (List.getElem?_eq_some_iff.1 hf₁).1
    rw [List.length_take, List.length_map]
    omega
  have htwins : Twins m₁ m₂ ((m₁.functions.map (·.name)).take k) f := by
    refine ⟨⟨hglobals, hlayout⟩, ?_, ⟨by rw [hlen]; exact hf₁, by rw [hlen]⟩,
      ⟨by rw [hlen]; exact hf₂, by rw [hlen, ← hnames]⟩, hf⟩
    rw [familyNames, familyNames, hnames]
  obtain ⟨ns, f', htwins', hskeleton, hns⟩ :=
    htwins.runLowerings hbase (fun l hl => hl) hrun₁ hrun₂
  -- all names that are left are of no family
  have houtside : outsideNames ns = ns := by
    refine List.filter_eq_self.2 fun n hn => ?_
    have hmem : n ∈ m₁'.functions.map (·.name) := by
      rw [← htwins'.left.names] at hn
      exact List.mem_of_mem_take hn
    obtain ⟨g, hg, rfl⟩ := List.mem_map.1 hmem
    rw [(forall₂_of_runLowerings hbase hrun₁).1 g hg]
    rfl
  refine ⟨ns.length, f', ?_, hskeleton, htwins'.left.function, htwins'.right.function⟩
  rw [← houtside, hns, outsideNames, ← List.map_take, List.filter_map, List.length_map]
  rfl

/-- A kernel that copies a word and shifts it, next to a function with the given instructions. -/
def besides (instructions : List Instruction) : Module where
  name := "besides"
  functions := [.declare "llvm.memcpy" .void [.ptr (.int 8), .ptr (.int 8), .int 64, .int 1],
    { name := "kernel", returnType := .int 32
      params := [(0, .ptr (.int 32)), (1, .ptr (.int 32)), (2, .int 32)]
      blocks := [⟨0, [.cast 3 (.temp 0) (.ptr (.int 8)), .cast 4 (.temp 1) (.ptr (.int 8)),
        .call none (.function "llvm.memcpy") [.temp 3, .temp 4, .const 4, .const 0] .void (some 4),
        .call (some 5) (.function "llvm.fshl.i32") [.temp 2, .temp 2, .const 7] (.int 32) none,
        .ret (some (.temp 5))]⟩] },
    { name := "helper", returnType := .void
      params := [(0, .ptr (.array 2 (.int 32))), (1, .ptr (.array 2 (.int 32)))]
      blocks := [⟨0, instructions⟩] },
    .declare "llvm.fshl.i32" (.int 32) [.int 32, .int 32, .int 32]]

/-- The copy of the first word of a row. -/
def firstWord : List Instruction :=
  [.cast 2 (.temp 0) (.ptr (.int 8)), .cast 3 (.temp 1) (.ptr (.int 8)),
    .call none (.function "llvm.memcpy") [.temp 2, .temp 3, .const 4, .const 0] .void (some 4),
    .ret none]

/-- In one module the function that copies a word is declared for the helper, in the other for the
kernel. -/
theorem body_of_lowerIntrinsics_besides :
    ∃ m₁' m₂' f', ((besides firstWord).lowerIntrinsics {}).result = .ok (true, m₁') ∧
      ((besides [.ret none]).lowerIntrinsics {}).result = .ok (true, m₂') ∧
      f'.name = "kernel" ∧ m₁'.functions[0]? = some f' ∧ m₂'.functions[0]? = some f' := by
  obtain ⟨m₁', h₁⟩ : ∃ m', ((besides firstWord).lowerIntrinsics {}).result = .ok (true, m') :=
    exists_eq_ok_of_flag (by decide +kernel)
  obtain ⟨m₂', h₂⟩ : ∃ m', ((besides [.ret none]).lowerIntrinsics {}).result = .ok (true, m') :=
    exists_eq_ok_of_flag (by decide +kernel)
  obtain ⟨j, f', hj, hskeleton, hf₁, hf₂⟩ := body_of_lowerIntrinsics {} (by decide +kernel)
    (besides firstWord) (besides [.ret none]) rfl rfl rfl 1 _ rfl rfl (by decide +kernel) true true
    m₁' m₂' h₁ h₂
  have hzero : j = 0 := hj.trans (by decide +kernel)
  rw [hzero] at hf₁ hf₂
  exact ⟨m₁', m₂', f', h₁, h₂, Function.name_of_skeleton_eq hskeleton, hf₁, hf₂⟩

end Module

end KernelIR

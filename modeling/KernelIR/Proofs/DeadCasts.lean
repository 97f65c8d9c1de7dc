import KernelIR.Proofs.Draining

/-!
# Casts that are left behind

A cast that fed a fill or a copy is looked at when all calls to the function are lowered.  It may
be left behind, with nothing that reads it, if it is read by another cast that fed a call.  But the
code that replaces a call reads the pointer behind the cast itself.  So this happens only below
casts that fed nothing but calls of no bytes, which leave no code
(`Lowering.Stage.exists_of_isStray`).
-/

namespace KernelIR

/-! ### What the code of a call reads -/

/-- The temporary is a cast, and the code that replaces the call reads what it is a cast of, unless
the call is of no bytes. -/
def Call.ReadsBehind (call : Call) (r : Replacement) (u : TempId) : Prop :=
  ∃ source ty, call.caller.findDef? u = some (.cast u source ty) ∧
    (call.constArg 2 = .ok 0 ∨ ∃ i ∈ r.code, source ∈ i.operands)

section

variable {m : Module} {call : Call} {r : Replacement} {u : TempId}

theorem ZeroFill.readsBehind (h : (replace m call).result = .ok r) (hu : u ∈ r.casts) :
    call.ReadsBehind r u := by
  obtain ⟨f, base, hf, -, rfl⟩ := replace_eq_ok.1 h
  obtain ⟨hdest, bytes, alloc, hbytes, -, -, hmod, hcount, -⟩ := ofCall_eq_ok hf
  obtain ⟨-, dest, -, ⟨hnone, -⟩ | ⟨p, hp, hsome, hptr⟩⟩ := destination_eq_ok hdest
  · cases hnone.symm.trans (Option.mem_toList.1 hu)
  · obtain rfl : p.cast = u := Option.some.inj (hsome.symm.trans (Option.mem_toList.1 hu))
    obtain ⟨-, -, ty, -, hdef⟩ := Module.reinterpretation?_eq_some hp
    refine ⟨p.source, ty, hdef, ?_⟩
    by_cases hzero : f.count = 0
    · left
      rw [hbytes, Nat.eq_zero_of_dvd_of_div_eq_zero (Nat.dvd_of_mod_eq_zero hmod)
        (hcount.symm.trans hzero)]
    · -- the address of the first element
      have hfirst : ∃ i ∈ code f base, f.ptr ∈ i.operands :=
        ⟨_, List.mem_flatMap.2 ⟨0, List.mem_range.2 (Nat.pos_of_ne_zero hzero), List.mem_cons_self⟩,
          List.mem_cons_self⟩
      exact .inr (hptr ▸ hfirst)

namespace BlockCopy

/-- The code of a copy of some bytes reads both pointers. -/
theorem exists_reader {base : String} {c : Copy} (h : c.count ≠ 0) (first : Nat) {v : Value}
    (hv : v = c.request.dest.source ∨ v = c.request.src.source) :
    ∃ i ∈ code base c first, v ∈ i.operands := by
  unfold code
  split
  · refine ⟨_, List.mem_singleton_self _, ?_⟩
    rcases hv with rfl | rfl <;> simp [copyCall, Instruction.operands]
  · have hzero : ∀ i ∈ copyElement base c first 0,
        i ∈ (List.range c.count).flatMap (copyElement base c first) :=
      fun i hi => List.mem_flatMap.2 ⟨0, List.mem_range.2 (Nat.pos_of_ne_zero h), hi⟩
    rcases hv with rfl | rfl
    · exact ⟨_, hzero _ (List.mem_cons_of_mem _ List.mem_cons_self), List.mem_cons_self⟩
    · exact ⟨_, hzero _ List.mem_cons_self, List.mem_cons_self⟩

theorem exists_cast_of_pointerArg {n : Nat} {p : Reinterpretation}
    (h : pointerArg m call n = .ok p) :
    ∃ ty, call.caller.findDef? p.cast = some (.cast p.cast p.source ty) := by
  obtain ⟨v, -, hp⟩ := pointerArg_eq_ok.1 h
  obtain ⟨-, -, ty, -, hdef⟩ := Module.reinterpretation?_eq_some hp
  exact ⟨ty, hdef⟩

theorem readsBehind {base : String} (h : (replace base m call).result = .ok r)
    (hu : u ∈ r.casts) : call.ReadsBehind r u := by
  obtain ⟨req, hreq, hr⟩ := replace_eq_ok.1 h
  have hsides : ∃ p, u = p.cast ∧ (p = req.dest ∨ p = req.src) ∧
      ∃ ty, call.caller.findDef? p.cast = some (.cast p.cast p.source ty) := by
    have hcasts : r.casts = [req.dest.cast, req.src.cast] := by
      obtain ⟨-, rfl⟩ | ⟨-, shape, c, first, -, -, -, rfl⟩ := hr <;> rfl
    obtain ⟨hdest, hsrc⟩ := ofCall_eq_ok hreq
    rw [hcasts] at hu
    rcases List.mem_cons.1 hu with hu | hu
    · exact ⟨req.dest, hu, .inl rfl, exists_cast_of_pointerArg hdest⟩
    · exact ⟨req.src, List.mem_singleton.1 hu, .inr rfl, exists_cast_of_pointerArg hsrc⟩
  obtain ⟨p, rfl, hp, ty, hdef⟩ := hsides
  refine ⟨p.source, ty, hdef, ?_⟩
  rcases hr with ⟨hempty, -⟩ | ⟨hne, shape, c, first, -, hc, -, rfl⟩
  · left
    rw [(constants_of_ofCall hreq).1, hempty]
  · obtain ⟨rfl, -, bits, -, -, hmod, hcount, -⟩ := divide_eq_ok hc
    have hcount' : c.count ≠ 0 := fun hzero => hne (Nat.eq_zero_of_dvd_of_div_eq_zero
      (Nat.dvd_of_mod_eq_zero hmod) (hcount.symm.trans hzero))
    refine .inr (exists_reader hcount' first ?_)
    rcases hp with rfl | rfl
    · exact .inl rfl
    · exact .inr rfl

end BlockCopy

/-- **The code reads the pointers behind the casts** that fed a call, unless the call is of no
bytes. -/
theorem Settings.readsBehind {s : Settings} {l : Lowering} (hl : l ∈ s.lowerings)
    (h : (l.replace m call).result = .ok r) (hu : u ∈ r.casts) : call.ReadsBehind r u := by
  simp only [lowerings, List.mem_cons, List.not_mem_nil, or_false] at hl
  rcases hl with rfl | rfl | rfl | rfl
  · obtain rfl : {} = r := Except.ok.inj h
    cases hu
  · obtain ⟨s, base, -, -, rfl⟩ := FunnelShift.replace_eq_ok.1 h
    cases hu
  · exact ZeroFill.readsBehind h hu
  · exact BlockCopy.readsBehind h hu

end

/-! ### Sites, readers and casts along the way -/

namespace Visit

variable {s : Settings} {l : Lowering} {v : Visit}

theorem Of.renamed_eq_none (h : v.Of l) (hl : l ∈ s.lowerings) (hk : l.family ≠ .funnelShift) :
    v.replacement.renamed = none := by
  cases hr : v.replacement.renamed with
  | none => rfl
  | some p => exact absurd (Settings.renamed_eq_some hl h.replace hr).1 hk

theorem Of.nodup_after (h : v.Of l) (hl : l ∈ s.lowerings)
    (hm : ∀ f ∈ v.module.functions, f.tempIds.Nodup) :
    ∀ f ∈ v.after.functions, f.tempIds.Nodup := by
  intro f hf
  rcases h.mem_functions_after hf with hf | rfl | hf
  · exact hm f hf
  · obtain ⟨pre, post, hsplit, hsplit'⟩ := h.replacedBy.exists_instructions
    exact Function.nodup_replace (hm _ h.caller_mem)
      (fun t ht => Settings.not_mem_tempIds_of_code hl h.replace ht)
      (Settings.nodup_defined_code hl h.replace)
      (Function.params_of_skeleton_eq h.replacedBy.skeleton) hsplit hsplit'
  · obtain ⟨⟨element, rfl⟩, -⟩ := s.declared_eq_some hl h.replace hf
    exact (Module.wellFormed_primitive _ _).nodup

end Visit

namespace Function

/-- The instructions of a function that come after a position. -/
def instructionsAfter (f : Function) (n k : Nat) : List Instruction :=
  f.blocks[n]?.elim [] (·.instructions.drop (k + 1)) ++
    (f.blocks.drop (n + 1)).flatMap (·.instructions)

/-- Code in the place of an instruction, and what comes after it, is there and comes after all
positions before the instruction. -/
theorem mem_instructions_splice {f : Function} {b : Block} {x i : Instruction} {n k : Nat}
    {code : List Instruction} (hb : f.blocks[n]? = some b) (hx : b.instructions[k]? = some x)
    (hi : i ∈ code ∨ i ∈ f.instructionsAfter n k) :
    i ∈ (f.splice n k code).instructions ∧ ∀ n' k', n' < n ∨ n' = n ∧ k' < k →
      i ∈ (f.splice n k code).instructionsAfter n' k' := by
  obtain ⟨bs₁, bs₂, hbs, hn⟩ := exists_append_of_getElem? hb
  obtain ⟨pre, post, his, hk⟩ := exists_append_of_getElem? hx
  have hsplice : (f.splice n k code).blocks = bs₁ ++ ⟨b.id, pre ++ (code ++ post)⟩ :: bs₂ := by
    rw [splice, hbs, modify_append_cons _ hn]
    simp [his, hk, drop_append_cons]
  have hrest : i ∈ (code ++ post) ++ bs₂.flatMap (·.instructions) := by
    rwa [instructionsAfter, hb, Option.elim_some, his, drop_append_cons hk, hbs,
      drop_append_cons hn, ← List.mem_append, ← List.append_assoc] at hi
  have hlate : i ∈ (pre ++ (code ++ post)) ++ bs₂.flatMap (·.instructions) := by
    rw [List.append_assoc]
    exact List.mem_append_right _ hrest
  refine ⟨?_, fun n' k' h => ?_⟩
  · rw [instructions, hsplice, List.flatMap_append, List.flatMap_cons]
    exact List.mem_append_right _ hlate
  · rw [instructionsAfter, hsplice]
    rcases h with h | ⟨rfl, h⟩
    · rw [List.drop_append_of_le_length (by omega), List.flatMap_append, List.flatMap_cons]
      exact List.mem_append_right _ (List.mem_append_right _ hlate)
    · rw [List.getElem?_append_right (by omega), hn, Nat.sub_self, drop_append_cons hn,
        List.getElem?_cons_zero, Option.elim_some, List.drop_append_of_le_length (by omega),
        List.append_assoc]
      exact List.mem_append_right _ hrest

end Function

namespace Module

variable {l : Lowering} {v : Visit} {sites : List Site} {e : Nat × TempId}

/-- Something that is no cast reads the temporary, after all the sites of its function. -/
def ReadAfter (m : Module) (sites : List Site) (e : Nat × TempId) : Prop :=
  ∃ f i, m.functions[e.1]? = some f ∧ i ∈ f.instructions ∧ i.usesTemp e.2 = true ∧
    (∀ t source ty, i ≠ .cast t source ty) ∧
    ∀ s ∈ sites, s.function = e.1 → i ∈ f.instructionsAfter s.block s.index

/-- What the code of a replacement reads is read after the sites that remain, and so is what was
read after the call. -/
theorem readAfter_rewritten {i : Instruction} (hv : v.Of l) (hr : v.replacement.renamed = none)
    (hsites : ∀ s ∈ sites, s.Before v.call.site) (he : v.call.site.function = e.1)
    (hi : i ∈ v.replacement.code ∨
      i ∈ v.call.caller.instructionsAfter v.call.site.block v.call.site.index)
    (hread : i.usesTemp e.2 = true) (hcast : ∀ t source ty, i ≠ .cast t source ty) :
    v.after.ReadAfter sites e := by
  obtain ⟨b, hb, hx⟩ := hv.instruction
  have hrewritten : v.rewritten = v.call.caller.splice v.call.site.block v.call.site.index
      v.replacement.code := by
    rw [Visit.rewritten, hr]
    rfl
  obtain ⟨hmem, hlater⟩ := Function.mem_instructions_splice hb hx hi
  rw [← hrewritten] at hmem hlater
  refine ⟨v.rewritten, i, he ▸ hv.function_after, hmem, hread, hcast, fun s hs hfunction => ?_⟩
  rcases hsites s hs with hbefore | ⟨-, hbefore⟩
  · omega
  · exact hlater _ _ hbefore

/-- A reader after all sites stays one when the call at the first of them is replaced. -/
theorem ReadAfter.after (hv : v.Of l) (hr : v.replacement.renamed = none)
    (hsites : ∀ s ∈ sites, s.Before v.call.site)
    (h : v.module.ReadAfter (v.call.site :: sites) e) : v.after.ReadAfter sites e := by
  obtain ⟨f, i, hf, hi, hread, hcast, hafter⟩ := h
  by_cases he : v.call.site.function = e.1
  · have hcaller : v.call.caller = f := by
      have hfunction : v.module.functions[v.call.site.function]? = some v.call.caller := hv.function
      rw [he, hf] at hfunction
      exact (Option.some.inj hfunction).symm
    refine readAfter_rewritten hv hr hsites he (.inr ?_) hread hcast
    rw [hcaller]
    exact hafter _ List.mem_cons_self he
  · exact ⟨f, i, hv.function_after_of_ne he hf, hi, hread, hcast,
      fun s hs => hafter s (List.mem_cons_of_mem _ hs)⟩

end Module

/-- The casts that fed a call stand in the module as they did, and what they are casts of is read
after the sites, unless the call was of no bytes. -/
def Visit.CastsStand (v : Visit) (m : Module) (sites : List Site) : Prop :=
  ∀ u ∈ v.replacement.casts, ∃ f source ty, m.functions[v.call.site.function]? = some f ∧
    f.findDef? u = some (.cast u source ty) ∧
    v.call.caller.findDef? u = some (.cast u source ty) ∧
    (v.call.constArg 2 = .ok 0 ∨
      ∀ t, source = .temp t → m.ReadAfter sites (v.call.site.function, t))

namespace Visit.CastsStand

variable {s : Settings} {l : Lowering} {v w : Visit} {sites : List Site}

theorem self (hv : v.Of l) (hl : l ∈ s.lowerings) (hr : v.replacement.renamed = none)
    (hsites : ∀ s ∈ sites, s.Before v.call.site) : v.CastsStand v.after sites := by
  intro u hu
  obtain ⟨source, ty, hdef, hread⟩ := Settings.readsBehind hl hv.replace hu
  obtain ⟨f, value, hf, hdef', hvalue⟩ := hv.exists_cast_after hl hv.function hdef
  rw [hvalue hr] at hdef'
  refine ⟨f, source, ty, hf, hdef', hdef, hread.imp_right ?_⟩
  rintro ⟨i, hi, hsource⟩ t rfl
  refine Module.readAfter_rewritten hv hr hsites rfl (.inl hi) (List.contains_iff_mem.2 hsource) ?_
  rintro u source ty rfl
  cases s.emitted_of_mem_code hl hv.replace hi

theorem after (hv : v.Of l) (hl : l ∈ s.lowerings) (hr : v.replacement.renamed = none)
    (hsites : ∀ s ∈ sites, s.Before v.call.site)
    (h : w.CastsStand v.module (v.call.site :: sites)) : w.CastsStand v.after sites := by
  intro u hu
  obtain ⟨f, source, ty, hf, hdef, hcaller, hread⟩ := h u hu
  obtain ⟨f', value, hf', hdef', hvalue⟩ := hv.exists_cast_after hl hf hdef
  rw [hvalue hr] at hdef'
  refine ⟨f', source, ty, hf', hdef', hcaller, hread.imp_right ?_⟩
  intro hread t ht
  exact (hread t ht).after hv hr hsites

end Visit.CastsStand

namespace Lowering

/-- How far the calls to a function are lowered: the module, the casts that are queued, the sites
that remain and the visits that were made. -/
structure Stage (m : Module) (q : CastQueue) (sites : List Site) (done : List Visit) : Prop where
  nodup : ∀ f ∈ m.functions, f.tempIds.Nodup
  sorted : q.Sorted
  queued : ∀ e, e ∈ q ↔ ∃ v ∈ done, v.call.site.function = e.1 ∧ e.2 ∈ v.replacement.casts
  casts : ∀ v ∈ done, v.CastsStand m sites

namespace Stage

variable {s : Settings} {l : Lowering} {v : Visit} {m m' : Module} {q q' : CastQueue}
  {sites : List Site} {done : List Visit} {name : String}

/-- One more call is lowered. -/
theorem after (hl : l ∈ s.lowerings) (hk : l.family ≠ .funnelShift) (hv : v.Of l)
    (hsites : ∀ s ∈ sites, s.Before v.call.site)
    (h : Stage v.module q (v.call.site :: sites) done) :
    Stage v.after (q.insertAll v.call.site.function v.replacement.casts) sites (done ++ [v]) where
  nodup := hv.nodup_after hl h.nodup
  sorted := h.sorted.insertAll _ _
  queued e := by
    rw [CastQueue.mem_insertAll, h.queued, eq_comm (a := e.1)]
    simp [or_and_right, exists_or]
  casts w hw := by
    have hr := hv.renamed_eq_none hl hk
    rcases List.mem_append.1 hw with hw | hw
    · exact (h.casts w hw).after hv hl hr hsites
    · obtain rfl := List.mem_singleton.1 hw
      exact .self hv hl hr hsites

/-- All calls that remain are lowered. -/
theorem lowerSites (hl : l ∈ s.lowerings) (hk : l.family ≠ .funnelShift)
    (hn : Family.of? name = some l.family) :
    ∀ {sites : List Site} {m : Module} {q : CastQueue} {done : List Visit}, Pending m name sites →
      (l.lowerSites m q sites).result = .ok (m', q') → Stage m q sites done →
      Stage m' q' [] (done ++ l.visitsAt name m q sites)
  | [], m, q, done, _, h, hstage => by
    obtain ⟨rfl, rfl⟩ := Prod.mk.inj (Except.ok.inj h)
    rwa [visitsAt_nil, List.append_nil]
  | site :: sites, m, q, done, hp, h, hstage => by
    obtain ⟨call, r, hcall, hr, h⟩ := lowerSites_cons_eq_ok.1 h
    obtain ⟨hof, rfl, -⟩ := of_pending hn hp hcall hr
    rw [visitsAt_cons hcall hr, List.append_cons]
    refine lowerSites hl hk hn (hp.tail r) h ?_
    exact hstage.after hl hk hof (List.pairwise_cons.1 hp.order).1

/-- What defines a cast that fed a call is that cast, as it was at the time. -/
theorem eq_cast (h : Stage m q sites done) {f : Function} {u : TempId} {i : Instruction}
    (hv : v ∈ done) (hu : u ∈ v.replacement.casts)
    (hf : m.functions[v.call.site.function]? = some f) (hi : i ∈ f.instructions)
    (hiu : i.result? = some u) :
    ∃ source ty, i = .cast u source ty ∧ v.call.caller.findDef? u = some (.cast u source ty) ∧
      (v.call.constArg 2 = .ok 0 ∨
        ∀ t, source = .temp t → m.ReadAfter sites (v.call.site.function, t)) := by
  obtain ⟨f', source, ty, hf', hdef, hcaller, hread⟩ := h.casts v hv u hu
  obtain rfl := Option.some.inj (hf.symm.trans hf')
  have hdef' := Function.findDef?_of_nodup (h.nodup f (List.mem_of_getElem? hf)) hi hiu
  exact ⟨source, ty, Option.some.inj (hdef'.symm.trans hdef), hcaller, hread⟩

/-- **A cast that is left behind was read by another**, after it in the queue, that fed only calls
of no bytes. -/
theorem exists_of_isStray (h : Stage m q [] done) {e : Nat × TempId} (he : e ∈ q)
    (hstray : (m.dropCasts q).module.isStray e = true) :
    ∃ u, e.2 < u ∧ (e.1, u) ∈ q ∧ ∀ v ∈ done, v.call.site.function = e.1 →
      u ∈ v.replacement.casts → v.call.constArg 2 = .ok 0 ∧
        ∃ ty, v.call.caller.findDef? u = some (.cast u (.temp e.2) ty) := by
  obtain ⟨hdefines, hall, i, hi, u, hlt, hiu, hdrop⟩ :=
    (Module.isStray_dropCasts_iff h.nodup h.sorted he).1 hstray
  obtain ⟨f, hf⟩ : ∃ f, m.functions[e.1]? = some f := by
    cases hf : m.functions[e.1]? with
    | none => simp [Module.defines_of_none hf] at hdefines
    | some f => exact ⟨f, rfl⟩
  have hqueued : ∀ {t : TempId}, m.drops q (e.1, t) = true → (e.1, t) ∈ q :=
    fun ht => ((Module.drops_iff_forall_readers h.nodup h.sorted).1 ht).1
  obtain ⟨hi, hread⟩ := (Module.mem_readers hf).1 hi
  refine ⟨u, hlt, hqueued hdrop, fun v hv hfunction hcast => ?_⟩
  obtain ⟨source, ty, rfl, hcaller, hlast⟩ := h.eq_cast hv hcast (hfunction ▸ hf) hi hiu
  obtain rfl : source = .temp e.2 := by
    simpa [Instruction.usesTemp, Instruction.operands, eq_comm] using hread
  refine ⟨hlast.resolve_right fun hlast => ?_, ty, hcaller⟩
  -- the code of the call would read the cast, and only casts are dropped
  obtain ⟨f', j, hf', hj, hread, hno, -⟩ := hlast e.2 rfl
  rw [hfunction] at hf'
  obtain rfl := Option.some.inj (hf.symm.trans hf')
  obtain ⟨t, hjt, hdrop⟩ := hall j ((Module.mem_readers hf).2 ⟨hj, hread⟩)
  obtain ⟨w, hw, hfunction, hcast⟩ := (h.queued _).1 (hqueued hdrop)
  obtain ⟨source, ty, heq, -⟩ := h.eq_cast hw hcast (hfunction ▸ hf) hj hjt
  exact hno _ _ _ heq

end Stage

end Lowering

/-! ### What draining leaves -/

namespace Module

/-- **Which casts are left behind.**  Draining a queue again removes nothing exactly if no cast of
the queue is left without a reader.  A cast goes if all that reads it went before it; it is left
without a reader if all that read it went, but some of it only after its turn.  Among the casts that
fed the fills or the copies of a function, such a one was read by a later cast that fed only calls
of no bytes. -/
theorem strays_of_dropCasts (m : Module) (hm : ∀ f ∈ m.functions, f.tempIds.Nodup) :
    (∀ q : CastQueue, q.Sorted →
      (((m.dropCasts q).module.dropCasts q).removed = 0 ↔
        ∀ e ∈ q, ¬ (m.dropCasts q).module.isStray e) ∧
      (∀ e, m.drops q e ↔ e ∈ q ∧ m.defines e ∧
        ∀ i ∈ m.readers e, ∃ u, u < e.2 ∧ i.result? = some u ∧ m.drops q (e.1, u)) ∧
      ∀ e ∈ q, (m.dropCasts q).module.isStray e ↔ m.defines e ∧
        (∀ i ∈ m.readers e, ∃ u, i.result? = some u ∧ m.drops q (e.1, u)) ∧
        ∃ i ∈ m.readers e, ∃ u, e.2 < u ∧ i.result? = some u ∧ m.drops q (e.1, u)) ∧
    ∀ (base name : String) (l : Lowering), l = .zeroFill ∨ l = .blockCopy base →
      Family.of? name = some l.family → ∀ m', (l.lowerFunction m name).result = .ok m' →
      ∃ m₁ q, (l.lowerSites m [] (m.callSites name).reverse).result = .ok (m₁, q) ∧
        m' = (m₁.dropCasts q).module.eraseFunction name ∧
        (∀ e, e ∈ q ↔ ∃ v ∈ l.visitsOf m name,
          v.call.site.function = e.1 ∧ e.2 ∈ v.replacement.casts) ∧
        ∀ e ∈ q, (m₁.dropCasts q).module.isStray e → ∃ u, e.2 < u ∧ (e.1, u) ∈ q ∧
          ∀ v ∈ l.visitsOf m name, v.call.site.function = e.1 → u ∈ v.replacement.casts →
            v.call.constArg 2 = .ok 0 ∧
              ∃ ty, v.call.caller.findDef? u = some (.cast u (.temp e.2) ty) := by
  refine ⟨fun q hq => ⟨removed_dropCasts_eq_zero_iff _ q, fun e => drops_iff_forall_readers hm hq,
    fun e he => isStray_dropCasts_iff hm hq he⟩, ?_⟩
  intro base name l hl hn m' h
  obtain ⟨m₁, q, hsites, hm'⟩ := Lowering.lowerFunction_eq_ok.1 h
  have hmem : l ∈ ({ copyBase := base } : Settings).lowerings := by
    rcases hl with rfl | rfl <;> simp [Settings.lowerings]
  have hk : l.family ≠ .funnelShift := by
    rcases hl with rfl | rfl <;> simp [Lowering.zeroFill, Lowering.blockCopy]
  have hstart : Lowering.Stage m [] (m.callSites name).reverse [] :=
    ⟨hm, .nil, by simp, by simp⟩
  have hstage : Lowering.Stage m₁ q [] (l.visitsOf m name) :=
    hstart.lowerSites hmem hk hn (Lowering.pending_callSites m name) hsites
  exact ⟨m₁, q, hsites, hm', hstage.queued, fun e he => hstage.exists_of_isStray he⟩

/-- A cast and a cast of it in a kernel that may call fills. -/
def castChain (calls : List Instruction) : Module where
  name := "chain"
  functions := [.declare "llvm.memset" .void [.ptr (.int 8), .int 8, .int 64, .int 1],
    { name := "kernel", returnType := .void, params := [(0, .ptr (.int 32))]
      blocks := [⟨0, [.cast 1 (.temp 0) (.ptr (.int 16)), .cast 2 (.temp 1) (.ptr (.int 8))] ++
        calls ++ [.ret none]⟩] }]

/-- Fills of no bytes through both casts. -/
def emptyFills : Module := castChain
  [.call none (.function "llvm.memset") [.temp 1, .const 0, .const 0, .const 0] .void none,
    .call none (.function "llvm.memset") [.temp 2, .const 0, .const 0, .const 0] .void none]

/-- Of two casts in a row the first is left behind: it is below the cast of an empty fill. -/
theorem strays_of_dropCasts_castChain :
    (∀ f ∈ (castChain []).functions, f.tempIds.Nodup) ∧ CastQueue.Sorted [(1, 1), (1, 2)] ∧
    ((castChain []).dropCasts [(1, 1), (1, 2)]).module.isStray (1, 1) ∧
    (((castChain []).dropCasts [(1, 1), (1, 2)]).module.dropCasts [(1, 1), (1, 2)]).removed ≠ 0 ∧
    (∀ f ∈ emptyFills.functions, f.tempIds.Nodup) ∧
    Family.of? "llvm.memset" = some Lowering.zeroFill.family ∧
    (Lowering.zeroFill.lowerFunction emptyFills "llvm.memset").result =
      .ok (((castChain []).dropCasts [(1, 1), (1, 2)]).module.eraseFunction "llvm.memset") ∧
    ∃ u : TempId, 1 < u ∧ ∃ v ∈ Lowering.zeroFill.visitsOf emptyFills "llvm.memset",
      u ∈ v.replacement.casts ∧ v.call.constArg 2 = .ok 0 := by
  have hchain : ∀ f ∈ (castChain []).functions, f.tempIds.Nodup := by decide +kernel
  have hfills : ∀ f ∈ emptyFills.functions, f.tempIds.Nodup := by decide +kernel
  have hsorted : CastQueue.Sorted [(1, 1), (1, 2)] := by
    unfold CastQueue.Sorted
    decide
  have hstray : ((castChain []).dropCasts [(1, 1), (1, 2)]).module.isStray (1, 1) := by
    decide +kernel
  have hfamily : Family.of? "llvm.memset" = some Lowering.zeroFill.family := by decide +kernel
  have hlowered : (Lowering.zeroFill.lowerFunction emptyFills "llvm.memset").result =
      .ok (((castChain []).dropCasts [(1, 1), (1, 2)]).module.eraseFunction "llvm.memset") := rfl
  have hsites : (Lowering.zeroFill.lowerSites emptyFills []
      (emptyFills.callSites "llvm.memset").reverse).result =
        .ok (castChain [], [(1, 1), (1, 2)]) := rfl
  obtain ⟨hagain, -⟩ := (strays_of_dropCasts (castChain []) hchain).1 _ hsorted
  obtain ⟨m₁, q, hsites', -, hqueued, hempty⟩ :=
    (strays_of_dropCasts emptyFills hfills).2 "" _ _ (.inl rfl) hfamily _ hlowered
  obtain ⟨rfl, rfl⟩ := Prod.mk.inj (Except.ok.inj (hsites.symm.trans hsites'))
  obtain ⟨u, hlt, hu, hcalls⟩ := hempty (1, 1) List.mem_cons_self hstray
  obtain ⟨v, hv, hfunction, hcast⟩ := (hqueued _).1 hu
  exact ⟨hchain, hsorted, hstray, fun h => hagain.1 h (1, 1) List.mem_cons_self hstray, hfills,
    hfamily, hlowered, u, hlt, v, hv, hcast, (hcalls v hv hfunction hcast).1⟩

/-- Draining leaves a cast without a reader, and so does lowering the fills of a module. -/
theorem not_drained_castChain :
    (∀ f ∈ (castChain []).functions, f.tempIds.Nodup) ∧
    ((castChain []).dropCasts [(1, 1), (1, 2)]).module.isStray (1, 1) ∧
    (((castChain []).dropCasts [(1, 1), (1, 2)]).module.dropCasts [(1, 1), (1, 2)]).removed = 1 ∧
    (∀ f ∈ emptyFills.functions, f.tempIds.Nodup) ∧
    ∃ m', (Lowering.zeroFill.run emptyFills).result = .ok (true, m') ∧ m'.isStray (0, 1) := by
  refine ⟨by decide +kernel, by decide +kernel, by decide +kernel, by decide +kernel, _, rfl, ?_⟩
  decide +kernel

end Module

end KernelIR

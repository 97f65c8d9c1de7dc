import KernelIR.Proofs.Preservation

/-!
# Where the instructions of a lowered function come from

While a function is lowered, each of its blocks stays the concatenation of pieces, one for each
instruction that the block had at first (`Tracked`).  `Fate` says which pieces there are: the
instruction itself with renamed operands, the code of a replaced call, or nothing.  An edit keeps
this because what it takes away, a call of a family or a queued cast, is never part of emitted code,
so it is a piece of its own (`Tracked.replace`).
-/

namespace KernelIR

/-! ### Concatenated pieces -/

section Pieces

variable {α β : Type} {R S : α → List β → Prop} {as : List α}

/-- `bs` is a concatenation of pieces, one for each element of `as` in order. -/
def Pieces (R : α → List β → Prop) (as : List α) (bs : List β) : Prop :=
  ∃ parts, List.Forall₂ R as parts ∧ bs = parts.flatten

theorem Pieces.map {bs : List β} {g : β → β} (h : Pieces R as bs)
    (hS : ∀ a p, R a p → S a (p.map g)) : Pieces S as (bs.map g) := by
  obtain ⟨parts, hparts, rfl⟩ := h
  refine ⟨parts.map (·.map g), ?_, List.map_flatten⟩
  exact List.forall₂_map_right_iff.2 (hparts.imp fun a p => hS a p)

theorem pieces_singletons {g : α → β} (h : ∀ a ∈ as, R a [g a]) : Pieces R as (as.map g) := by
  refine ⟨as.map fun a => [g a], ?_, ?_⟩
  · exact List.forall₂_map_right_iff.2 (List.forall₂_same.2 h)
  · rw [← List.flatMap_def, List.map_eq_flatMap]

/-- An element that is always a piece of its own can be replaced, with the other pieces changed by
`g` at the same time. -/
theorem Pieces.replace {x : β} (hx : ∀ a p, R a p → x ∈ p → p = [x]) :
    ∀ {as : List α} {pre post : List β}, Pieces R as (pre ++ x :: post) →
      ∃ a ∈ as, R a [x] ∧ ∀ {S : α → List β → Prop} {g : β → β} {code : List β},
        (∀ a p, R a p → S a (p.map g)) → S a code →
        Pieces S as (pre.map g ++ code ++ post.map g) := by
  intro as
  induction as with
  | nil =>
    rintro pre post ⟨parts, hparts, h⟩
    cases hparts
    simp at h
  | cons a as ih =>
    rintro pre post ⟨parts, hparts, h⟩
    obtain ⟨p, parts, hap, hrest, rfl⟩ := List.forall₂_cons_left_iff.1 hparts
    rw [List.flatten_cons] at h
    have hsplit : (∃ c, p = pre ++ x :: c ∧ post = c ++ parts.flatten) ∨
        ∃ c, pre = p ++ c ∧ parts.flatten = c ++ x :: post := by
      rcases List.append_eq_append_iff.1 h with ⟨c, hp, hc⟩ | ⟨c, hpre, hc⟩
      · cases c with
        | nil => exact .inr ⟨[], by simpa using hp.symm, hc.symm⟩
        | cons y c =>
          obtain ⟨rfl, rfl⟩ := List.cons.inj hc
          exact .inl ⟨c, hp, rfl⟩
      · exact .inr ⟨c, hpre, hc⟩
    rcases hsplit with ⟨c, rfl, rfl⟩ | ⟨c, rfl, hflat⟩
    · -- the element is the piece of `a`
      have hp := hx a _ hap (by simp)
      obtain ⟨rfl, rfl⟩ : pre = [] ∧ c = [] := by
        have hlen := congrArg List.length hp
        simp only [List.length_append, List.length_cons, List.length_nil] at hlen
        exact ⟨List.length_eq_zero_iff.1 (by omega), List.length_eq_zero_iff.1 (by omega)⟩
      refine ⟨a, List.mem_cons_self, hap, fun {S g code} hS hcode => ?_⟩
      obtain ⟨parts', hparts', hflat⟩ := (Pieces.map ⟨parts, hrest, rfl⟩ hS : Pieces S as _)
      exact ⟨code :: parts', .cons hcode hparts', by simp [hflat]⟩
    · obtain ⟨a', ha', hR, hreplace⟩ := ih ⟨parts, hrest, hflat.symm⟩
      refine ⟨a', List.mem_cons_of_mem _ ha', hR, fun {S g code} hS hcode => ?_⟩
      obtain ⟨parts', hparts', hflat'⟩ := hreplace hS hcode
      exact ⟨p.map g :: parts', .cons (hS a p hap) hparts', by simp [← hflat']⟩

end Pieces

/-! ### Several renamings -/

/-- The operand with its temporary replaced. -/
def Value.mapTemp (ρ : TempId → TempId) : Value → Value
  | .temp t => .temp (ρ t)
  | v => v

theorem Value.mapTemp_eq_temp {ρ : TempId → TempId} {v : Value} {t : TempId}
    (h : v.mapTemp ρ = .temp t) : ∃ u, v = .temp u ∧ ρ u = t := by
  cases v with
  | temp u => exact ⟨u, rfl, Value.temp.inj h⟩
  | const | zero | global | function | undef => exact nomatch h

namespace Instruction

/-- The instruction with the temporaries that it reads replaced. -/
def mapTemps (ρ : TempId → TempId) (i : Instruction) : Instruction :=
  i.mapOperands (Value.mapTemp ρ)

/-- The arguments of a call. -/
def args : Instruction → List Value
  | .call _ _ args _ _ => args
  | _ => []

/-- A cast or a call of a family: what a lowering can take away. -/
def isRemovable : Instruction → Bool
  | .cast .. => true
  | i => i.family?.isSome

variable {ρ σ : TempId → TempId} {i : Instruction}

@[simp] theorem mapTemps_id (i : Instruction) : i.mapTemps id = i := by
  refine (mapOperands_congr fun v _ => ?_).trans (mapOperands_id i)
  cases v <;> rfl

theorem mapTemps_mapTemps (ρ σ : TempId → TempId) (i : Instruction) :
    (i.mapTemps ρ).mapTemps σ = i.mapTemps (σ ∘ ρ) := by
  rw [mapTemps, mapTemps, mapOperands_mapOperands]
  refine mapOperands_congr fun v _ => ?_
  cases v <;> rfl

theorem rename_eq_mapTemps (r : Option (TempId × TempId)) (i : Instruction) :
    i.rename r = i.mapTemps (renameTemp r) := by
  rw [rename_eq_mapOperands]
  refine mapOperands_congr fun v _ => ?_
  cases v <;> rfl

theorem mapTemps_rename (r : Option (TempId × TempId)) (ρ : TempId → TempId) (i : Instruction) :
    (i.mapTemps ρ).rename r = i.mapTemps (renameTemp r ∘ ρ) := by
  rw [rename_eq_mapTemps, mapTemps_mapTemps]

@[simp] theorem result?_mapTemps (ρ : TempId → TempId) (i : Instruction) :
    (i.mapTemps ρ).result? = i.result? :=
  result?_mapOperands _ i

@[simp] theorem callee?_mapTemps (ρ : TempId → TempId) (i : Instruction) :
    (i.mapTemps ρ).callee? = i.callee? := by
  cases i with
  | call result function args ty align => cases function <;> rfl
  | _ => rfl

@[simp] theorem isRemovable_mapTemps (ρ : TempId → TempId) (i : Instruction) :
    (i.mapTemps ρ).isRemovable = i.isRemovable := by
  cases i with
  | call result function args ty align => cases function <;> rfl
  | _ => rfl

@[simp] theorem isRemovable_rename (r : Option (TempId × TempId)) (i : Instruction) :
    (i.rename r).isRemovable = i.isRemovable := by
  rw [rename_eq_mapTemps, isRemovable_mapTemps]

@[simp] theorem args_mapTemps (ρ : TempId → TempId) (i : Instruction) :
    (i.mapTemps ρ).args = i.args.map (Value.mapTemp ρ) := by
  cases i <;> rfl

theorem isRemovable_of_family? {k : Family} (h : i.family? = some k) : i.isRemovable = true := by
  cases i with
  | call => simp [isRemovable, h]
  | _ => simp [family?, callee?] at h

/-- Nothing that is emitted is taken away again. -/
theorem Emitted.not_isRemovable {base : String} (hbase : Family.of? (base ++ ".") = none)
    (h : i.Emitted base) : i.isRemovable = false := by
  cases h with
  | copy element args =>
    show (Family.of? (BlockCopy.primitive base element).name).isSome = false
    rw [Family.of?_primitive hbase]
    rfl
  | binary | elementPtr | store => rfl

end Instruction

/-- Whatever temporary is moved at all is moved as one of the renamings says. -/
def Moves (rs : List (TempId × TempId)) (ρ : TempId → TempId) : Prop :=
  ∀ t, ρ t = t ∨ (t, ρ t) ∈ rs

section Moves

variable {rs rs' : List (TempId × TempId)} {r : Option (TempId × TempId)} {ρ : TempId → TempId}

theorem moves_id : Moves rs id := fun _ => .inl rfl

theorem Moves.mono (h : Moves rs ρ) (hrs : rs ⊆ rs') : Moves rs' ρ :=
  fun t => (h t).imp_right fun ht => hrs ht

/-- One more renaming, of a temporary that was not put in the place of another. -/
theorem Moves.rename (h : Moves rs ρ) (hr : ∀ p ∈ rs, renameTemp r p.2 = p.2) :
    Moves (r.toList ++ rs) (renameTemp r ∘ ρ) := by
  intro t
  rcases h t with ht | ht
  · rw [Function.comp_apply, ht]
    cases r with
    | none => exact .inl rfl
    | some p =>
      obtain ⟨old, new⟩ := p
      by_cases hold : t = old
      · subst hold
        exact .inr (by simp)
      · exact .inl (renameTemp_of_ne hold)
  · rw [Function.comp_apply, hr _ ht]
    exact .inr (List.mem_append_right _ ht)

end Moves

/-! ### The temporaries of a replacement -/

/-- The positions of the arguments that a lowering of the family takes as pointers, so that it may
look behind a cast there. -/
def Family.pointers : Family → List Nat
  | .blockFill => [0]
  | .blockCopy => [0, 1]
  | .funnelShift | .lifetimeMarker => []

namespace Settings

variable {s : Settings} {l : Lowering} {m : Module} {call : Call} {r : Replacement}

/-- The code of a replacement defines new temporaries only. -/
theorem not_mem_tempIds_of_code (hl : l ∈ s.lowerings) (h : (l.replace m call).result = .ok r)
    {t : TempId} (ht : t ∈ defined r.code) : t ∉ call.caller.tempIds := by
  simp only [lowerings, List.mem_cons, List.not_mem_nil, or_false] at hl
  rcases hl with rfl | rfl | rfl | rfl
  · obtain rfl : {} = r := Except.ok.inj h
    cases ht
  · obtain ⟨s, base, -, hbase, rfl⟩ := FunnelShift.replace_eq_ok.1 h
    exact Function.not_mem_tempIds_of_reserve? hbase ht
  · obtain ⟨f, base, -, hbase, rfl⟩ := ZeroFill.replace_eq_ok.1 h
    exact Function.not_mem_tempIds_of_reserve? hbase (ZeroFill.defined_code f base ▸ ht)
  · obtain ⟨req, -, ⟨-, rfl⟩ | ⟨-, shape, c, first, -, -, hfirst, rfl⟩⟩ :=
      BlockCopy.replace_eq_ok.1 h
    · cases ht
    · exact Function.not_mem_tempIds_of_reserve? hfirst
        (BlockCopy.defined_code s.copyBase c first ▸ ht)

/-- The code of a replacement defines no temporary twice. -/
theorem nodup_defined_code (hl : l ∈ s.lowerings) (h : (l.replace m call).result = .ok r) :
    (defined r.code).Nodup := by
  simp only [lowerings, List.mem_cons, List.not_mem_nil, or_false] at hl
  rcases hl with rfl | rfl | rfl | rfl
  · obtain rfl : {} = r := Except.ok.inj h
    exact List.nodup_nil
  · obtain ⟨s, base, -, hbase, rfl⟩ := FunnelShift.replace_eq_ok.1 h
    exact Function.nodup_tempsFrom (Function.reserve?_eq_some hbase).2
  · obtain ⟨f, base, -, hbase, rfl⟩ := ZeroFill.replace_eq_ok.1 h
    rw [ZeroFill.defined_code]
    exact Function.nodup_tempsFrom (Function.reserve?_eq_some hbase).2
  · obtain ⟨req, -, ⟨-, rfl⟩ | ⟨-, shape, c, first, -, -, hfirst, rfl⟩⟩ :=
      BlockCopy.replace_eq_ok.1 h
    · exact List.nodup_nil
    · rw [BlockCopy.defined_code]
      exact Function.nodup_tempsFrom (Function.reserve?_eq_some hfirst).2

/-- A marker is replaced by nothing. -/
theorem code_eq_nil (hl : l ∈ s.lowerings) (hk : l.family = .lifetimeMarker)
    (h : (l.replace m call).result = .ok r) : r.code = [] := by
  simp only [lowerings, List.mem_cons, List.not_mem_nil, or_false] at hl
  rcases hl with rfl | rfl | rfl | rfl
  · obtain rfl : {} = r := Except.ok.inj h
    rfl
  · cases hk
  · cases hk
  · cases hk

/-- Only the results of funnel shifts are renamed, to new temporaries. -/
theorem renamed_eq_some (hl : l ∈ s.lowerings) (h : (l.replace m call).result = .ok r)
    {old new : TempId} (hr : r.renamed = some (old, new)) :
    l.family = .funnelShift ∧ call.result = some old ∧ new ∉ call.caller.tempIds := by
  simp only [lowerings, List.mem_cons, List.not_mem_nil, or_false] at hl
  rcases hl with rfl | rfl | rfl | rfl
  · obtain rfl : {} = r := Except.ok.inj h
    cases hr
  · obtain ⟨s, base, -, hbase, rfl⟩ := FunnelShift.replace_eq_ok.1 h
    obtain ⟨t, ht, hp⟩ := Option.map_eq_some_iff.1 hr
    obtain ⟨rfl, rfl⟩ := Prod.mk.inj hp
    refine ⟨rfl, ht, Function.not_mem_tempIds_of_reserve? hbase ?_⟩
    exact List.mem_map.2 ⟨4, List.mem_range.2 (by decide), rfl⟩
  · obtain ⟨f, base, -, -, rfl⟩ := ZeroFill.replace_eq_ok.1 h
    cases hr
  · obtain ⟨req, -, ⟨-, rfl⟩ | ⟨-, shape, c, first, -, -, -, rfl⟩⟩ := BlockCopy.replace_eq_ok.1 h
    · cases hr
    · cases hr

/-- The casts of a replacement are pointer arguments of the call. -/
theorem exists_pointer_of_mem_casts (hl : l ∈ s.lowerings) (h : (l.replace m call).result = .ok r)
    {t : TempId} (ht : t ∈ r.casts) : ∃ n ∈ l.family.pointers, ∃ p,
      call.args[n]? = some (.temp t) ∧ m.reinterpretation? call.caller (.temp t) = some p := by
  have hpointer : ∀ {n : Nat} {v : Value} {p : Reinterpretation}, call.args[n]? = some v →
      m.reinterpretation? call.caller v = some p → call.args[n]? = some (.temp p.cast) ∧
        m.reinterpretation? call.caller (.temp p.cast) = some p := by
    intro n v p hv hp
    obtain ⟨rfl, -⟩ := Module.reinterpretation?_eq_some hp
    exact ⟨hv, hp⟩
  simp only [lowerings, List.mem_cons, List.not_mem_nil, or_false] at hl
  rcases hl with rfl | rfl | rfl | rfl
  · obtain rfl : {} = r := Except.ok.inj h
    cases ht
  · obtain ⟨s, base, -, -, rfl⟩ := FunnelShift.replace_eq_ok.1 h
    cases ht
  · obtain ⟨f, base, hf, -, rfl⟩ := ZeroFill.replace_eq_ok.1 h
    obtain ⟨-, dest, hdest, hptr⟩ := ZeroFill.destination_eq_ok (ZeroFill.ofCall_eq_ok hf).1
    have hcast : f.cast = some t := Option.mem_toList.1 ht
    rcases hptr with ⟨hnone, -⟩ | ⟨p, hp, hsome, -⟩
    · rw [hnone] at hcast
      cases hcast
    · obtain rfl : p.cast = t := Option.some.inj (hsome.symm.trans hcast)
      exact ⟨0, List.mem_cons_self, p, hpointer hdest hp⟩
  · have hcasts : ∃ req, BlockCopy.ofCall m call = .ok req ∧
        r.casts = [req.dest.cast, req.src.cast] := by
      obtain ⟨req, hreq, ⟨-, rfl⟩ | ⟨-, shape, c, first, -, -, -, rfl⟩⟩ :=
        BlockCopy.replace_eq_ok.1 h
      · exact ⟨req, hreq, rfl⟩
      · exact ⟨req, hreq, rfl⟩
    obtain ⟨req, hreq, hcasts⟩ := hcasts
    obtain ⟨hdest, hsrc⟩ := BlockCopy.ofCall_eq_ok hreq
    obtain ⟨v, hv, hdest⟩ := BlockCopy.pointerArg_eq_ok.1 hdest
    obtain ⟨w, hw, hsrc⟩ := BlockCopy.pointerArg_eq_ok.1 hsrc
    rw [hcasts] at ht
    rcases List.mem_cons.1 ht with rfl | ht
    · exact ⟨0, by simp [Lowering.blockCopy, Family.pointers], _, hpointer hv hdest⟩
    · obtain rfl := List.mem_singleton.1 ht
      exact ⟨1, by simp [Lowering.blockCopy, Family.pointers], _, hpointer hw hsrc⟩

end Settings

/-! ### The fate of an instruction -/

/-- The instruction calls a function of the family that the module has. -/
def Module.Lowers (m : Module) (k : Family) (i : Instruction) : Prop :=
  ∃ g ∈ m.functions, Family.of? g.name = some k ∧ i.callee? = some g.name

section Fate

variable (s : Settings) (m : Module) (f : Function) (vs : List Visit) (rs : List (TempId × TempId))

/-- The instruction `i` of `f` was replaced in the visit `v`; some of its operands were renamed
before that. -/
structure Visited (l : Lowering) (v : Visit) (i : Instruction) : Prop where
  lowering : l ∈ s.lowerings
  lowers : m.Lowers l.family i
  mem : v ∈ vs
  visit : v.Of l
  caller : v.call.caller.skeleton = f.skeleton
  call : ∃ σ, Moves rs σ ∧ v.call.instruction = i.mapTemps σ

/-- The temporary was a pointer argument of a fill or a copy that was lowered, and the pointer `p`
was found behind it. -/
def Feeds (t : TempId) (p : Reinterpretation) : Prop :=
  ∃ j ∈ f.instructions, ∃ l v n, Visited s m f vs rs l v j ∧ n ∈ l.family.pointers ∧
    j.args[n]? = some (.temp t) ∧ v.module.reinterpretation? v.call.caller (.temp t) = some p

/-- What stands in the place of the instruction `i` of `f` after the visits `vs`, in which the
temporaries of `f` were renamed as `rs` says, in the end by `ρ`. -/
inductive Fate (ρ : TempId → TempId) (i : Instruction) : List Instruction → Prop
  /-- The instruction itself. -/
  | kept : Fate ρ i [i.mapTemps ρ]
  /-- Nothing, for a lifetime marker. -/
  | marker {l : Lowering} {v : Visit} (hi : Visited s m f vs rs l v i)
      (hk : l.family = .lifetimeMarker) : Fate ρ i []
  /-- The code of the replacement, for any other call that is lowered. -/
  | emitted {l : Lowering} {v : Visit} {τ : TempId → TempId} (hi : Visited s m f vs rs l v i)
      (hk : l.family ≠ .lifetimeMarker) (hτ : Moves rs τ) :
      Fate ρ i (v.replacement.code.map (·.mapTemps τ))
  /-- Nothing, for a cast between pointer types that fed a lowered call. -/
  | dropped {t : TempId} {value : Value} {ty : Ty} {p : Reinterpretation} {τ : TempId → TempId}
      (hi : i = .cast t value ty) (hty : ty.isPtr) (hp : Feeds s m f vs rs t p) (hτ : Moves rs τ)
      (hvalue : value.mapTemp ρ = p.source.mapTemp τ) : Fate ρ i []

/-- `f'` is what became of `f` after the visits `vs`. -/
structure Tracked (ρ : TempId → TempId) (f' : Function) : Prop where
  skeleton : f'.skeleton = f.skeleton
  moves : Moves rs ρ
  /-- Only results of funnel shifts are renamed, as the visits say. -/
  results : ∀ r ∈ rs, ∃ j ∈ f.instructions, ∃ l v, Visited s m f vs rs l v j ∧
    l.family = .funnelShift ∧ j.result? = some r.1 ∧ v.replacement.renamed = some r
  /-- What they are renamed to is the result of no instruction that can be taken away. -/
  fresh : ∀ r ∈ rs, ∀ i ∈ f'.instructions, i.isRemovable = true → i.result? ≠ some r.2
  blocks : List.Forall₂ (fun b b' => Pieces (Fate s m f vs rs ρ) b.instructions b'.instructions)
    f.blocks f'.blocks

/-- The temporary is defined by a cast that fed a lowered call. -/
def Queued (f' : Function) (t : TempId) : Prop :=
  ∃ p τ ty, Feeds s m f vs rs t p ∧ Moves rs τ ∧ ty.isPtr ∧
    f'.findDef? t = some (.cast t (p.source.mapTemp τ) ty)

end Fate

section Steps

variable {s : Settings} {m : Module} {f f' f'' : Function} {vs vs' : List Visit}
  {rs rs' : List (TempId × TempId)} {ρ : TempId → TempId} {i x : Instruction}
  {p code : List Instruction} {r : Option (TempId × TempId)} {l : Lowering} {v : Visit} {t : TempId}

theorem Visited.mono (h : Visited s m f vs rs l v i) (hvs : vs ⊆ vs') (hrs : rs ⊆ rs') :
    Visited s m f vs' rs' l v i := by
  obtain ⟨σ, hσ, hcall⟩ := h.call
  exact { h with mem := hvs h.mem, call := ⟨σ, hσ.mono hrs, hcall⟩ }

theorem Feeds.mono {q : Reinterpretation} (h : Feeds s m f vs rs t q) (hvs : vs ⊆ vs')
    (hrs : rs ⊆ rs') : Feeds s m f vs' rs' t q := by
  obtain ⟨j, hj, l, v, n, hv, h⟩ := h
  exact ⟨j, hj, l, v, n, hv.mono hvs hrs, h⟩

/-- An instruction that can be taken away is a piece of its own, and an instruction of `f`. -/
theorem Fate.eq_of_mem (hbase : Family.of? (s.copyBase ++ ".") = none)
    (h : Fate s m f vs rs ρ i p) (hmem : x ∈ p) (hx : x.isRemovable = true) :
    p = [x] ∧ i.mapTemps ρ = x := by
  cases h with
  | kept =>
    obtain rfl := List.mem_singleton.1 hmem
    exact ⟨rfl, rfl⟩
  | emitted hi =>
    obtain ⟨y, hy, rfl⟩ := List.mem_map.1 hmem
    have hemitted := s.emitted_of_mem_code hi.lowering hi.visit.replace hy
    rw [Instruction.isRemovable_mapTemps, hemitted.not_isRemovable hbase] at hx
    exact absurd hx Bool.false_ne_true
  | marker | dropped => exact nomatch hmem

theorem Fate.rename (h : Fate s m f vs rs ρ i p) (hvs : vs ⊆ vs')
    (hr : ∀ q ∈ rs, renameTemp r q.2 = q.2) :
    Fate s m f vs' (r.toList ++ rs) (renameTemp r ∘ ρ) i (p.map (·.rename r)) := by
  have hrs : rs ⊆ r.toList ++ rs := List.subset_append_right _ _
  cases h with
  | kept =>
    rw [List.map_singleton, Instruction.mapTemps_rename]
    exact .kept
  | marker hi hk => exact .marker (hi.mono hvs hrs) hk
  | @emitted l v τ hi hk hτ =>
    simp only [List.map_map, Function.comp_def, Instruction.mapTemps_rename]
    exact .emitted (hi.mono hvs hrs) hk (hτ.rename hr)
  | @dropped t value ty q τ hi hty hp hτ hvalue =>
    refine .dropped hi hty (hp.mono hvs hrs) (hτ.rename hr) ?_
    have hcomp (w : Value) (σ : TempId → TempId) :
        w.mapTemp (renameTemp r ∘ σ) = (w.mapTemp σ).mapTemp (renameTemp r) := by
      cases w <;> rfl
    rw [hcomp, hcomp, hvalue]

namespace Tracked

/-- A function that was not touched. -/
theorem refl (s : Settings) (m : Module) (f : Function) (vs : List Visit) :
    Tracked s m f vs [] id f where
  skeleton := rfl
  moves := moves_id
  results := fun _ hr => nomatch hr
  fresh := fun _ hr => nomatch hr
  blocks := by
    refine List.forall₂_same.2 fun b _ => ?_
    have hb : Pieces (Fate s m f vs [] id) b.instructions (b.instructions.map (·.mapTemps id)) :=
      pieces_singletons fun i _ => .kept
    simpa using hb

/-- A function without blocks stays as it is. -/
theorem eq_of_blocks_eq_nil (h : Tracked s m f vs rs ρ f') (hf : f.blocks = []) : f' = f := by
  have hblocks := h.blocks
  rw [hf, List.forall₂_nil_left_iff] at hblocks
  have hself : ∀ g : Function, g.blocks = [] → g.skeleton = g := by
    intro g hg
    rw [Function.skeleton, hg, List.map_nil, ← hg]
  rw [← hself f' hblocks, h.skeleton, hself f hf]

/-- An instruction that can be taken away comes from an instruction of `f`. -/
theorem exists_origin (hbase : Family.of? (s.copyBase ++ ".") = none)
    (h : Tracked s m f vs rs ρ f') (hmem : x ∈ f'.instructions) (hx : x.isRemovable = true) :
    ∃ i ∈ f.instructions, i.mapTemps ρ = x := by
  obtain ⟨b', hb', hmem⟩ := List.mem_flatMap.1 hmem
  obtain ⟨b, hb, hpieces⟩ := exists_of_forall₂_mem h.blocks hb'
  obtain ⟨pre, post, hsplit⟩ := List.append_of_mem hmem
  rw [hsplit] at hpieces
  obtain ⟨i, hi, hfate, -⟩ := hpieces.replace fun a p hap hxp => (hap.eq_of_mem hbase hxp hx).1
  exact ⟨i, List.mem_flatMap.2 ⟨b, hb, hi⟩,
    (hfate.eq_of_mem hbase List.mem_cons_self hx).2⟩

/-- The result of an instruction that can be taken away was not put in the place of another. -/
theorem renameTemp_eq (h : Tracked s m f vs rs ρ f') (hmem : x ∈ f'.instructions)
    (hx : x.isRemovable = true) (hr : ∀ old new, r = some (old, new) → x.result? = some old) :
    ∀ q ∈ rs, renameTemp r q.2 = q.2 := by
  intro q hq
  cases r with
  | none => rfl
  | some r =>
    refine renameTemp_of_ne fun he => h.fresh q hq x hmem hx ?_
    rw [hr r.1 r.2 rfl, he]

/-- **One edit.**  The instruction that is taken away is that of an instruction of `f`, and so is
what takes its place. -/
theorem replace (hbase : Family.of? (s.copyBase ++ ".") = none) (h : Tracked s m f vs rs ρ f')
    (hedit : f'.ReplacedBy x r code f'') (hx : x.isRemovable = true)
    (hcode : ∀ i ∈ code, i.isRemovable = false)
    (hr : ∀ old new, r = some (old, new) → x.result? = some old ∧ new ∉ f'.tempIds)
    (hvs : vs ⊆ vs')
    (hshift : ∀ q, r = some q → ∀ i ∈ f.instructions, i.mapTemps ρ = x → ∃ l v,
      Visited s m f vs' (r.toList ++ rs) l v i ∧ l.family = .funnelShift ∧
        v.replacement.renamed = some q)
    (hfate : ∀ i ∈ f.instructions, i.mapTemps ρ = x →
      Fate s m f vs' (r.toList ++ rs) (renameTemp r ∘ ρ) i code) :
    Tracked s m f vs' (r.toList ++ rs) (renameTemp r ∘ ρ) f'' := by
  obtain ⟨pre, post, hf', hf''⟩ := hedit.exists_instructions
  have hmem : x ∈ f'.instructions := by simp [hf']
  have hfix : ∀ q ∈ rs, renameTemp r q.2 = q.2 :=
    h.renameTemp_eq hmem hx fun old new hr' => (hr old new hr').1
  have hrename : ∀ a p, Fate s m f vs rs ρ a p →
      Fate s m f vs' (r.toList ++ rs) (renameTemp r ∘ ρ) a (p.map (·.rename r)) :=
    fun a p hap => hap.rename hvs hfix
  refine ⟨hedit.skeleton.trans h.skeleton, h.moves.rename hfix, fun q hq => ?_, fun q hq => ?_, ?_⟩
  · rcases List.mem_append.1 hq with hq | hq
    · have hq' := Option.mem_toList.1 hq
      obtain ⟨j, hj, rfl⟩ := h.exists_origin hbase hmem hx
      obtain ⟨l, v, hv, hk, hrenamed⟩ := hshift q hq' j hj rfl
      have hold := (hr q.1 q.2 hq').1
      rw [Instruction.result?_mapTemps] at hold
      exact ⟨j, hj, l, v, hv, hk, hold, hrenamed⟩
    · obtain ⟨j, hj, l, v, hv, h⟩ := h.results q hq
      exact ⟨j, hj, l, v, hv.mono hvs (List.subset_append_right _ _), h⟩
  · -- the code has nothing that can be taken away, and all else was there before
    have hbefore : ∀ j ∈ f'.instructions, j.isRemovable = true → j.result? ≠ some q.2 := by
      intro j hj hrem hres
      rcases List.mem_append.1 hq with hq | hq
      · refine (hr q.1 q.2 (Option.mem_toList.1 hq)).2 (List.mem_append_right _ ?_)
        exact List.mem_filterMap.2 ⟨j, hj, hres⟩
      · exact h.fresh q hq j hj hrem hres
    intro i hi hrem
    rw [hf'', List.mem_append, List.mem_append, List.mem_map, List.mem_map] at hi
    rcases hi with (⟨j, hj, rfl⟩ | hi) | ⟨j, hj, rfl⟩
    · rw [Instruction.result?_rename]
      exact hbefore j (by simp [hf', hj]) (by simpa using hrem)
    · rw [hcode i hi] at hrem
      exact absurd hrem Bool.false_ne_true
    · rw [Instruction.result?_rename]
      exact hbefore j (by simp [hf', hj]) (by simpa using hrem)
  · obtain ⟨bs₁, b', bs₂, pre, post, hbs, his, hbs'⟩ := hedit.blocks
    have hblocks := h.blocks
    rw [hbs] at hblocks
    obtain ⟨as₁, rest, has, h₁, hrest⟩ := exists_of_forall₂_append hblocks
    obtain ⟨b, as₂, hb, h₂, rfl⟩ := List.forall₂_cons_right_iff.1 hrest
    rw [his] at hb
    obtain ⟨i, hi, hkept, hreplace⟩ :=
      hb.replace fun a p hap hxp => (hap.eq_of_mem hbase hxp hx).1
    have hmem : i ∈ f.instructions := List.mem_flatMap.2 ⟨b, by simp [has], hi⟩
    rw [has, hbs']
    refine List.rel_append ?_ (.cons ?_ ?_)
    · exact List.forall₂_map_right_iff.2 (h₁.imp fun a b hab => hab.map hrename)
    · exact hreplace hrename (hfate i hmem (hkept.eq_of_mem hbase List.mem_cons_self hx).2)
    · exact List.forall₂_map_right_iff.2 (h₂.imp fun a b hab => hab.map hrename)

/-- The call of a visit is that of an instruction of `f`. -/
theorem visited (h : Tracked s m f vs rs ρ v.call.caller) (hl : l ∈ s.lowerings) (hv : v.Of l)
    (hg : ∃ g ∈ m.functions, g.name = v.call.callee) (hi : i.mapTemps ρ = v.call.instruction) :
    Visited s m f (vs ++ [v]) rs l v i := by
  obtain ⟨g, hg, hname⟩ := hg
  have hcallee : i.callee? = some g.name := by
    rw [← Instruction.callee?_mapTemps ρ i, hi, hname]
    rfl
  exact ⟨hl, ⟨g, hg, hname ▸ hv.family, hcallee⟩, by simp, hv, h.skeleton, ρ, h.moves, hi.symm⟩

/-- Visits elsewhere. -/
theorem mono (h : Tracked s m f vs rs ρ f') (hvs : vs ⊆ vs') : Tracked s m f vs' rs ρ f' where
  skeleton := h.skeleton
  moves := h.moves
  results := fun r hr => by
    obtain ⟨j, hj, l, v, hv, h⟩ := h.results r hr
    exact ⟨j, hj, l, v, hv.mono hvs (fun _ hr => hr), h⟩
  fresh := h.fresh
  blocks := h.blocks.imp fun b b' hb => by
    have hmap := hb.map (g := Instruction.rename none) (S := Fate s m f vs' rs ρ)
      fun a p hap => hap.rename (r := none) hvs fun _ _ => rfl
    simpa [Instruction.rename] using hmap

/-- **One visit.** -/
theorem rewritten (hbase : Family.of? (s.copyBase ++ ".") = none) (hl : l ∈ s.lowerings)
    (hv : v.Of l) (hg : ∃ g ∈ m.functions, g.name = v.call.callee)
    (h : Tracked s m f vs rs ρ v.call.caller) :
    Tracked s m f (vs ++ [v]) (v.replacement.renamed.toList ++ rs)
      (renameTemp v.replacement.renamed ∘ ρ) v.rewritten := by
  have hvisited : ∀ i ∈ f.instructions, i.mapTemps ρ = v.call.instruction →
      Visited s m f (vs ++ [v]) (v.replacement.renamed.toList ++ rs) l v i := by
    intro i _ hi
    exact (h.visited hl hv hg hi).mono (fun _ hv => hv) (List.subset_append_right _ _)
  refine h.replace hbase hv.replacedBy (Instruction.isRemovable_of_family? hv.family)
    (fun i hi => (s.emitted_of_mem_code hl hv.replace hi).not_isRemovable hbase)
    (fun old new hr => (Settings.renamed_eq_some hl hv.replace hr).2)
    (List.subset_append_left _ _) (fun q hq i hi hcall => ?_) fun i hi hcall => ?_
  · exact ⟨l, v, hvisited i hi hcall, (Settings.renamed_eq_some hl hv.replace hq).1, hq⟩
  · by_cases hk : l.family = .lifetimeMarker
    · rw [Settings.code_eq_nil hl hk hv.replace]
      exact .marker (hvisited i hi hcall) hk
    · have hemitted := Fate.emitted (ρ := renameTemp v.replacement.renamed ∘ ρ)
        (hvisited i hi hcall) hk moves_id
      simpa using hemitted

end Tracked

/-! ### Queued casts -/

/-- An edit leaves the first definition of a temporary, if it does not take it away and brings no
definition of it. -/
theorem Function.ReplacedBy.findDef?_eq (h : f.ReplacedBy x r code f') (hi : f.findDef? t = some i)
    (hne : x ≠ i) (hcode : t ∉ defined code) : f'.findDef? t = some (i.rename r) := by
  obtain ⟨pre, post, hf, hf'⟩ := h.exists_instructions
  have hmap : ∀ is : List Instruction, (is.map (·.rename r)).find? (·.result? == some t) =
      (is.find? (·.result? == some t)).map (·.rename r) := by
    intro is
    rw [List.find?_map]
    simp
  have hnone : code.find? (·.result? == some t) = none := by
    refine List.find?_eq_none.2 fun j hj hjt => hcode (List.mem_filterMap.2 ⟨j, hj, ?_⟩)
    simpa using hjt
  rw [findDef?, hf, List.find?_append] at hi
  rw [findDef?, hf', List.append_assoc, List.find?_append, List.find?_append, hmap, hmap, hnone,
    Option.none_or]
  cases hpre : pre.find? (·.result? == some t) with
  | some j =>
    rw [hpre, Option.some_or] at hi
    rw [Option.map_some, Option.some_or, Option.some.inj hi]
  | none =>
    rw [hpre, Option.none_or, List.find?_cons] at hi
    rw [Option.map_none, Option.none_or]
    split at hi
    · exact absurd (Option.some.inj hi) hne
    · rw [hi, Option.map_some]

namespace Queued

theorem mono (h : Queued s m f vs rs f' t) (hvs : vs ⊆ vs') : Queued s m f vs' rs f' t := by
  obtain ⟨q, τ, ty, hfeeds, h⟩ := h
  exact ⟨q, τ, ty, hfeeds.mono hvs (fun _ hr => hr), h⟩

theorem mem_tempIds (h : Queued s m f vs rs f' t) : t ∈ f'.tempIds := by
  obtain ⟨q, τ, ty, -, -, -, hdef⟩ := h
  exact List.mem_append_right _ (List.mem_filterMap.2 ⟨_, List.mem_of_find?_eq_some hdef, rfl⟩)

/-- Taking away another instruction. -/
theorem replace (h : Queued s m f vs rs f' t) (hedit : f'.ReplacedBy x r code f'')
    (hne : ∀ value ty, x ≠ .cast t value ty) (hcode : ∀ u ∈ defined code, u ∉ f'.tempIds)
    (hr : ∀ q ∈ rs, renameTemp r q.2 = q.2) : Queued s m f vs (r.toList ++ rs) f'' t := by
  have hfresh : t ∉ defined code := fun ht => hcode t ht h.mem_tempIds
  obtain ⟨q, τ, ty, hfeeds, hτ, hty, hdef⟩ := h
  refine ⟨q, renameTemp r ∘ τ, ty, hfeeds.mono (fun _ hv => hv) (List.subset_append_right _ _),
    hτ.rename hr, hty, ?_⟩
  rw [hedit.findDef?_eq hdef (hne _ _) hfresh, Instruction.rename_eq_mapTemps]
  cases q.source <;> rfl

end Queued

namespace Tracked

/-- Dropping a queued cast. -/
theorem eraseDef (hbase : Family.of? (s.copyBase ++ ".") = none) (h : Tracked s m f vs rs ρ f')
    (hq : Queued s m f vs rs f' t) : Tracked s m f vs rs ρ (f'.eraseDef t) := by
  obtain ⟨q, τ, ty, hfeeds, hτ, hty, hdef⟩ := hq
  refine h.replace hbase (Function.replacedBy_eraseDef hdef) rfl (fun i hi => nomatch hi)
    (fun _ _ hr => nomatch hr) (fun _ hv => hv) (fun _ hr => nomatch hr) fun i _ hi => ?_
  cases i with
  | cast t' value ty' =>
    obtain ⟨rfl, hvalue, rfl⟩ := Instruction.cast.inj hi
    exact .dropped rfl hty hfeeds hτ hvalue
  | _ => simp [Instruction.mapTemps, Instruction.mapOperands] at hi

/-- The casts of a replacement are defined by casts of `f`. -/
theorem queued_of_mem_casts (hbase : Family.of? (s.copyBase ++ ".") = none) (hl : l ∈ s.lowerings)
    (hv : v.Of l) (hg : ∃ g ∈ m.functions, g.name = v.call.callee)
    (h : Tracked s m f vs rs ρ v.call.caller) (ht : t ∈ v.replacement.casts) :
    Queued s m f (vs ++ [v]) rs v.call.caller t := by
  obtain ⟨n, hn, q, harg, hq⟩ := Settings.exists_pointer_of_mem_casts hl hv.replace ht
  obtain ⟨hcast, -, ty, hty, hdef⟩ := Module.reinterpretation?_eq_some hq
  obtain rfl : t = q.cast := Value.temp.inj hcast
  obtain ⟨i, hi, hcall⟩ :=
    h.exists_origin hbase hv.instruction_mem (Instruction.isRemovable_of_family? hv.family)
  -- the argument was not renamed, since the cast could be taken away
  have hargs : i.args[n]? = some (.temp q.cast) := by
    have hargs' : (i.args.map (Value.mapTemp ρ))[n]? = some (.temp q.cast) := by
      rw [← Instruction.args_mapTemps, hcall]
      exact harg
    rw [List.getElem?_map] at hargs'
    obtain ⟨w, hw, hwt⟩ := Option.map_eq_some_iff.1 hargs'
    obtain ⟨u, rfl, hu⟩ := Value.mapTemp_eq_temp hwt
    rcases h.moves u with hfix | hmoved
    · rw [hw, ← hu, hfix]
    · rw [hu] at hmoved
      exact absurd rfl (h.fresh _ hmoved _ (List.mem_of_find?_eq_some hdef) rfl)
  refine ⟨q, id, ty, ⟨i, hi, l, v, n, h.visited hl hv hg hcall, hn, hargs, hq⟩, moves_id, hty, ?_⟩
  rw [hdef]
  cases q.source <;> rfl

/-- What is queued before a visit, or by it, is queued after it. -/
theorem queued_rewritten (h : Tracked s m f vs rs ρ v.call.caller) (hl : l ∈ s.lowerings)
    (hv : v.Of l) (hq : Queued s m f vs' rs v.call.caller t) :
    Queued s m f vs' (v.replacement.renamed.toList ++ rs) v.rewritten t := by
  refine hq.replace hv.replacedBy (fun value ty hcast => nomatch hcast)
    (fun u hu => Settings.not_mem_tempIds_of_code hl hv.replace hu) ?_
  exact h.renameTemp_eq hv.instruction_mem (Instruction.isRemovable_of_family? hv.family)
    fun old new hr => (Settings.renamed_eq_some hl hv.replace hr).2.1

end Tracked

/-- Dropping another queued cast. -/
theorem Queued.eraseDef {u : TempId} (h : Queued s m f vs rs f' t) (hu : Queued s m f vs rs f' u)
    (hne : u ≠ t) : Queued s m f vs rs (f'.eraseDef u) t := by
  obtain ⟨q, τ, ty, -, -, -, hdef⟩ := hu
  refine h.replace (Function.replacedBy_eraseDef hdef) (fun value ty' hcast => ?_)
    (fun _ ht => nomatch ht) fun _ _ => rfl
  exact hne (Instruction.cast.inj hcast).1

end Steps

end KernelIR

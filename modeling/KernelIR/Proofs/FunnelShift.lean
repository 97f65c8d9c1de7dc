import KernelIR.Proofs.Completeness
import KernelIR.Proofs.Evaluation
import KernelIR.Proofs.Folding

/-!
# The code of a funnel shift computes a funnel shift

`FunnelShift.top` is the word that a funnel shift stands for: the upper half of its two operands
side by side, shifted.  The five instructions of `FunnelShift.code` compute it
(`FunnelShift.evaluate_code`), so that the lowering of funnel shifts keeps what functions compute
(`Lowering.evaluate_of_run_funnelShift`).
-/

namespace KernelIR

namespace FunnelShift

/-! ### The word of a funnel shift -/

/-- The upper `w` bits of `hi` and `lo`, each cut to `w` bits and set side by side, after a shift to
the left by the amount, cut to `w` bits, modulo `w`. -/
def top (w : Nat) (hi lo amount : UInt64) : UInt64 :=
  let pair : BitVec (w + w) := hi.toBitVec.setWidth w ++ lo.toBitVec.setWidth w
  UInt64.ofNat ((pair <<< (amount.toNat % 2 ^ w % w)).extractLsb' w w).toNat

/-- What calls mean where funnel shifts are the only functions. -/
def meaning : CallMeaning := fun name ty args =>
  match ty, args with
  | .int width, [hi, lo, amount] =>
    if Family.of? name = some .funnelShift then some (top width.toNat hi lo amount) else none
  | _, _ => none

theorem meaning_of_ne {name : String} (h : Family.of? name ≠ some .funnelShift) :
    meaning name = fun _ _ => none := by
  funext ty args
  unfold meaning
  split
  · exact if_neg h
  · rfl

/-- The two halves of the shifted pair: what stays of the high word, and what moves in from the low
one. -/
theorem toNat_extractLsb'_shiftLeft {w a : Nat} (hi lo : UInt64) (ha : a < w) :
    (((hi.toBitVec.setWidth w ++ lo.toBitVec.setWidth w : BitVec (w + w)) <<< a).extractLsb'
      w w).toNat =
      (lo.toNat % 2 ^ w) >>> (w - a) ||| ((hi.toNat % 2 ^ w) <<< a) % 2 ^ w := by
  have hbit (x : UInt64) (j : Nat) : x.toNat.testBit j = x.toBitVec.getLsbD j := rfl
  refine Nat.eq_of_testBit_eq fun i => ?_
  simp only [BitVec.testBit_toNat, BitVec.getLsbD_extractLsb', BitVec.getLsbD_shiftLeft,
    BitVec.getLsbD_append, BitVec.getLsbD_setWidth, Nat.testBit_or, Nat.testBit_shiftRight,
    Nat.testBit_mod_two_pow, Nat.testBit_shiftLeft, hbit]
  by_cases hia : i < a
  · -- a bit that comes from the low word
    have h₁ : w + i - a = w - a + i := by omega
    have h₂ : i < w := by omega
    have h₃ : w - a + i < w := by omega
    have h₄ : ¬ w + i < a := by omega
    have h₅ : ¬ a ≤ i := by omega
    simp [h₁, h₂, h₃, h₄, h₅]
  · -- a bit that was in the high word
    have h₁ : w + i - a - w = i - a := by omega
    have h₂ : ¬ w + i - a < w := by omega
    have h₃ : ¬ w - a + i < w := by omega
    have h₄ : ¬ w + i < a := by omega
    have h₅ : a ≤ i := by omega
    simp [h₁, h₂, h₃, h₄, h₅]

/-! ### The code of a shift -/

/-- The widths are powers of two. -/
theorem exists_of_mem_widths {w : UInt32} (h : w ∈ widths) :
    w.toNat ≤ 64 ∧ ∃ k, w.toNat = 2 ^ k := by
  simp only [widths, List.mem_cons, List.not_mem_nil, or_false] at h
  rcases h with rfl | rfl | rfl | rfl
  · exact ⟨by decide, 3, rfl⟩
  · exact ⟨by decide, 4, rfl⟩
  · exact ⟨by decide, 5, rfl⟩
  · exact ⟨by decide, 6, rfl⟩

/-- The words that the five instructions compute, the last one being the shift. -/
theorem fold_code {w : UInt32} (hw : w ∈ widths) (hi lo amount : UInt64) :
    ∃ a down high low : UInt64,
      (BinOp.and.fold w amount (.ofNat (w.toNat - 1))).toOption = some a ∧
      (BinOp.sub.fold w (.ofNat w.toNat) a).toOption = some down ∧
      (BinOp.shl.fold w hi a).toOption = some high ∧
      (BinOp.lshr.fold w lo down).toOption = some low ∧
      (BinOp.or.fold w low high).toOption = some (top w.toNat hi lo amount) := by
  obtain ⟨h64, k, hk⟩ := exists_of_mem_widths hw
  have hpos : 0 < w.toNat := hk ▸ Nat.two_pow_pos k
  have hlt : w.toNat < 2 ^ w.toNat := Nat.lt_two_pow_self
  have hmax : 2 ^ w.toNat ≤ 2 ^ 64 := Nat.pow_le_pow_right (by decide) h64
  -- a number below `2 ^ w` passes through the words unharmed
  have hnat {n : Nat} (hn : n < 2 ^ w.toNat) : (UInt64.ofNat n).toNat % 2 ^ w.toNat = n := by
    rw [UInt64.toNat_ofNat_of_lt' (Nat.lt_of_lt_of_le hn hmax), Nat.mod_eq_of_lt hn]
  have hmod (x : UInt64) : x.toNat % 2 ^ w.toNat < 2 ^ w.toNat := Nat.mod_lt _ (Nat.two_pow_pos _)
  have ha : amount.toNat % 2 ^ w.toNat % w.toNat < w.toNat := Nat.mod_lt _ hpos
  rw [top, toNat_extractLsb'_shiftLeft hi lo ha]
  generalize hamount : amount.toNat % 2 ^ w.toNat % w.toNat = a at ha ⊢
  refine ⟨.ofNat a, .ofNat (w.toNat - a), .ofNat (((hi.toNat % 2 ^ w.toNat) <<< a) % 2 ^ w.toNat),
    .ofNat ((lo.toNat % 2 ^ w.toNat) >>> (w.toNat - a)), ?_, ?_, ?_, ?_, ?_⟩
  · refine BinOp.toOption_fold h64 ?_
    rw [hnat (by omega), BinOp.onNat?, ← hamount, hk, Nat.and_two_pow_sub_one_eq_mod]
  · refine BinOp.toOption_fold h64 ?_
    rw [hnat hlt, hnat (by omega), BinOp.onNat?,
      show w.toNat + 2 ^ w.toNat - a = (w.toNat - a) + 2 ^ w.toNat by omega, Nat.add_mod_right,
      Nat.mod_eq_of_lt (by omega)]
  · refine BinOp.toOption_fold h64 ?_
    rw [hnat (by omega), BinOp.onNat?, if_pos ha]
  · refine BinOp.toOption_fold h64 ?_
    rw [hnat (by omega), BinOp.onNat?]
    by_cases hzero : w.toNat - a < w.toNat
    · rw [if_pos hzero]
    · -- a shift by the whole width leaves nothing of the low word
      rw [if_neg hzero, show w.toNat - a = w.toNat by omega, Nat.shiftRight_eq_div_pow,
        Nat.div_eq_of_lt (hmod lo)]
  · refine BinOp.toOption_fold h64 ?_
    rw [hnat (Nat.lt_of_le_of_lt (Nat.shiftRight_le _ _) (hmod lo)),
      hnat (Nat.mod_lt _ (Nat.two_pow_pos _)), BinOp.onNat?]

/-- The word of a shift, if its operands have words. -/
def Shift.word? (s : Shift) (env : Env) : Option UInt64 := do
  return top s.width.toNat (← s.hi.word? env) (← s.lo.word? env) (← s.amount.word? env)

section Code

variable {calls : CallMeaning} {s : Shift} {base : Nat} {env : Env}

/-- The first two instructions: the amount modulo the width, and the way down. -/
theorem evaluate_amount (hbase : base + temps < 2 ^ 32) {amount a down : UInt64}
    (hamount : s.amount.word? env = some amount)
    (ha : (BinOp.and.fold s.width amount (.ofNat (s.width.toNat - 1))).toOption = some a)
    (hdown : (BinOp.sub.fold s.width (.ofNat s.width.toNat) a).toOption = some down)
    (rest : List Instruction) :
    evaluate calls env (code s base ++ rest) =
      evaluate calls (env.extend base [a, down]) ((code s base).drop 2 ++ rest) := by
  unfold temps at hbase
  rw [← Env.extend_nil env base] at hamount
  nth_rewrite 1 [← Env.extend_nil env base]
  have h₀ : (Value.temp (UInt32.ofNat (base + 0))).word? (env.extend base [a]) = some a :=
    Env.extend_ofNat (by omega) rfl
  refine (evaluate_binary_extend (i := 0) (by omega) rfl hamount rfl ha _).trans ?_
  exact evaluate_binary_extend (i := 1) (by omega) rfl rfl h₀ hdown _

/-- The third instruction: what stays of the high word. -/
theorem evaluate_high (hbase : base + temps < 2 ^ 32)
    (hold : ∀ t, s.hi.temp? = some t → t.toNat < base) {hi a down high : UInt64}
    (hhi : s.hi.word? env = some hi) (hhigh : (BinOp.shl.fold s.width hi a).toOption = some high)
    (rest : List Instruction) :
    evaluate calls (env.extend base [a, down]) ((code s base).drop 2 ++ rest) =
      evaluate calls (env.extend base [a, down, high]) ((code s base).drop 3 ++ rest) := by
  unfold temps at hbase
  have h₀ : (Value.temp (UInt32.ofNat (base + 0))).word? (env.extend base [a, down]) = some a :=
    Env.extend_ofNat (by omega) rfl
  have hhi' := (Value.word?_extend hold [a, down]).trans hhi
  exact evaluate_binary_extend (i := 2) (by omega) rfl hhi' h₀ hhigh _

/-- The code of a shift runs on with the word of the shift in its last temporary, and with all older
temporaries as they were. -/
theorem evaluate_code (hw : s.width ∈ widths) (hbase : base + temps < 2 ^ 32)
    (hold : ∀ v ∈ [s.hi, s.lo, s.amount], ∀ t, v.temp? = some t → t.toNat < base) {word : UInt64}
    (hword : s.word? env = some word) :
    ∃ words : List UInt64, words[4]? = some word ∧ ∀ rest,
      evaluate calls env (code s base ++ rest) = evaluate calls (env.extend base words) rest := by
  simp only [Shift.word?, Option.bind_eq_bind, Option.bind_eq_some_iff, Option.pure_def,
    Option.some.injEq] at hword
  obtain ⟨hi, hhi, lo, hlo, amount, hamount, rfl⟩ := hword
  obtain ⟨a, down, high, low, ha, hdown, hhigh, hlow, hor⟩ := fold_code hw hi lo amount
  refine ⟨[a, down, high, low, top s.width.toNat hi lo amount], rfl, fun rest => ?_⟩
  rw [evaluate_amount hbase hamount ha hdown, evaluate_high hbase (hold _ (by simp)) hhi hhigh]
  unfold temps at hbase
  have h₁ : (Value.temp (UInt32.ofNat (base + 1))).word? (env.extend base [a, down, high]) =
      some down :=
    Env.extend_ofNat (by omega) rfl
  have h₂ : (Value.temp (UInt32.ofNat (base + 2))).word? (env.extend base [a, down, high, low]) =
      some high :=
    Env.extend_ofNat (by omega) rfl
  have h₃ : (Value.temp (UInt32.ofNat (base + 3))).word? (env.extend base [a, down, high, low]) =
      some low :=
    Env.extend_ofNat (by omega) rfl
  have hlo' := (Value.word?_extend (hold s.lo (by simp)) [a, down, high]).trans hlo
  refine (evaluate_binary_extend (i := 3) (by omega) rfl hlo' h₁ hlow _).trans ?_
  exact evaluate_binary_extend (i := 4) (by omega) rfl h₃ h₂ hor _

/-- Where the call has no word, its code is stuck as well. -/
theorem evaluate_code_stuck (hw : s.width ∈ widths) (hbase : base + temps < 2 ^ 32)
    (hold : ∀ v ∈ [s.hi, s.lo, s.amount], ∀ t, v.temp? = some t → t.toNat < base)
    (hword : s.word? env = none) (rest : List Instruction) :
    evaluate calls env (code s base ++ rest) = .stuck := by
  cases hamount : s.amount.word? env with
  | none => exact evaluate_binary_stuck hamount _
  | some amount =>
    cases hhi : s.hi.word? env with
    | none =>
      obtain ⟨a, down, -, -, ha, hdown, -⟩ := fold_code hw 0 0 amount
      rw [evaluate_amount hbase hamount ha hdown]
      exact evaluate_binary_stuck ((Value.word?_extend (hold s.hi (by simp)) _).trans hhi) _
    | some hi =>
      obtain ⟨a, down, high, -, ha, hdown, hhigh, -⟩ := fold_code hw hi 0 amount
      have hlo : s.lo.word? env = none := by
        cases hlo : s.lo.word? env with
        | none => rfl
        | some lo => simp [Shift.word?, hamount, hhi, hlo] at hword
      rw [evaluate_amount hbase hamount ha hdown, evaluate_high hbase (hold _ (by simp)) hhi hhigh]
      exact evaluate_binary_stuck ((Value.word?_extend (hold s.lo (by simp)) _).trans hlo) _

end Code

/-! ### One call -/

section Edit

variable {f f' : Function} {pre post : List Instruction} {s : Shift} {base : Nat}
  {result : Option TempId} {name : String} {align : Option UInt64}

/-- The call of a shift. -/
abbrev Shift.call (s : Shift) (result : Option TempId) (name : String) (align : Option UInt64) :
    Instruction :=
  .call result (.function name) [s.hi, s.lo, s.amount] (.int s.width) align

theorem Shift.reads_call {v : Value} (hv : v ∈ [s.hi, s.lo, s.amount]) {t : TempId}
    (ht : v.temp? = some t) : t ∈ (s.call result name align).reads :=
  Instruction.mem_reads.2 ⟨v, List.mem_cons_of_mem _ hv, ht⟩

theorem readsDefined_code {defs : List TempId}
    (h : ∀ v ∈ [s.hi, s.lo, s.amount], ∀ t, v.temp? = some t → t ∈ defs) :
    ReadsDefined defs (code s base) := by
  have hcount (n : Nat) (t : TempId) : (Value.ofCount n).temp? ≠ some t := nofun
  have htemp (u t : TempId) : (Value.temp u).temp? = some t ↔ u = t := by simp [Value.temp?]
  simp only [code, ReadsDefined, Instruction.mem_reads_binary, Instruction.result?, hcount, htemp,
    List.mem_append, Option.mem_toList, Option.some.injEq]
  simp only [List.mem_cons, List.not_mem_nil, or_false, forall_eq_or_imp, forall_eq] at h
  grind

theorem fits_code (hf : f.WellFormed)
    (hsplit : f.instructions = pre ++ s.call result name align :: post)
    (hbase : f.reserve? temps = some base) :
    f.Fits pre (s.call result name align) (code s base)
      (result.map (·, UInt32.ofNat (base + 4))) := by
  have hreads := hf.reads
  rw [hsplit, readsDefined_append, ReadsDefined] at hreads
  refine ⟨fun t ht => ?_, ?_, ?_, fun t ht => ?_, fun t ht => ?_⟩
  · exact Function.not_mem_tempIds_of_reserve? hbase ht
  · exact Function.nodup_tempsFrom (Function.reserve?_eq_some hbase).2
  · exact readsDefined_code fun v hv t ht => hreads.2.1 t (Shift.reads_call hv ht)
  · cases result with
    | none => rfl
    | some u => exact renameTemp_of_ne fun he => ht (congrArg some he.symm)
  · obtain rfl : result = some t := ht
    rw [Option.map_some, renameTemp_self]
    show _ ∈ Function.tempsFrom base temps
    exact List.mem_map.2 ⟨4, List.mem_range.2 (by decide), rfl⟩

/-- The word of a call of a shift. -/
theorem effect_call (hname : Family.of? name = some .funnelShift) (env : Env) :
    (s.call result name align).effect meaning env = orStuck (s.word? env) := by
  simp only [Instruction.effect, List.mapM_cons, List.mapM_nil, Shift.word?, meaning, if_pos hname]
  cases s.hi.word? env <;> cases s.lo.word? env <;> cases s.amount.word? env <;> rfl

theorem simulates_code (hf : f.WellFormed) (hw : s.width ∈ widths)
    (hname : Family.of? name = some .funnelShift)
    (hsplit : f.instructions = pre ++ s.call result name align :: post)
    (hbase : f.reserve? temps = some base) (env : Env) :
    f.Simulates meaning (s.call result name align) (code s base)
      (result.map (·, UInt32.ofNat (base + 4))) env := by
  obtain ⟨hnext, hlt⟩ := Function.reserve?_eq_some hbase
  have hold : ∀ v ∈ [s.hi, s.lo, s.amount], ∀ t, v.temp? = some t → t.toNat < base := by
    intro v hv t ht
    have hreads := hf.reads.mem_of_reads (i := s.call result name align) (by simp [hsplit])
      (Shift.reads_call hv ht)
    rw [hnext]
    exact Function.lt_nextTemp hreads
  unfold Function.Simulates
  rw [effect_call hname]
  cases hword : s.word? env with
  | none => exact evaluate_code_stuck hw hlt hold hword
  | some word =>
    obtain ⟨words, hlast, hrun⟩ := evaluate_code hw hlt hold hword
    refine ⟨env.extend base words, fun t ht => ?_, fun t ht => ?_, hrun⟩
    · exact Env.extend_of_lt (hnext ▸ Function.lt_nextTemp ht) words
    · obtain rfl : result = some t := ht
      rw [Option.map_some, renameTemp_self]
      unfold temps at hlt
      exact Env.extend_ofNat (by omega) hlast

end Edit

end FunnelShift

/-! ### All calls -/

namespace Lowering

variable {f f' : Function} {m m' : Module}

/-- Replacing one funnel shift keeps a function well-formed, and what it computes. -/
theorem evaluate_of_edit_funnelShift (h : Lowering.funnelShift.Edit f f') (hf : f.WellFormed) :
    f'.WellFormed ∧
      ∀ args, f'.evaluate FunnelShift.meaning args = f.evaluate FunnelShift.meaning args := by
  have hparams := Function.params_of_skeleton_eq h.skeleton_eq
  cases h with
  | @replace _ _ _ _ result name args ty align r _ hb hi hn hr =>
    obtain ⟨s, base, hs, hbase, rfl⟩ := FunnelShift.replace_eq_ok.1 hr
    obtain ⟨hw, rfl, rfl⟩ := FunnelShift.ofCall_eq_ok hs
    obtain ⟨pre, post, hsplit, hsplice⟩ := Function.exists_instructions_splice hb hi
    have hfits := FunnelShift.fits_code hf hsplit hbase
    have hsim := FunnelShift.simulates_code hf hw hn hsplit hbase
    exact ⟨hf.replace hfits hparams hsplit (hsplice _ _),
      hf.evaluate_replace hfits hsim hparams hsplit (hsplice _ _)⟩
  | drop ht =>
    -- a funnel shift queues no casts
    obtain ⟨m, call, r, hr, ht⟩ := ht
    obtain ⟨s, base, -, -, rfl⟩ := FunnelShift.replace_eq_ok.1 hr
    exact nomatch ht

theorem evaluate_of_edits_funnelShift
    (h : Relation.ReflTransGen Lowering.funnelShift.Edit f f') (hf : f.WellFormed) :
    f'.WellFormed ∧
      ∀ args, f'.evaluate FunnelShift.meaning args = f.evaluate FunnelShift.meaning args := by
  induction h with
  | refl => exact ⟨hf, fun _ => rfl⟩
  | tail _ hedit ih =>
    obtain ⟨hwf, heval⟩ := evaluate_of_edit_funnelShift hedit ih.1
    exact ⟨hwf, fun args => (heval args).trans (ih.2 args)⟩

/-- Funnel shifts need no other functions. -/
theorem not_adds_funnelShift (g : Function) : ¬ Lowering.funnelShift.Adds g := by
  rintro ⟨m, call, r, hr, hg⟩
  obtain ⟨s, base, -, -, rfl⟩ := FunnelShift.replace_eq_ok.1 hr
  exact nomatch hg

/-- Of the names that a function calls after the lowering, none is a funnel shift that was declared
before. -/
theorem not_mem_callees_of_run_funnelShift {c : Bool}
    (h : (Lowering.funnelShift.run m).result = .ok (c, m')) (hf' : f' ∈ m'.functions)
    (hedits : Relation.ReflTransGen Lowering.funnelShift.Edit f f')
    (hdeclared : ∀ n ∈ f.callees, Family.of? n = some .funnelShift → ∃ g ∈ m.functions, g.name = n)
    {n : String} (hn : n ∈ f'.callees) : Family.of? n ≠ some .funnelShift := by
  intro hk
  have hsome : (Family.of? n).isSome := by rw [hk]; rfl
  have hsub := familyCalls_sublist_of_edits
    (fun _ _ he => Edit.familyCalls_sublist clean_funnelShift he) hedits
  have hmem := hsub.subset (Function.mem_familyCalls.2 ⟨hn, hsome⟩)
  have hnames := Module.mem_namesIn.2 ⟨hk, hdeclared n (Function.mem_familyCalls.1 hmem).1 hk⟩
  exact not_calls_of_run clean_funnelShift h hsome (.inl hnames) ⟨f', hf', hn⟩

/-- **The lowering of funnel shifts keeps what functions compute.**  The functions that are left are
those outside the family, in their order and with the same signatures and labels.  A well-formed one
whose funnel shifts are all declared ends, on any words for its parameters, the way it ended when
each call of a funnel shift meant the upper half of the shifted pair; no call has a meaning now. -/
theorem evaluate_of_run_funnelShift (m m' : Module) (c : Bool)
    (h : (Lowering.funnelShift.run m).result = .ok (c, m')) :
    List.Forall₂ (fun f f' : Function => f'.skeleton = f.skeleton ∧
        (f.WellFormed →
          (∀ n ∈ f.callees, Family.of? n = some .funnelShift → ∃ g ∈ m.functions, g.name = n) →
          f'.WellFormed ∧ ∀ args : TempId → UInt64,
            f'.evaluate (fun _ _ _ => none) args = f.evaluate FunnelShift.meaning args))
      (m.functions.filter fun f => Family.of? f.name != some .funnelShift) m'.functions := by
  obtain ⟨added, hadded, hedits⟩ := (rewrites_of_run h).1.functions
  obtain rfl : added = [] :=
    List.eq_nil_iff_forall_not_mem.2 fun g hg => not_adds_funnelShift g (hadded g hg)
  rw [List.append_nil] at hedits
  refine forall₂_imp_of_mem hedits fun f f' hf' hff' => ⟨?_, fun hf hdeclared => ?_⟩
  · exact Module.Rewrites.invariant (v := Function.skeleton) (fun _ _ he => he.skeleton_eq) hff'
  · obtain ⟨hwf, heval⟩ := evaluate_of_edits_funnelShift hff' hf
    refine ⟨hwf, fun args => (evaluate_congr_calls _ fun i hi n hn => ?_).trans (heval args)⟩
    -- the meaning of funnel shifts is not asked any more
    have hk := not_mem_callees_of_run_funnelShift h hf' hff' hdeclared
      (Function.mem_callees.2 ⟨i, hi, hn⟩)
    exact (FunnelShift.meaning_of_ne hk).symm

/-- Funnel shifts of two widths; the second of the narrow ones reads the first twice, and the amount
of the wide one is its width. -/
def chainedShifts : Function where
  name := "kernel"
  returnType := .int 8
  params := [(0, .int 8), (1, .int 8)]
  blocks := [⟨0, [
    .call (some 4) (.function "llvm.fshl.i8") [.temp 0, .temp 1, .const 3] (.int 8) none,
    .comment "both words from the first",
    .call (some 3) (.function "llvm.fshl.i8") [.temp 4, .zero (.int 8), .temp 4] (.int 8) none,
    .call (some 7) (.function "llvm.fshl.i16") [.const 258, .const 1, .const 16] (.int 16) none,
    .binary 5 .add (.temp 3) (.temp 7) (.int 8), .ret (some (.temp 5))]⟩]

/-- The shifts of `chainedShifts` among their declarations. -/
def chainedModule : Module where
  name := "chained"
  functions := [.declare "llvm.fshl.i16" (.int 16) [.int 16, .int 16, .int 16], chainedShifts,
    .declare "llvm.fshl.i8" (.int 8) [.int 8, .int 8, .int 8]]

theorem evaluate_of_run_funnelShift_chained :
    ∃ m' f', (Lowering.funnelShift.run chainedModule).result = .ok (true, m') ∧
      m'.functions = [f'] ∧
      (∀ args, f'.evaluate (fun _ _ _ => none) args =
        chainedShifts.evaluate FunnelShift.meaning args) ∧
      f'.evaluate (fun _ _ _ => none) (fun t => if t = 0 then 0xAB else 0xCD) =
        .returned (some 130) := by
  have h := evaluate_of_run_funnelShift chainedModule _ true rfl
  obtain ⟨⟨-, h⟩, -⟩ := List.forall₂_cons.1 h
  have hdeclared : ∀ n ∈ chainedShifts.callees, ∃ g ∈ chainedModule.functions, g.name = n := by
    decide +kernel
  obtain ⟨-, heval⟩ := h (by decide +kernel) fun n hn _ => hdeclared n hn
  exact ⟨_, _, rfl, rfl, heval, (heval _).trans (by decide +kernel)⟩

end Lowering

end KernelIR

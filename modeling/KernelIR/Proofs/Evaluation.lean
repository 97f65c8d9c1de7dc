import KernelIR.Proofs.WellFormed

/-!
# Evaluation of straight-line integer code

`evaluate` runs instructions one after the other on 64-bit words.  Operations are folded at the
width of their type, calls mean what a `CallMeaning` says, a `ret` ends the run, and whatever has no
meaning on integers leaves it stuck.  Code that reads other temporaries with the
same words runs the same way (`evaluate_rename`).
-/

namespace KernelIR

/-- The words that the temporaries hold. -/
abbrev Env := TempId → Option UInt64

/-- The word of a call, from the name of its function, its type and the words of its arguments. -/
abbrev CallMeaning := String → Ty → List UInt64 → Option UInt64

/-- How a run ends. -/
inductive Outcome where
  | returned (value : Option UInt64)
  /-- There was no `ret`. -/
  | fellThrough
  | stuck
  deriving DecidableEq

/-- The word of an operand. -/
def Value.word? (env : Env) : Value → Option UInt64
  | .temp t => env t
  | .const n => some n.toUInt64
  | .zero ty => if ty.isInt then some 0 else none
  | _ => none

/-- The words after an instruction gave its result, if it has one, a word. -/
def Env.define (env : Env) (result : Option TempId) (word : Option UInt64) : Env :=
  fun t => if result = some t then word else env t

/-- Goes on with a word, or is stuck. -/
def orStuck : Option UInt64 → Except Outcome (Option UInt64)
  | some word => .ok (some word)
  | none => .error .stuck

/-- The word that an instruction computes, or how it ends the run. -/
def Instruction.effect (calls : CallMeaning) (env : Env) :
    Instruction → Except Outcome (Option UInt64)
  | .binary _ op lhs rhs (.int bits) =>
    orStuck do (op.fold bits (← lhs.word? env) (← rhs.word? env)).toOption
  | .call _ (.function name) args ty _ => orStuck do calls name ty (← args.mapM (·.word? env))
  | .ret none => .error (.returned none)
  | .ret (some v) => .error (match v.word? env with
    | some word => .returned (some word)
    | none => .stuck)
  | .comment _ => .ok none
  | _ => .error .stuck

/-- Runs the instructions one after the other. -/
def evaluate (calls : CallMeaning) (env : Env) : List Instruction → Outcome
  | [] => .fellThrough
  | i :: is =>
    match i.effect calls env with
    | .ok word => evaluate calls (env.define i.result? word) is
    | .error outcome => outcome

/-- Runs the instructions of a function on words for its parameters. -/
def Function.evaluate (calls : CallMeaning) (f : Function) (args : TempId → UInt64) : Outcome :=
  KernelIR.evaluate calls (fun t => if t ∈ f.params.map (·.1) then some (args t) else none)
    f.instructions

variable {calls : CallMeaning} {env env' : Env}

theorem evaluate_cons_of_ok {i : Instruction} {is : List Instruction} {word : Option UInt64}
    (h : i.effect calls env = .ok word) :
    evaluate calls env (i :: is) = evaluate calls (env.define i.result? word) is := by
  rw [evaluate, h]

theorem evaluate_cons_of_error {i : Instruction} {is : List Instruction} {outcome : Outcome}
    (h : i.effect calls env = .error outcome) : evaluate calls env (i :: is) = outcome := by
  rw [evaluate, h]

@[simp] theorem Env.define_self (env : Env) (t : TempId) (word : Option UInt64) :
    env.define (some t) word t = word :=
  if_pos rfl

theorem Env.define_of_ne {result : Option TempId} {t : TempId} (h : result ≠ some t)
    (word : Option UInt64) : env.define result word t = env t :=
  if_neg h

/-- Code that runs alike from everywhere runs alike after the same instructions. -/
theorem evaluate_append_congr {is js : List Instruction}
    (h : ∀ env, evaluate calls env is = evaluate calls env js) (pre : List Instruction)
    (env : Env) : evaluate calls env (pre ++ is) = evaluate calls env (pre ++ js) := by
  induction pre generalizing env with
  | nil => exact h env
  | cons i pre ih =>
    rw [List.cons_append, List.cons_append, evaluate, evaluate]
    cases i.effect calls env with
    | ok word => exact ih _
    | error outcome => rfl

/-- The meaning of calls matters only where there are calls. -/
theorem evaluate_congr_calls {calls' : CallMeaning} {is : List Instruction} (env : Env)
    (h : ∀ i ∈ is, ∀ name, i.callee? = some name → calls name = calls' name) :
    evaluate calls env is = evaluate calls' env is := by
  induction is generalizing env with
  | nil => rfl
  | cons i is ih =>
    have hi : i.effect calls env = i.effect calls' env := by
      cases i with
      | call result function args ty align =>
        cases function with
        | function name =>
          rw [Instruction.effect, Instruction.effect, h _ (List.mem_cons_self ..) name rfl]
        | _ => rfl
      | binary result op lhs rhs ty => cases ty <;> rfl
      | ret value => cases value <;> rfl
      | _ => rfl
    rw [evaluate, evaluate, hi]
    cases i.effect calls' env with
    | ok word => exact ih _ fun j hj => h j (List.mem_cons_of_mem _ hj)
    | error outcome => rfl

/-! ### Temporaries in a row -/

/-- The words after the temporaries from number `base` on got words of their own. -/
def Env.extend (env : Env) (base : Nat) (words : List UInt64) : Env := fun t =>
  if t.toNat < base then env t else words[t.toNat - base]?.or (env t)

@[simp] theorem Env.extend_nil (env : Env) (base : Nat) : env.extend base [] = env := by
  funext t
  simp [extend]

theorem Env.extend_of_lt {base : Nat} {t : TempId} (h : t.toNat < base) (words : List UInt64) :
    env.extend base words t = env t :=
  if_pos h

theorem Env.extend_ofNat {base i : Nat} (h : base + i < 2 ^ 32) {words : List UInt64}
    {word : UInt64} (hi : words[i]? = some word) :
    env.extend base words (UInt32.ofNat (base + i)) = some word := by
  have ht : (UInt32.ofNat (base + i)).toNat = base + i := UInt32.toNat_ofNat_of_lt' h
  rw [extend, ht, if_neg (by omega), Nat.add_sub_cancel_left, hi]
  rfl

theorem Env.define_extend {base : Nat} {words : List UInt64} (h : base + words.length < 2 ^ 32)
    (word : UInt64) :
    (env.extend base words).define (some (UInt32.ofNat (base + words.length))) (some word) =
      env.extend base (words ++ [word]) := by
  funext t
  by_cases ht : t = UInt32.ofNat (base + words.length)
  · rw [ht, define_self]
    exact (extend_ofNat h List.getElem?_concat_length).symm
  · have hne : t.toNat ≠ base + words.length := by
      intro he
      exact ht (by rw [← he, UInt32.ofNat_toNat])
    rw [define_of_ne fun he => ht (Option.some.inj he).symm, extend, extend]
    by_cases hlt : t.toNat < base
    · rw [if_pos hlt, if_pos hlt]
    · have hlook : (words ++ [word])[t.toNat - base]? = words[t.toNat - base]? := by
        rcases Nat.lt_or_gt_of_ne (show t.toNat - base ≠ words.length by omega) with hk | hk
        · exact List.getElem?_append_left hk
        · have hk' : (words ++ [word]).length ≤ t.toNat - base := by
            rw [List.length_append, List.length_singleton]
            exact hk
          rw [List.getElem?_eq_none hk', List.getElem?_eq_none (Nat.le_of_lt hk)]
      rw [if_neg hlt, if_neg hlt, hlook]

/-- An operand that reads an older temporary keeps its word. -/
theorem Value.word?_extend {v : Value} {base : Nat} (h : ∀ t, v.temp? = some t → t.toNat < base)
    (words : List UInt64) : v.word? (env.extend base words) = v.word? env := by
  cases v with
  | temp t => exact Env.extend_of_lt (h t rfl) words
  | _ => rfl

/-- An operation that gives the next temporary in a row its word. -/
theorem evaluate_binary_extend {base i : Nat} (h : base + i < 2 ^ 32) {words : List UInt64}
    (hi : words.length = i) {op : BinOp} {lhs rhs : Value} {bits : UInt32} {a b word : UInt64}
    (hlhs : lhs.word? (env.extend base words) = some a)
    (hrhs : rhs.word? (env.extend base words) = some b)
    (hword : (op.fold bits a b).toOption = some word) (is : List Instruction) :
    evaluate calls (env.extend base words)
        (.binary (UInt32.ofNat (base + i)) op lhs rhs (.int bits) :: is) =
      evaluate calls (env.extend base (words ++ [word])) is := by
  subst hi
  rw [← Env.define_extend h]
  refine evaluate_cons_of_ok (i := .binary _ op lhs rhs (.int bits)) ?_
  simp only [Instruction.effect, hlhs, hrhs]
  exact congrArg orStuck hword

theorem evaluate_binary_stuck {result : TempId} {op : BinOp} {lhs rhs : Value} {bits : UInt32}
    (hlhs : lhs.word? env = none) (is : List Instruction) :
    evaluate calls env (.binary result op lhs rhs (.int bits) :: is) = .stuck := by
  refine evaluate_cons_of_error ?_
  simp only [Instruction.effect, hlhs]
  rfl

/-! ### Other words, other names -/

/-- An operand that reads another temporary with the same word has the same word. -/
theorem Value.word?_rename {r : Option (TempId × TempId)} {v : Value}
    (h : ∀ t, v.temp? = some t → env' (renameTemp r t) = env t) :
    (v.rename r).word? env' = v.word? env := by
  cases v with
  | temp t => exact h t rfl
  | _ => rfl

theorem mapM_map_congr {α β : Type} {g : α → α} {p q : α → Option β} {l : List α}
    (h : ∀ a ∈ l, q (g a) = p a) : (l.map g).mapM q = l.mapM p := by
  induction l with
  | nil => rfl
  | cons a l ih =>
    rw [List.map_cons, List.mapM_cons, List.mapM_cons, h a (List.mem_cons_self ..),
      ih fun b hb => h b (List.mem_cons_of_mem _ hb)]

theorem Instruction.effect_rename {r : Option (TempId × TempId)} {i : Instruction}
    (h : ∀ t ∈ i.reads, env' (renameTemp r t) = env t) :
    (i.rename r).effect calls env' = i.effect calls env := by
  have hword : ∀ v ∈ i.operands, (v.rename r).word? env' = v.word? env := fun v hv =>
    Value.word?_rename fun t ht => h t (mem_reads.2 ⟨v, hv, ht⟩)
  rw [rename_eq_mapOperands]
  cases i with
  | binary result op lhs rhs ty =>
    have hlhs := hword lhs (by simp [operands])
    have hrhs := hword rhs (by simp [operands])
    cases ty with
    | int bits => simp only [mapOperands, effect, hlhs, hrhs]
    | _ => rfl
  | call result function args ty align =>
    cases function with
    | function name =>
      have hargs := mapM_map_congr fun v hv => hword v (List.mem_cons_of_mem _ hv)
      simp only [mapOperands, Value.rename, effect, hargs]
    | _ => rfl
  | ret value =>
    cases value with
    | none => rfl
    | some v => simp only [mapOperands, Option.map_some, effect, hword v (by simp [operands])]
  | _ => rfl

/-- **Renamed code runs as before**, if the temporaries that it reads hold the words of the old ones
and nothing defines them again. -/
theorem evaluate_rename {r : Option (TempId × TempId)} {is : List Instruction} {defs : List TempId}
    (hreads : ReadsDefined defs is) (henv : ∀ t ∈ defs, env' (renameTemp r t) = env t)
    (hkeep : ∀ t ∈ defined is, renameTemp r t = t)
    (hinj : ∀ t ∈ defined is, ∀ u, renameTemp r u = t → u = t) :
    evaluate calls env' (is.map (·.rename r)) = evaluate calls env is := by
  induction is generalizing defs env env' with
  | nil => rfl
  | cons i is ih =>
    rw [defined_cons] at hkeep hinj
    rw [List.map_cons, evaluate, evaluate,
      Instruction.effect_rename fun t ht => henv t (hreads.1 t ht), Instruction.result?_rename]
    cases i.effect calls env with
    | error outcome => rfl
    | ok word =>
      refine ih hreads.2 (fun t ht => ?_) (fun t ht => hkeep t (List.mem_append_right _ ht))
        fun t ht => hinj t (List.mem_append_right _ ht)
      -- the new result hides nothing else on either side
      by_cases hi : i.result? = some t
      · have hmem := List.mem_append_left (defined is) (Option.mem_toList.2 hi)
        rw [hkeep t hmem, hi, Env.define_self, Env.define_self]
      · have hne : i.result? ≠ some (renameTemp r t) := by
          intro hi'
          have hmem := List.mem_append_left (defined is) (Option.mem_toList.2 hi')
          rw [← hinj _ hmem t rfl] at hi'
          exact hi hi'
        rw [Env.define_of_ne hi, Env.define_of_ne hne]
        exact henv t ((List.mem_append.1 ht).resolve_right fun h => hi (Option.mem_toList.1 h))

/-! ### Code in the place of an instruction -/

namespace Function

variable {f f' : Function} {pre post code : List Instruction} {i : Instruction}
  {r : Option (TempId × TempId)}

/-- The code does what the instruction does: it ends the run alike, or goes on with the word of the
instruction where the renaming by `r` expects it and nothing else changed in `f`. -/
def Simulates (calls : CallMeaning) (f : Function) (i : Instruction) (code : List Instruction)
    (r : Option (TempId × TempId)) (env : Env) : Prop :=
  match i.effect calls env with
  | .error outcome => ∀ rest, KernelIR.evaluate calls env (code ++ rest) = outcome
  | .ok word => ∃ env' : Env, (∀ t ∈ f.tempIds, env' t = env t) ∧
    (∀ t, i.result? = some t → env' (renameTemp r t) = word) ∧
    ∀ rest, KernelIR.evaluate calls env (code ++ rest) = KernelIR.evaluate calls env' rest

/-- Code that fits and does what the instruction did keeps what the function computes. -/
theorem WellFormed.evaluate_replace (hf : f.WellFormed) (hfits : f.Fits pre i code r)
    (hcode : ∀ env, f.Simulates calls i code r env) (hp : f'.params = f.params)
    (h : f.instructions = pre ++ i :: post)
    (h' : f'.instructions = pre.map (·.rename r) ++ code ++ post.map (·.rename r))
    (args : TempId → UInt64) : f'.evaluate calls args = f.evaluate calls args := by
  rw [Function.evaluate, Function.evaluate, hp, h, h', hf.map_rename_before h hfits.keeps,
    List.append_assoc]
  refine evaluate_append_congr (fun env => ?_) pre _
  have hsim := hcode env
  unfold Simulates at hsim
  cases hi : i.effect calls env with
  | error outcome =>
    rw [hi] at hsim
    rw [evaluate_cons_of_error hi, hsim]
  | ok word =>
    rw [hi] at hsim
    obtain ⟨env', hsame, hmoved, hrun⟩ := hsim
    have hreads := hf.reads
    rw [h, readsDefined_append, ReadsDefined] at hreads
    have hids := tempIds_eq_of_instructions h
    rw [evaluate_cons_of_ok hi, hrun]
    refine evaluate_rename hreads.2.2 (fun t ht => ?_) (fun t ht => ?_) fun t ht u hu => ?_
    · rcases List.mem_append.1 ht with ht | ht
      · have hne := Function.result?_ne_of_mem_before hf.nodup h ht
        rw [hfits.keeps t hne, Env.define_of_ne hne, hsame t (hids ▸ List.mem_append_left _ ht)]
      · have hres := Option.mem_toList.1 ht
        rw [hmoved t hres, hres, Env.define_self]
    · exact hfits.keeps t (Function.result?_ne_of_mem_after hf.nodup h ht)
    · by_cases hres : i.result? = some u
      · -- the new name of the result is none of the function's
        have hmem : t ∈ f.tempIds := hids ▸ List.mem_append_right _ (List.mem_append_right _ ht)
        exact absurd hmem (hfits.fresh t (hu ▸ hfits.moves u hres))
      · rw [← hu, hfits.keeps u hres]

end Function

end KernelIR

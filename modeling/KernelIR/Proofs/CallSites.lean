import KernelIR.Proofs.Splicing

/-!
# Sites under edits

The sites of a name are listed in the order of the module (`pairwise_callSites`), one for each call
(`length_callSites`).  Putting code in the place of the call at a site leaves all sites before it
good (`calleeAt?_replaceCall_of_before`), and takes one call away unless the code brings new ones
(`callCount_replaceCall`).  So a list of sites can be worked off from its end without ever looking
for them again, and there are no calls left when it is empty.
-/

namespace KernelIR

namespace Site

/-- The order of the positions in a module. -/
def Before (a b : Site) : Prop :=
  a.function < b.function ∨ a.function = b.function ∧
    (a.block < b.block ∨ a.block = b.block ∧ a.index < b.index)

end Site

namespace Module

/-- The name of the function that is called directly at a site. -/
def calleeAt? (m : Module) (s : Site) : Option String := (m.instructionAt? s).bind (·.callee?)

theorem mem_callSites_iff {m : Module} {name : String} {s : Site} :
    s ∈ m.callSites name ↔ m.calleeAt? s = some name := by
  rw [mem_callSites, calleeAt?, Option.bind_eq_some_iff]

/-- Where a direct call stands, the call can be read. -/
theorem exists_call_of_calleeAt? {m : Module} {s : Site} {name : String}
    (h : m.calleeAt? s = some name) :
    ∃ f b result args ty align, m.functionAt? s = some f ∧ f.blocks[s.block]? = some b ∧
      b.instructions[s.index]? = some (.call result (.function name) args ty align) ∧
      m.callAt s = .ok ⟨s, f, name, result, args, ty, align⟩ := by
  obtain ⟨i, hi, hc⟩ := Option.bind_eq_some_iff.1 h
  have hat := hi
  simp only [instructionAt?, Option.bind_eq_bind, Option.bind_eq_some_iff] at hi
  obtain ⟨f, hf, b, hb, hi⟩ := hi
  cases i with
  | call result function args ty align =>
    cases function with
    | function n =>
      obtain rfl : n = name := Option.some.inj hc
      refine ⟨f, b, result, args, ty, align, hf, hb, hi, ?_⟩
      rw [callAt, hf, hat]
      rfl
    | temp | const | zero | global | undef => simp [Instruction.callee?, Value.function?] at hc
  | _ => simp [Instruction.callee?] at hc

/-! ### The list of sites -/

theorem pairwise_zipIdx {α : Type} (l : List α) : l.zipIdx.Pairwise fun a b => a.2 < b.2 := by
  have h : (l.zipIdx.map Prod.snd).Pairwise (· < ·) := by
    rw [List.zipIdx_map_snd]
    exact List.pairwise_lt_range'
  exact List.pairwise_map.1 h

/-- The sites of a name come in the order of the module. -/
theorem pairwise_callSites (m : Module) (name : String) :
    (m.callSites name).Pairwise Site.Before := by
  -- the three levels of the list are in order one inside the other
  refine List.pairwise_flatMap.2 ⟨?_, (pairwise_zipIdx _).imp ?_⟩
  · rintro ⟨f, i⟩ -
    refine List.pairwise_flatMap.2 ⟨?_, (pairwise_zipIdx _).imp ?_⟩
    · rintro ⟨b, j⟩ -
      refine List.pairwise_filterMap.2 ((pairwise_zipIdx _).imp ?_)
      rintro ⟨a, k⟩ ⟨a', k'⟩ hk s hs s' hs'
      obtain ⟨-, rfl⟩ : _ ∧ Site.mk i j k = s := by simpa using hs
      obtain ⟨-, rfl⟩ : _ ∧ Site.mk i j k' = s' := by simpa using hs'
      exact .inr ⟨rfl, .inr ⟨rfl, hk⟩⟩
    · rintro ⟨b, j⟩ ⟨b', j'⟩ hj s hs s' hs'
      obtain ⟨a, k, -, -, rfl⟩ : ∃ a k, _ ∧ _ ∧ Site.mk i j k = s := by simpa using hs
      obtain ⟨a', k', -, -, rfl⟩ : ∃ a k, _ ∧ _ ∧ Site.mk i j' k = s' := by simpa using hs'
      exact .inr ⟨rfl, .inl hj⟩
  · rintro ⟨f, i⟩ ⟨f', i'⟩ hi s hs s' hs'
    obtain ⟨b, j, -, a, k, -, -, rfl⟩ : ∃ b j, _ ∧ ∃ a k, _ ∧ _ ∧ Site.mk i j k = s := by
      simpa using hs
    obtain ⟨b', j', -, a', k', -, -, rfl⟩ : ∃ b j, _ ∧ ∃ a k, _ ∧ _ ∧ Site.mk i' j k = s' := by
      simpa using hs'
    exact .inl hi

theorem length_flatMap_zipIdx {α β : Type} {F : α × Nat → List β} {G : α → Nat}
    (h : ∀ a i, (F (a, i)).length = G a) (l : List α) :
    ∀ k, ((l.zipIdx k).flatMap F).length = (l.map G).sum := by
  induction l with
  | nil => intro k; rfl
  | cons a l ih =>
    intro k
    rw [List.zipIdx_cons, List.flatMap_cons, List.length_append, h, ih, List.map_cons,
      List.sum_cons]

/-- There is one site for each call. -/
theorem length_callSites (m : Module) (name : String) :
    (m.callSites name).length = m.callCount name := by
  have hb : ∀ (is : List Instruction) (i j k : Nat), ((is.zipIdx k).filterMap fun p =>
      if p.1.callee? = some name then some (Site.mk i j p.2) else none).length =
        is.countP (·.callee? == some name) := by
    intro is i j
    induction is with
    | nil => intro k; rfl
    | cons a is ih =>
      intro k
      rw [List.zipIdx_cons, List.filterMap_cons, List.countP_cons]
      by_cases h : a.callee? = some name
      · simp [h, ih]
      · simp [h, ih]
  rw [callCount, List.countP_flatMap]
  refine length_flatMap_zipIdx (fun f i => ?_) m.functions 0
  rw [Function.comp_apply, Function.instructions, List.countP_flatMap]
  exact length_flatMap_zipIdx (fun b j => hb b.instructions i j 0) f.blocks 0

/-! ### Putting code in the place of a call -/

theorem functions_replaceCall (m : Module) (s : Site) (r : Replacement) :
    (m.replaceCall s r).functions = m.functions.modify s.function
      (fun f => (f.rename r.renamed).splice s.block s.index r.code) ++ r.declared.toList := by
  unfold replaceCall
  cases r.declared <;> simp [modifyFunction, addFunction]

theorem functionAt?_replaceCall {m : Module} {s : Site} {f : Function}
    (h : m.functionAt? s = some f) (r : Replacement) :
    (m.replaceCall s r).functionAt? s =
      some ((f.rename r.renamed).splice s.block s.index r.code) := by
  have hf : m.functions[s.function]? = some f := h
  have hlt := (List.getElem?_eq_some_iff.1 hf).1
  rw [functionAt?, functions_replaceCall, List.getElem?_append_left (by simpa using hlt),
    List.getElem?_modify, hf]
  simp

/-- Where a call can be read there is a call in a block, and what replaces it takes its place there. -/
theorem exists_block_of_callAt {m : Module} {s : Site} {call : Call} (h : m.callAt s = .ok call) :
    ∃ b function, m.functionAt? s = some call.caller ∧ call.caller.blocks[s.block]? = some b ∧
      b.instructions[s.index]? = some (.call call.result function call.args call.ty call.align) ∧
      ∀ r, r.renamed = none → ((m.replaceCall s r).functionAt? s).bind (·.blocks[s.block]?) =
        some { b with instructions :=
          b.instructions.take s.index ++ r.code ++ b.instructions.drop (s.index + 1) } := by
  unfold callAt at h
  split at h
  · next f result function args ty align hf hi =>
    obtain rfl := Except.ok.inj h
    simp only [instructionAt?, hf, Option.bind_eq_bind, Option.bind_some,
      Option.bind_eq_some_iff] at hi
    obtain ⟨b, hb, hi⟩ := hi
    refine ⟨b, function, hf, hb, hi, fun r hr => ?_⟩
    rw [functionAt?_replaceCall hf, hr, Option.bind_some, Function.rename, Function.splice,
      List.getElem?_modify]
    simp [hb]
  · cases h
  · cases h

/-- Code spliced into a renamed function moves nothing that stands before it. -/
theorem instruction_splice_of_before {f : Function} {b : Block} {n k n' k' : Nat}
    (r : Option (TempId × TempId)) (code : List Instruction) (hb : f.blocks[n]? = some b)
    (hk : k ≤ b.instructions.length) (h : n' < n ∨ n' = n ∧ k' < k) :
    (((f.rename r).splice n k code).blocks[n']?.bind (·.instructions[k']?)) =
      (f.blocks[n']?.bind (·.instructions[k']?)).map (·.rename r) := by
  simp only [Function.rename_eq, Function.splice, Function.mapInstructions]
  rw [List.getElem?_modify, List.getElem?_map]
  rcases h with h | ⟨rfl, h⟩
  · cases f.blocks[n']? with
    | none => rfl
    | some b' => simp [show n ≠ n' by omega]
  · rw [hb]
    simp only [Option.map_eq_map, Option.map_some, if_pos, Option.bind_some]
    rw [List.append_assoc, List.getElem?_append_left (by simp; omega), List.getElem?_take_of_lt h,
      List.getElem?_map]

/-- Code put in the place of an instruction leaves the calls before it where they are. -/
theorem calleeAt?_replaceCall_of_before {m : Module} {s t : Site} {i : Instruction}
    (r : Replacement) (hi : m.instructionAt? s = some i) (h : t.Before s) :
    (m.replaceCall s r).calleeAt? t = m.calleeAt? t := by
  simp only [instructionAt?, functionAt?, Option.bind_eq_bind, Option.bind_eq_some_iff] at hi
  obtain ⟨f, hf, b, hb, hi⟩ := hi
  have hs : s.function < m.functions.length := (List.getElem?_eq_some_iff.1 hf).1
  have ht : t.function < m.functions.length := by
    rcases h with h | h <;> omega
  simp only [calleeAt?, instructionAt?, functionAt?, Option.bind_eq_bind]
  rw [functions_replaceCall, List.getElem?_append_left (by simpa using ht), List.getElem?_modify]
  rcases h with h | ⟨hft, h⟩
  · simp [show s.function ≠ t.function by omega]
  · rw [hft, hf]
    simp only [Option.map_eq_map, Option.map_some, if_pos, Option.bind_some]
    rw [instruction_splice_of_before r.renamed r.code hb
      (Nat.le_of_lt (List.getElem?_eq_some_iff.1 hi).1) h]
    cases f.blocks[t.block]?.bind (·.instructions[t.index]?) <;> simp

/-- Putting code in the place of a call takes that call away, and brings the calls of the code. -/
theorem callCount_replaceCall {m : Module} {s : Site} {f : Function} {b : Block} {i : Instruction}
    {name : String} (r : Replacement) (hf : m.functionAt? s = some f)
    (hb : f.blocks[s.block]? = some b) (hi : b.instructions[s.index]? = some i)
    (hc : i.callee? = some name) (hcode : ∀ j ∈ r.code, j.callee? ≠ some name)
    (hdecl : ∀ g, r.declared = some g → g.blocks = []) :
    (m.replaceCall s r).callCount name + 1 = m.callCount name := by
  obtain ⟨fs₁, fs₂, hfs, hn⟩ := exists_append_of_getElem? hf
  obtain ⟨pre, post, hpre, hsplice⟩ := Function.exists_instructions_splice hb hi
  have hnew : (r.declared.toList.flatMap Function.instructions).countP
      (·.callee? == some name) = 0 := by
    cases hr : r.declared with
    | none => rfl
    | some g => simp [Function.instructions, hdecl g hr]
  have hcode' : r.code.countP (·.callee? == some name) = 0 :=
    List.countP_eq_zero.2 fun j hj => by simpa using hcode j hj
  unfold callCount
  rw [functions_replaceCall, hfs, modify_append_cons _ hn]
  simp only [List.flatMap_append, List.flatMap_cons, List.countP_append, hsplice, hpre, hnew,
    hcode', List.countP_cons, hc, List.countP_map, Function.comp_def, Instruction.callee?_rename,
    beq_self_eq_true, if_true]
  omega

end Module

end KernelIR

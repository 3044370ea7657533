/-
  OcamlJit.Cranelift.Applications
  ───────────────────────────────
  **APPLICATIONS, C CALLS AND NEW BLOCKS ARE TRANSLATED TO THEIR MEANING.**

  The instructions that take any number of words off the stack, and with them
  every instruction (`translateInstruction_sim`).
-/
import OcamlJit.Cranelift.Instructions

namespace OcamlJit.Cranelift

open OcamlJit.Lib OcamlJit.Instructions OcamlJit.Interp OcamlJit.BasicBlocks

/-! ## §1. Several words of the stack. -/

section Words

variable {s s' : State} {stale : Prop} {size n m : Nat} {σ : IrState} {ws : List Value}

/-- The words on top of the stack are in their variables. -/
theorem Matches.picks (hM : Matches s stale size σ) (h : s.picks? n = some ws) :
    slotValues σ size 0 n = ws := by
  refine List.ext_getElem (by simp [slotValues, length_of_picks? h]) fun i hi hi' => ?_
  have hword : s.stack[i]? = some (.val ws[i]) :=
    word_of_picks? h (List.getElem?_eq_getElem hi')
  simpa [slotValues] using hM.stack i _ hword

end Words

/-! ## §2. Applications and C calls. -/

section Calls

variable {O : Oracle Request Value} {rt : Layout} {k : TranslatorEnv} {s s' : State}
  {stale st : Prop} {τ : Translator} {σ : IrState} {n : Nat} {ws : List Value} {α β : Type}
  {x : Act O β} {Q : β → α → Translator → IrState → Prop}

/-- The first words of the stack. -/
theorem emitSim_words {j : List Val → Emit α} (hM : Matches s stale τ.stackSize σ)
    (hws : s.picks? n = some ws)
    (h : ∀ vs τ' σ', Later τ σ τ' σ' → Matches s stale τ'.stackSize σ' → HoldsAll vs ws τ' σ' →
      EmitSim rt x (j vs) τ' σ' Q) : EmitSim rt x (pickRefs k 0 n >>= j) τ σ Q :=
  emitSim_pickRefs fun vs τ' σ' hl hvs => h vs τ' σ' hl (hM.later hl) (hM.picks hws ▸ hvs)

/-- The trace of an application does nothing to the interpreter's state. -/
theorem emitSim_emitApplyTrace {j : Unit → Emit α} {c : Val} {m : Nat}
    (h : ∀ τ' σ', Later τ σ τ' σ' → EmitSim rt x (j ()) τ' σ' Q) :
    EmitSim rt x (emitApplyTrace k c m >>= j) τ σ Q := by
  unfold emitApplyTrace traced
  split
  · rw [Emit.bind_assoc]
    exact emitSim_pickRefs fun vs τ' σ' hl _ => emitSim_emit rfl (h τ' σ' hl)
  · rw [Emit.pure_bind]
    exact h τ σ Later.refl

/-- An application to the first words of the stack. -/
theorem emitSim_emitApply {y : Value → Act O β} {j : Unit → Emit α}
    (hM : Matches s stale τ.stackSize σ) (hread : ¬ stale) (hws : s.picks? n = some ws)
    (hd : s.drop? n = some s')
    (h : ∀ w τ' σ', Matches (s'.withAccu w) st τ'.stackSize σ' →
      EmitSim rt (y w) (j ()) τ' σ' Q) :
    EmitSim rt (Act.perform (.apply s.accu ws) >>= y) (emitApply k n >>= j) τ σ Q := by
  unfold emitApply
  simp only [Emit.bind_assoc]
  refine emitSim_accRef hM hread fun vf τ₁ σ₁ h₁ hM hvf => ?_
  refine emitSim_emitApplyTrace fun τ₂ σ₂ h₂ => emitSim_panicIf fun _ => ?_
  refine emitSim_words (hM.later h₂) hws fun vs τ₃ σ₃ h₃ hM hvs => ?_
  refine emitSim_drop hM hd fun τ₄ keep hM => ?_
  refine emitSim_define_request (fun v => ?_) fun w v τ₅ σ₅ h₅ hv => ?_
  · rw [← hvs.eq, ← ((hvf.later h₂).later h₃).eq]
    rfl
  · exact emitSim_setAccRef hv (h w τ₅ _ ((hM.later h₅).setAcc w st))

/-- **An application**: both sides apply the same closure to the same arguments. -/
theorem apply_sim (hM : Matches s stale τ.stackSize σ) (hread : ¬ stale) (n : Nat) :
    EmitSim (O := O) rt (doApply n 0 s) (emitApply k n) τ σ (Done st) :=
  emitSim_ofOption fun _ hws => emitSim_ofOption fun _ hd => EmitSim.last
    (emitSim_emitApply hM hread hws hd fun _ _ _ hM => EmitSim.pure hM)

/-- With the frame that the application takes off. -/
theorem applyFrame_sim (hM : Matches s stale τ.stackSize σ) (hread : ¬ stale) (n : Nat) :
    InstructionSim O rt k (.apply n) s stale τ σ := by
  refine emitSim_ofOption fun ws hws => emitSim_ofOption fun s' hd => ?_
  obtain ⟨s₁, hd₁, hd⟩ := drop?_add hd
  refine emitSim_bailIf fun _ => emitSim_emitApply hM hread hws hd₁ fun w τ' σ'
    (hM : Matches _ (staleAfter stale (.apply n)) _ _) => ?_
  exact EmitSim.last (emitSim_drop hM (drop?_withAccu hd w) fun _ _ hM => EmitSim.pure hM)

/-- Declaring a primitive emits nothing. -/
theorem emitSim_declareCCall {j : Unit → Emit α} {id : Nat} {arity : Arity}
    (h : ∀ τ', Later τ σ τ' σ → EmitSim rt x (j ()) τ' σ Q) :
    EmitSim rt x (declareCCall id arity >>= j) τ σ Q := by
  have hkeep : ∀ {τ' : Translator}, τ'.stackSize = τ.stackSize → τ'.lastValue = τ.lastValue →
      Later τ σ τ' σ :=
    fun hs hl => ⟨hs, Nat.le_of_eq hl.symm, fun _ _ => rfl, rfl, rfl⟩
  unfold declareCCall
  rw [Emit.bind_assoc]
  refine emitSim_current ?_
  split
  · rw [Emit.pure_bind]
    exact h τ Later.refl
  · unfold getOrInitialiseCCall
    simp only [Emit.bind_assoc]
    refine emitSim_current ?_
    split
    · exact emitSim_bailIf fun _ => emitSim_update (h _ (hkeep rfl rfl))
    · exact emitSim_update (emitSim_update (h _ (hkeep rfl rfl)))

/-- `C_CALL1` to `C_CALLN`. -/
theorem cCall_sim (hM : Matches s stale τ.stackSize σ) (hread : ¬ stale) (id : Nat)
    (arity : Arity) :
    EmitSim (O := O) rt (doCCall id arity.fromStack s) (cCall k id arity) τ σ (Done st) := by
  refine emitSim_ofOption fun ws hws => emitSim_ofOption fun s' hd => ?_
  refine emitSim_declareCCall fun τ₁ h₁ => ?_
  have hcall : EmitSim (O := O) rt
      (do pure (s'.withAccu (← Act.perform (.cCall id (s.accu :: ws)))))
      (do
        let accu ← getAccRef
        let rest ← pickRefs k 0 arity.fromStack
        pop arity.fromStack
        traced k (callPrimitiveUnit .emitCCallTrace (accu :: rest))
        let result ← define fun dst => .cCall dst id (accu :: rest)
        setAccRef result
        traced k (callPrimitiveUnit .emitReturnTrace [result])) τ₁ σ (Done st) := by
    refine emitSim_accRef (hM.later h₁) hread fun va τ₂ σ₂ h₂ hM hva => ?_
    refine emitSim_words hM hws fun vs τ₃ σ₃ h₃ hM hvs => ?_
    refine emitSim_drop hM hd fun τ₄ keep hM => emitSim_trace rfl ?_
    refine emitSim_define_request (fun v => ?_) fun w v τ₅ σ₅ h₅ hv => ?_
    · rw [← hvs.eq, ← (hva.later h₃).eq]
      rfl
    · exact emitSim_setAccRef hv
        (EmitSim.last (emitSim_trace rfl (EmitSim.pure ((hM.later h₅).setAcc w st))))
  cases arity with
  | varArgs nargs => exact emitSim_bail
  | n1 => exact hcall
  | n2 => exact hcall
  | n3 => exact hcall
  | n4 => exact hcall
  | n5 => exact hcall

end Calls

/-! ## §3. New blocks. -/

section Blocks

variable {O : Oracle Request Value} {rt : Layout} {k : TranslatorEnv} {s s' : State}
  {stale st : Prop} {τ : Translator} {σ : IrState}

/-- Sizes and tags that fit a word. -/
theorem makeBlock_sim_of_lt (hM : Matches s stale τ.stackSize σ)
    (hatom : k.atomTableAddr = rt.atomTable + 8) {size tag : Nat} (hsize : size < 2 ^ 64)
    (htag : tag < 2 ^ 64) (hread : size ≠ 0 → ¬ stale) :
    InstructionSim O rt k (.makeBlock size tag) s stale τ σ := by
  show EmitSim rt (doMakeBlock rt size tag s) (translateMakeBlock k size tag) τ σ _
  unfold doMakeBlock translateMakeBlock
  by_cases hzero : size = 0
  · rw [if_pos hzero, if_pos hzero]
    refine emitSim_ite (fun _ => ?_) fun _ => emitSim_panics
    refine emitSim_ins (w := rt.atom tag) ?_ fun v τ₁ σ₁ h₁ hv => setAccInt_sim (hM.later h₁) hv
    rw [Layout.atom, Expr.eval, hatom, BitVec.add_assoc, BitVec.add_comm 8, ← BitVec.add_assoc]
  · rw [if_neg hzero, if_neg hzero]
    refine emitSim_ofOption fun ws hws => emitSim_ofOption fun s' hd => ?_
    refine emitSim_accRef hM (hread hzero) fun va τ₁ σ₁ h₁ hM hva => ?_
    refine emitSim_words hM hws fun vs τ₂ σ₂ h₂ hM hvs => ?_
    have hlen : (some va :: vs.map some).length = size := by
      have := hvs.length.trans (length_of_picks? hws)
      simp only [List.length_cons, List.length_map]
      omega
    refine EmitSim.bind ?_
    have halloc : EmitSim (O := O) rt
        (allocBlock (some va :: vs.map some).length tag 0 _) _ _ _ _ :=
      emitSim_alloc rfl (by omega) htag (HoldsAll.cons (hva.later h₂) hvs)
    rw [hlen] at halloc
    refine halloc.mono fun b vb τ₃ σ₃ hg => emitSim_setAccRef hg.2 ?_
    have hM := (hM.later hg.1).setAcc b (staleAfter stale (.makeBlock size tag))
    refine emitSim_drop hM (drop?_withAccu hd b) fun τ₄ _ hM => ?_
    exact EmitSim.last (emitSim_trace rfl (EmitSim.pure hM))

/-- `MAKEBLOCK`, of fields on the stack or of the atom table. -/
theorem makeBlock_sim (hM : Matches s stale τ.stackSize σ)
    (hatom : k.atomTableAddr = rt.atomTable + 8) (size tag : Nat)
    (hread : size ≠ 0 → ¬ stale) (hops : operandsOk (.makeBlock size tag) s = true) :
    InstructionSim O rt k (.makeBlock size tag) s stale τ σ := by
  have hsize : size < 2 ^ 30 := immediate_lt (by simp [immediates]) hops
  have htag : tag < 2 ^ 30 := immediate_lt (by simp [immediates]) hops
  exact makeBlock_sim_of_lt hM hatom (by omega) (by omega) hread

/-- `if (nvars > 0) *--sp = accu`, on both sides. -/
theorem emitSim_spillAcc {α β : Type} {x : Act O β} {j : Unit → Emit α}
    {Q : β → α → Translator → IrState → Prop} (hM : Matches s stale τ.stackSize σ) {nvars : Nat}
    (hread : 0 < nvars → ¬ stale)
    (h : ∀ τ' σ', Matches (spillAccu nvars s) stale τ'.stackSize σ' →
      EmitSim rt x (j ()) τ' σ' Q) : EmitSim rt x (spillAcc k nvars >>= j) τ σ Q := by
  unfold spillAcc spillAccu at *
  by_cases hpos : nvars > 0
  · rw [if_pos hpos] at h ⊢
    rw [Emit.bind_assoc]
    refine emitSim_accRef hM (hread hpos) fun v τ₁ σ₁ h₁ hM hv => emitSim_pushRef hv (h _ _ ?_)
    exact hM.push fun _ hslot => by cases hslot; rfl
  · rw [if_neg hpos] at h ⊢
    rw [Emit.pure_bind]
    exact h τ σ hM

/-- The variables of a closure, taken off the stack. -/
theorem emitSim_captured {α β : Type} {x : Act O β} {j : List Val → Emit α}
    {Q : β → α → Translator → IrState → Prop} {nvars : Nat} {ws : List Value}
    (hM : Matches s stale τ.stackSize σ) (hread : 0 < nvars → ¬ stale)
    (hws : (spillAccu nvars s).picks? nvars = some ws)
    (hd : (spillAccu nvars s).drop? nvars = some s')
    (h : ∀ vs τ' σ', Matches s' stale τ'.stackSize σ' → HoldsAll vs ws τ' σ' →
      EmitSim rt x (j vs) τ' σ' Q) :
    EmitSim rt x (do
      spillAcc k nvars
      let vars ← pickRefs k 0 nvars
      pop nvars
      j vars) τ σ Q := by
  refine emitSim_spillAcc hM hread fun τ₁ σ₁ hM => ?_
  refine emitSim_words hM hws fun vs τ₂ σ₂ h₂ hM hvs => ?_
  exact emitSim_pop fun _ => h vs _ σ₂ (hM.drop hd) (hvs.resize _)

/-- `CLOSURE`. -/
theorem closure_sim (hM : Matches s stale τ.stackSize σ)
    (hlookup : ∀ l p, k.lookupClosureCode l = some p → p = rt.codePointer l) (l nvars : Nat)
    (hread : 0 < nvars → ¬ stale) (hnvars : nvars < 2 ^ 31) :
    InstructionSim O rt k (.closure l nvars) s stale τ σ := by
  refine emitSim_ofOption fun ws hws => emitSim_ofOption fun s' hd => ?_
  refine emitSim_captured hM hread hws hd fun vs τ₁ σ₁ hM hvs => EmitSim.bind ?_
  have hlen : (none :: vs.map some).length = 1 + nvars := by
    have := hvs.length.trans (length_of_picks? hws)
    simp only [List.length_cons, List.length_map]
    omega
  have halloc : EmitSim (O := O) rt
      (allocBlock (none :: vs.map some).length closureTag 1 _) _ _ _ _ :=
    emitSim_alloc rfl (by omega) (by decide) hvs
  rw [hlen] at halloc
  refine halloc.mono fun b vb τ₂ σ₂ hg => emitSim_lookupCode fun p hp => ?_
  refine emitSim_refToInt hg.2 fun va τ₃ σ₃ h₃ hva => ?_
  refine emitSim_ins (w := rt.codePointer l) (hlookup l p hp) fun vp τ₄ σ₄ h₄ hvp => ?_
  refine emitSim_store hvp (hva.later h₄) (BitVec.add_zero _) fun _ => ?_
  exact setAccRef_sim (((hM.later hg.1).later h₃).later h₄) ((hg.2.later h₃).later h₄)

/-- The code pointers of closures that have one. -/
theorem emitSim_lookupCodes {α β : Type} {x : Act O β} {Q : β → α → Translator → IrState → Prop}
    (hlookup : ∀ l p, k.lookupClosureCode l = some p → p = rt.codePointer l) :
    ∀ {ls : List Nat} {j : List Value → Emit α},
    EmitSim rt x (j (ls.map rt.codePointer)) τ σ Q →
    EmitSim rt x (ls.mapM (lookupCode k) >>= j) τ σ Q
  | [], j, h => by
      rw [List.mapM_nil, Emit.pure_bind]
      exact h
  | l :: ls, j, h => by
      rw [List.mapM_cons, Emit.bind_assoc]
      refine emitSim_lookupCode fun p hp => ?_
      rw [hlookup l p hp, Emit.bind_assoc]
      refine emitSim_lookupCodes hlookup ?_
      rw [Emit.pure_bind]
      exact h

/-- The loops over the code pointers after the first. -/
theorem storeInfixes_sim {base : Val} {b : Value} : ∀ {ls : List Nat} {i : Nat} {s : State}
    {τ : Translator} {σ : IrState}, Matches s True τ.stackSize σ → Holds base b τ σ → 0 < i →
    i + ls.length ≤ 2 ^ 27 →
    EmitSim (O := O) rt (storeInfixes rt b i ls s)
      (storeInfixPointers k base i (ls.map rt.codePointer)) τ σ (Done True)
  | [], i, s, τ, σ, hM, hb, hpos, hi => EmitSim.pure hM
  | l :: ls, i, s, τ, σ, hM, hb, hpos, hi => by
      rw [List.length_cons] at hi
      refine emitSim_ins (w := rt.codePointer l) rfl fun vp τ₁ σ₁ h₁ hvp => ?_
      refine emitSim_ins (w := makeHeader (i * 2) infixTag) rfl fun vh τ₂ σ₂ h₂ hvh => ?_
      have hb := (hb.later h₁).later h₂
      refine emitSim_store hvh hb (fieldN_asI32 b (by omega)) fun _ => ?_
      refine emitSim_store (hvp.later h₂) hb ?_ fun _ => ?_
      · rw [Nat.mul_assoc]
        exact fieldN_asI32 b (by omega)
      refine emitSim_ins (w := fieldN b (2 * i)) ?_ fun vi τ₃ σ₃ h₃ hvi => ?_
      · rw [← fieldN_asI32 b (by omega), asI32_of_lt (by omega), ← hb.eq, ← Nat.mul_assoc]
        rfl
      refine emitSim_pushInt hvi fun τ₄ σ₄ h₄ => ?_
      have hM := (((hM.later h₁).later h₂).later h₃).later h₄
      refine storeInfixes_sim (hM.push fun _ hslot => by cases hslot; rfl)
        (((hb.later h₃).later h₄).setVar _ _ _) (Nat.succ_pos i) (by omega)

/-- `CLOSUREREC`. -/
theorem closureRec_sim (hM : Matches s stale τ.stackSize σ)
    (hlookup : ∀ l p, k.lookupClosureCode l = some p → p = rt.codePointer l) (ls : List Nat)
    (nvars : Nat) (hread : 0 < nvars → ¬ stale) (hops : operandsOk (.closureRec ls nvars) s = true) :
    InstructionSim O rt k (.closureRec ls nvars) s stale τ σ := by
  have hnvars : nvars < 2 ^ 30 := immediate_lt (by simp [immediates]) hops
  have hfuncs : ls.length ≤ 2 ^ 27 := of_decide_eq_true (Bool.and_eq_true_iff.mp hops).2
  cases ls with
  | nil => exact fun _ _ _ _ => Sim.stuck
  | cons l rest =>
      refine emitSim_lookupCodes hlookup ?_
      refine emitSim_ofOption fun ws hws => emitSim_ofOption fun s' hd => ?_
      refine emitSim_captured hM hread hws hd fun vs τ₁ σ₁ hM hvs => EmitSim.bind ?_
      have hlen : (List.replicate ((l :: rest).length * 2 - 1) none ++ vs.map some).length
          = (l :: rest).length * 2 - 1 + nvars := by
        have := hvs.length.trans (length_of_picks? hws)
        rw [List.length_append, List.length_replicate, List.length_map, this]
      have halloc : EmitSim (O := O) rt (allocBlock (List.replicate
          ((l :: rest).length * 2 - 1) none ++ vs.map some).length closureTag _ _) _ _ _ _ :=
        emitSim_alloc rfl (by rw [hlen]; omega) (by decide) hvs
      rw [hlen] at halloc
      refine halloc.mono fun b vb τ₂ σ₂ hg => ?_
      refine emitSim_refToInt hg.2 fun va τ₃ σ₃ h₃ hva => ?_
      refine emitSim_ins (w := rt.codePointer l) rfl fun vp τ₄ σ₄ h₄ hvp => ?_
      refine emitSim_store hvp (hva.later h₄) (BitVec.add_zero _) fun _ => ?_
      refine emitSim_pushInt (hva.later h₄) fun τ₅ σ₅ h₅ => ?_
      have hM := (((hM.later hg.1).later h₃).later h₄).later h₅
      exact storeInfixes_sim ((hM.withAccu b).push fun _ hslot => by cases hslot; rfl)
        (((hva.later h₄).later h₅).setVar _ _ _) Nat.one_pos
        (by rw [List.length_cons] at hfuncs; omega)

end Blocks

/-! ## §4. Every instruction. -/

section Every

variable {O : Oracle Request Value} {rt : Layout} {k : TranslatorEnv} {s : State}
  {stale : Prop} {τ : Translator} {σ : IrState}

/-- An instruction that is not translated promises nothing. -/
theorem unimplemented_sim {i : BasicBlockInstruction}
    (h : translateInstruction k i = bail (.unimplementedInstruction i)) :
    InstructionSim O rt k i s stale τ σ := by
  unfold InstructionSim
  rw [h]
  exact emitSim_bail

/-- **Every instruction is translated to its meaning**, if a stale accumulator
is not read. -/
theorem translateInstruction_sim
    (hlookup : ∀ l p, k.lookupClosureCode l = some p → p = rt.codePointer l)
    (hatom : k.atomTableAddr = rt.atomTable + 8) (i : BasicBlockInstruction)
    (hM : Matches s stale τ.stackSize σ) (hops : operandsOk i s = true)
    (hread : readsAccu i = true → ¬ stale) : InstructionSim O rt k i s stale τ σ := by
  cases i with
  | acc n => exact acc_sim hM n
  | envAcc n => exact envAcc_sim hM n
  | push => exact push_sim hM (hread rfl)
  | pop n => exact pop_sim hM n
  | assign n => exact assign_sim hM (hread rfl) n
  | apply1 => exact apply_sim hM (hread rfl) 1
  | apply2 => exact apply_sim hM (hread rfl) 2
  | apply3 => exact apply_sim hM (hread rfl) 3
  | pushRetAddr => exact pushRetAddr_sim hM
  | apply nargs => exact applyFrame_sim hM (hread rfl) nargs
  -- a closure without variables does not read the accumulator
  | closure l nvars =>
      have hnvars : nvars < 2 ^ 30 := immediate_lt (by simp [immediates]) hops
      exact closure_sim hM hlookup l nvars (fun h => hread (decide_eq_true h)) (by omega)
  | closureRec ls nvars =>
      exact closureRec_sim hM hlookup ls nvars (fun h => hread (decide_eq_true h)) hops
  | makeBlock size tag =>
      exact makeBlock_sim hM hatom size tag (fun h => hread (decide_eq_true h)) hops
  | offsetClosure n => exact offsetClosure_sim hM n
  | getGlobal n => exact getGlobal_sim hM n
  | getField n => exact getField_sim hM (hread rfl) n
  | setField n => exact setField_sim hM (hread rfl) n hops
  | getVecTItem => exact getVecTItem_sim hM (hread rfl) hops
  | setVecTItem => exact setVecTItem_sim hM (hread rfl) hops
  | getBytesChar => exact getBytesChar_sim hM (hread rfl)
  | setBytesChar => exact setBytesChar_sim hM (hread rfl)
  | offsetRef n => exact offsetRef_sim hM (hread rfl) n hops
  | const n => exact const_sim hM n
  | boolNot => exact boolNot_sim hM (hread rfl) hops
  | negInt => exact negInt_sim hM (hread rfl)
  | arithInt op => exact arithInt_sim hM (hread rfl) op hops
  | isInt => exact isInt_sim hM (hread rfl)
  | intCmp cmp => exact intCmp_sim hM (hread rfl) cmp
  | offsetInt n => exact offsetInt_sim hM (hread rfl) n hops
  | cCall1 id => exact cCall_sim hM (hread rfl) id .n1
  | cCall2 id => exact cCall_sim hM (hread rfl) id .n2
  | cCall3 id => exact cCall_sim hM (hread rfl) id .n3
  | cCall4 id => exact cCall_sim hM (hread rfl) id .n4
  | cCall5 id => exact cCall_sim hM (hread rfl) id .n5
  | cCallN nargs id => exact cCall_sim (k := k) hM (hread rfl) id (.varArgs nargs)
  | vecTLength => exact vecTLength_sim hM (hread rfl)
  | checkSignals => exact checkSignals_sim hM
  | getDynMet => exact getDynMet_sim hM (hread rfl)
  -- not translated: the compilation of the closure gives up
  | makeFloatBlock size => exact unimplemented_sim rfl
  | setGlobal n => exact unimplemented_sim rfl
  | getFloatField n => exact unimplemented_sim rfl
  | setFloatField n => exact unimplemented_sim rfl
  | popTrap => exact unimplemented_sim rfl
  | getMethod => exact unimplemented_sim rfl
  | setupForPubMet tag => exact unimplemented_sim rfl

end Every

end OcamlJit.Cranelift

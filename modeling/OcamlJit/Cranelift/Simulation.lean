/-
  OcamlJit.Cranelift.Simulation
  ─────────────────────────────
  **THE IR DOES WHAT THE BASIC BLOCKS DO.**

  Exits, blocks and the prologue, and from them that a compiled closure and the
  basic blocks it was compiled from run in lockstep, one block a step.
-/
import OcamlJit.BasicBlocks.Simulation
import OcamlJit.BasicBlocks.StackSizes
import OcamlJit.Cranelift.Applications

namespace OcamlJit.Cranelift

open OcamlJit.Lib OcamlJit.Instructions OcamlJit.Interp OcamlJit.BasicBlocks

/-! ## §1. Exits. -/

section Exits

variable {O : Oracle Request Value} {rt : Layout} {k : TranslatorEnv} {s : State}
  {stale : Prop} {τ : Translator} {σ : IrState} {α β : Type} {x : Act O β}
  {Q : β → α → Translator → IrState → Prop}

/-- Both exits go to the same block of `targets` with corresponding states, or
end with the same result. -/
def SameExit (s : State) (stale : Prop) (size : Nat) (targets : List Nat) :
    Nat ⊕ Result → IrState × Nat ⊕ Result → Prop
  | .inl j, .inl (σ, j') => j = j' ∧ j ∈ targets ∧ Matches s stale size σ
  | .inr r, .inr r' => r = r'
  | _, _ => False

/-- What the translation of exit `x` has to establish. -/
def ExitDone (O : Oracle Request Value) (rt : Layout) (x : BasicBlockExit) (s : State)
    (stale : Prop) (_ : Unit) (t : Terminator) (τ : Translator) (σ : IrState) : Prop :=
  Sim (SameExit s stale τ.stackSize x.targets) (runExit (O := O) x s) (t.run rt σ)

/-- What holds of one exit. -/
def ExitSim (O : Oracle Request Value) (rt : Layout) (k : TranslatorEnv) (x : BasicBlockExit)
    (s : State) (stale : Prop) (τ : Translator) (σ : IrState) : Prop :=
  EmitSim (O := O) rt (pure ()) (translateExit k x) τ σ (ExitDone O rt x s stale)

theorem emitSim_blockRef {j : Nat → Emit α} {l : Nat} (h : EmitSim rt x (j l) τ σ Q) :
    EmitSim rt x (blockRef k l >>= j) τ σ Q :=
  EmitSim.seq (emitSim_ite (fun _ => EmitSim.pure h) fun _ => emitSim_panics)

theorem emitSim_blockRefs : ∀ {ls : List Nat} {j : List Nat → Emit α},
    EmitSim rt x (j ls) τ σ Q → EmitSim rt x (ls.mapM (blockRef k) >>= j) τ σ Q
  | [], j, h => by
      rw [List.mapM_nil, Emit.pure_bind]
      exact h
  | l :: ls, j, h => by
      rw [List.mapM_cons, Emit.bind_assoc]
      refine emitSim_blockRef ?_
      rw [Emit.bind_assoc]
      refine emitSim_blockRefs ?_
      rw [Emit.pure_bind]
      exact h

theorem branch_sim (hM : Matches s stale τ.stackSize σ) (l : Nat) :
    ExitSim O rt k (.branch l) s stale τ σ := by
  refine emitSim_blockRef (EmitSim.pure (Sim.pure ?_))
  exact ⟨rfl, List.mem_singleton_self l, hM⟩

theorem branchIf_sim (hM : Matches s stale τ.stackSize σ) (hread : ¬ stale) (l l' : Nat) :
    ExitSim O rt k (.branchIf l l') s stale τ σ := by
  refine emitSim_accInt hM hread fun v τ₁ σ₁ h₁ hM hv => ?_
  refine emitSim_ins (w := if s.accu = 1 then 1 else 0) ?_ fun c τ₂ σ₂ h₂ hc => ?_
  · rw [← hv.eq]
    simp [Expr.eval, IntCC.holds]
  refine emitSim_blockRef (emitSim_blockRef (EmitSim.pure (Sim.pure ?_)))
  have htarget : (if branchTaken s then l else l') = if σ₂.vals c = 0 then l else l' := by
    rw [hc.eq]
    by_cases h : s.accu = 1
    · have hno : branchTaken s = false := by
        rw [branchTaken, h]
        rfl
      rw [hno, if_pos h]
      rfl
    · have hyes : branchTaken s = true := bne_iff_ne.mpr h
      rw [hyes, if_neg h]
      rfl
  refine ⟨htarget, ?_, hM.later h₂⟩
  show (if branchTaken s then l else l') ∈ [l, l']
  split
  · exact List.mem_cons_self ..
  · exact List.mem_cons_of_mem _ (List.mem_singleton_self _)

theorem branchCmp_sim (hM : Matches s stale τ.stackSize σ) (hread : ¬ stale) (cmp : Comp)
    (n : Int) (l l' : Nat) (hops : exitOperandsOk (.branchCmp cmp n l l') s = true) :
    ExitSim O rt k (.branchCmp cmp n l l') s stale τ σ := by
  refine emitSim_ins (w := valInt n) rfl fun va τ₁ σ₁ h₁ hva => ?_
  refine emitSim_accInt (hM.later h₁) hread fun vb τ₂ σ₂ h₂ hM hvb => ?_
  refine emitSim_blockRef (emitSim_blockRef (EmitSim.pure (Sim.pure ?_)))
  have hops := Bool.and_eq_true_iff.mp hops
  have htaken : cmpTaken cmp n s = (compToCc cmp).holds (σ₂.vals va) (σ₂.vals vb) := by
    rw [compToCc_holds, (hva.later h₂).eq, hvb.eq, compHolds_valInt]
    · rfl
    · exact List.all_eq_true.mp hops.1 n (List.mem_singleton_self n)
    · simpa using hops.2
  refine ⟨by rw [htaken], ?_, hM⟩
  show (if cmpTaken cmp n s then l else l') ∈ [l, l']
  split
  · exact List.mem_cons_self ..
  · exact List.mem_cons_of_mem _ (List.mem_singleton_self _)

/-- A switch block goes where `z` goes. -/
def TableSim (rt : Layout) (s : State) (stale : Prop) (size : Nat) (targets : List Nat)
    (σ : IrState) (z : Act O Nat) (t : SwitchBlock) : Prop :=
  Sim (fun j p => j = p.2 ∧ j ∈ targets ∧ Matches s stale size p.1) z (t.run rt σ)

/-- What is emitted into a side block runs when that block does: `y` finds the
key. -/
theorem emitSim_inSideBlock {γ : Type} {m : Emit Val} {entries targets : List Nat}
    {j : SwitchBlock → Emit α} {y : Act O γ} {f : γ → Option Nat}
    (hsub : ∀ l ∈ entries, l ∈ targets)
    (hm : EmitSim rt y m τ σ fun b key τ' σ' => Matches s stale τ'.stackSize σ' ∧
      ∀ l, f b = some l → entries[(σ'.vals key).toNat]? = some l)
    (hsize : ∀ key τ' ops, m τ = .ok (key, τ', ops) → τ'.stackSize = τ.stackSize)
    (h : ∀ t τ', τ'.stackSize = τ.stackSize →
      TableSim rt s stale τ'.stackSize targets σ (y >>= fun b => Act.ofOption (f b)) t →
      EmitSim rt x (j t) τ' σ Q) :
    EmitSim rt x (inSideBlock m entries >>= j) τ σ Q := by
  intro a τ'' ops hk
  obtain ⟨t, τ', ops₁, ops₂, ht, hrest, rfl⟩ := Emit.bind_eq_ok.mp hk
  obtain ⟨⟨key, τ₁, ops⟩, hkey, ht⟩ := bind_eq_ok.mp ht
  cases ht
  refine h _ τ' (hsize key τ' ops hkey) ?_ a τ'' ops₂ hrest
  refine (hm key τ' ops hkey).bind fun b σ' hb => ?_
  obtain ⟨hM, hlook⟩ := hb
  cases hl : f b with
  | none => exact Sim.stuck
  | some l =>
      rw [hlook l hl]
      exact Sim.pure ⟨rfl, hsub l (List.mem_of_getElem? (hlook l hl)), hM⟩

theorem emitSim_emitIntSwitch {j : SwitchBlock → Emit α} {ints targets : List Nat}
    (hM : Matches s stale τ.stackSize σ) (hread : ¬ stale) (hlen : ints.length < 2 ^ 30)
    (hsub : ∀ l ∈ ints, l ∈ targets)
    (h : ∀ t τ', τ'.stackSize = τ.stackSize → TableSim rt s stale τ'.stackSize targets σ
        (Act.ofOption ints[(longVal s.accu).toNat]? : Act O Nat) t → EmitSim rt x (j t) τ' σ Q) :
    EmitSim rt x (emitIntSwitch k ints >>= j) τ σ Q := by
  unfold emitIntSwitch
  rw [Emit.bind_assoc]
  refine emitSim_blockRefs (emitSim_inSideBlock (y := pure ())
    (f := fun _ => ints[(longVal s.accu).toNat]?) hsub ?_
    (fun _ _ _ hm => by cases hm; rfl) h)
  refine emitSim_accInt hM hread fun va τ₁ σ₁ h₁ hM hva => ?_
  refine emitSim_ins (w := (s.accu.setWidth 32).setWidth 64) (by rw [← hva.eq]; rfl)
    fun vr τ₂ σ₂ h₂ hvr => ?_
  refine EmitSim.last (emitSim_ins rfl fun key τ₃ σ₃ h₃ hkey => EmitSim.pure ?_)
  refine ⟨(hM.later h₂).later h₃, fun l hl => ?_⟩
  have hlt := (List.getElem?_eq_some_iff.mp hl).1
  rw [hkey.eq, Expr.eval, hvr.eq, switchKey_eq (hlt.trans hlen)]
  exact hl

theorem emitSim_emitTagSwitch {j : SwitchBlock → Emit α} {tags targets : List Nat}
    (hM : Matches s stale τ.stackSize σ) (hread : ¬ stale) (hsub : ∀ l ∈ tags, l ∈ targets)
    (h : ∀ t τ', τ'.stackSize = τ.stackSize → TableSim rt s stale τ'.stackSize targets σ
        (do
          let tag ← Act.perform (.load8 (s.accu - 8))
          Act.ofOption tags[(tag.setWidth 8).toNat]? : Act O Nat) t → EmitSim rt x (j t) τ' σ Q) :
    EmitSim rt x (emitTagSwitch k tags >>= j) τ σ Q := by
  unfold emitTagSwitch
  rw [Emit.bind_assoc]
  refine emitSim_blockRefs (emitSim_inSideBlock (y := Act.perform (.load8 (s.accu - 8)))
    (f := fun tag => tags[(tag.setWidth 8).toNat]?) hsub ?_
    (fun _ _ _ hm => by cases hm; rfl) h)
  refine emitSim_accRef hM hread fun va τ₁ σ₁ h₁ hM hva => EmitSim.last ?_
  rw [← Act.bind_pure (Act.perform (O := O) (.load8 (s.accu - 8)))]
  refine emitSim_define_map (fun b => (b.setWidth 8).setWidth 64) (fun v => ?_)
    fun tag key τ₂ σ₂ h₂ hkey => EmitSim.pure ⟨hM.later h₂, fun l hl => ?_⟩
  · have haddr : s.accu - 8 = σ₁.vals va + BitVec.ofInt 64 (-8) := by
      rw [hva.eq, BitVec.sub_eq_add_neg]
      rfl
    show (Act.perform _ >>= _) >>= _ = _
    rw [haddr, Act.bind_assoc]
    rfl
  · rw [hkey.eq, BitVec.toNat_setWidth, Nat.mod_eq_of_lt (by omega)]
    exact hl

/-- A switch is the run of one of its blocks. -/
theorem TableSim.exit {size : Nat} {ints tags : List Nat} {z : Act O Nat} {t : SwitchBlock}
    (h : TableSim rt s stale size (ints ++ tags) σ z t) (hz : switchTarget ints tags s = z) :
    Sim (SameExit s stale size (ints ++ tags)) (runExit (O := O) (.switch ints tags) s)
      (do pure (.inl (← t.run rt σ))) := by
  show Sim _ ((switchTarget ints tags s >>= _) >>= _) _
  rw [hz, Act.bind_assoc]
  exact h.bind fun _ _ hp => Sim.pure hp

theorem switch_sim (hM : Matches s stale τ.stackSize σ) (hread : ¬ stale) (ints tags : List Nat)
    (hops : exitOperandsOk (.switch ints tags) s = true) :
    ExitSim O rt k (.switch ints tags) s stale τ σ := by
  have hints : ∀ l ∈ ints, l ∈ ints ++ tags := fun l hl => List.mem_append_left _ hl
  have htags : ∀ l ∈ tags, l ∈ ints ++ tags := fun l hl => List.mem_append_right _ hl
  have hlen : ints.length < 2 ^ 30 := by
    have := List.all_eq_true.mp (Bool.and_eq_true_iff.mp hops).1 ints.length (by simp [exitImmediates])
    have := (of_decide_eq_true this).2
    omega
  refine emitSim_ite (fun hboth => ?_) fun hboth => emitSim_ite (fun hsome => ?_) fun hnone => ?_
  -- both tables: the low bit decides which
  · refine emitSim_accInt hM hread fun v τ₁ σ₁ h₁ hM hv => ?_
    refine emitSim_ins (w := s.accu &&& 1) (by rw [← hv.eq]; rfl) fun lsb τ₂ σ₂ h₂ hlsb => ?_
    have hM := hM.later h₂
    refine emitSim_emitIntSwitch hM hread hlen hints fun t τ₃ hs₃ ht => ?_
    refine emitSim_emitTagSwitch (hs₃ ▸ hM) hread htags fun t' τ₄ hs₄ ht' => EmitSim.pure ?_
    unfold ExitDone
    rw [Terminator.run]
    by_cases heven : s.accu &&& 1 = 0
    · rw [if_pos (hlsb.eq.trans heven)]
      exact ht'.exit (if_pos heven)
    · rw [if_neg (fun h => heven (hlsb.eq.symm.trans h))]
      rw [hs₄]
      exact ht.exit (if_neg heven)
  -- only integers
  · obtain rfl : tags = [] := by simpa [hsome] using hboth
    have hlong : isLong s.accu = true := by simpa using (Bool.and_eq_true_iff.mp hops).2
    refine emitSim_emitIntSwitch hM hread hlen hints fun t τ₁ hs₁ ht => EmitSim.pure ?_
    refine ht.exit (if_neg fun heven => ?_)
    rw [isLong, heven] at hlong
    cases hlong
  -- only tags, and an integer is stuck in the interpreter
  · obtain rfl : ints = [] := not_not.mp hnone
    refine emitSim_bailIf fun _ => ?_
    refine emitSim_emitTagSwitch hM hread htags fun t τ₁ hs₁ ht => EmitSim.pure ?_
    by_cases heven : s.accu &&& 1 = 0
    · exact ht.exit (if_pos heven)
    · show Sim _ ((switchTarget [] tags s >>= _) >>= _) _
      rw [switchTarget, if_neg heven]
      exact Sim.stuck

theorem emitSim_returnTrace {j : Unit → Emit α} (hM : Matches s stale τ.stackSize σ)
    (h : ∀ τ' σ', Matches s stale τ'.stackSize σ' → EmitSim rt x (j ()) τ' σ' Q) :
    EmitSim rt x (returnTrace k >>= j) τ σ Q := by
  unfold returnTrace traced
  split
  · rw [Emit.bind_assoc]
    exact emitSim_getAccRef fun v τ₁ σ₁ h₁ _ => emitSim_emit rfl (h τ₁ σ₁ (hM.later h₁))
  · rw [Emit.pure_bind]
    exact h τ σ hM

/-- A value to return. -/
theorem return_sim (hM : Matches s stale τ.stackSize σ) (hread : ¬ stale) (toPop : Nat) :
    ExitSim O rt k (.return_ toPop) s stale τ σ := by
  refine emitSim_returnTrace hM fun τ₁ σ₁ hM => ?_
  refine emitSim_pop fun _ => EmitSim.pure ?_
  show Sim _ ((_ >>= _) >>= _) _
  rw [Act.bind_assoc]
  unfold doReturn
  cases hd : s.drop? toPop with
  | none => exact Sim.stuck
  | some s' =>
      refine Sim.pure ?_
      show Result.returned s.accu = σ₁.result
      rw [IrState.result, if_pos hM.extraArgs, hM.accu hread]

/-- A tail call leaves its arguments on the OCaml stack. -/
theorem tailCall_sim (hM : Matches s stale τ.stackSize σ) (hread : ¬ stale) (args toPop : Nat)
    (hops : exitOperandsOk (.tailCall args toPop) s = true) :
    ExitSim O rt k (.tailCall args toPop) s stale τ σ := by
  have hargs : args < 2 ^ 30 := by
    have := List.all_eq_true.mp (Bool.and_eq_true_iff.mp hops).1 args (by simp [exitImmediates])
    have := (of_decide_eq_true this).2
    omega
  have hpos : 0 < args := of_decide_eq_true (Bool.and_eq_true_iff.mp hops).2
  refine emitSim_returnTrace hM fun τ₁ σ₁ hM => ?_
  unfold pushLastNItemsForReal
  rw [Emit.bind_assoc, asI32_of_lt (by omega)]
  refine emitSim_pickRefs fun vs τ₂ σ₂ h₂ hvs => emitSim_emit rfl ?_
  refine emitSim_ins (w := BitVec.ofNat 64 args) rfl fun v τ₃ σ₃ h₃ hv => ?_
  refine emitSim_emit rfl (emitSim_pop fun _ => EmitSim.pure ?_)
  show Sim _ ((_ >>= _) >>= _) _
  rw [Act.bind_assoc]
  unfold doTailCall
  cases hws : s.picks? args with
  | none => exact Sim.stuck
  | some ws =>
      cases hd : s.drop? toPop with
      | none => exact Sim.stuck
      | some s' =>
          refine Sim.pure ?_
          have hcount : (BitVec.ofNat 64 args).toNat = args :=
            (BitVec.toNat_ofNat ..).trans (Nat.mod_eq_of_lt (by omega))
          -- a count of 0 would mean a return
          have hne : BitVec.ofNat 64 args ≠ 0 := fun h => by
            rw [h] at hcount
            exact absurd hcount.symm (Nat.ne_of_gt hpos)
          have hstack : σ₃.ocamlStack = ws := by
            rw [h₃.ocamlStack]
            show vs.map σ₂.vals ++ σ₂.ocamlStack = ws
            rw [hvs.eq, h₂.ocamlStack, hM.ocamlStack, List.append_nil]
            exact hM.picks hws
          have hacc : σ₃.vars .acc = s.accu := by
            rw [h₃.vars]
            show σ₂.vars .acc = s.accu
            rw [h₂.vars, hM.accu hread]
          show Result.tailCall s.accu ws = IrState.result _
          unfold IrState.result
          simp only [IrState.vars_setVar, IrState.ocamlStack_setVar, if_true, hv.eq]
          rw [if_neg hne, hcount, if_neg (by simp), hacc, hstack,
            List.take_of_length_le (Nat.le_of_eq (length_of_picks? hws))]

theorem raise_sim (hM : Matches s stale τ.stackSize σ) (hread : ¬ stale) (kind : RaiseKind) :
    ExitSim O rt k (.raise kind) s stale τ σ := by
  refine emitSim_accRef hM hread fun v τ₁ σ₁ h₁ hM hv => EmitSim.pure (Sim.pure ?_)
  show Result.raised s.accu = .raised (σ₁.vals v)
  rw [hv.eq]

/-- **Every exit is translated to its meaning.** -/
theorem translateExit_sim (e : BasicBlockExit) (hM : Matches s stale τ.stackSize σ)
    (hops : exitOperandsOk e s = true) (hread : exitReadsAccu e = true → ¬ stale) :
    ExitSim O rt k e s stale τ σ := by
  cases e with
  | branch l => exact branch_sim hM l
  | branchIf l l' => exact branchIf_sim hM (hread rfl) l l'
  | branchCmp cmp n l l' => exact branchCmp_sim hM (hread rfl) cmp n l l' hops
  | switch ints tags => exact switch_sim hM (hread rfl) ints tags hops
  | pushTrap normal trap => exact emitSim_bail
  | return_ toPop => exact return_sim hM (hread rfl) toPop
  | tailCall args toPop => exact tailCall_sim hM (hread rfl) args toPop hops
  | raise kind => exact raise_sim hM (hread rfl) kind
  | stop => exact emitSim_bail

end Exits

/-! ## §2. Blocks. -/

section Blocks

variable {O : Oracle Request Value} {rt : Layout} {k : TranslatorEnv} {c : BasicClosure}
  {atEntry : Prop} {i : Nat} {b : BasicBlock}

/-- A stale accumulator after an instruction is one in front of the next. -/
theorem Stale.after {instr : BasicBlockInstruction} {pre rest : List BasicBlockInstruction}
    (hb : c.blocks[i]? = some b) (his : b.instructions = pre ++ instr :: rest)
    (h : staleAfter (Stale c atEntry i (instr :: rest)) instr) : Stale c atEntry i rest := by
  cases instr with
  | closureRec ls nvars => exact .closureRec hb his
  | _ => exact .keep h.1 h.2

/-- The instructions of a block, from any of them on. -/
theorem translateInstructions_sim
    (hlookup : ∀ l p, k.lookupClosureCode l = some p → p = rt.codePointer l)
    (hatom : k.atomTableAddr = rt.atomTable + 8) (hstale : StaleOverwritten c atEntry)
    (hb : c.blocks[i]? = some b) :
    ∀ {is pre : List BasicBlockInstruction} {s : State} {τ : Translator} {σ : IrState},
    b.instructions = pre ++ is → Matches s (Stale c atEntry i is) τ.stackSize σ →
    EmitSim (O := O) rt (runInstructions rt is s) (translateInstructions k is) τ σ
      (Done (Stale c atEntry i []))
  | [], _, _, _, _, _, hM => EmitSim.pure hM
  | instr :: is, pre, s, τ, σ, his, hM => by
      refine emitSim_require fun hops => EmitSim.bind ?_
      have hread : readsAccu instr = true → ¬ Stale c atEntry i (instr :: is) := by
        intro hr hs
        rw [hstale.instructions i instr is hs] at hr
        cases hr
      refine (translateInstruction_sim hlookup hatom instr hM hops hread).mono
        fun s' _ τ' σ' hM => ?_
      have his' : b.instructions = (pre ++ [instr]) ++ is := by
        rw [his, List.append_assoc]
        rfl
      exact translateInstructions_sim hlookup hatom hstale hb his'
        (hM.mono fun h => Stale.after hb his h)

/-- **A block is translated to its meaning**: its instructions and then its
exit. -/
theorem translateBlock_sim
    (hlookup : ∀ l p, k.lookupClosureCode l = some p → p = rt.codePointer l)
    (hatom : k.atomTableAddr = rt.atomTable + 8) (hstale : StaleOverwritten c atEntry)
    (hb : c.blocks[i]? = some b) {s : State} {τ : Translator} {σ : IrState}
    (hM : Matches s (Stale c atEntry i b.instructions) b.startStackSize σ) :
    EmitSim (O := O) rt (do
        let s' ← runInstructions rt b.instructions s
        Act.require (exitOperandsOk b.exit s')
        pure s')
      (translateBlock k b) τ σ fun s' t _ σ' =>
        Sim (SameExit s' (Stale c atEntry i []) b.endStackSize b.exit.targets)
          (runExit (O := O) b.exit s') (t.run rt σ') := by
  refine emitSim_update (EmitSim.bind ?_)
  refine (translateInstructions_sim hlookup hatom hstale hb (List.nil_append _).symm hM).mono
    fun s' _ τ' σ' hM => emitSim_require fun hops => ?_
  have hread : exitReadsAccu b.exit = true → ¬ Stale c atEntry i [] := by
    intro hr hs
    rw [hstale.exits i b hb hs] at hr
    cases hr
  have hexit : ExitSim O rt k b.exit _ _ _ _ := translateExit_sim b.exit hM hops hread
  refine EmitSim.bind (x := pure ()) (y := fun _ => pure s') (hexit.mono fun _ t τ₁ σ₁ h => ?_)
  refine emitSim_current (emitSim_bailIf fun hsize => EmitSim.pure ?_)
  rw [← not_not.mp hsize]
  exact h

end Blocks

/-! ## §3. The prologue. -/

section Prologue

variable {O : Oracle Request Value} {rt : Layout} {k : TranslatorEnv} {α β : Type}
  {x : Act O β} {Q : β → α → Translator → IrState → Prop} {τ : Translator}

/-- The arguments go to the variables below `n`. -/
theorem emitSim_defineArgs {arity : Nat} : ∀ {n : Nat} {σ : IrState} {j : Unit → Emit α},
    (∀ σ', σ'.vals = σ.vals → σ'.ocamlStack = σ.ocamlStack →
      (∀ i, σ'.vars (.stack i) = if i < n then σ.vals (arity - i) else σ.vars (.stack i)) →
      EmitSim rt x (j ()) τ σ' Q) →
    EmitSim rt x (defineArgs k arity n >>= j) τ σ Q
  | 0, σ, j, h => by
      rw [defineArgs, Emit.pure_bind]
      exact h σ rfl rfl fun i => (if_neg (Nat.not_lt_zero i)).symm
  | n + 1, σ, j, h => by
      rw [defineArgs, Emit.bind_assoc]
      refine emitSim_stackVar ?_
      rw [Emit.bind_assoc]
      refine emitSim_emit rfl (emitSim_defineArgs fun σ' hvals hocaml hvars => ?_)
      refine h σ' hvals hocaml fun i => ?_
      rw [hvars, IrState.vars_setVar]
      by_cases hi : i = n
      · subst hi
        simp
      · have hne : ¬ Var.stack i = Var.stack n := fun h => hi (by injection h)
        rw [if_neg hne]
        by_cases hlt : i < n
        · rw [if_pos hlt, if_pos (Nat.lt_succ_of_lt hlt)]
          rfl
        · rw [if_neg hlt, if_neg (by omega)]

/-- The variables from `i` on are set, and the ones below are left alone. -/
theorem emitSim_zeroStack {v : Val} : ∀ {count i : Nat} {σ : IrState} {j : Unit → Emit α},
    (∀ σ', σ'.vals = σ.vals → σ'.ocamlStack = σ.ocamlStack → σ'.vars .acc = σ.vars .acc →
      (∀ n, n < i → σ'.vars (.stack n) = σ.vars (.stack n)) → EmitSim rt x (j ()) τ σ' Q) →
    EmitSim rt x (zeroStack k v i count >>= j) τ σ Q
  | 0, i, σ, j, h => by
      rw [zeroStack, Emit.pure_bind]
      exact h σ rfl rfl rfl fun _ _ => rfl
  | count + 1, i, σ, j, h => by
      rw [zeroStack, Emit.bind_assoc]
      refine emitSim_stackVar ?_
      rw [Emit.bind_assoc]
      refine emitSim_emit rfl (emitSim_zeroStack fun σ' hvals hocaml hacc hvars => ?_)
      refine h σ' hvals hocaml (hacc.trans (by simp)) fun n hn => ?_
      refine (hvars n (Nat.lt_succ_of_lt hn)).trans (if_neg fun h => ?_)
      injection h with h
      omega

/-- The state a compiled function is entered with. -/
def parameters (env : Value) (args : List Value) : IrState :=
  ⟨fun v => (env :: args).getD v 0, fun _ => 0, []⟩

/-- **The prologue makes the entry states correspond**; the accumulator of the
IR starts as 0. -/
theorem createTranslator_sim {c : BasicClosure} {env a : Value} {args : List Value}
    (hargs : args.length = c.arity) (hlast : τ.lastValue = c.arity) :
    EmitSim (O := O) rt (pure ()) (createTranslator k c) τ (parameters env args)
      fun _ _ _ σ' => Matches (BlockPoint.enter a env args).state (a ≠ 0) c.arity σ' := by
  refine emitSim_defineArgs fun σ₁ hvals hocaml hvars => ?_
  refine emitSim_ins (w := 0) rfl fun vr τ₂ σ₂ h₂ hvr => ?_
  refine emitSim_ins (w := 0) rfl fun vi τ₃ σ₃ h₃ hvi => ?_
  have hvr := hvr.later h₃
  refine emitSim_emit rfl (emitSim_zeroStack fun σ₄ hvals₄ hocaml₄ hacc₄ hvars₄ => ?_)
  refine EmitSim.last (emitSim_emit rfl (EmitSim.pure ?_))
  -- the block parameters are the first values, and nothing redefines them
  have hparam : ∀ v : Nat, v ≤ c.arity → (parameters env args).vals v = σ₄.vals v := by
    intro v hv
    have hv : v ≤ τ.lastValue := hlast ▸ hv
    rw [hvals₄]
    show _ = σ₃.vals v
    rw [h₃.vals v (hv.trans h₂.lastValue), h₂.vals v hv, hvals]
  -- argument `i` is put into the slot it has on the stack of the interpreter
  have hslot : ∀ i, i < c.arity → σ₄.vars (.stack i) = σ₄.vals (c.arity - i) := by
    intro i hi
    rw [hvars₄ i hi, ← hparam _ (Nat.sub_le _ _)]
    show σ₃.vars (.stack i) = _
    rw [h₃.vars, h₂.vars, hvars, if_pos hi]
  refine ⟨by simp [BlockPoint.enter, hargs], ?_, ?_, ?_, ?_, ?_⟩
  · intro i v hv
    obtain ⟨w, hw, hwv⟩ := Option.map_eq_some_iff.mp ((List.getElem?_map ..).symm.trans hv)
    obtain rfl : w = v := by injection hwv
    obtain ⟨hi, -⟩ := List.getElem?_eq_some_iff.mp hw
    rw [IrState.vars_setVar, if_neg (by simp), hslot _ (by omega), ← hparam _ (Nat.sub_le _ _),
      show c.arity - (c.arity - i - 1) = i + 1 by omega]
    show (env :: args).getD (i + 1) 0 = w
    rw [List.getD_cons_succ, List.getD_eq_getElem?_getD, hw]
    rfl
  · show σ₄.vals 0 = env
    rw [← hparam 0 (Nat.zero_le _)]
    rfl
  · intro hacc
    rw [IrState.vars_setVar, if_neg (by simp), hacc₄, IrState.vars_setVar, if_pos rfl, hvr.eq]
    exact (not_not.mp hacc).symm
  · rw [IrState.vars_setVar, if_pos rfl, hvals₄]
    exact hvi.eq
  · show σ₄.ocamlStack = []
    rw [hocaml₄]
    show σ₃.ocamlStack = []
    rw [h₃.ocamlStack, h₂.ocamlStack, hocaml]
    rfl

end Prologue

/-! ## §4. Closures. -/

section Closure

variable {O : Oracle Request Value} {rt : Layout} {k : TranslatorEnv} {c : BasicClosure}
  {atEntry : Prop} {f : IrFunction}

/-- The blocks of the function are the translations of the blocks. -/
theorem translateBlocks_getElem? : ∀ {bs : List BasicBlock} {τ : Translator} {irs : List IrBlock},
    translateBlocks k bs τ = .ok irs → ∀ {i : Nat} {b : BasicBlock}, bs[i]? = some b →
    ∃ τ₁ t τ₂ ops, translateBlock k b τ₁ = .ok (t, τ₂, ops) ∧ irs[i]? = some ⟨ops, t⟩
  | [], _, _, _, i, b, hb => by cases hb
  | b₀ :: bs, τ, irs, h, i, b, hb => by
      obtain ⟨⟨t, τ', ops⟩, hblock, h⟩ := bind_eq_ok.mp h
      obtain ⟨rest, hrest, h⟩ := bind_eq_ok.mp h
      cases h
      cases i with
      | zero =>
          cases hb
          exact ⟨τ, t, τ', ops, hblock, rfl⟩
      | succ i =>
          rw [List.getElem?_cons_succ] at hb ⊢
          exact translateBlocks_getElem? hrest hb

/-- The two machines are at the start of the same block, in corresponding
states. -/
def AtBlock (c : BasicClosure) (atEntry : Prop) (p : BlockPoint) (q : IrConfig) : Prop :=
  p.block = q.block ∧ ∃ b, c.blocks[p.block]? = some b ∧
    Matches p.state (Stale c atEntry p.block b.instructions) b.startStackSize q.state

/-- A step is the instructions of a block, what its exit asks of them, and the exit. -/
theorem referenceStep_eq {p : BlockPoint} {b : BasicBlock} (hb : c.blocks[p.block]? = some b) :
    referenceStep (O := O) rt c p = (do
      let s' ← (do
        let s' ← runInstructions rt b.instructions p.state
        Act.require (exitOperandsOk b.exit s')
        pure s')
      match ← runExit b.exit s' with
      | .inl j => pure (.running ⟨j, s'⟩)
      | .inr r => pure (.done r)) := by
  simp only [referenceStep, hb, Act.ofOption_some, Act.pure_bind]
  refine ((Act.bind_assoc _ _ _).trans (congrArg _ (funext fun s' => ?_))).symm
  exact (Act.bind_assoc _ _ _).trans (congrArg _ (funext fun _ => Act.pure_bind _ _))

/-- **One block in both machines.** -/
theorem irStep_sim {code : List Word} {bs : List Nat} {entry size arity : Nat} {st : SearchState}
    (hs : Searched code bs entry size st) (hn : Numbered arity st c)
    (htrap : c.hasTrapHandlers = false)
    (hlookup : ∀ l p, k.lookupClosureCode l = some p → p = rt.codePointer l)
    (hatom : k.atomTableAddr = rt.atomTable + 8) (hstale : StaleOverwritten c atEntry)
    {τ : Translator} (hf : translateBlocks k c.blocks τ = .ok f.blocks) (p : BlockPoint)
    (q : IrConfig) (hpq : AtBlock c atEntry p q) :
    Sim (O := O) (Progress.Rel (AtBlock c atEntry)) (referenceStep rt c p) (irStep rt f q) := by
  obtain ⟨hblock, b, hb, hM⟩ := hpq
  obtain ⟨τ₁, t, τ₂, ops, htrans, hir⟩ := translateBlocks_getElem? hf hb
  have hbody := translateBlock_sim (O := O) hlookup hatom hstale hb hM t τ₂ ops htrans
  unfold irStep
  rw [referenceStep_eq hb, ← hblock, hir]
  refine hbody.bind fun s' σ' hexit => hexit.bind fun r r' hr => ?_
  cases r with
  | inr r =>
      cases r' with
      | inl p' => exact hr.elim
      | inr r' =>
          obtain rfl : r = r' := hr
          exact Sim.pure rfl
  | inl j =>
      cases r' with
      | inr r' => exact hr.elim
      | inl p' =>
          obtain ⟨hj, htarget, hM⟩ := hr
          obtain ⟨b', hb', hstart⟩ :=
            hn.startStackSize_of_target hs hb (hn.no_pushTrap hs htrap hb) htarget
          refine Sim.pure ⟨hj, b', hb', ?_⟩
          rw [hstart]
          exact hM.mono fun h => .jump h hb htarget hb'

end Closure

/-- **A compiled closure does what its basic blocks do.**  For any environment,
any arguments and any number of steps: the same applications, primitive calls,
allocations, reads, writes and exceptions in the same order with the same
values, and the same end. -/
theorem compileClosure_sim {O : Oracle Request Value} (rt : Layout) (code : List Word)
    (entry : Nat) (c : BasicClosure) (h : parseToBasicBlocks code entry = .ok c)
    (lookup : Nat → Option Value) (traces : Bool) (cCalls : List (Nat × Arity)) (f : IrFunction)
    (hf : compileClosure lookup (rt.atomTable + 8) traces cCalls c = .ok (.supportedClosure f))
    (hlookup : ∀ l p, lookup l = some p → p = rt.codePointer l)
    (accu env : Value) (args : List Value) (hargs : args.length = c.arity)
    (hstale : StaleOverwritten c (accu ≠ 0)) (n : Nat) :
    Sim (O := O) (Progress.Rel fun p q => p.block = q.block)
      (iterate (referenceStep rt c) n (BlockPoint.enter accu env args))
      (f.enter rt env args >>= iterate (irStep rt f) n) := by
  obtain ⟨arity, st, ⟨bs, -, -, hv⟩, hn⟩ := parseToBasicBlocks_eq_ok h
  have hs := visit_searched hv
  obtain ⟨htrap, harity, τ, hpro, hblocks⟩ := compileClosure_eq_ok hf
  obtain ⟨b, -, hb, hstart, -⟩ := hn.origin_of_seen hs hs.entrySeen
  rw [idOf_entry hs] at hb
  rw [← hn.arity, Nat.mod_eq_of_lt (by omega)] at hstart
  have hcreate : EmitSim (O := O) rt _
      (createTranslator (translatorEnv lookup (rt.atomTable + 8) traces c) c)
      ⟨c.arity, c.arity, [], cCalls⟩ (parameters env args) _ :=
    createTranslator_sim (a := accu) hargs rfl
  have henter := hcreate () τ f.prologue hpro
  have hstart : Sim (O := O) (fun _ q => AtBlock c (accu ≠ 0) (BlockPoint.enter accu env args) q)
      (pure ()) (f.enter rt env args) := by
    have hsim : Sim (O := O) (fun _ q => AtBlock c (accu ≠ 0) (BlockPoint.enter accu env args) q)
        (pure () >>= fun _ => pure ()) (f.enter rt env args) := by
      refine henter.bind fun _ σ hM => Sim.pure ⟨rfl, b, hb, ?_⟩
      rw [hstart]
      exact hM.mono fun ha => .entry ha hb
    exact hsim
  have hrun := hstart.bind fun _ q hq => Sim.iterate
    (irStep_sim hs hn htrap hlookup rfl hstale hblocks) n (BlockPoint.enter accu env args) q hq
  refine Sim.mono (x := iterate (referenceStep rt c) n (BlockPoint.enter accu env args)) hrun ?_
  intro p q hpq
  cases p <;> cases q
  · exact hpq.1
  · exact hpq
  · exact hpq
  · exact hpq

/-- The loop `ACC0; CHECK_SIGNALS; BRANCHIF; RETURN 1`, called with `true`. -/
theorem compileClosure_sim_loop :
    ∃ c f, parseToBasicBlocks [0, 92, 85, -2, 40, 1] 0 = .ok c ∧
      compileClosure (fun _ => none) 8 false [] c = .ok (.supportedClosure f) ∧
      ∀ n, Sim (O := unitOracle) (Progress.Rel fun p q => p.block = q.block)
        (iterate (referenceStep ⟨0, 0, 0, fun _ => 0⟩ c) n (BlockPoint.enter 0 1 [3]))
        (f.enter ⟨0, 0, 0, fun _ => 0⟩ 1 [3] >>= iterate (irStep ⟨0, 0, 0, fun _ => 0⟩ f) n) := by
  have hc : parseToBasicBlocks [0, 92, 85, -2, 40, 1] 0
      = .ok ⟨1, [⟨0, [], .first, [.acc 0], .branch 1, 1, 1, []⟩,
        ⟨1, [1, 0], .normal, [.checkSignals], .branchIf 1 2, 1, 1, [1, 2]⟩,
        ⟨2, [1], .normal, [], .return_ 1, 1, 0, []⟩], [], 1, false⟩ := by decide
  have hf : compileClosure (fun _ => none) 8 false [] ⟨1, [⟨0, [], .first, [.acc 0], .branch 1, 1,
        1, []⟩, ⟨1, [1, 0], .normal, [.checkSignals], .branchIf 1 2, 1, 1, [1, 2]⟩,
        ⟨2, [1], .normal, [], .return_ 1, 1, 0, []⟩], [], 1, false⟩
      = .ok (.supportedClosure ⟨[.defVar (.stack 0) 1, .ins 2 .null, .ins 3 (.iconst 0),
          .defVar .acc 2, .defVar .returnExtraArgs 3],
        [⟨[.useVar 4 (.stack 0), .defVar .acc 4], .jump 1⟩,
          ⟨[.ins 5 (.symbolValue .camlSomethingToDoAddr), .load 6 .i32 5 0,
            .callIfNonzero 6 .camlProcessPendingActions false, .useVar 7 .acc,
            .ins 8 (.rawBitcast 7), .ins 9 (.icmpImm .equal 8 1)], .brz 9 1 2⟩,
          ⟨[], .ret⟩]⟩) := by decide
  refine ⟨_, _, hc, hf, fun n => ?_⟩
  refine compileClosure_sim ⟨0, 0, 0, fun _ => 0⟩ _ 0 _ hc (fun _ => none) false [] _ hf
    (fun _ _ h => nomatch h) 0 1 [3] rfl ?_ n
  exact staleOverwritten_of_no_closureRec (fun h => h rfl) (by simp)

end OcamlJit.Cranelift

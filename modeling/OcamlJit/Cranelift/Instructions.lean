/-
  OcamlJit.Cranelift.Instructions
  ───────────────────────────────
  **EVERY INSTRUCTION IS TRANSLATED TO ITS MEANING.**

  `Matches` relates a state of the reference to a state of the IR: word `i` of
  the stack is in variable `size - i - 1`, the environment is value 0, and the
  accumulator agrees unless it is stale.  `translateInstruction_sim` keeps it.
-/
import OcamlJit.Cranelift.Logic

namespace OcamlJit.Cranelift

open OcamlJit.Lib OcamlJit.Instructions OcamlJit.Interp OcamlJit.BasicBlocks

/-! ## §1. Corresponding states. -/

/-- The states correspond at tracked stack size `size`. -/
structure Matches (s : State) (stale : Prop) (size : Nat) (σ : IrState) : Prop where
  depth : s.stack.length = size
  stack : ∀ (i : Nat) (v : Value), s.stack[i]? = some (.val v) →
    σ.vars (.stack (size - i - 1)) = v
  env : σ.vals 0 = s.env
  accu : ¬ stale → σ.vars .acc = s.accu
  extraArgs : σ.vars .returnExtraArgs = 0
  ocamlStack : σ.ocamlStack = []

section Matches

variable {s s' : State} {stale : Prop} {size n : Nat} {σ σ' : IrState} {v : Value}

/-- A word of the stack is in its variable. -/
theorem Matches.pick (hM : Matches s stale size σ) (h : s.pick? n = some v) :
    σ.vars (.stack (size - n - 1)) = v :=
  hM.stack n v (pick?_eq_some h)

/-- Words off the stack, and nothing else of what the states say. -/
theorem Matches.drop (hM : Matches s stale size σ) (h : s.drop? n = some s') :
    Matches s' stale (size - n) σ := by
  obtain ⟨hle, rfl⟩ := drop?_eq_some h
  have hdepth := hM.depth
  refine ⟨?_, ?_, hM.env, hM.accu, hM.extraArgs, hM.ocamlStack⟩
  · rw [List.length_drop, hdepth]
  · intro i v hv
    rw [List.getElem?_drop] at hv
    have := hM.stack (n + i) v hv
    rwa [show size - (n + i) - 1 = size - n - i - 1 by omega] at this

/-- More values change nothing. -/
theorem Matches.later {τ τ' : Translator} (hM : Matches s stale τ.stackSize σ)
    (h : Later τ σ τ' σ') : Matches s stale τ'.stackSize σ' := by
  rw [h.stackSize]
  refine ⟨hM.depth, ?_, (h.vals 0 (Nat.zero_le _)).trans hM.env, ?_, ?_,
    h.ocamlStack.trans hM.ocamlStack⟩
  · rw [h.vars]
    exact hM.stack
  · rw [h.vars]
    exact hM.accu
  · rw [h.vars]
    exact hM.extraArgs

/-- A new accumulator. -/
theorem Matches.setAcc (hM : Matches s stale size σ) (v : Value) (st : Prop) :
    Matches (s.withAccu v) st size (σ.setVar .acc v) := by
  refine ⟨hM.depth, fun i w hw => ?_, hM.env, fun _ => rfl, ?_, hM.ocamlStack⟩
  · rw [IrState.vars_setVar, if_neg (by simp)]
    exact hM.stack i w hw
  · rw [IrState.vars_setVar, if_neg (by simp)]
    exact hM.extraArgs

/-- Only the tracked slots hold values. -/
theorem getElem?_val_lt {i : Nat} (hM : Matches s stale size σ)
    (h : s.stack[i]? = some (.val v)) : i < size := by
  rw [← hM.depth]
  exact (List.getElem?_eq_some_iff.mp h).1

/-- A word onto the stack. -/
theorem Matches.push (hM : Matches s stale size σ) {slot : Slot} {w : Value}
    (hslot : ∀ v, slot = .val v → v = w) :
    Matches { s with stack := slot :: s.stack } stale (size + 1)
      (σ.setVar (.stack size) w) := by
  refine ⟨by simp [hM.depth], ?_, hM.env, ?_, ?_, hM.ocamlStack⟩
  · intro i v hv
    cases i with
    | zero =>
        cases hv
        rw [hslot v rfl, show size + 1 - 0 - 1 = size by omega, IrState.vars_setVar, if_pos rfl]
    | succ i =>
        rw [List.getElem?_cons_succ] at hv
        have hi := getElem?_val_lt hM hv
        have hne : Var.stack (size + 1 - (i + 1) - 1) ≠ Var.stack size := by
          intro h
          injection h with h
          omega
        rw [IrState.vars_setVar, if_neg hne, show size + 1 - (i + 1) - 1 = size - i - 1 by omega]
        exact hM.stack i v hv
  · intro h
    rw [IrState.vars_setVar, if_neg (by simp)]
    exact hM.accu h
  · rw [IrState.vars_setVar, if_neg (by simp)]
    exact hM.extraArgs

/-- A stale accumulator may be anything. -/
theorem Matches.withAccu (hM : Matches s stale size σ) (v : Value) :
    Matches (s.withAccu v) True size σ :=
  ⟨hM.depth, hM.stack, hM.env, fun h => (h trivial).elim, hM.extraArgs, hM.ocamlStack⟩

/-- A word of the stack is overwritten. -/
theorem Matches.assign (hM : Matches s stale size σ) (hn : n < size) (w : Value) :
    Matches { s with stack := s.stack.set n (.val w) } stale size
      (σ.setVar (.stack (size - n - 1)) w) := by
  refine ⟨by rw [List.length_set, hM.depth], ?_, hM.env, ?_, ?_, hM.ocamlStack⟩
  · intro i v hv
    have hlen : n < s.stack.length := hM.depth ▸ hn
    by_cases hi : n = i
    · subst hi
      rw [List.getElem?_set_self hlen] at hv
      cases hv
      exact if_pos rfl
    · rw [List.getElem?_set_ne hi] at hv
      have hlt := getElem?_val_lt hM hv
      have hne : Var.stack (size - i - 1) ≠ Var.stack (size - n - 1) := by
        intro h
        injection h with h
        omega
      rw [IrState.vars_setVar, if_neg hne]
      exact hM.stack i v hv
  · intro h
    rw [IrState.vars_setVar, if_neg (by simp)]
    exact hM.accu h
  · rw [IrState.vars_setVar, if_neg (by simp)]
    exact hM.extraArgs

/-- A stale accumulator is less to know. -/
theorem Matches.mono (hM : Matches s stale size σ) {stale' : Prop} (h : stale → stale') :
    Matches s stale' size σ :=
  ⟨hM.depth, hM.stack, hM.env, fun hs => hM.accu fun hs' => hs (h hs'), hM.extraArgs,
    hM.ocamlStack⟩

end Matches

/-- Whether the accumulator is stale after an instruction. -/
def staleAfter (stale : Prop) : BasicBlockInstruction → Prop
  | .closureRec _ _ => True
  | i => stale ∧ keepsAccu i = true

/-! ## §2. The parts of an instruction. -/

section Parts

variable {O : Oracle Request Value} {rt : Layout} {k : TranslatorEnv} {s s' : State}
  {stale st : Prop} {τ τ' : Translator} {σ σ' : IrState} {v : Val} {w : Value} {n : Nat}
  {α β : Type} {x : Act O β} {j : Val → Emit α} {Q : β → α → Translator → IrState → Prop}

/-- What a method that ends an instruction has to establish. -/
def Done (st : Prop) (s : State) (_ : Unit) (τ : Translator) (σ : IrState) : Prop :=
  Matches s st τ.stackSize σ

/-- The last thing done is to write the accumulator. -/
theorem setAccRef_sim (hM : Matches s stale τ.stackSize σ) (hv : Holds v w τ σ) :
    EmitSim (O := O) rt (pure (s.withAccu w)) (setAccRef v) τ σ (Done st) :=
  EmitSim.last (emitSim_setAccRef hv (EmitSim.pure (hM.setAcc w st)))

/-- And so it is for an integer. -/
theorem setAccInt_sim (hM : Matches s stale τ.stackSize σ) (hv : Holds v w τ σ) :
    EmitSim (O := O) rt (pure (s.withAccu w)) (setAccInt v) τ σ (Done st) :=
  emitSim_ins hv.eq fun _ _ _ h hv' => setAccRef_sim (hM.later h) hv'

/-- And for unit. -/
theorem setAccUnit_sim (hM : Matches s stale τ.stackSize σ) :
    EmitSim (O := O) rt (pure (s.withAccu valUnit)) setAccUnit τ σ (Done st) :=
  emitSim_ins rfl fun _ _ _ h hv => setAccInt_sim (hM.later h) hv

/-- The accumulator, unless it is stale. -/
theorem emitSim_accRef (hM : Matches s stale τ.stackSize σ) (hread : ¬ stale)
    (h : ∀ v τ' σ', Later τ σ τ' σ' → Matches s stale τ'.stackSize σ' → Holds v s.accu τ' σ' →
      EmitSim rt x (j v) τ' σ' Q) : EmitSim rt x (getAccRef >>= j) τ σ Q :=
  emitSim_getAccRef fun v τ' σ' hl hv => h v τ' σ' hl (hM.later hl) (hM.accu hread ▸ hv)

/-- The accumulator as an integer is what the interpreter has in it. -/
theorem emitSim_accInt (hM : Matches s stale τ.stackSize σ) (hread : ¬ stale)
    (h : ∀ v τ' σ', Later τ σ τ' σ' → Matches s stale τ'.stackSize σ' → Holds v s.accu τ' σ' →
      EmitSim rt x (j v) τ' σ' Q) : EmitSim rt x (getAccInt >>= j) τ σ Q :=
  emitSim_getAccInt fun v τ' σ' hl hv => h v τ' σ' hl (hM.later hl) (hM.accu hread ▸ hv)

/-- A word of the stack. -/
theorem emitSim_wordRef (hM : Matches s stale τ.stackSize σ) (hw : s.pick? n = some w)
    (h : ∀ v τ' σ', Later τ σ τ' σ' → Matches s stale τ'.stackSize σ' → Holds v w τ' σ' →
      EmitSim rt x (j v) τ' σ' Q) : EmitSim rt x (pickRef k n >>= j) τ σ Q :=
  emitSim_pickRef fun _ v τ' σ' hl hv => h v τ' σ' hl (hM.later hl) (hM.pick hw ▸ hv)

/-- A stack slot as an integer is what the interpreter has there. -/
theorem emitSim_wordInt (hM : Matches s stale τ.stackSize σ) (hw : s.pick? n = some w)
    (h : ∀ v τ' σ', Later τ σ τ' σ' → Matches s stale τ'.stackSize σ' → Holds v w τ' σ' →
      EmitSim rt x (j v) τ' σ' Q) : EmitSim rt x (pickInt k n >>= j) τ σ Q :=
  emitSim_pickInt fun _ v τ' σ' hl hv => h v τ' σ' hl (hM.later hl) (hM.pick hw ▸ hv)

/-- Words off the stack. -/
theorem emitSim_drop {j : Unit → Emit α} (hM : Matches s stale τ.stackSize σ)
    (hd : s.drop? n = some s')
    (h : ∀ τ', (∀ {v w}, Holds v w τ σ → Holds v w τ' σ) → Matches s' stale τ'.stackSize σ →
      EmitSim rt x (j ()) τ' σ Q) : EmitSim rt x (pop n >>= j) τ σ Q :=
  emitSim_pop fun _ => h _ (fun hv => hv.resize _) (hM.drop hd)

end Parts

/-! ## §3. Arithmetic. -/

section Arith

variable {O : Oracle Request Value} {rt : Layout} {k : TranslatorEnv} {s s' : State}
  {stale st : Prop} {τ τ' : Translator} {σ σ' : IrState} {a b : Val} {x y : Value}

/-- A method that gives a value. -/
def Gives (τ : Translator) (σ : IrState) (w : Value) (v : Val) (τ' : Translator)
    (σ' : IrState) : Prop :=
  Later τ σ τ' σ' ∧ Holds v w τ' σ'

/-- The last instruction gives the result. -/
theorem ins_gives {e : Expr} {w : Value} (h : Later τ σ τ' σ') (hw : e.eval rt σ'.vals = w) :
    EmitSim (O := O) rt (pure w) (ins e) τ' σ' (Gives τ σ) :=
  EmitSim.last (emitSim_ins hw fun _ _ _ h' hv => EmitSim.pure ⟨h.trans h', hv⟩)

/-- The result is tagged. -/
theorem longToValue_gives {v : Val} {w : Value} (h : Later τ σ τ' σ') (hv : Holds v w τ' σ') :
    EmitSim (O := O) rt (pure (valLong w)) (longToValue v) τ' σ' (Gives τ σ) :=
  EmitSim.last (emitSim_longToValue hv fun _ _ _ h' hv' => EmitSim.pure ⟨h.trans h', hv'⟩)

/-- A shift by `Long_val(y)`. -/
theorem shiftBy_sim {f : Nat → Value} {j : Val → Emit Val} (hb : Holds b y τ σ)
    (h : ∀ v τ' σ', Later τ σ τ' σ' → Holds v (longVal y) τ' σ' →
      (longVal y).toNat % 64 = (longVal y).toNat →
      EmitSim (O := O) rt (pure (f (longVal y).toNat)) (j v) τ' σ' (Gives τ σ)) :
    EmitSim (O := O) rt (shiftBy f y) (valueToLong b >>= j) τ σ (Gives τ σ) := by
  unfold shiftBy
  split
  · rename_i hlt
    exact emitSim_valueToLong hb fun v τ' σ' h₁ hv => h v τ' σ' h₁ hv (Nat.mod_eq_of_lt hlt)
  · exact fun _ _ _ _ => Sim.stuck

/-- `divide` checks the divisor before it divides. -/
theorem divide_sim {o : Val → Val → Val → Op} {f : BitVec 64 → BitVec 64 → BitVec 64}
    (ha : Holds a x τ σ) (hb : Holds b y τ σ) (hlong : isLong y = true)
    (hop : ∀ (v va vb : Val) (σ' : IrState), σ'.vals va = longVal x → σ'.vals vb = longVal y →
      longVal y ≠ 0 →
      (runOp rt σ' (o v va vb) : Act O IrState) = pure (σ'.setVal v (f (longVal x) (longVal y)))) :
    EmitSim (O := O) rt (divide f x y) (do
      checkDivZero b
      let al ← valueToLong a
      let bl ← valueToLong b
      let rl ← define (o · al bl)
      longToValue rl) τ σ (Gives τ σ) := by
  unfold divide checkDivZero
  rw [Emit.bind_assoc]
  refine emitSim_ins rfl fun c τ₁ σ₁ h₁ hc => ?_
  have hcond : σ₁.vals c = if y = 1 then 1 else 0 := by
    rw [hc.eq, ← hb.eq]
    simp [Expr.eval, IntCC.holds]
  by_cases hzero : longVal y = 0
  · -- both raise
    rw [if_pos hzero]
    rw [if_pos ((longVal_eq_zero_iff hlong).mp hzero)] at hcond
    refine emitSim_emit_stuck ?_
    show (if σ₁.vals c = 0 then _ else _) = _
    rw [hcond]
    rfl
  · rw [if_neg hzero]
    rw [if_neg fun h => hzero ((longVal_eq_zero_iff hlong).mpr h)] at hcond
    refine emitSim_emit (if_pos hcond) ?_
    refine emitSim_valueToLong (ha.later h₁) fun va τ₂ σ₂ h₂ hva => ?_
    refine emitSim_valueToLong ((hb.later h₁).later h₂) fun vb τ₃ σ₃ h₃ hvb => ?_
    refine emitSim_define (fun v => hop v va vb σ₃ (hva.later h₃).eq hvb.eq hzero)
      fun v τ₄ σ₄ h₄ hv => ?_
    exact longToValue_gives (((h₁.trans h₂).trans h₃).trans h₄) hv

/-- **The tagged arithmetic**: a divisor has to be tagged, the other words need not be. -/
theorem arith_sim (op : ArithOp) (ha : Holds a x τ σ) (hb : Holds b y τ σ)
    (hdiv : op = .div ∨ op = .mod → isLong y = true) :
    EmitSim (O := O) rt (arith op x y) (translateArith op a b) τ σ (Gives τ σ) := by
  cases op with
  -- the tag is counted twice: it is taken off once
  | add =>
      refine emitSim_ins (w := x + y) (by rw [← ha.eq, ← hb.eq]; rfl) fun v τ₁ σ₁ h₁ hv => ?_
      refine ins_gives h₁ ?_
      rw [← hv.eq, BitVec.sub_eq_add_neg]
      rfl
  -- and here it cancels
  | sub =>
      refine emitSim_ins (w := x - y) (by rw [← ha.eq, ← hb.eq]; rfl) fun v τ₁ σ₁ h₁ hv => ?_
      refine ins_gives h₁ ?_
      rw [← hv.eq]
      rfl
  -- both are untagged first
  | mul =>
      refine emitSim_valueToLong ha fun va τ₁ σ₁ h₁ hva => ?_
      refine emitSim_valueToLong (hb.later h₁) fun vb τ₂ σ₂ h₂ hvb => ?_
      refine emitSim_ins (w := longVal x * longVal y)
        (by rw [← (hva.later h₂).eq, ← hvb.eq]; rfl) fun v τ₃ σ₃ h₃ hv => ?_
      exact longToValue_gives ((h₁.trans h₂).trans h₃) hv
  -- `sdiv` traps on an overflow too, which 63-bit operands do not reach
  | div =>
      refine divide_sim (o := Op.sdiv) ha hb (hdiv (.inl rfl)) fun v va vb σ' hva hvb hne => ?_
      have hok : ¬(longVal y = 0 ∨ longVal x = BitVec.intMin 64 ∧ longVal y = -1) := by
        rintro (h | ⟨h, -⟩)
        · exact hne h
        · exact longVal_ne_intMin x h
      simp only [runOp, hva, hvb, if_neg hok]
  | mod =>
      refine divide_sim (o := Op.srem) ha hb (hdiv (.inr rfl)) fun v va vb σ' hva hvb hne => ?_
      simp only [runOp, hva, hvb, if_neg hne]
  | and => exact ins_gives Later.refl (by rw [← ha.eq, ← hb.eq]; rfl)
  | or => exact ins_gives Later.refl (by rw [← ha.eq, ← hb.eq]; rfl)
  | xor =>
      refine emitSim_ins (w := x ^^^ y) (by rw [← ha.eq, ← hb.eq]; rfl) fun v τ₁ σ₁ h₁ hv => ?_
      refine ins_gives h₁ ?_
      rw [← hv.eq]
      rfl
  -- the shifted tag is put back
  | lsl =>
      refine shiftBy_sim hb fun vn τ₁ σ₁ h₁ hvn hn => ?_
      refine emitSim_ins (w := x - 1) (by rw [← (ha.later h₁).eq, BitVec.sub_eq_add_neg]; rfl)
        fun vd τ₂ σ₂ h₂ hvd => ?_
      refine emitSim_ins (w := (x - 1) <<< (longVal y).toNat)
        (by rw [← hn, ← (hvn.later h₂).eq, ← hvd.eq]; rfl) fun v τ₃ σ₃ h₃ hv => ?_
      exact ins_gives ((h₁.trans h₂).trans h₃) (by rw [← hv.eq]; rfl)
  | lsr =>
      refine shiftBy_sim hb fun vn τ₁ σ₁ h₁ hvn hn => ?_
      refine emitSim_ins (w := x >>> (longVal y).toNat)
        (by rw [← hn, ← hvn.eq, ← (ha.later h₁).eq]; rfl) fun v τ₂ σ₂ h₂ hv => ?_
      exact ins_gives (h₁.trans h₂) (by rw [← hv.eq]; rfl)
  | asr =>
      refine shiftBy_sim hb fun vn τ₁ σ₁ h₁ hvn hn => ?_
      refine emitSim_ins (w := x.sshiftRight (longVal y).toNat)
        (by rw [← hn, ← hvn.eq, ← (ha.later h₁).eq]; rfl) fun v τ₂ σ₂ h₂ hv => ?_
      exact ins_gives (h₁.trans h₂) (by rw [← hv.eq]; rfl)

end Arith

/-! ## §4. Instructions without a loop. -/

section Instructions

variable {O : Oracle Request Value} {rt : Layout} {k : TranslatorEnv} {s : State}
  {stale : Prop} {τ : Translator} {σ : IrState}

/-- What holds of one instruction. -/
def InstructionSim (O : Oracle Request Value) (rt : Layout) (k : TranslatorEnv)
    (i : BasicBlockInstruction) (s : State) (stale : Prop) (τ : Translator) (σ : IrState) :
    Prop :=
  EmitSim (O := O) rt (blockMeaning rt i s) (translateInstruction k i) τ σ
    (Done (staleAfter stale i))

/-- `ACC`. -/
theorem acc_sim (hM : Matches s stale τ.stackSize σ) (n : Nat) :
    InstructionSim O rt k (.acc n) s stale τ σ :=
  emitSim_ofOption fun _ hw => emitSim_wordRef hM hw fun _ _ _ _ hM hv => setAccRef_sim hM hv

/-- `ENVACC`. -/
theorem envAcc_sim (hM : Matches s stale τ.stackSize σ) (n : Nat) :
    InstructionSim O rt k (.envAcc n) s stale τ σ := by
  refine emitSim_fieldOffset (emitSim_load ⟨Nat.zero_le _, hM.env⟩ (field_operand _ _)
    fun w v τ' σ' h hv => ?_)
  exact setAccRef_sim (hM.later h) hv

/-- `PUSH`. -/
theorem push_sim (hM : Matches s stale τ.stackSize σ) (hread : ¬ stale) :
    InstructionSim O rt k .push s stale τ σ := by
  refine emitSim_accRef hM hread fun v τ' σ' h hM hv => EmitSim.last (emitSim_pushRef hv ?_)
  exact EmitSim.pure ((hM.push fun _ hslot => by cases hslot; rfl).mono fun h => (hread h).elim)

/-- `POP`. -/
theorem pop_sim (hM : Matches s stale τ.stackSize σ) (n : Nat) :
    InstructionSim O rt k (.pop n) s stale τ σ := by
  refine EmitSim.last ?_
  show EmitSim rt (Act.ofOption (s.drop? n)) _ _ _ _
  rw [← Act.bind_pure (Act.ofOption (s.drop? n))]
  refine emitSim_ofOption fun s' hd => emitSim_drop hM hd fun τ' keep hM => ?_
  exact EmitSim.pure (hM.mono fun h => ⟨h, rfl⟩)

/-- `ASSIGN`, which writes unit to the accumulator. -/
theorem assign_sim (hM : Matches s stale τ.stackSize σ) (hread : ¬ stale) (n : Nat) :
    InstructionSim O rt k (.assign n) s stale τ σ := by
  show EmitSim rt (doAssign n s) _ _ _ _
  unfold doAssign
  split
  · refine emitSim_accRef hM hread fun v τ₁ σ₁ h₁ hM hv => emitSim_assignRef hv fun hlt => ?_
    exact setAccUnit_sim (hM.assign hlt s.accu)
  · exact fun _ _ _ _ => Sim.stuck

/-- `PUSH_RETADDR`: three slots that nobody reads. -/
theorem pushRetAddr_sim (hM : Matches s stale τ.stackSize σ) :
    InstructionSim O rt k .pushRetAddr s stale τ σ := by
  refine emitSim_ins rfl fun v τ₁ σ₁ h₁ hv => ?_
  have hpush : ∀ {s : State} {size : Nat} {σ : IrState}, Matches s stale size σ →
      Matches { s with stack := .frame :: s.stack } stale (size + 1) (σ.setVar (.stack size) _) :=
    fun hM => hM.push (w := Expr.eval rt σ.vals .null) fun _ hslot => (nomatch hslot)
  refine emitSim_pushRef hv (emitSim_pushRef ⟨hv.last, hv.eq⟩
    (emitSim_pushRef ⟨hv.last, hv.eq⟩ (EmitSim.pure ?_)))
  exact (hpush (hpush (hpush (hM.later h₁)))).mono fun h => ⟨h, rfl⟩

/-- `OFFSETCLOSURE`. -/
theorem offsetClosure_sim (hM : Matches s stale τ.stackSize σ) (n : Int) :
    InstructionSim O rt k (.offsetClosure n) s stale τ σ := by
  refine emitSim_refToInt ⟨Nat.zero_le _, hM.env⟩ fun v τ₁ σ₁ h₁ hv => ?_
  refine emitSim_ins (w := s.env + BitVec.ofInt 64 (n * 8)) (by rw [← hv.eq]; rfl)
    fun v' τ₂ σ₂ h₂ hv' => ?_
  exact setAccInt_sim ((hM.later h₁).later h₂) hv'

/-- `GETGLOBAL`. -/
theorem getGlobal_sim (hM : Matches s stale τ.stackSize σ) (n : Nat) :
    InstructionSim O rt k (.getGlobal n) s stale τ σ := by
  refine emitSim_ins (w := rt.globalData) rfl fun v τ₁ σ₁ h₁ hv => ?_
  refine emitSim_load hv (BitVec.add_zero _) fun globals vg τ₂ σ₂ h₂ hg => ?_
  refine emitSim_fieldOffset (emitSim_load hg (field_operand _ _) fun w v τ₃ σ₃ h₃ hv => ?_)
  exact setAccRef_sim (((hM.later h₁).later h₂).later h₃) hv

/-- `GETFIELD`. -/
theorem getField_sim (hM : Matches s stale τ.stackSize σ) (hread : ¬ stale) (n : Nat) :
    InstructionSim O rt k (.getField n) s stale τ σ := by
  refine emitSim_accRef hM hread fun v τ₁ σ₁ h₁ hM hv => ?_
  refine emitSim_fieldOffset (emitSim_load hv (field_operand _ _) fun w v τ₂ σ₂ h₂ hv => ?_)
  exact setAccRef_sim (hM.later h₂) hv

/-- The immediates of an instruction that has one. -/
theorem immediate_of_ok {i : BasicBlockInstruction} {n : Int} (hn : n ∈ immediates i)
    (h : operandsOk i s = true) : immediateOk n = true := by
  unfold operandsOk at h
  exact List.all_eq_true.mp (Bool.and_eq_true_iff.mp h).1 n hn

/-- The immediate operands are small enough to be multiplied by the word size. -/
theorem immediate_lt {i : BasicBlockInstruction} {n : Nat} (hn : (n : Int) ∈ immediates i)
    (h : operandsOk i s = true) : n < 2 ^ 30 := by
  have := (of_decide_eq_true (immediate_of_ok hn h)).2
  omega

/-- `ptr` of `SetField`. -/
theorem emitSim_pointerAt {β : Type} {x : Act O β} {j : Val → Emit Unit} {v : Val} {w : Value}
    {offset : Nat} {Q : β → Unit → Translator → IrState → Prop} (hv : Holds v w τ σ)
    (h : ∀ v τ' σ', Later τ σ τ' σ' → Holds v (w + BitVec.ofInt 64 offset) τ' σ' →
      EmitSim rt x (j v) τ' σ' Q) : EmitSim rt x (pointerAt v offset >>= j) τ σ Q := by
  unfold pointerAt
  split
  · exact emitSim_ins (by rw [← hv.eq]; rfl) h
  · rename_i hzero
    obtain rfl : offset = 0 := Nat.eq_zero_of_not_pos hzero
    rw [Emit.pure_bind]
    exact h v τ σ Later.refl ⟨hv.last, hv.eq.trans (BitVec.add_zero _).symm⟩

/-- `SETFIELD`, through `caml_modify`. -/
theorem setField_sim (hM : Matches s stale τ.stackSize σ) (hread : ¬ stale) (n : Nat)
    (hops : operandsOk (.setField n) s = true) : InstructionSim O rt k (.setField n) s stale τ σ := by
  have hn : n < 2 ^ 30 := immediate_lt (by simp [immediates]) hops
  refine emitSim_ofOption fun w hw => emitSim_ofOption fun s' hd => ?_
  refine emitSim_panicIf fun _ => emitSim_accInt hM hread fun va τ₁ σ₁ h₁ hM hva => ?_
  refine emitSim_pointerAt hva fun vp τ₂ σ₂ h₂ hvp => ?_
  refine emitSim_wordRef (hM.later h₂) hw fun vw τ₃ σ₃ h₃ hM hvw => ?_
  refine emitSim_drop hM hd fun τ₄ _ hM => ?_
  refine emitSim_callPrimitiveUnit ?_ fun _ => setAccUnit_sim hM
  rw [field_operand_of_lt _ (by omega), ← (hvp.later h₃).eq, ← hvw.eq]
  rfl

/-- `(i ^ 1) << 2`. -/
theorem emitSim_offset {β : Type} {x : Act O β} {j : Val → Emit Unit} {v : Val} {i : Value}
    {Q : β → Unit → Translator → IrState → Prop} (hv : Holds v i τ σ) (hlong : isLong i = true)
    (h : ∀ v τ' σ', Later τ σ τ' σ' → Holds v (8 * longVal i) τ' σ' →
      EmitSim rt x (j v) τ' σ' Q) :
    EmitSim rt x (do
      let flipped ← ins (.bxorImm v 1)
      let bytes ← ins (.ishlImm flipped 2)
      j bytes) τ σ Q := by
  refine emitSim_ins (w := i ^^^ 1) (by rw [← hv.eq]; rfl) fun vf τ₁ σ₁ h₁ hvf => ?_
  refine emitSim_ins (w := 8 * longVal i) ?_ fun vb τ₂ σ₂ h₂ hvb => h vb τ₂ σ₂ (h₁.trans h₂) hvb
  rw [← flipped_index hlong, ← hvf.eq]
  rfl

/-- A divisor is tagged. -/
theorem operandsOk_divisor {op : ArithOp} (h : operandsOk (.arithInt op) s = true)
    (hop : op = .div ∨ op = .mod) : longAt s 0 = true := by
  rcases hop with rfl | rfl <;> exact (Bool.and_eq_true_iff.mp h).2

/-- What is tagged is an integer. -/
theorem isLong_of_longAt {n : Nat} {w : Value} (hw : s.pick? n = some w)
    (h : longAt s n = true) : isLong w = true := by
  unfold longAt at h
  rwa [hw] at h

/-- `GETVECTITEM`: the index is a tagged integer. -/
theorem getVecTItem_sim (hM : Matches s stale τ.stackSize σ) (hread : ¬ stale)
    (hops : operandsOk .getVecTItem s = true) :
    InstructionSim O rt k .getVecTItem s stale τ σ := by
  refine emitSim_ofOption fun i hi => emitSim_ofOption fun s' hd => ?_
  refine emitSim_wordInt hM hi fun vi τ₁ σ₁ h₁ hM hvi => ?_
  refine emitSim_drop hM hd fun τ₂ keep hM => ?_
  refine emitSim_offset (keep hvi) (isLong_of_longAt hi hops) fun vb τ₃ σ₃ h₃ hvb => ?_
  refine emitSim_accRef (hM.later h₃) hread fun va τ₄ σ₄ h₄ hM hva => ?_
  refine emitSim_define_request (fun v => ?_) fun w v τ₅ σ₅ h₅ hv => setAccRef_sim (hM.later h₅) hv
  rw [field, ← drop?_accu hd, ← hva.eq, ← (hvb.later h₄).eq]
  rfl

/-- `SETVECTITEM`, through `caml_modify`. -/
theorem setVecTItem_sim (hM : Matches s stale τ.stackSize σ) (hread : ¬ stale)
    (hops : operandsOk .setVecTItem s = true) :
    InstructionSim O rt k .setVecTItem s stale τ σ := by
  refine emitSim_ofOption fun i hi => emitSim_ofOption fun w hw =>
    emitSim_ofOption fun s' hd => ?_
  refine emitSim_wordInt hM hi fun vi τ₁ σ₁ h₁ hM hvi => ?_
  refine emitSim_wordRef hM hw fun vw τ₂ σ₂ h₂ hM hvw => ?_
  refine emitSim_drop hM hd fun τ₃ keep hM => ?_
  refine emitSim_offset (keep (hvi.later h₂)) (isLong_of_longAt hi hops) fun vb τ₄ σ₄ h₄ hvb => ?_
  refine emitSim_accInt (hM.later h₄) hread fun va τ₅ σ₅ h₅ hM hva => ?_
  refine emitSim_ins (w := field s.accu (longVal i)) ?_ fun vp τ₆ σ₆ h₆ hvp => ?_
  · rw [field, ← drop?_accu hd, ← hva.eq, ← (hvb.later h₅).eq]
    rfl
  · refine emitSim_callPrimitiveUnit ?_ fun _ => setAccUnit_sim (hM.later h₆)
    rw [← hvp.eq, ← ((((keep hvw).later h₄).later h₅).later h₆).eq]
    rfl

/-- `GETBYTESCHAR`. -/
theorem getBytesChar_sim (hM : Matches s stale τ.stackSize σ) (hread : ¬ stale) :
    InstructionSim O rt k .getBytesChar s stale τ σ := by
  refine emitSim_ofOption fun i hi => emitSim_ofOption fun s' hd => ?_
  refine emitSim_wordInt hM hi fun vi τ₁ σ₁ h₁ hM hvi => ?_
  refine emitSim_drop hM hd fun τ₂ keep hM => ?_
  refine emitSim_valueToLong (keep hvi) fun vo τ₃ σ₃ h₃ hvo => ?_
  refine emitSim_accRef (hM.later h₃) hread fun va τ₄ σ₄ h₄ hM hva => ?_
  refine emitSim_define_map (fun b => (b.setWidth 8).setWidth 64) (fun v => ?_)
    fun b vb τ₅ σ₅ h₅ hvb => ?_
  · show (Act.perform _ >>= _) >>= _ = _
    rw [← drop?_accu hd, ← hva.eq, ← (hvo.later h₄).eq, Act.bind_assoc]
    rfl
  · refine emitSim_ins (w := (b.setWidth 8).setWidth 64) ?_ fun vl τ₆ σ₆ h₆ hvl => ?_
    · rw [← setWidth_byte, ← hvb.eq]
      rfl
    · exact emitSim_longToValue hvl fun v τ₇ σ₇ h₇ hv =>
        setAccInt_sim (((hM.later h₅).later h₆).later h₇) hv

/-- `SETBYTESCHAR`. -/
theorem setBytesChar_sim (hM : Matches s stale τ.stackSize σ) (hread : ¬ stale) :
    InstructionSim O rt k .setBytesChar s stale τ σ := by
  refine emitSim_ofOption fun i hi => emitSim_ofOption fun w hw =>
    emitSim_ofOption fun s' hd => ?_
  refine emitSim_wordInt hM hi fun vi τ₁ σ₁ h₁ hM hvi => ?_
  refine emitSim_wordInt hM hw fun vw τ₂ σ₂ h₂ hM hvw => ?_
  refine emitSim_drop hM hd fun τ₃ keep hM => ?_
  refine emitSim_valueToLong (keep (hvi.later h₂)) fun vo τ₄ σ₄ h₄ hvo => ?_
  refine emitSim_accRef (hM.later h₄) hread fun va τ₅ σ₅ h₅ hM hva => ?_
  refine emitSim_valueToLong (((keep hvw).later h₄).later h₅) fun vl τ₆ σ₆ h₆ hvl => ?_
  refine emitSim_ins rfl fun vb τ₇ σ₇ h₇ hvb => ?_
  refine emitSim_emit_request ?_ fun _ => setAccUnit_sim ((hM.later h₆).later h₇)
  rw [← byte_of_intVal, ← drop?_accu hd, ← ((hva.later h₆).later h₇).eq,
    ← (((hvo.later h₅).later h₆).later h₇).eq, ← hvl.eq]
  rw [show ((σ₆.vals vl).setWidth 8).setWidth 64 = σ₇.vals vb from hvb.eq.symm]
  rfl

/-- `OFFSETREF`. -/
theorem offsetRef_sim (hM : Matches s stale τ.stackSize σ) (hread : ¬ stale) (n : Int)
    (hops : operandsOk (.offsetRef n) s = true) :
    InstructionSim O rt k (.offsetRef n) s stale τ σ := by
  refine emitSim_accRef hM hread fun va τ₁ σ₁ h₁ hM hva => ?_
  refine emitSim_load hva (BitVec.add_zero _) fun old vo τ₂ σ₂ h₂ hvo => ?_
  refine emitSim_ins (w := old + doubledOperand n) ?_ fun vn τ₃ σ₃ h₃ hvn => ?_
  · rw [← hvo.eq, doubledOperand_eq (immediate_of_ok (by simp [immediates]) hops)]
    rfl
  · exact emitSim_store hvn ((hva.later h₂).later h₃) (BitVec.add_zero _)
      fun _ => setAccUnit_sim ((hM.later h₂).later h₃)

/-- `VECTLENGTH`. -/
theorem vecTLength_sim (hM : Matches s stale τ.stackSize σ) (hread : ¬ stale) :
    InstructionSim O rt k .vecTLength s stale τ σ := by
  refine emitSim_accRef hM hread fun va τ₁ σ₁ h₁ hM hva => ?_
  refine emitSim_callPrimitiveValue (by rw [← hva.eq]; rfl) fun w v τ₂ σ₂ h₂ hv => ?_
  exact setAccRef_sim (hM.later h₂) hv

/-- `GETDYNMET`. -/
theorem getDynMet_sim (hM : Matches s stale τ.stackSize σ) (hread : ¬ stale) :
    InstructionSim O rt k .getDynMet s stale τ σ := by
  refine emitSim_ofOption fun obj hobj => ?_
  refine emitSim_accRef hM hread fun va τ₁ σ₁ h₁ hM hva => ?_
  refine emitSim_wordRef hM hobj fun vo τ₂ σ₂ h₂ hM hvo => ?_
  refine emitSim_callPrimitiveValue (by rw [← hvo.eq, ← (hva.later h₂).eq]; rfl)
    fun w v τ₃ σ₃ h₃ hv => ?_
  exact setAccRef_sim (hM.later h₃) hv

/-- `CHECK_SIGNALS`. -/
theorem checkSignals_sim (hM : Matches s stale τ.stackSize σ) :
    InstructionSim O rt k .checkSignals s stale τ σ := by
  refine emitSim_ins (w := rt.somethingToDo) rfl fun va τ₁ σ₁ h₁ hva => ?_
  refine emitSim_define_map (fun t => (t.setWidth 32).setWidth 64) (fun v => ?_)
    fun todo vt τ₂ σ₂ h₂ hvt => EmitSim.last ?_
  · show (Act.perform _ >>= _) >>= _ = _
    rw [← BitVec.add_zero rt.somethingToDo, ← hva.eq, Act.bind_assoc]
    rfl
  · have hM : Matches s (staleAfter stale .checkSignals) _ _ :=
      ((hM.later h₁).later h₂).mono fun h => ⟨h, rfl⟩
    by_cases hzero : todo.setWidth 32 = 0
    · rw [if_pos hzero]
      refine emitSim_emit (if_pos ?_) (EmitSim.pure hM)
      rw [hvt.eq, setWidth_eq_zero_iff, hzero]
    · rw [if_neg hzero]
      refine emitSim_emit_request (if_neg ?_) fun _ => EmitSim.pure hM
      rw [hvt.eq, setWidth_eq_zero_iff]
      exact hzero

/-- `CONSTINT`. -/
theorem const_sim (hM : Matches s stale τ.stackSize σ) (n : Int) :
    InstructionSim O rt k (.const n) s stale τ σ := by
  refine emitSim_ins (w := valInt n) rfl fun v τ₁ σ₁ h₁ hv => ?_
  refine emitSim_ins (w := valInt n) hv.eq fun v' τ₂ σ₂ h₂ hv' => ?_
  exact setAccRef_sim ((hM.later h₁).later h₂) hv'

/-- `BOOLNOT`. -/
theorem boolNot_sim (hM : Matches s stale τ.stackSize σ) (hread : ¬ stale)
    (hops : operandsOk .boolNot s = true) : InstructionSim O rt k .boolNot s stale τ σ := by
  have hbool : s.accu = valFalse ∨ s.accu = valTrue := by simpa [operandsOk, immediates] using hops
  refine emitSim_accInt hM hread fun v τ₁ σ₁ h₁ hM hv => ?_
  refine emitSim_ins (w := valFalse + valTrue - s.accu) ?_ fun v' τ₂ σ₂ h₂ hv' => ?_
  · show σ₁.vals v ^^^ BitVec.ofInt 64 2 = _
    rw [hv.eq]
    rcases hbool with h | h <;> rw [h] <;> rfl
  · exact setAccInt_sim (hM.later h₂) hv'

/-- `NEGINT`. -/
theorem negInt_sim (hM : Matches s stale τ.stackSize σ) (hread : ¬ stale) :
    InstructionSim O rt k .negInt s stale τ σ := by
  refine emitSim_ins (w := 2) rfl fun two τ₁ σ₁ h₁ htwo => ?_
  refine emitSim_accInt (hM.later h₁) hread fun v τ₂ σ₂ h₂ hM hv => ?_
  refine emitSim_ins (w := 2 - s.accu) (by rw [← hv.eq, ← (htwo.later h₂).eq]; rfl)
    fun v' τ₃ σ₃ h₃ hv' => ?_
  exact setAccInt_sim (hM.later h₃) hv'

/-- `ADDINT` to `ASRINT`. -/
theorem arithInt_sim (hM : Matches s stale τ.stackSize σ) (hread : ¬ stale) (op : ArithOp)
    (hops : operandsOk (.arithInt op) s = true) :
    InstructionSim O rt k (.arithInt op) s stale τ σ := by
  refine emitSim_ofOption fun b hb => emitSim_ofOption fun s' hd => ?_
  refine emitSim_accInt hM hread fun va τ₁ σ₁ h₁ hM hva => ?_
  refine emitSim_wordInt hM hb fun vb τ₂ σ₂ h₂ hM hvb => ?_
  refine emitSim_drop hM hd fun τ₃ keep hM => EmitSim.bind ?_
  have hdiv : op = .div ∨ op = .mod → isLong b = true :=
    fun hop => isLong_of_longAt hb (operandsOk_divisor hops hop)
  refine (arith_sim op (keep (hva.later h₂)) (keep hvb) hdiv).mono fun w v τ' σ' hg => ?_
  exact setAccInt_sim (hM.later hg.1) hg.2

/-- `ISINT`. -/
theorem isInt_sim (hM : Matches s stale τ.stackSize σ) (hread : ¬ stale) :
    InstructionSim O rt k .isInt s stale τ σ := by
  refine emitSim_accInt hM hread fun v τ₁ σ₁ h₁ hM hv => ?_
  refine emitSim_ins (w := s.accu &&& 1) (by rw [← hv.eq]; rfl) fun v' τ₂ σ₂ h₂ hv' => ?_
  exact emitSim_longToValue hv' fun v τ₃ σ₃ h₃ hv => setAccInt_sim ((hM.later h₂).later h₃) hv

/-- `EQ` to `UGEINT`. -/
theorem intCmp_sim (hM : Matches s stale τ.stackSize σ) (hread : ¬ stale) (cmp : Comp) :
    InstructionSim O rt k (.intCmp cmp) s stale τ σ := by
  refine emitSim_ofOption fun y hy => emitSim_ofOption fun s' hd => ?_
  refine emitSim_accInt hM hread fun vx τ₁ σ₁ h₁ hM hvx => ?_
  refine emitSim_wordInt hM hy fun vy τ₂ σ₂ h₂ hM hvy => ?_
  refine emitSim_drop hM hd fun τ₃ keep hM => ?_
  refine emitSim_ins (w := valTrue) rfl fun t τ₄ σ₄ h₄ ht => ?_
  refine emitSim_ins (w := valFalse) rfl fun f τ₅ σ₅ h₅ hf => ?_
  refine emitSim_ins ?_ fun v τ₆ σ₆ h₆ hv => setAccInt_sim (((hM.later h₄).later h₅).later h₆) hv
  show (if (compToCc cmp).holds (σ₅.vals vx) (σ₅.vals vy) then σ₅.vals t else σ₅.vals f) = _
  rw [compToCc_holds, (((keep (hvx.later h₂)).later h₄).later h₅).eq,
    (((keep hvy).later h₄).later h₅).eq, (ht.later h₅).eq, hf.eq]

/-- `OFFSETINT`. -/
theorem offsetInt_sim (hM : Matches s stale τ.stackSize σ) (hread : ¬ stale) (n : Int)
    (hops : operandsOk (.offsetInt n) s = true) :
    InstructionSim O rt k (.offsetInt n) s stale τ σ := by
  refine emitSim_accInt hM hread fun v τ₁ σ₁ h₁ hM hv => ?_
  refine emitSim_ins (w := s.accu + doubledOperand n) ?_ fun v' τ₂ σ₂ h₂ hv' => ?_
  · rw [← hv.eq, doubledOperand_eq (immediate_of_ok (by simp [immediates]) hops)]
    rfl
  · exact setAccInt_sim (hM.later h₂) hv'

end Instructions

end OcamlJit.Cranelift

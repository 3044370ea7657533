/-
  OcamlJit.Baseline.Arithmetic
  ────────────────────────────
  **THE THREE BACKENDS DO THE SAME ARITHMETIC.**

  The baseline code keeps integers tagged and corrects the tag with an increment,
  a decrement or a set bit; it takes shift counts and immediates from the low
  half of a register.  §1 runs it for every pair of words.  `Computes` is what
  the language asks for, on integers of 63 bits, and `intInstr_agree` says that
  the interpreter, the baseline code and the translation to IR all do it.
-/
import OcamlJit.Baseline.EmitInstruction
import OcamlJit.Cranelift.Succeeds
import OcamlJit.Interp.OcamlInts

namespace OcamlJit.Baseline

open OcamlJit.Lib OcamlJit.Instructions OcamlJit.Interp OcamlJit.BasicBlocks OcamlJit.Cranelift

/-! ## §1. Words. -/

section Words

variable {O : Oracle Request Value}

/-- Sign extension keeps the value. -/
theorem toInt_dividend (a : Value) :
    ((if a.msb then (-1 : Value) else 0) ++ a).toInt = a.toInt := by
  have hextend : ((if a.msb then (-1 : Value) else 0) ++ a) = a.signExtend 128 := by
    rw [BitVec.signExtend_eq_append_of_le (by decide)]
    cases a.msb <;> rfl
  rw [hextend]
  exact BitVec.toInt_signExtend_of_le (by decide)

/-- `idiv` after `cqo` divides words whose quotient fits. -/
theorem idivide_eq {c : Cpu} {d : Value}
    (hrdx : c.regs .rdx = if (c.regs .rax).msb then -1 else 0) (hd : d ≠ 0)
    (hlow : -2 ^ 62 ≤ (c.regs .rax).toInt) (hhigh : (c.regs .rax).toInt < 2 ^ 62) :
    (idivide c d : Act O Cpu) = pure (((c.set .rax ((c.regs .rax).sdiv d)).set .rdx
      ((c.regs .rax).srem d)).noFlags) := by
  have hdividend : (c.regs .rdx ++ c.regs .rax).toInt = (c.regs .rax).toInt := by
    rw [hrdx, toInt_dividend]
  have hsdiv : BitVec.ofInt 64 ((c.regs .rax).toInt.tdiv d.toInt) = (c.regs .rax).sdiv d := by
    rw [← BitVec.ofInt_toInt (x := BitVec.sdiv _ _), BitVec.toInt_sdiv, ofInt_bmod (Nat.le_refl _)]
  have hsrem : BitVec.ofInt 64 ((c.regs .rax).toInt.tmod d.toInt) = (c.regs .rax).srem d := by
    rw [← BitVec.toInt_srem, BitVec.ofInt_toInt]
  have hfits := Int.natAbs_tdiv_le_natAbs (c.regs .rax).toInt d.toInt
  unfold idivide
  simp only [hdividend, hsdiv, hsrem]
  refine if_neg ?_
  rintro (hzero | hunder | hover)
  · exact hd hzero
  · omega
  · omega

/-- An untagged word has 63 bits. -/
theorem toInt_longVal_bounds (v : Value) :
    -2 ^ 62 ≤ (longVal v).toInt ∧ (longVal v).toInt < 2 ^ 62 := by
  have hlow := BitVec.le_toInt v
  have hhigh := BitVec.toInt_lt (x := v)
  rw [toInt_longVal]
  omega

/-- The low half of a word, shifted, is the count if the word is a small one. -/
theorem shiftCount_eq {v : Value} (h : (longVal v).toNat < 64) :
    (v.toNat % 4294967296 % 18446744073709551616) >>> 1 % 64 = (longVal v).toNat := by
  have hint := toInt_longVal v
  rw [BitVec.toInt_eq_toNat_of_lt (by omega)] at hint
  have hnat := toNat_of_toInt v
  rw [Nat.shiftRight_eq_div_pow]
  omega

/-- The low half of a word is the number cut. -/
theorem setWidth_ofInt_low (n : Int) :
    (BitVec.ofInt 64 n).setWidth 32 = BitVec.ofInt 32 n := by
  apply BitVec.eq_of_toNat_eq
  rw [BitVec.toNat_setWidth, BitVec.toNat_ofInt, BitVec.toNat_ofInt]
  omega

/-- A tagged immediate fits 32 bits. -/
theorem signExtend_camlI32OfInt {n : Int} (hn : immediateOk n = true) :
    (BitVec.ofInt 32 (camlI32OfInt n)).signExtend 64 = valInt n := by
  obtain ⟨hlow, hhigh⟩ := of_decide_eq_true hn
  unfold camlI32OfInt
  rw [BitVec.ofInt_toInt, valInt, valLong_ofInt, setWidth_ofInt_low]
  show BitVec.ofInt 64 (BitVec.ofInt 32 (2 * n + 1)).toInt = _
  rw [BitVec.toInt_ofInt, Int.bmod_eq_of_le (by omega) (by omega)]

end Words

/-! ## §2. The baseline code. -/

section Emitted

variable {O : Oracle Request Value} {a b env : Value} {rest : List Slot} {s : State}

/-- It is enough to run the code from any registers that show the state. -/
theorem Emitted.of_run {i : Instruction Nat} {x : Act O (State × Exit)}
    (h : ∀ (trash : Reg → Value) (c : Cpu), c.stack = s.stack → c.regs .accu = s.accu →
      c.regs .env = s.env → (do pure (visibleExit (← runEmitted trash i c))) = x) :
    Emitted O i s x := by
  rintro trash c rfl
  exact h trash c rfl rfl rfl

/-- **The arithmetic instructions**; a shift by 64 or more is not one. -/
theorem arithInt_emitted (op : ArithOp) (hshift : isShift op = true → (longVal b).toNat < 64) :
    Emitted O (.arithInt op) ⟨a, env, .val b :: rest⟩
      (do pure (← doArithInt op ⟨a, env, .val b :: rest⟩, .next)) := by
  have hmeaning : (doArithInt op ⟨a, env, .val b :: rest⟩ : Act O State)
      = arith op a b >>= fun v => pure ⟨v, env, rest⟩ := rfl
  rw [hmeaning, Act.bind_assoc]
  refine Emitted.of_run fun trash c hstack ha henv => ?_
  obtain ⟨regs, stack, flags⟩ := c
  simp only at hstack ha henv
  subst hstack ha henv
  cases op with
  | add =>
      simp [emitArithInt, arith]
  | sub =>
      simp [emitArithInt, arith]
  | mul =>
      simp [emitArithInt, arith, longVal, ← add_self_add_one]
  | and =>
      simp [emitArithInt, arith]
  | or =>
      simp [emitArithInt, arith]
  | xor =>
      simp [emitArithInt, arith]
  -- the shifts take their count untagged in cl, below 64 by `hshift`
  | lsl =>
      simp [emitArithInt, arith, emitCount, shiftBy, hshift rfl, shiftCount_eq (hshift rfl)]
  | lsr =>
      simp [emitArithInt, arith, emitCount, shiftBy, hshift rfl, shiftCount_eq (hshift rfl)]
  | asr =>
      simp [emitArithInt, arith, emitCount, shiftBy, hshift rfl, shiftCount_eq (hshift rfl)]
  -- the zero test jumps to the raise, otherwise idiv has a dividend that fits
  | div =>
      by_cases hb : b.sshiftRight 1 = 0#64
      · simp [emitArithInt, arith, emitDivision, holds_cmpFlags, Cond.compares, hb, divide, longVal]
      · obtain ⟨hlow, hhigh⟩ := toInt_longVal_bounds (regs .accu)
        simp [emitArithInt, arith, emitDivision, holds_cmpFlags, Cond.compares, hb, divide, longVal]
        rw [idivide_eq]
        · simp [← add_self_add_one]
        · simp
        · exact hb
        · exact hlow
        · exact hhigh
  | mod =>
      by_cases hb : b.sshiftRight 1 = 0#64
      · simp [emitArithInt, arith, emitDivision, holds_cmpFlags, Cond.compares, hb, divide, longVal]
      · obtain ⟨hlow, hhigh⟩ := toInt_longVal_bounds (regs .accu)
        simp [emitArithInt, arith, emitDivision, holds_cmpFlags, Cond.compares, hb, divide, longVal]
        rw [idivide_eq]
        · simp [← add_self_add_one]
        · simp
        · exact hb
        · exact hlow
        · exact hhigh

/-- `NEGINT`. -/
theorem negInt_emitted :
    Emitted O .negInt s (pure (s.withAccu (2 - s.accu), .next)) := by
  refine Emitted.of_run fun trash c hstack ha henv => ?_
  simp [emitNegInt, State.withAccu, hstack, ha, henv]

/-- `BOOLNOT`, of a boolean. -/
theorem boolNot_emitted (h : s.accu = valFalse ∨ s.accu = valTrue) :
    Emitted O .boolNot s (pure (s.withAccu (valFalse + valTrue - s.accu), .next)) := by
  refine Emitted.of_run fun trash c hstack ha henv => ?_
  have hnot : s.accu ^^^ 2 = valFalse + valTrue - s.accu := by
    rcases h with h | h <;> rw [h] <;> rfl
  simp [emitBoolNot, State.withAccu, hstack, ha, henv, ← hnot]

/-- `ISINT`. -/
theorem isInt_emitted : Emitted O .isInt s (pure (s.withAccu (valLong (s.accu &&& 1)), .next)) := by
  refine Emitted.of_run fun trash c hstack ha henv => ?_
  simp [emitIsInt, State.withAccu, hstack, ha, henv, valLong]

/-- `CONSTINT`, of what fits an immediate. -/
theorem const_emitted {n : Int} (hn : immediateOk n = true) :
    Emitted O (.const n) s (pure (s.withAccu (valInt n), .next)) := by
  refine Emitted.of_run fun trash c hstack ha henv => ?_
  simp [emitConst, State.withAccu, hstack, henv, setWidth_ofInt_low, signExtend_camlI32OfInt hn]

/-- `OFFSETINT`. -/
theorem offsetInt_emitted (n : Int) :
    Emitted O (.offsetInt n) s (pure (s.withAccu (s.accu + doubledOperand n), .next)) := by
  refine Emitted.of_run fun trash c hstack ha henv => ?_
  simp [emitOffsetInt, emitOffset, State.withAccu, hstack, ha, henv, setWidth_ofInt_low,
    doubledOperand]

/-- `OFFSETREF`. -/
theorem offsetRef_emitted (n : Int) :
    Emitted O (.offsetRef n) s (do pure (← doOffsetRef n s, .next)) := by
  refine Emitted.of_run fun trash c hstack ha henv => ?_
  simp [emitOffsetRef, emitOffset, State.withAccu, hstack, ha, henv, setWidth_ofInt_low,
    doubledOperand, doOffsetRef, valUnit]

/-- The condition that is emitted is the comparison. -/
theorem condOf_compares (cmp : Comp) (x y : Value) :
    (condOf cmp).compares x y = compHolds cmp x y := by
  cases cmp <;> rfl

/-- `EQ` to `UGEINT`. -/
theorem intCmp_emitted (cmp : Comp) :
    Emitted O (.intCmp cmp) ⟨a, env, .val b :: rest⟩
      (pure (⟨valBool (compHolds cmp a b), env, rest⟩, .next)) := by
  refine Emitted.of_run fun trash c hstack ha henv => ?_
  obtain ⟨regs, stack, flags⟩ := c
  simp only at hstack ha henv
  subst hstack ha henv
  cases h : compHolds cmp (regs .accu) b <;>
    simp [emitIntCmp, holds_cmpFlags, condOf_compares, h, valBool, valTrue, valFalse]

/-- `BEQ` to `BUGEINT`, with what fits an immediate. -/
theorem branchCmp_emitted {n : Int} (hn : immediateOk n = true) (cmp : Comp) (l : Nat) :
    Emitted O (.branchCmp cmp n l) s
      (pure (s, if compHolds cmp (valInt n) s.accu then .label l else .next)) := by
  refine Emitted.of_run fun trash c hstack ha henv => ?_
  cases h : compHolds cmp (valInt n) s.accu <;>
    simp [emitBranchCmp, setWidth_ofInt_low, signExtend_camlI32OfInt hn, holds_cmpFlags,
      condOf_compares, h, ha, henv, hstack]

end Emitted

/-! ## §3. The language. -/

/-- The instructions that compute on integers. -/
inductive IntInstr where
  | neg | isInt | boolNot
  | arith (op : ArithOp)
  | compare (cmp : Comp)
  | const (n : Int)
  | offset (n : Int)
  | offsetRef (n : Int)
  deriving Repr, DecidableEq

namespace IntInstr

/-- The decoded instruction. -/
def decoded : IntInstr → Instruction Nat
  | .neg => .negInt
  | .isInt => .isInt
  | .boolNot => .boolNot
  | .arith op => .arithInt op
  | .compare cmp => .intCmp cmp
  | .const n => .const n
  | .offset n => .offsetInt n
  | .offsetRef n => .offsetRef n

/-- What the conversion records for it. -/
def recorded : IntInstr → BasicBlockInstruction
  | .neg => .negInt
  | .isInt => .isInt
  | .boolNot => .boolNot
  | .arith op => .arithInt op
  | .compare cmp => .intCmp cmp
  | .const n => .const n
  | .offset n => .offsetInt n
  | .offsetRef n => .offsetRef n

end IntInstr

/-- A memory in which the word at `r` is a tagged integer whenever it is read. -/
def HoldsInt (O : Oracle Request Value) (r : Value) : Prop :=
  ∀ v, O.Answers (.load r) v → ∃ x, v = tagged x

/-- What an instruction does in the language, on integers of 63 bits: a division
by 0 raises, everything else has a result. -/
inductive Computes (O : Oracle Request Value) : IntInstr → State → Act O State → Prop where
  | neg (x : OcamlInt) (env : Value) (stack : List Slot) :
      Computes O .neg ⟨tagged x, env, stack⟩ (pure ⟨tagged (-x), env, stack⟩)
  | isInt (s : State) : Computes O .isInt s (pure (s.withAccu (valBool (isLong s.accu))))
  | boolNot (b : Bool) (env : Value) (stack : List Slot) :
      Computes O .boolNot ⟨valBool b, env, stack⟩ (pure ⟨valBool !b, env, stack⟩)
  | arith (op : ArithOp) (x y : OcamlInt) (env : Value) (stack : List Slot)
      (hshift : isShift op = true → y.toNat < 64) (hdiv : isDivision op = true → y ≠ 0) :
      Computes O (.arith op) ⟨tagged x, env, .val (tagged y) :: stack⟩
        (pure ⟨tagged (intArith op x y), env, stack⟩)
  | divideByZero (op : ArithOp) (x : OcamlInt) (env : Value) (stack : List Slot)
      (hdiv : isDivision op = true) :
      Computes O (.arith op) ⟨tagged x, env, .val (tagged 0) :: stack⟩
        (do let _ ← Act.perform .raiseZeroDivide; Act.stuck)
  | compare (cmp : Comp) (x y : OcamlInt) (env : Value) (stack : List Slot) :
      Computes O (.compare cmp) ⟨tagged x, env, .val (tagged y) :: stack⟩
        (pure ⟨valBool (intCompare cmp x y), env, stack⟩)
  | const (n : Int) (s : State) (hn : immediateOk n = true) :
      Computes O (.const n) s (pure (s.withAccu (tagged (BitVec.ofInt 63 n))))
  | offset (n : Int) (x : OcamlInt) (env : Value) (stack : List Slot)
      (hn : immediateOk n = true) :
      Computes O (.offset n) ⟨tagged x, env, stack⟩
        (pure ⟨tagged (x + BitVec.ofInt 63 n), env, stack⟩)
  | offsetRef (n : Int) (r env : Value) (stack : List Slot) (hn : immediateOk n = true)
      (hr : HoldsInt O r) :
      Computes O (.offsetRef n) ⟨r, env, stack⟩ (do
        let old ← Act.perform (.load r)
        let _ ← Act.perform (.store r (tagged (untagged old + BitVec.ofInt 63 n)))
        pure ⟨valUnit, env, stack⟩)

section Language

variable {O : Oracle Request Value} {i : IntInstr} {s : State} {x : Act O State} (rt : Layout)

/-- A request whose answers are used in the same way. -/
theorem perform_bind_congr {α : Type} {e : Request} {f g : Value → Act O α}
    (h : ∀ v, O.Answers e v → f v = g v) :
    (Act.perform e >>= f) = Act.perform e >>= g := by
  funext l
  rw [Act.bind_apply, Act.bind_apply]
  unfold Act.perform
  cases hp : O.perform e l.world with
  | mk r w =>
      cases r with
      | error v => rfl
      | ok v => exact congrFun (h v ⟨_, _, hp⟩) _

/-- **The interpreter computes what the language asks for.** -/
theorem Computes.interp (h : Computes O i s x) : instrMeaning rt i.decoded s = x := by
  cases h with
  | neg y env stack => exact congrArg pure (congrArg (State.mk · env stack) (two_sub_tag y))
  | isInt => exact congrArg (fun v => pure (s.withAccu v)) (valLong_and_one s.accu)
  | boolNot b env stack =>
      have hnot : valFalse + valTrue - valBool b = valBool !b := by cases b <;> decide
      exact congrArg pure (congrArg (State.mk · env stack) hnot)
  | arith op y z env stack hshift hdiv =>
      show (Interp.arith op (tagged y) (tagged z) >>= _) = _
      rw [arith_tagged op y z hshift hdiv]
      rfl
  | divideByZero op y env stack hdiv =>
      show (Interp.arith op (tagged y) (tagged 0) >>= _) = _
      rw [arith_zero hdiv, Act.bind_assoc]
      rfl
  | compare cmp y z env stack =>
      show (pure ⟨valBool (compHolds cmp (tagged y) (tagged z)), env, stack⟩ : Act O State) = _
      rw [compHolds_tagged]
  | const n _ hn => exact congrArg (fun v => pure (s.withAccu v)) (valInt_eq_tagged n)
  | offset n y env stack hn =>
      exact congrArg pure (congrArg (State.mk · env stack) (tagged_add_doubledOperand hn y))
  | offsetRef n r env stack hn hr =>
      refine perform_bind_congr fun v hv => ?_
      obtain ⟨y, rfl⟩ := hr v hv
      show (Act.perform (Request.store r (tagged y + doubledOperand n)) >>= _) = _
      rw [tagged_add_doubledOperand hn, untagged_tagged]
      rfl

include rt in
/-- **The baseline code does what the interpreter does.** -/
theorem Computes.emitted (h : Computes O i s x) :
    Emitted O i.decoded s (do pure (← x, .next)) := by
  rw [← h.interp rt]
  cases h with
  | neg y env stack => exact negInt_emitted
  | isInt => exact isInt_emitted
  | boolNot b env stack => exact boolNot_emitted (by cases b <;> simp [valBool])
  | arith op y z env stack hshift hdiv =>
      have hcount : isShift op = true → (longVal (tagged z)).toNat < 64 := fun hop => by
        rw [toNat_longVal_tagged (Nat.lt_trans (hshift hop) (by decide))]
        exact hshift hop
      exact arithInt_emitted op hcount
  | divideByZero op y env stack hdiv =>
      have hcount : isShift op = true → (longVal (tagged 0)).toNat < 64 := fun _ => by decide
      exact arithInt_emitted op hcount
  | compare cmp y z env stack => exact intCmp_emitted cmp
  | const n _ hn => exact const_emitted hn
  | offset n y env stack hn => exact offsetInt_emitted n
  | offsetRef n r env stack hn hr => exact offsetRef_emitted n

/-- **The IR does what the interpreter does.** -/
theorem Computes.translated (h : Computes O i s x) : TranslatedTo O rt i.recorded s x := by
  have hx : blockMeaning rt i.recorded s = x := by
    rw [← h.interp rt]
    cases i <;> rfl
  have hafter : staleAfter False i.recorded = False := by
    cases i <;> exact eq_false fun h => h.1
  cases h with
  | neg y env stack =>
      exact .of_sim rt rfl (Nat.zero_le _) (fun _ => by simp [IntInstr.recorded]) hafter hx
        fun k τ σ hM => negInt_sim hM not_false
  | isInt =>
      exact .of_sim rt rfl (Nat.zero_le _) (fun _ => by simp [IntInstr.recorded]) hafter hx
        fun k τ σ hM => isInt_sim hM not_false
  | boolNot b env stack =>
      have hops : operandsOk .boolNot ⟨valBool b, env, stack⟩ = true := by cases b <;> rfl
      exact .of_sim rt rfl (Nat.zero_le _) (fun _ => by simp [IntInstr.recorded]) hafter hx
        fun k τ σ hM => boolNot_sim hM not_false hops
  -- a tagged divisor is what the translation asks for
  | arith op y z env stack hshift hdiv =>
      have hops : operandsOk (.arithInt op) ⟨tagged y, env, .val (tagged z) :: stack⟩ = true := by
        cases op <;> first | rfl | exact isLong_tagged z
      exact .of_sim rt rfl (Nat.succ_le_succ (Nat.zero_le _)) (fun _ => by simp [IntInstr.recorded])
        hafter hx fun k τ σ hM => arithInt_sim hM not_false op hops
  | divideByZero op y env stack hdiv =>
      have hops : operandsOk (.arithInt op) ⟨tagged y, env, .val (tagged 0) :: stack⟩ = true := by
        cases op <;> rfl
      exact .of_sim rt rfl (Nat.succ_le_succ (Nat.zero_le _)) (fun _ => by simp [IntInstr.recorded])
        hafter hx fun k τ σ hM => arithInt_sim hM not_false op hops
  | compare cmp y z env stack =>
      exact .of_sim rt rfl (Nat.succ_le_succ (Nat.zero_le _)) (fun _ => by simp [IntInstr.recorded])
        hafter hx fun k τ σ hM => intCmp_sim hM not_false cmp
  | const n _ hn =>
      exact .of_sim rt rfl (Nat.zero_le _) (fun _ => by simp [IntInstr.recorded]) hafter hx
        fun k τ σ hM => const_sim hM n
  | offset n y env stack hn =>
      have hops : operandsOk (.offsetInt n) ⟨tagged y, env, stack⟩ = true := by
        simp [operandsOk, immediates, hn]
      exact .of_sim rt rfl (Nat.zero_le _) (fun _ => by simp [IntInstr.recorded]) hafter hx
        fun k τ σ hM => offsetInt_sim hM not_false n hops
  | offsetRef n r env stack hn hr =>
      have hops : operandsOk (.offsetRef n) ⟨r, env, stack⟩ = true := by
        simp [operandsOk, immediates, hn]
      exact .of_sim rt rfl (Nat.zero_le _) (fun _ => by simp [IntInstr.recorded]) hafter hx
        fun k τ σ hM => offsetRef_sim hM not_false n hops

end Language

/-! ## §4. Agreement. -/

section Agreement

variable (O : Oracle Request Value) (rt : Layout)

/-- A branch on a comparison with an immediate, in the interpreter, in the
baseline code and as the exit of a block. -/
theorem branchCmp_agree (cmp : Comp) {n : Int} (hn : immediateOk n = true) (l l' : Nat)
    (x : OcamlInt) (env : Value) (stack : List Slot) :
    controlMeaning (.branchCmp cmp n l) ⟨tagged x, env, stack⟩
        = (pure (.inl (if intCompare cmp (BitVec.ofInt 63 n) x then .label l else .next)) :
            Act O (Target ⊕ Outcome)) ∧
      Emitted O (.branchCmp cmp n l) ⟨tagged x, env, stack⟩ (pure (⟨tagged x, env, stack⟩,
        if intCompare cmp (BitVec.ofInt 63 n) x then .label l else .next)) ∧
      ExitTranslatedTo O rt (.branchCmp cmp n l l') ⟨tagged x, env, stack⟩
        (pure (if intCompare cmp (BitVec.ofInt 63 n) x then l else l')) := by
  have htaken := cmpTaken_tagged hn cmp x env stack
  have hcompares : compHolds cmp (valInt n) (tagged x) = intCompare cmp (BitVec.ofInt 63 n) x := by
    rw [valInt_eq_tagged, compHolds_tagged]
  refine ⟨?_, ?_, ?_⟩
  · show (pure (.inl (if cmpTaken cmp n _ then _ else _)) : Act O (Target ⊕ Outcome)) = _
    rw [htaken]
  · rw [← hcompares]
    exact branchCmp_emitted hn cmp l
  · have hops : exitOperandsOk (.branchCmp cmp n l l') ⟨tagged x, env, stack⟩ = true := by
      simp [exitOperandsOk, exitImmediates, hn, isLong_tagged]
    rw [← htaken]
    refine ExitTranslatedTo.of_sim rt (fun k _ h => ?_) rfl
      fun k τ σ hM => branchCmp_sim hM not_false cmp n l l' hops
    exact branchCmp_succeeds k cmp n (h l (List.mem_cons_self ..))
      (h l' (List.mem_cons_of_mem _ (List.mem_singleton_self _)))

/-- **The three backends compute the same**: arithmetic, comparisons, constants
and offsets on all tagged integers, and the branches on a comparison.  The
result is that of the language on integers of 63 bits. -/
theorem intInstr_agree :
    (∀ (i : IntInstr) (s : State) (x : Act O State), Computes O i s x →
      instrMeaning rt i.decoded s = x ∧ Emitted O i.decoded s (do pure (← x, .next)) ∧
        TranslatedTo O rt i.recorded s x) ∧
    ∀ (cmp : Comp) (n : Int) (l l' : Nat) (x : OcamlInt) (env : Value) (stack : List Slot),
      immediateOk n = true →
      controlMeaning (.branchCmp cmp n l) ⟨tagged x, env, stack⟩
          = (pure (.inl (if intCompare cmp (BitVec.ofInt 63 n) x then .label l else .next)) :
              Act O (Target ⊕ Outcome)) ∧
        Emitted O (.branchCmp cmp n l) ⟨tagged x, env, stack⟩ (pure (⟨tagged x, env, stack⟩,
          if intCompare cmp (BitVec.ofInt 63 n) x then .label l else .next)) ∧
        ExitTranslatedTo O rt (.branchCmp cmp n l l') ⟨tagged x, env, stack⟩
          (pure (if intCompare cmp (BitVec.ofInt 63 n) x then l else l')) :=
  ⟨fun _ _ _ h => ⟨h.interp rt, h.emitted rt, h.translated rt⟩,
    fun cmp _ l l' x env stack hn => branchCmp_agree O rt cmp hn l l' x env stack⟩

end Agreement

/-- An oracle that answers every request with the tagged 0. -/
def answersOne : Oracle Request Value := ⟨Unit, fun _ w => (.ok valUnit, w)⟩

/-- The least integer divided by -1 is itself, and it is less than 5. -/
theorem intInstr_agree_least :
    Emitted answersOne (.arithInt .div) ⟨tagged (BitVec.intMin 63), 0, [.val (tagged (-1))]⟩
        (do pure (← pure ⟨tagged (BitVec.intMin 63), 0, []⟩, .next)) ∧
      Emitted answersOne (.branchCmp .gt 5 7) ⟨tagged (BitVec.intMin 63), 0, []⟩
        (pure (⟨tagged (BitVec.intMin 63), 0, []⟩, .label 7)) :=
  have h := intInstr_agree answersOne ⟨0, 0, 0, fun _ => 0⟩
  ⟨(h.1 _ _ _ (.arith .div (BitVec.intMin 63) (-1) 0 [] (fun h => nomatch h)
      fun _ => by decide)).2.1,
    (h.2 .gt 5 7 8 (BitVec.intMin 63) 0 [] rfl).2.1⟩

end OcamlJit.Baseline

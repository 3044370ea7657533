/-
  OcamlJit.Bytecode.Interpreter
  ─────────────────────────────
  **THE BYTECODE INTERPRETER AND THE SIMPLIFIED INSTRUCTIONS.**

  `interpCase` is the `switch` of `caml_interprete` over the words of the code,
  compiled with `USE_RUST_JIT`: its cases read their operands with `*pc++`.  The
  words do not change while they run, so `pc` passes the operands before the case
  does its work, and it does not matter whether a case that assigns `pc` had
  passed them.
  `meaning` is what a decoded instruction does, its operands being the words the
  decoder keeps as `u32` and `i32`; `pc` is past the words of the opcode while
  its instructions run.
-/
import OcamlJit.Bytecode.Cases

namespace OcamlJit.Bytecode

open OcamlJit.Lib OcamlJit.Instructions OcamlJit.Interp Exec

variable {O : Oracle Effect Value} (im : Image)

/-! ## §1. The words of the code. -/

section Words

variable (code : List Word)

/-- `pc[n]`. -/
def peekAt (n : Nat) : Exec O Word := demand fun r =>
  match r.pc with
  | .here offset => if 0 ≤ offset then code[offset.toNat + n]? else none
  | .loaded _ => none

/-- `pc += n`. -/
def advance (n : Nat) : Exec O Unit := do
  let pc ← demand fun r =>
    match r.pc with
    | .here offset => some (.here (offset + n))
    | .loaded _ => none
  setPc pc

/-- `*pc++`. -/
def fetch : Exec O Word := do
  let w ← peekAt code 0
  advance 1
  pure w

/-- The offset `pc` stands for. -/
def offset : Exec O Int := demand fun r =>
  match r.pc with
  | .here offset => some offset
  | .loaded _ => none

/-- `pc + pc[n]`. -/
def target (n : Nat) : Exec O Int := do
  let w ← peekAt code n
  pure ((← offset) + w.toInt)

/-- `pc + *pc`, and `pc++`. -/
def fetchTarget : Exec O Int := do
  let l ← target code 0
  advance 1
  pure l

/-- `pc + pc[0]` to `pc + pc[n - 1]`, and `pc += n`. -/
def targets (n : Nat) : Exec O (List Int) := do
  let base ← offset
  let ws ← demand fun _ =>
    if n ≤ code.length - base.toNat then some ((code.drop base.toNat).take n) else none
  advance n
  pure (ws.map fun w => base + w.toInt)

end Words

/-! ## §2. The cases. -/

/-- `...; Next`. -/
def next (x : Exec O Unit) : Exec O Next := do
  x
  pure .fetch

/-- `*--sp = accu` and what the case falls through to. -/
def pushThen {α : Type} (x : Exec O α) : Exec O α := do
  doPush
  x

/-- `switch (curr_instr)`, `pc` being past the opcode. -/
def interpCase (code : List Word) : Opcode → Exec O Next
  | .acc0 => next (doAcc 0)
  | .acc1 => next (doAcc 1)
  | .acc2 => next (doAcc 2)
  | .acc3 => next (doAcc 3)
  | .acc4 => next (doAcc 4)
  | .acc5 => next (doAcc 5)
  | .acc6 => next (doAcc 6)
  | .acc7 => next (doAcc 7)
  | .acc => do
      let n ← fetch code
      next (doAcc n.toInt)
  | .push | .pushAcc0 => next doPush
  | .pushAcc1 => pushThen (next (doAcc 1))
  | .pushAcc2 => pushThen (next (doAcc 2))
  | .pushAcc3 => pushThen (next (doAcc 3))
  | .pushAcc4 => pushThen (next (doAcc 4))
  | .pushAcc5 => pushThen (next (doAcc 5))
  | .pushAcc6 => pushThen (next (doAcc 6))
  | .pushAcc7 => pushThen (next (doAcc 7))
  | .pushAcc => pushThen do
      let n ← fetch code
      next (doAcc n.toInt)
  | .pop => do
      let n ← fetch code
      next (moveSp n.toInt)
  | .assign => do
      let n ← fetch code
      next (doAssign n)
  | .envAcc1 => next (doEnvAcc 1)
  | .envAcc2 => next (doEnvAcc 2)
  | .envAcc3 => next (doEnvAcc 3)
  | .envAcc4 => next (doEnvAcc 4)
  | .envAcc => do
      let n ← fetch code
      next (doEnvAcc n)
  | .pushEnvAcc1 => pushThen (next (doEnvAcc 1))
  | .pushEnvAcc2 => pushThen (next (doEnvAcc 2))
  | .pushEnvAcc3 => pushThen (next (doEnvAcc 3))
  | .pushEnvAcc4 => pushThen (next (doEnvAcc 4))
  | .pushEnvAcc => pushThen do
      let n ← fetch code
      next (doEnvAcc n)
  | .pushRetAddr => do
      let l ← fetchTarget code
      next (doPushRetAddr im l)
  | .apply => do
      let n ← fetch code
      next (doApply im n)
  | .apply1 => next (doApplyFew im 1)
  | .apply2 => next (doApplyFew im 2)
  | .apply3 => next (doApplyFew im 3)
  | .appTerm => do
      let nargs ← fetch code
      let slotsize ← fetch code
      next (doAppTerm im nargs slotsize)
  | .appTerm1 => do
      let slotsize ← fetch code
      next (doAppTermFew im 1 slotsize)
  | .appTerm2 => do
      let slotsize ← fetch code
      next (doAppTermFew im 2 slotsize)
  | .appTerm3 => do
      let slotsize ← fetch code
      next (doAppTermFew im 3 slotsize)
  | .return_ => do
      let n ← fetch code
      next (doReturn n)
  | .restart => next doRestart
  | .grab => do
      let required ← fetch code
      let pc ← offset
      next (doGrab im required (pc - 3))
  | .closure => do
      let nvars ← fetch code
      let l ← fetchTarget code
      next (doClosure im nvars l)
  | .closureRec => do
      let nfuncs ← fetch code
      let nvars ← fetch code
      let labels ← targets code nfuncs.toInt.toNat
      next (doClosureRec im nfuncs nvars labels)
  | .pushOffsetClosure => pushThen do
      let n ← fetch code
      next (doOffsetClosure n)
  | .offsetClosure => do
      let n ← fetch code
      next (doOffsetClosure n)
  | .pushOffsetClosureM2 => pushThen (next (doOffsetClosure (-2)))
  | .offsetClosureM2 => next (doOffsetClosure (-2))
  | .pushOffsetClosure0 => pushThen (next (doOffsetClosure 0))
  | .offsetClosure0 => next (doOffsetClosure 0)
  | .pushOffsetClosure2 => pushThen (next (doOffsetClosure 2))
  | .offsetClosure2 => next (doOffsetClosure 2)
  | .pushGetGlobal => pushThen do
      let n ← fetch code
      next (doGetGlobal im n)
  | .getGlobal => do
      let n ← fetch code
      next (doGetGlobal im n)
  | .pushGetGlobalField => pushThen do
      let n ← fetch code
      doGetGlobal im n
      let m ← fetch code
      next (doGetField m)
  | .getGlobalField => do
      let n ← fetch code
      doGetGlobal im n
      let m ← fetch code
      next (doGetField m)
  | .setGlobal => do
      let n ← fetch code
      next (doSetGlobal im n)
  | .pushAtom0 => pushThen (next (doAtom im 0))
  | .atom0 => next (doAtom im 0)
  | .pushAtom => pushThen do
      let tag ← fetch code
      next (doAtom im (tag.signExtend 64))
  | .atom => do
      let tag ← fetch code
      next (doAtom im (tag.signExtend 64))
  | .makeBlock => do
      let wosize ← fetch code
      let tag ← fetch code
      next (doMakeBlock (usizeOfWord wosize) (usizeOfWord tag))
  | .makeBlock1 => do
      let tag ← fetch code
      next (doMakeBlockFew 1 (usizeOfWord tag))
  | .makeBlock2 => do
      let tag ← fetch code
      next (doMakeBlockFew 2 (usizeOfWord tag))
  | .makeBlock3 => do
      let tag ← fetch code
      next (doMakeBlockFew 3 (usizeOfWord tag))
  | .makeFloatBlock => do
      let size ← fetch code
      next (doMakeFloatBlock (usizeOfWord size))
  | .getField0 => next (doGetField 0)
  | .getField1 => next (doGetField 1)
  | .getField2 => next (doGetField 2)
  | .getField3 => next (doGetField 3)
  | .getField => do
      let n ← fetch code
      next (doGetField n)
  | .getFloatField => do
      let n ← fetch code
      next (doGetFloatField n)
  | .setField0 => next (doSetField 0)
  | .setField1 => next (doSetField 1)
  | .setField2 => next (doSetField 2)
  | .setField3 => next (doSetField 3)
  | .setField => do
      let n ← fetch code
      next (doSetField n)
  | .setFloatField => do
      let n ← fetch code
      next (doSetFloatField n)
  | .vecTLength => next doVecTLength
  | .getVecTItem => next doGetVecTItem
  | .setVecTItem => next doSetVecTItem
  | .getStringChar | .getBytesChar => next doGetBytesChar
  | .setBytesChar => next doSetBytesChar
  | .branch => do
      let l ← fetchTarget code
      next (setPc (.here l))
  | .branchIf => do
      let l ← fetchTarget code
      next (branchWhen isTrue l)
  | .branchIfNot => do
      let l ← fetchTarget code
      next (branchWhen (fun r => !isTrue r) l)
  | .switch => do
      let sizes ← fetch code
      next (doSwitch (u32OfWord sizes % 2 ^ 16) (u32OfWord sizes / 2 ^ 16) (target code))
  | .boolNot => next doBoolNot
  | .pushTrap => do
      let l ← fetchTarget code
      next (doPushTrap im l)
  | .popTrap => do
      let pc ← offset
      next (doPopTrap im (pc - 1))
  | .raiseNoTrace => do
      let pc ← offset
      doRaise im .noTrace (pc - 1)
  | .reRaise => do
      let pc ← offset
      doRaise im .reRaise (pc - 1)
  | .raise => do
      let pc ← offset
      doRaise im .regular (pc - 1)
  | .checkSignals => next (doCheckSignals im)
  | .cCall1 => do
      let prim ← fetch code
      next (doCCall 0 prim)
  | .cCall2 => do
      let prim ← fetch code
      next (doCCall 1 prim)
  | .cCall3 => do
      let prim ← fetch code
      next (doCCall 2 prim)
  | .cCall4 => do
      let prim ← fetch code
      next (doCCall 3 prim)
  | .cCall5 => do
      let prim ← fetch code
      next (doCCall 4 prim)
  | .cCallN => do
      let nargs ← fetch code
      let prim ← fetch code
      next (doCCallN nargs prim)
  | .const0 => next (doConst 0)
  | .const1 => next (doConst 1)
  | .const2 => next (doConst 2)
  | .const3 => next (doConst 3)
  | .pushConst0 => pushThen (next (doConst 0))
  | .pushConst1 => pushThen (next (doConst 1))
  | .pushConst2 => pushThen (next (doConst 2))
  | .pushConst3 => pushThen (next (doConst 3))
  | .pushConstInt => pushThen do
      let n ← fetch code
      next (doConst n)
  | .constInt => do
      let n ← fetch code
      next (doConst n)
  | .negInt => next doNegInt
  | .addInt => next (doArithInt .add)
  | .subInt => next (doArithInt .sub)
  | .mulInt => next (doArithInt .mul)
  | .divInt => next (doArithInt .div)
  | .modInt => next (doArithInt .mod)
  | .andInt => next (doArithInt .and)
  | .orInt => next (doArithInt .or)
  | .xorInt => next (doArithInt .xor)
  | .lslInt => next (doArithInt .lsl)
  | .lsrInt => next (doArithInt .lsr)
  | .asrInt => next (doArithInt .asr)
  | .eq => next (doIntCmp .eq)
  | .neq => next (doIntCmp .ne)
  | .ltInt => next (doIntCmp .lt)
  | .leInt => next (doIntCmp .le)
  | .gtInt => next (doIntCmp .gt)
  | .geInt => next (doIntCmp .ge)
  | .uLtInt => next (doIntCmp .uLt)
  | .uGeInt => next (doIntCmp .uGe)
  | .bEq => branchComparison code .eq
  | .bNeq => branchComparison code .ne
  | .bLtInt => branchComparison code .lt
  | .bLeInt => branchComparison code .le
  | .bGtInt => branchComparison code .gt
  | .bGeInt => branchComparison code .ge
  | .bULtInt => branchComparison code .uLt
  | .bUGeInt => branchComparison code .uGe
  | .offsetInt => do
      let n ← fetch code
      next (doOffsetInt n)
  | .offsetRef => do
      let n ← fetch code
      next (doOffsetRef n)
  | .isInt => next doIsInt
  | .getMethod => next doGetMethod
  | .getPubMet => pushThen do
      -- `accu = Val_int(*pc); pc += 2`, then `GETDYNMET`
      let tag ← peekAt code 0
      doConst tag
      advance 2
      next doGetDynMet
  | .getDynMet => next doGetDynMet
  | .stop => doStop
  | .event => doEvent
  | .break_ => doBreak
where
  /-- `Integer_branch_comparison`. -/
  branchComparison (code : List Word) (cmp : Comp) : Exec O Next := do
    let n ← fetch code
    let l ← fetchTarget code
    next (branchWhen (compares cmp n) l)

/-- `curr_instr = *pc++`, and its case. -/
def interpStep (code : List Word) : Exec O Next := do
  let curr_instr ← fetch code
  match Opcode.fromI32 curr_instr with
  | some op => interpCase im code op
  -- `caml_fatal_error("bad opcode")`
  | none => stuck

/-! ## §3. Simplified instructions. -/

/-- The `opcode_t` a `u32` operand was read from. -/
def ofU32 (n : Nat) : Word := BitVec.ofNat 32 n

/-- The `opcode_t` an `i32` operand was read from. -/
def ofI32 (n : Int) : Word := BitVec.ofInt 32 n

/-- An `i32` as an `intnat`. -/
theorem signExtend_ofI32 {n : Int} (h : -2 ^ 31 ≤ n ∧ n < 2 ^ 31) :
    (ofI32 n).signExtend 64 = BitVec.ofInt 64 n := by
  have hn : (ofI32 n).toInt = n := by
    unfold ofI32
    rw [BitVec.toInt_ofInt]
    exact Int.bmod_eq_of_le (by omega) (by omega)
  rw [BitVec.signExtend, hn]

/-- What an instruction does; `own` is the offset of its `labelDef`. -/
def meaning (own : Nat) : Instruction Nat → Exec O Next
  | .labelDef _ => next (pure ())
  | .acc n => next (doAcc (ofU32 n).toInt)
  | .envAcc n => next (doEnvAcc (ofU32 n))
  | .push => next doPush
  | .pop n => next (moveSp (ofU32 n).toInt)
  | .assign n => next (doAssign (ofU32 n))
  | .pushRetAddr l => next (doPushRetAddr im l)
  | .apply1 => next (doApplyFew im 1)
  | .apply2 => next (doApplyFew im 2)
  | .apply3 => next (doApplyFew im 3)
  | .apply nargs => next (doApply im (ofU32 nargs))
  | .applyTerm nargs slotSize => next (doAppTerm im (ofU32 nargs) (ofU32 slotSize))
  | .return_ toPop => next (doReturn (ofU32 toPop))
  | .restart => next doRestart
  -- the closure it makes is entered at the `RESTART` before its `labelDef`
  | .grab n => next (doGrab im (ofU32 n) (own - 1))
  | .closure l nvars => next (doClosure im (ofU32 nvars) l)
  | .closureRec ls nvars =>
      next (doClosureRec im (ofU32 ls.length) (ofU32 nvars) (ls.map Int.ofNat))
  | .offsetClosure n => next (doOffsetClosure (ofI32 n))
  | .getGlobal n => next (doGetGlobal im (ofU32 n))
  | .setGlobal n => next (doSetGlobal im (ofU32 n))
  | .const n => next (doConst (ofI32 n))
  | .makeBlock 0 tag => next (doAtom im (BitVec.ofNat 64 tag))
  | .makeBlock size tag => next (doMakeBlock (usizeOfWord (ofU32 size)) tag)
  | .makeFloatBlock size => next (doMakeFloatBlock (usizeOfWord (ofU32 size)))
  | .getField n => next (doGetField (ofU32 n))
  | .setField n => next (doSetField (ofU32 n))
  | .getFloatField n => next (doGetFloatField (ofU32 n))
  | .setFloatField n => next (doSetFloatField (ofU32 n))
  | .vecTLength => next doVecTLength
  | .getVecTItem => next doGetVecTItem
  | .setVecTItem => next doSetVecTItem
  | .getBytesChar => next doGetBytesChar
  | .setBytesChar => next doSetBytesChar
  | .branch l => next (setPc (.here l))
  | .branchIf l => next (branchWhen isTrue l)
  | .branchIfNot l => next (branchWhen (fun r => !isTrue r) l)
  | .switch ints tags =>
      next (doSwitch ints.length tags.length fun i =>
        demand fun _ => (ints ++ tags)[i]?.map Int.ofNat)
  | .boolNot => next doBoolNot
  | .pushTrap l => next (doPushTrap im l)
  | .popTrap => next (doPopTrap im own)
  | .raise kind => doRaise im kind own
  | .checkSignals => next (doCheckSignals im)
  | .cCall1 id => next (doCCall 0 (ofU32 id))
  | .cCall2 id => next (doCCall 1 (ofU32 id))
  | .cCall3 id => next (doCCall 2 (ofU32 id))
  | .cCall4 id => next (doCCall 3 (ofU32 id))
  | .cCall5 id => next (doCCall 4 (ofU32 id))
  | .cCallN nargs id => next (doCCallN (ofU32 nargs) (ofU32 id))
  | .arithInt op => next (doArithInt op)
  | .negInt => next doNegInt
  | .intCmp cmp => next (doIntCmp cmp)
  | .branchCmp cmp n l => next (branchWhen (compares cmp (ofI32 n)) l)
  | .offsetInt n => next (doOffsetInt (ofI32 n))
  | .offsetRef n => next (doOffsetRef (ofI32 n))
  | .isInt => next doIsInt
  | .getMethod => next doGetMethod
  -- `*--sp = accu; accu = Val_int(tag)`
  | .setupForPubMet tag => next (pushThen (doConst (ofI32 tag)))
  | .getDynMet => next doGetDynMet
  | .stop => doStop
  | .break_ => doBreak
  | .event => doEvent

/-- One instruction after the other. -/
def meanings (own : Nat) : List (Instruction Nat) → Exec O Next
  | [] => pure .fetch
  | i :: is => do
      match ← meaning im own i with
      | .fetch => meanings own is
      | ended => pure ended

/-- The instructions of an opcode at `own` that `after` follows. -/
def runOpcode (own after : Nat) (is : List (Instruction Nat)) : Exec O Next := do
  setPc (.here after)
  meanings im own is

end OcamlJit.Bytecode

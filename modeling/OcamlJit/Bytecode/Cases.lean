/-
  OcamlJit.Bytecode.Cases
  ───────────────────────
  **WHAT THE CASES OF `caml_interprete` DO**, as functions of their operands.

  An operand is an `opcode_t`, a signed 32-bit word; a label is the offset
  `pc + *pc`.  `pc` itself is moved by the cases of `Bytecode.Interpreter`
  before these functions run, so what they save of it is the `pc` of the source
  at that place.  Method lookups and `VECTLENGTH` are one request, as in
  `Interp.Machine`.
-/
import OcamlJit.Bytecode.Registers

namespace OcamlJit.Bytecode

open OcamlJit.Lib OcamlJit.Instructions OcamlJit.Interp Exec

variable {O : Oracle Effect Value} (im : Image)

/-! ## §1. Stack and environment. -/

/-- `accu = sp[n]`. -/
def doAcc (n : Int) : Exec O Unit := do
  setAccu (← value n)

/-- `sp[0]` to `sp[n - 1]`, whatever they are. -/
def words (n : Nat) : Exec O (List StackWord) := demand fun r =>
  if n ≤ r.stack.length then some (r.stack.take n) else none

/-- `sp[0]` to `sp[n - 1]` as values. -/
def values (n : Nat) : Exec O (List Value) := demand fun r =>
  if n ≤ r.stack.length then (r.stack.take n).mapM StackWord.value? else none

/-- `*--sp = accu`. -/
def doPush : Exec O Unit := do
  push (← reg Regs.accu)

/-- `sp[n] = accu; accu = Val_unit`. -/
def doAssign (n : Word) : Exec O Unit := do
  setWord n.toInt (.val (← reg Regs.accu))
  setAccu valUnit

/-- `Field(v, n)`. -/
def loadField (v : Value) (n : Word) : Exec O Value := ask (.load (field v (n.signExtend 64)))

/-- `accu = Field(env, n)`. -/
def doEnvAcc (n : Word) : Exec O Unit := do
  setAccu (← loadField (← reg Regs.env) n)

/-- `accu = env + n * sizeof(value)`. -/
def doOffsetClosure (n : Word) : Exec O Unit := do
  setAccu ((← reg Regs.env) + n.signExtend 64 * 8)

/-! ## §2. Function application. -/

/-- The three words of a return frame. -/
def returnFrame (pc : Value) (r : Regs) : List StackWord :=
  [.val pc, .val r.env, .val (valLong r.extraArgs)]

/-- `PUSH_RETADDR`. -/
def doPushRetAddr (l : Int) : Exec O Unit := do
  pushWords (← reg (returnFrame (im.codeAt l)))

/-- `CHECK_SIGNALS`, and `process_actions` behind it: `Restore_after_event` puts
back every register. -/
def doCheckSignals : Exec O Unit := do
  let todo ← ask (.load32 im.somethingToDo)
  if todo.setWidth 32 = 0 then pure ()
  else do
    let _ ← ask .processPendingActions
    pure ()

/-- `pc = Code_val(accu); env = accu; accu = Val_unit`. -/
def enterAccu : Exec O Unit := do
  let closure ← reg Regs.accu
  setPc (.loaded (← ask (.load closure)))
  setEnv closure
  setAccu valUnit

/-- `check_stacks`, which falls through to `CHECK_SIGNALS`. -/
def checkStacks : Exec O Unit := do
  let _ ← perform (.checkStack (← reg fun r => r.stack.length))
  doCheckSignals im

/-- `APPLY`. -/
def doApply (n : Word) : Exec O Unit := do
  setExtraArgs ((n - 1).signExtend 64)
  enterAccu
  checkStacks im

/-- `APPLY1` to `APPLY3`: the return frame goes under the arguments. -/
def doApplyFew (nargs : Nat) : Exec O Unit := do
  let args ← words nargs
  moveSp nargs
  let frame ← reg fun r => returnFrame (im.valueOf r.pc) r
  pushWords (args ++ frame)
  enterAccu
  setExtraArgs (BitVec.ofNat 64 (nargs - 1))
  checkStacks im

/-- `for (i = k - 1; i >= 0; i--) newsp[i] = sp[i]`, for `newsp = sp + d`. -/
def slide (d : Nat) : Nat → Exec O Unit
  | 0 => pure ()
  | i + 1 => do
      setWord (d + i : Nat) (← word i)
      slide d i

/-- `APPTERM`.  The loop goes down from the last argument, so it needs
`slotsize >= nargs`: below `sp` there is no word to write. -/
def doAppTerm (nargs slotsize : Word) : Exec O Unit := do
  let d := slotsize.toInt - nargs.toInt
  require (0 ≤ d)
  slide d.toNat nargs.toInt.toNat
  moveSp d
  enterAccu
  update fun r => { r with extraArgs := r.extraArgs + (nargs - 1).signExtend 64 }
  checkStacks im

/-- `sp[i] = w` for the words from the `i`-th on. -/
def setWords : Nat → List StackWord → Exec O Unit
  | _, [] => pure ()
  | i, w :: ws => do
      setWord i w
      setWords (i + 1) ws

/-- `APPTERM1` to `APPTERM3`: the arguments are read before `sp` moves. -/
def doAppTermFew (nargs : Nat) (slotsize : Word) : Exec O Unit := do
  let args ← words nargs
  moveSp (slotsize.toInt - nargs)
  setWords 0 args
  enterAccu
  update fun r => { r with extraArgs := r.extraArgs + BitVec.ofNat 64 (nargs - 1) }
  checkStacks im

/-- `pc = sp[0]; env = sp[1]; extra_args = Long_val(sp[2]); sp += 3`. -/
def popReturnFrame : Exec O Unit := do
  setPc (.loaded (← value 0))
  setEnv (← value 1)
  setExtraArgs (longVal (← value 2))
  moveSp 3

/-- `RETURN`. -/
def doReturn (n : Word) : Exec O Unit := do
  moveSp n.toInt
  let extra ← reg Regs.extraArgs
  if BitVec.slt 0 extra then do
    setExtraArgs (extra - 1)
    enterAccu
  else popReturnFrame

/-- `for (i = i0; i < i0 + k; i++) sp[i - i0] = Field(env, i)`: the values. -/
def loadFields (v : Value) (i : Nat) : Nat → Exec O (List Value)
  | 0 => pure []
  | k + 1 => do
      let x ← ask (.load (fieldN v i))
      let xs ← loadFields v (i + 1) k
      pure (x :: xs)

/-- `RESTART`. -/
def doRestart : Exec O Unit := do
  let env ← reg Regs.env
  let hd ← ask (.load (env - 8))
  -- `int num_args = Wosize_val(env) - 2`
  let num_args := ((hd >>> 10) - 2).setWidth 32
  require (0 ≤ num_args.toInt)
  let args ← loadFields env 2 num_args.toInt.toNat
  pushWords (args.map .val)
  setEnv (← ask (.load (fieldN env 1)))
  update fun r => { r with extraArgs := r.extraArgs + num_args.signExtend 64 }

/-- Stores of `vs` to the fields of `block` from `i` on. -/
def storeAll (store : Value → Value → Request) (block : Value) : Nat → List Value → Exec O Unit
  | _, [] => pure ()
  | i, v :: vs => do
      let _ ← ask (store (fieldN block i) v)
      storeAll store block (i + 1) vs

/-- `Alloc_small`, with its assertion. -/
def allocSmall (wosize tag : Nat) : Exec O Value := do
  require (1 ≤ wosize)
  ask (.allocSmall wosize tag)

/-- `GRAB`; `restart` is `pc - 3`, the instruction before it. -/
def doGrab (n : Word) (restart : Int) : Exec O Unit := do
  let extra ← reg Regs.extraArgs
  let required := n.signExtend 64
  if required.sle extra then do
    setExtraArgs (extra - required)
    setAccu valUnit
  else do
    let num_args := (extra + 1).toNat
    let block ← allocSmall (num_args + 2) closureTag
    setAccu block
    let _ ← ask (.store (fieldN block 1) (← reg Regs.env))
    storeAll .store block 2 (← values num_args)
    let _ ← ask (.store block (im.codeAt restart))
    moveSp num_args
    popReturnFrame

/-! ## §3. Closures. -/

/-- `if (nvars > 0) *--sp = accu`. -/
def pushIfVars (nvars : Word) : Exec O Unit :=
  if 0 < nvars.toInt then doPush else pure ()

/-- The block of a closure, the captured values stored from field `start` on. -/
def allocClosure (small : Bool) (wosize start : Nat) (nvars : Word) : Exec O Unit := do
  if small then do
    setAccu (← allocSmall wosize closureTag)
    storeAll .store (← reg Regs.accu) start (← values nvars.toInt.toNat)
  else do
    setAccu (← ask (.allocShr wosize closureTag))
    storeAll .camlInitialize (← reg Regs.accu) start (← values nvars.toInt.toNat)

/-- `CLOSURE`. -/
def doClosure (nvars : Word) (l : Int) : Exec O Unit := do
  pushIfVars nvars
  -- `1 + nvars` is computed on `int` and converted to `mlsize_t`
  allocClosure (nvars.toInt < maxYoungWosize) ((1 + nvars).signExtend 64).toNat 1 nvars
  let _ ← ask (.store (← reg Regs.accu) (im.codeAt l))
  moveSp nvars.toInt

/-- The loop of `CLOSUREREC` over the functions from the `i`-th on. -/
def storeInfixes (block : Value) : Nat → List Int → Exec O Unit
  | _, [] => pure ()
  | i, l :: ls => do
      let _ ← ask (.store (fieldN block (2 * i - 1)) (makeHeader (i * 2) infixTag))
      let _ ← ask (.store (fieldN block (2 * i)) (im.codeAt l))
      push (fieldN block (2 * i))
      storeInfixes block (i + 1) ls

/-- `CLOSUREREC`, for the labels `pc + pc[i]`.  With `nfuncs < 1` what follows
the allocation writes outside the block. -/
def doClosureRec (nfuncs nvars : Word) (labels : List Int) : Exec O Unit := do
  let blksize := ((nfuncs * 2 - 1 + nvars).signExtend 64).toNat
  pushIfVars nvars
  allocClosure (blksize ≤ maxYoungWosize) blksize (nfuncs.toInt * 2 - 1).toNat nvars
  require (1 ≤ nfuncs.toInt)
  moveSp nvars.toInt
  let block ← reg Regs.accu
  match labels with
  | [] => stuck
  | l :: ls => do
      let _ ← ask (.store block (im.codeAt l))
      push block
      storeInfixes im block 1 ls

/-! ## §4. Globals and blocks. -/

/-- `accu = Field(caml_global_data, n)`. -/
def doGetGlobal (n : Word) : Exec O Unit := do
  setAccu (← loadField (← ask (.load im.globalData)) n)

/-- `caml_modify(&Field(caml_global_data, n), accu); accu = Val_unit`. -/
def doSetGlobal (n : Word) : Exec O Unit := do
  let globals ← ask (.load im.globalData)
  let _ ← ask (.camlModify (field globals (n.signExtend 64)) (← reg Regs.accu))
  setAccu valUnit

/-- `accu = Atom(tag)`. -/
def doAtom (tag : BitVec 64) : Exec O Unit := setAccu (im.atom tag)

/-- `for (i = i0; i < i0 + k; i++) store(Field(block, i), *sp++)`. -/
def storePopped (store : Value → Value → Request) (block : Value) (i : Nat) :
    Nat → Exec O Unit
  | 0 => pure ()
  | k + 1 => do
      let v ← value 0
      moveSp 1
      let _ ← ask (store (fieldN block i) v)
      storePopped store block (i + 1) k

/-- `MAKEBLOCK`. -/
def doMakeBlock (wosize tag : Nat) : Exec O Unit := do
  if wosize ≤ maxYoungWosize then do
    let block ← allocSmall wosize tag
    let _ ← ask (.store (fieldN block 0) (← reg Regs.accu))
    storePopped .store block 1 (wosize - 1)
    setAccu block
  else do
    let block ← ask (.allocShr wosize tag)
    let _ ← ask (.camlInitialize (fieldN block 0) (← reg Regs.accu))
    storePopped .camlInitialize block 1 (wosize - 1)
    setAccu block

/-- `MAKEBLOCK1` to `MAKEBLOCK3`: `sp` moves after the stores. -/
def doMakeBlockFew (wosize tag : Nat) : Exec O Unit := do
  let block ← allocSmall wosize tag
  let _ ← ask (.store (fieldN block 0) (← reg Regs.accu))
  storeAll .store block 1 (← values (wosize - 1))
  moveSp (wosize - 1 : Nat)
  setAccu block

/-- `for (i = i0; i < i0 + k; i++) { Store_double_flat_field(block, i,
Double_val(*sp)); ++ sp; }`. -/
def storePoppedDoubles (block : Value) (i : Nat) : Nat → Exec O Unit
  | 0 => pure ()
  | k + 1 => do
      let d ← ask (.load (← value 0))
      let _ ← ask (.store (fieldN block i) d)
      moveSp 1
      storePoppedDoubles block (i + 1) k

/-- `MAKEFLOATBLOCK`. -/
def doMakeFloatBlock (size : Nat) : Exec O Unit := do
  let block ←
    if size ≤ maxYoungWosize then allocSmall size doubleArrayTag
    else ask (.allocShr size doubleArrayTag)
  let d ← ask (.load (← reg Regs.accu))
  let _ ← ask (.store (fieldN block 0) d)
  storePoppedDoubles block 1 (size - 1)
  setAccu block

/-- `accu = Field(accu, n)`. -/
def doGetField (n : Word) : Exec O Unit := do
  setAccu (← loadField (← reg Regs.accu) n)

/-- `GETFLOATFIELD`. -/
def doGetFloatField (n : Word) : Exec O Unit := do
  let d ← loadField (← reg Regs.accu) n
  setAccu (← allocSmall 1 doubleTag)
  let _ ← ask (.store (← reg Regs.accu) d)
  pure ()

/-- `caml_modify(&Field(accu, n), *sp++); accu = Val_unit`. -/
def doSetField (n : Word) : Exec O Unit := do
  let v ← value 0
  moveSp 1
  let _ ← ask (.camlModify (field (← reg Regs.accu) (n.signExtend 64)) v)
  setAccu valUnit

/-- `SETFLOATFIELD`. -/
def doSetFloatField (n : Word) : Exec O Unit := do
  let d ← ask (.load (← value 0))
  let _ ← ask (.store (field (← reg Regs.accu) (n.signExtend 64)) d)
  setAccu valUnit
  moveSp 1

/-! ## §5. Arrays and strings. -/

/-- `VECTLENGTH`. -/
def doVecTLength : Exec O Unit := do
  setAccu (← ask (.vectLength (← reg Regs.accu)))

/-- `accu = Field(accu, Long_val(sp[0])); sp += 1`. -/
def doGetVecTItem : Exec O Unit := do
  let i ← value 0
  setAccu (← ask (.load (field (← reg Regs.accu) (longVal i))))
  moveSp 1

/-- `caml_modify(&Field(accu, Long_val(sp[0])), sp[1]); accu = Val_unit; sp += 2`. -/
def doSetVecTItem : Exec O Unit := do
  let i ← value 0
  let v ← value 1
  let _ ← ask (.camlModify (field (← reg Regs.accu) (longVal i)) v)
  setAccu valUnit
  moveSp 2

/-- `accu = Val_int(Byte_u(accu, Long_val(sp[0]))); sp += 1`. -/
def doGetBytesChar : Exec O Unit := do
  let i ← value 0
  let b ← ask (.load8 ((← reg Regs.accu) + longVal i))
  setAccu (valLong ((b.setWidth 8).setWidth 64))
  moveSp 1

/-- `Byte_u(accu, Long_val(sp[0])) = Int_val(sp[1]); sp += 2; accu = Val_unit`. -/
def doSetBytesChar : Exec O Unit := do
  let i ← value 0
  let v ← value 1
  let _ ← ask (.store8 ((← reg Regs.accu) + longVal i) ((intVal v).setWidth 8))
  moveSp 2
  setAccu valUnit

/-! ## §6. Branches. -/

/-- `if (b) pc = l; else pc++`, `pc` being past the operand already. -/
def branchWhen (b : Regs → Bool) (l : Int) : Exec O Unit := do
  if ← reg b then setPc (.here l) else pure ()

/-- `accu != Val_false`. -/
def isTrue (r : Regs) : Bool := r.accu != valFalse

/-- `n tst Long_val(accu)`. -/
def compares (cmp : Comp) (n : Word) (r : Regs) : Bool :=
  compHolds cmp (n.signExtend 64) (longVal r.accu)

/-- `SWITCH`; `label i` is `pc + pc[i]`, the integers before the tags. -/
def doSwitch (ints tags : Nat) (label : Nat → Exec O Int) : Exec O Unit := do
  let accu ← reg Regs.accu
  if accu &&& 1 = 0 then do
    let tag ← ask (.load8 (accu - 8))
    let index := (tag.setWidth 8).toNat
    require (index < tags)
    setPc (.here (← label (ints + index)))
  else do
    let index := (longVal accu).toNat
    require (index < ints)
    setPc (.here (← label index))

/-- `accu = Val_not(accu)`. -/
def doBoolNot : Exec O Unit := do
  setAccu (valFalse + valTrue - (← reg Regs.accu))

/-! ## §7. Exceptions. -/

/-- `PUSHTRAP`. -/
def doPushTrap (l : Int) : Exec O Unit := do
  let r ← reg id
  pushWords [.val (im.codeAt l), .link r.trapsp, .val r.env, .val (valLong r.extraArgs)]
  setTrapsp (← reg fun r => r.stack.length)

/-- `POPTRAP`; `own` is its own offset, where it is restarted after signals. -/
def doPopTrap (own : Int) : Exec O Unit := do
  let todo ← ask (.load32 im.somethingToDo)
  if todo.setWidth 32 = 0 then do
    setTrapsp (← link 1)
    moveSp 4
  else do
    let _ ← ask .processPendingActions
    setPc (.here own)

/-- `raise_notrace`. -/
def raiseNoTrace : Exec O Next := do
  let r ← reg id
  if r.trapsp ≤ im.initialDepth then do
    moveSp (r.stack.length - im.initialDepth)
    pure (.exceptionResult r.accu)
  else do
    moveSp (r.stack.length - r.trapsp)
    setPc (.loaded (← value 0))
    setTrapsp (← link 1)
    setEnv (← value 2)
    setExtraArgs (longVal (← value 3))
    moveSp 4
    pure .fetch

/-- `RAISE`, `RERAISE` and `RAISE_NOTRACE`; `own` is `pc - 1`. -/
def doRaise (kind : RaiseKind) (own : Int) : Exec O Next := do
  let _ ← perform (.checkTrapBarrier (← reg Regs.trapsp))
  if kind = .noTrace then raiseNoTrace im
  else do
    let active ← perform .backtraceActive
    if active = 0 then raiseNoTrace im
    else do
      push (im.codeAt own)
      let r ← reg id
      let _ ← perform (.stashBacktrace r.accu r.stack.length (kind = .reRaise))
      raiseNoTrace im

/-! ## §8. C calls and integers. -/

/-- `C_CALL1` to `C_CALL5`: the accumulator and `extra` words of the stack. -/
def doCCall (extra : Nat) (prim : Word) : Exec O Unit := do
  let args ← values extra
  setAccu (← ask (.cCall (u32OfWord prim) ((← reg Regs.accu) :: args)))
  moveSp extra

/-- `C_CALLN`. -/
def doCCallN (nargs prim : Word) : Exec O Unit := do
  doPush
  let args ← values nargs.toInt.toNat
  setAccu (← ask (.cCall (u32OfWord prim) args))
  moveSp nargs.toInt

/-- `accu = Val_int(n)`. -/
def doConst (n : Word) : Exec O Unit := setAccu (valLong (n.signExtend 64))

/-- `accu = 2 - accu`. -/
def doNegInt : Exec O Unit := do
  setAccu (2 - (← reg Regs.accu))

/-- `caml_raise_zero_divide` if the divisor is zero, else the quotient. -/
def divideBy (f : BitVec 64 → BitVec 64 → BitVec 64) (a b : Value) : Exec O Value :=
  if longVal b = 0 then do
    let _ ← ask .raiseZeroDivide
    stuck
  else pure (valLong (f (longVal a) (longVal b)))

/-- A shift by `Long_val(b)`; C gives it a meaning for 0 to 63 only. -/
def shiftBy (f : Nat → Value) (b : Value) : Exec O Value := do
  require ((longVal b).toNat < 64)
  pure (f (longVal b).toNat)

/-- `accu op *sp` of the tagged arithmetic. -/
def arith (op : ArithOp) (a b : Value) : Exec O Value :=
  match op with
  | .add => pure (a + b - 1)
  | .sub => pure (a - b + 1)
  | .mul => pure (valLong (longVal a * longVal b))
  | .div => divideBy BitVec.sdiv a b
  | .mod => divideBy BitVec.srem a b
  | .and => pure (a &&& b)
  | .or => pure (a ||| b)
  | .xor => pure ((a ^^^ b) ||| 1)
  | .lsl => shiftBy (fun n => ((a - 1) <<< n) + 1) b
  | .lsr => shiftBy (fun n => (a >>> n) ||| 1) b
  | .asr => shiftBy (fun n => a.sshiftRight n ||| 1) b

/-- `ADDINT` to `ASRINT`. -/
def doArithInt (op : ArithOp) : Exec O Unit := do
  let b ← value 0
  moveSp 1
  setAccu (← arith op (← reg Regs.accu) b)

/-- `Integer_comparison`. -/
def doIntCmp (cmp : Comp) : Exec O Unit := do
  let b ← value 0
  moveSp 1
  setAccu (if compHolds cmp (← reg Regs.accu) b then valTrue else valFalse)

/-- `n << 1`, on `int`. -/
def doubled (n : Word) : BitVec 64 := (n <<< 1).signExtend 64

/-- `accu += n << 1`. -/
def doOffsetInt (n : Word) : Exec O Unit := do
  setAccu ((← reg Regs.accu) + doubled n)

/-- `Field(accu, 0) += n << 1; accu = Val_unit`. -/
def doOffsetRef (n : Word) : Exec O Unit := do
  let accu ← reg Regs.accu
  let old ← ask (.load accu)
  let _ ← ask (.store accu (old + doubled n))
  setAccu valUnit

/-- `accu = Val_long(accu & 1)`. -/
def doIsInt : Exec O Unit := do
  setAccu (valLong ((← reg Regs.accu) &&& 1))

/-! ## §9. Objects and machine control. -/

/-- `accu = Lookup(sp[0], accu)`. -/
def doGetMethod : Exec O Unit := do
  let methods ← ask (.load (← value 0))
  setAccu (← ask (.load (field methods (intVal (← reg Regs.accu)))))

/-- `GETDYNMET`. -/
def doGetDynMet : Exec O Unit := do
  let obj ← value 0
  setAccu (← ask (.getDynMet (← reg Regs.accu) obj))

/-- `STOP`. -/
def doStop : Exec O Next := do
  pure (.returned (← reg Regs.accu))

/-- `EVENT`. -/
def doEvent : Exec O Next := do
  let left ← perform .eventCount
  if left = 0 then do
    let _ ← perform (.debugger false)
    pure .restart
  else pure .restart

/-- `BREAK`. -/
def doBreak : Exec O Next := do
  let _ ← perform (.debugger true)
  pure .restart

end OcamlJit.Bytecode

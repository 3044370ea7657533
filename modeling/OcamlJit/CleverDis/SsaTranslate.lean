/-
  OcamlJit.CleverDis.SsaTranslate
  ───────────────────────────────
  **A BLOCK OF BYTECODE AS SSA STATEMENTS** (`clever_dis/ssa/mod.rs`).

  `translateBlock` runs the instructions of one block on the symbolic stack.
  What is read is a variable; what has to be computed, or changes the heap,
  becomes a statement.
-/
import OcamlJit.CleverDis.Parsing
import OcamlJit.CleverDis.Ssa

namespace OcamlJit.CleverDis.Ssa

open OcamlJit.Lib OcamlJit.Instructions

/-! ## §1. The translation state. -/

/-- What `translate_block` can return as `Err`. -/
inductive TranslateError where
  /-- "{instr} should be last call in a block!". -/
  | shouldBeLast (instr : Instruction Nat)
  /-- "Restarts should not appear in blocks". -/
  | restart
  /-- "Grabs should not appear in the body of blocks". -/
  | grab
  /-- "Invalid block exit: {instr} {exit}". -/
  | invalidExit (instr : Instruction Nat) (exit : BlockExit)
  /-- An `ensure!` without a message. -/
  | conditionFailed
  deriving Repr, DecidableEq

/-- `struct Vars`. -/
structure Vars where
  statements : List SSAStatement
  numAssignments : Nat
  blockNum : Nat
  deriving Repr, DecidableEq

/-- `Vars::new`. -/
def Vars.new (blockNum : Nat) : Vars := ⟨[], 0, blockNum⟩

/-- `state` and `vars`. -/
structure Translation where
  state : SSAStackState
  vars : Vars
  deriving Repr, DecidableEq

/-- `Result` in this state. -/
abbrev Translate := StateT Translation (Rust TranslateError)

/-- The state after a change of the stack. -/
def Translation.withState (σ : Translation) (st : SSAStackState) : Translation :=
  { σ with state := st }

/-- `state.get_subst`. -/
def getSubst (t : SSASubstitutionTarget) : Translate SSAVar := fun σ =>
  .ok ((σ.state.getSubst t).1, σ.withState (σ.state.getSubst t).2)

/-- `state.pick`. -/
def pick (n : Nat) : Translate SSAVar := getSubst (.stack n)

/-- `state.accu`. -/
def accu : Translate SSAVar := getSubst .acc

/-- `(0..n).map(|i| state.pick(i))`. -/
def picks (n : Nat) : Translate (List SSAVar) := (List.range n).mapM pick

/-- `state.set_accu`. -/
def setAccu (v : SSAVar) : Translate Unit := fun σ => .ok ((), σ.withState (σ.state.setAccu v))

/-- `state.push`. -/
def push (v : SSAVar) : Translate Unit := fun σ => .ok ((), σ.withState (σ.state.push v))

/-- `state.pop`. -/
def pop (n : Nat) : Translate Unit := fun σ => .ok ((), σ.withState (σ.state.pop n))

/-- `state.assign`. -/
def assign (index : Nat) (v : SSAVar) : Translate Unit := fun σ =>
  .ok ((), σ.withState (σ.state.assign index v))

/-- `add_statement`. -/
def addStatement (statement : SSAStatement) : Translate Unit := fun σ =>
  .ok ((), { σ with vars := { σ.vars with statements := σ.vars.statements ++ [statement] } })

/-- `add_assignment`. -/
def addAssignment (e : SSAExpr) : Translate SSAVar := fun σ =>
  let i := σ.vars.numAssignments
  .ok (.computed σ.vars.blockNum i, { σ with vars :=
    { σ.vars with
      statements := σ.vars.statements ++ [.assign σ.vars.blockNum i e]
      numAssignments := i + 1 } })

/-- `bail!` and `?`. -/
def bail {α : Type} (e : TranslateError) : Translate α := StateT.lift (err e)

/-- `ensure!` without a message. -/
def ensureThat (c : Prop) [Decidable c] : Translate Unit := StateT.lift (ensure c .conditionFailed)

/-! ## §2. Instructions. -/

/-- `n as i32`. -/
def asI32 (n : Nat) : Int := (BitVec.ofNat 32 n).toInt

/-- `let accu = state.accu(); state.push(accu)`. -/
def pushAccu : Translate Unit := do push (← accu)

/-- `if nvars > 0 { let accu = state.accu(); state.push(accu) }`. -/
def spill (nvars : Nat) : Translate Unit := if nvars > 0 then pushAccu else pure ()

/-- `c_call`. -/
def cCall (count primitiveId : Nat) : Translate Unit := do
  pushAccu
  let v ← addAssignment (.cCall primitiveId (← picks count))
  setAccu v
  pop count

/-- The loop over the functions after the first of a `CLOSUREREC`. -/
def pushInfixes (v : SSAVar) : List Nat → Translate Unit
  | [] => pure ()
  | i :: is => do
      push (← addAssignment (.closureRecInfix v i))
      pushInfixes v is

/-- `process_body_instruction`. -/
def processBodyInstruction (instr : Instruction Nat) : Translate Unit :=
  match instr with
  | .applyTerm _ _ | .apply _ | .return_ _ | .branch _ | .branchIf _ | .branchIfNot _
  | .branchCmp _ _ _ | .raise _ | .switch _ _ | .pushTrap _ | .stop =>
      bail (.shouldBeLast instr)
  | .restart => bail .restart
  | .labelDef _ => pure ()
  | .acc n => do setAccu (← pick n)
  | .envAcc n => setAccu (.env n)
  | .push => pushAccu
  | .pop n => pop n
  | .assign n => do assign n (← accu)
  | .pushRetAddr _ => do
      push .special
      push .special
      push .special
  | .apply1 => do
      let v ← addAssignment (.apply (← accu) [← pick 0])
      setAccu v
      pop 1
  | .apply2 => do
      let v ← addAssignment (.apply (← accu) [← pick 0, ← pick 1])
      setAccu v
      pop 2
  | .apply3 => do
      let v ← addAssignment (.apply (← accu) [← pick 0, ← pick 1, ← pick 2])
      setAccu v
      pop 3
  | .grab _ => bail .grab
  | .closure loc nvars => do
      spill nvars
      let v ← addAssignment (.closure loc (← picks nvars))
      setAccu v
      pop nvars
  | .closureRec locs nvars => do
      spill nvars
      let v ← addAssignment (.closureRec locs (← picks nvars))
      pop nvars
      setAccu v
      push v
      pushInfixes v (List.range' 1 (locs.length - 1))
  | .offsetClosure i => setAccu (.offsetClosure i)
  | .getGlobal n => do setAccu (← addAssignment (.getGlobal n))
  | .setGlobal n => do
      addStatement (.setGlobal n (← accu))
      setAccu .unit
  | .const n => setAccu (.const n)
  | .makeBlock size tag =>
      if size = 0 then setAccu (.atom tag)
      else do
        pushAccu
        let v ← addAssignment (.makeBlock tag (← picks size))
        setAccu v
        pop size
  | .makeFloatBlock size => do
      pushAccu
      let v ← addAssignment (.makeFloatBlock (← picks size))
      setAccu v
      pop size
  | .getField n => do
      let v ← addAssignment (.getField (← accu) (.const (asI32 n)))
      setAccu v
  | .setField n => do
      addStatement (.setField (← accu) (.const (asI32 n)) (← pick 0))
      pop 1
      setAccu .unit
  | .getFloatField n => do
      let v ← addAssignment (.getFloatField (← accu) n)
      setAccu v
  | .setFloatField n => do
      addStatement (.setFloatField (← accu) n (← pick 0))
      pop 1
      setAccu .unit
  | .vecTLength => do
      let v ← addAssignment (.getVecTLength (← accu))
      setAccu v
  | .getVecTItem => do
      let v ← addAssignment (.getField (← accu) (← pick 0))
      setAccu v
      pop 1
  | .setVecTItem => do
      addStatement (.setField (← accu) (← pick 0) (← pick 1))
      pop 2
      setAccu .unit
  | .getBytesChar => do
      let v ← addAssignment (.getBytesChar (← accu) (← pick 0))
      setAccu v
      pop 1
  | .setBytesChar => do
      addStatement (.setBytesChar (← accu) (← pick 0) (← pick 1))
      pop 2
      setAccu .unit
  | .boolNot => do
      let v ← addAssignment (.unaryOp .boolNot (← accu))
      setAccu v
  | .popTrap => do
      addStatement .popTrap
      pop 4
  | .checkSignals => do
      addStatement .checkSignals
      setAccu .junk
  | .cCall1 id => cCall 1 id
  | .cCall2 id => cCall 2 id
  | .cCall3 id => cCall 3 id
  | .cCall4 id => cCall 4 id
  | .cCall5 id => cCall 5 id
  | .cCallN nargs id => cCall nargs id
  | .arithInt op => do
      let v ← addAssignment (.arithInt op (← accu) (← pick 0))
      setAccu v
      pop 1
  | .negInt => do
      let v ← addAssignment (.unaryOp .neg (← accu))
      setAccu v
  | .intCmp cmp => do
      let v ← addAssignment (.intCmp cmp (← accu) (← pick 0))
      setAccu v
      pop 1
  | .offsetInt n => do
      let v ← addAssignment (.arithInt .add (← accu) (.const n))
      setAccu v
  | .offsetRef n => do
      let a ← addAssignment (.getField (← accu) (.const 0))
      let b ← addAssignment (.arithInt .add a (.const n))
      addStatement (.setField (← accu) (.const 0) b)
      setAccu .unit
  | .isInt => do
      let v ← addAssignment (.unaryOp .isInt (← accu))
      setAccu v
  | .getMethod => do
      let v ← addAssignment (.getMethod (← pick 0) (← accu))
      setAccu v
  | .setupForPubMet tag => do
      pushAccu
      setAccu (.const tag)
  | .getDynMet => do
      let v ← addAssignment (.getDynMet (← accu) (← pick 0))
      setAccu v
  | .break_ | .event => pure ()

/-- `process_final_instruction`. -/
def processFinalInstruction (instr : Instruction Nat) (exit : BlockExit) : Translate SSAExit :=
  match instr, exit with
  | .stop, .stop => do pure (.stop (← accu))
  | .branch n2, .unconditionalJump n1 => do
      ensureThat (n1 = n2)
      pure (.jump n1)
  | .return_ count, .return_ => do
      pop count
      pure (.return_ (← accu))
  | .branchIf to1, .conditionalJump ift iff => do
      ensureThat (to1 = ift)
      pure (.jumpIf (← accu) ift iff)
  | .branchIfNot to1, .conditionalJump iff ift => do
      ensureThat (to1 = iff)
      pure (.jumpIf (← accu) ift iff)
  | .branchCmp cmp compare ift1, .conditionalJump ift2 iff => do
      ensureThat (ift1 = ift2)
      let v ← addAssignment (.intCmp cmp (.const compare) (← accu))
      pure (.jumpIf v ift1 iff)
  | .raise kind, .raise => do pure (.raise kind (← accu))
  | .apply nvars, .unconditionalJump retloc => do
      ensureThat (nvars > 3)
      let passedVars ← picks nvars
      pop nvars
      pop 3
      let v ← addAssignment (.apply (← accu) passedVars)
      setAccu v
      pure (.jump retloc)
  | .applyTerm nargs slotSize, .tailCall => do
      let vars ← picks nargs
      pop slotSize
      pure (.tailApply (← accu) vars)
  | .switch ints1 blocks1, .switch ints2 blocks2 => do
      ensureThat (ints1 = ints2)
      ensureThat (blocks1 = blocks2)
      pure (.switch (← accu) ints1 blocks1)
  | .pushTrap trap1, .pushTrap normal trap2 => do
      ensureThat (trap1 = trap2)
      push .special
      push .special
      push .special
      push .special
      pure (.pushTrap normal trap1)
  | i, .unconditionalJump target => do
      processBodyInstruction i
      pure (.jump target)
  | i, e => bail (.invalidExit i e)

/-! ## §3. Blocks. -/

/-- `for arg in (0..=nargs).rev() { state.push(SSAVar::Arg(arg)) }`. -/
def pushArgs : Nat → Translate Unit
  | 0 => push (.arg 0)
  | nargs + 1 => do
      push (.arg (nargs + 1))
      pushArgs nargs

/-- What `translate_block` does for the entry block: `has_grab`. -/
def enterClosure (instructions : List (Instruction Nat)) : Translate Bool := do
  setAccu .junk
  match instructions with
  | .grab nargs :: _ =>
      pushArgs nargs
      addStatement (.grab nargs)
      pure true
  | _ =>
      push (.arg 0)
      pure false

/-- What it does for a trap handler. -/
def enterTrapHandler : Translate Unit := do
  setAccu .trapAcc
  pop 4

/-- What it does from `first_instr_idx` on. -/
def translateFrom (block : Block) (firstInstrIdx : Nat) : Translate SSAExit :=
  let lastInstrIdx := block.instructions.length - 1
  -- the bounds of `instructions[first_instr_idx..last_instr_idx]`
  if firstInstrIdx ≤ lastInstrIdx then do
    ((block.instructions.take lastInstrIdx).drop firstInstrIdx).forM processBodyInstruction
    match block.instructions.getLast? with
    | some lastInstruction => processFinalInstruction lastInstruction block.exit
    | none => StateT.lift panicked
  else StateT.lift panicked

/-- `translate_block` after the first check, up to the result. -/
def translateInstructions (block : Block) (isEntryBlock isTrapHandler : Bool) :
    Translate SSAExit := do
  (if isTrapHandler then enterTrapHandler else pure ())
  let hasGrab ← (if isEntryBlock then enterClosure block.instructions else pure false)
  translateFrom block (if hasGrab then 1 else 0)

/-- `translate_block`. -/
def translateBlock (block : Block) (blockNum : Nat) (isEntryBlock isTrapHandler : Bool) :
    Rust TranslateError SSABlock := do
  ensure (block.instructions ≠ []) .conditionFailed
  let (exit, σ) ← translateInstructions block isEntryBlock isTrapHandler ⟨.new, .new blockNum⟩
  pure ⟨σ.vars.statements, exit, σ.state⟩

end OcamlJit.CleverDis.Ssa

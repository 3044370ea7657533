/-
  OcamlJit.BasicBlocks.Machine
  ────────────────────────────
  **RUNNING A CLOSURE'S BASIC BLOCKS.**

  Start in block 0, run the instructions of a block with their meaning from
  `interp.c`, follow its exit to the target block.
-/
import OcamlJit.BasicBlocks.Types
import OcamlJit.Interp.Linear

namespace OcamlJit.BasicBlocks

open OcamlJit.Lib OcamlJit.Instructions OcamlJit.Interp

section Blocks

variable {O : Oracle Request Value} (rt : Layout)

/-- The meaning of a recorded instruction. -/
def blockMeaning : BasicBlockInstruction → State → Act O State
  | .acc n => doAcc n
  | .envAcc n => doEnvAcc n
  | .push => doPush
  | .pop n => doPop n
  | .assign n => doAssign n
  | .apply1 => doApply 1 0
  | .apply2 => doApply 2 0
  | .apply3 => doApply 3 0
  | .pushRetAddr => doPushRetAddr
  | .apply nargs => doApply nargs 3
  | .closure l nvars => doClosure rt l nvars
  | .closureRec ls nvars => doClosureRec rt ls nvars
  | .makeBlock size tag => doMakeBlock rt size tag
  | .makeFloatBlock size => doMakeFloatBlock size
  | .offsetClosure n => doOffsetClosure n
  | .getGlobal n => doGetGlobal rt n
  | .setGlobal n => doSetGlobal rt n
  | .getField n => doGetField n
  | .setField n => doSetField n
  | .getFloatField n => doGetFloatField n
  | .setFloatField n => doSetFloatField n
  | .getVecTItem => doGetVecTItem
  | .setVecTItem => doSetVecTItem
  | .getBytesChar => doGetBytesChar
  | .setBytesChar => doSetBytesChar
  | .offsetRef n => doOffsetRef n
  | .const n => doConst n
  | .boolNot => doBoolNot
  | .negInt => doNegInt
  | .arithInt op => doArithInt op
  | .isInt => doIsInt
  | .intCmp cmp => doIntCmp cmp
  | .offsetInt n => doOffsetInt n
  | .cCall1 id => doCCall id 0
  | .cCall2 id => doCCall id 1
  | .cCall3 id => doCCall id 2
  | .cCall4 id => doCCall id 3
  | .cCall5 id => doCCall id 4
  | .cCallN nargs id => doCCall id (nargs - 1)
  | .vecTLength => doVecTLength
  | .checkSignals => doCheckSignals rt
  | .getMethod => doGetMethod
  | .getDynMet => doGetDynMet
  | .setupForPubMet n => fun s => do doConst n (← doPush s)
  -- there are no trap handlers here
  | .popTrap => fun _ => Act.stuck

/-- An exit: the block to go to, or the end of the closure's code. -/
def exitMeaning : BasicBlockExit → State → Act O (Nat ⊕ Outcome)
  | .branch l, _ => pure (.inl l)
  | .branchIf thenBlock elseBlock, s =>
      pure (.inl (if branchTaken s then thenBlock else elseBlock))
  | .branchCmp cmp constant thenBlock elseBlock, s =>
      pure (.inl (if cmpTaken cmp constant s then thenBlock else elseBlock))
  | .switch ints tags, s => do pure (.inl (← switchTarget ints tags s))
  | .return_ toPop, s => do pure (.inr (← doReturn toPop s))
  | .tailCall args toPop, s => do pure (.inr (← doTailCall args toPop s))
  | .raise kind, s => pure (.inr (.raised kind s.accu))
  | .stop, s => pure (.inr (.stopped s.accu s.stack))
  | .pushTrap _ _, _ => Act.stuck

/-- A plain jump is not noted in the history. -/
def BasicBlockExit.isJump : BasicBlockExit → Bool
  | .branch _ => true
  | _ => false

/-- The rest of a block and what is seen there. -/
structure BlockConfig where
  rest : List BasicBlockInstruction
  exit : BasicBlockExit
  visible : Visible

/-- The start of block `i`. -/
def enterBlock (c : BasicClosure) (i : Nat) (v : Visible) :
    Act O (Progress BlockConfig Outcome) := do
  let b ← Act.ofOption c.blocks[i]?
  pure (.running ⟨b.instructions, b.exit, v⟩)

/-- One step: an instruction or an exit. -/
def blockStep (c : BasicClosure) (s : BlockConfig) : Act O (Progress BlockConfig Outcome) :=
  match s.rest with
  | i :: is => do
      let s' ← blockMeaning rt i s.visible.state
      pure (.running ⟨is, s.exit, s.visible.after s'⟩)
  | [] => do
      match ← exitMeaning s.exit s.visible.state with
      | .inr o => pure (.done o)
      | .inl j =>
          enterBlock c j (if s.exit.isJump then s.visible else s.visible.after s.visible.state)

/-- The run of a closure starts in block 0. -/
def BlockConfig.start (c : BasicClosure) (s : State) : Option BlockConfig := do
  let b ← c.blocks[0]?
  pure ⟨b.instructions, b.exit, ⟨s, []⟩⟩

end Blocks

end OcamlJit.BasicBlocks

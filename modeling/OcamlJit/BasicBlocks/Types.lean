/-
  OcamlJit.BasicBlocks.Types
  ──────────────────────────
  A closure as a control flow graph (`basic_blocks/types.rs`).  Labels in exits
  and predecessor lists are word offsets while the search runs and block ids
  in the finished `BasicClosure`.
-/
import OcamlJit.Instructions.Types

namespace OcamlJit.BasicBlocks

open OcamlJit.Instructions

/-- `enum BasicBlockType`. -/
inductive BasicBlockType where
  | normal | first | trap
  deriving Repr, DecidableEq

/-- `enum BasicBlockInstruction`. -/
inductive BasicBlockInstruction where
  | acc (n : Nat)
  | envAcc (n : Nat)
  | push
  | pop (n : Nat)
  | assign (n : Nat)
  | apply1
  | apply2
  | apply3
  | pushRetAddr
  | apply (nargs : Nat)
  | closure (l : Nat) (nvars : Nat)
  | closureRec (ls : List Nat) (nvars : Nat)
  | makeBlock (size tag : Nat)
  | makeFloatBlock (size : Nat)
  | offsetClosure (n : Int)
  | getGlobal (n : Nat)
  | setGlobal (n : Nat)
  | getField (n : Nat)
  | setField (n : Nat)
  | getFloatField (n : Nat)
  | setFloatField (n : Nat)
  | getVecTItem
  | setVecTItem
  | getBytesChar
  | setBytesChar
  | offsetRef (n : Int)
  | const (n : Int)
  | boolNot
  | negInt
  | arithInt (op : ArithOp)
  | isInt
  | intCmp (cmp : Comp)
  | offsetInt (n : Int)
  | cCall1 (id : Nat)
  | cCall2 (id : Nat)
  | cCall3 (id : Nat)
  | cCall4 (id : Nat)
  | cCall5 (id : Nat)
  | cCallN (nargs id : Nat)
  | vecTLength
  | checkSignals
  | popTrap
  | getMethod
  | setupForPubMet (tag : Int)
  | getDynMet
  deriving Repr, DecidableEq

/-- `enum BasicBlockExit`. -/
inductive BasicBlockExit where
  | branch (l : Nat)
  | branchIf (thenBlock elseBlock : Nat)
  | branchCmp (cmp : Comp) (constant : Int) (thenBlock elseBlock : Nat)
  | switch (ints tags : List Nat)
  | pushTrap (normal trap : Nat)
  | return_ (toPop : Nat)
  | tailCall (args toPop : Nat)
  | raise (kind : RaiseKind)
  | stop
  deriving Repr, DecidableEq

namespace BasicBlockExit

/-- The labels of an exit, in the order `modify_block_labels` visits them. -/
def targets : BasicBlockExit → List Nat
  | .branch l => [l]
  | .branchIf thenBlock elseBlock => [thenBlock, elseBlock]
  | .branchCmp _ _ thenBlock elseBlock => [thenBlock, elseBlock]
  | .switch ints tags => ints ++ tags
  | .pushTrap normal trap => [normal, trap]
  | .return_ _ | .tailCall _ _ | .raise _ | .stop => []

/-- `modify_block_labels`, for a visitor that can fail. -/
def modifyBlockLabels {m : Type → Type} [Monad m] (f : Nat → m Nat) :
    BasicBlockExit → m BasicBlockExit
  | .branch l => do pure (.branch (← f l))
  | .branchIf thenBlock elseBlock => do
      pure (.branchIf (← f thenBlock) (← f elseBlock))
  | .branchCmp cmp constant thenBlock elseBlock => do
      pure (.branchCmp cmp constant (← f thenBlock) (← f elseBlock))
  | .switch ints tags => do pure (.switch (← ints.mapM f) (← tags.mapM f))
  | .pushTrap normal trap => do pure (.pushTrap (← f normal) (← f trap))
  | .return_ toPop => pure (.return_ toPop)
  | .tailCall args toPop => pure (.tailCall args toPop)
  | .raise kind => pure (.raise kind)
  | .stop => pure .stop

/-- The exit with its labels renamed. -/
def mapLabels (f : Nat → Nat) : BasicBlockExit → BasicBlockExit
  | .branch l => .branch (f l)
  | .branchIf thenBlock elseBlock => .branchIf (f thenBlock) (f elseBlock)
  | .branchCmp cmp constant thenBlock elseBlock =>
      .branchCmp cmp constant (f thenBlock) (f elseBlock)
  | .switch ints tags => .switch (ints.map f) (tags.map f)
  | .pushTrap normal trap => .pushTrap (f normal) (f trap)
  | .return_ toPop => .return_ toPop
  | .tailCall args toPop => .tailCall args toPop
  | .raise kind => .raise kind
  | .stop => .stop

@[simp] theorem targets_mapLabels (f : Nat → Nat) (x : BasicBlockExit) :
    (x.mapLabels f).targets = x.targets.map f := by
  cases x <;> simp [mapLabels, targets]

end BasicBlockExit

/-- `struct BasicBlock`. -/
structure BasicBlock where
  blockId : Nat
  predecessors : List Nat
  blockType : BasicBlockType
  instructions : List BasicBlockInstruction
  exit : BasicBlockExit
  startStackSize : Nat
  endStackSize : Nat
  /-- The blocks this block is the last predecessor of, in block order. -/
  sealedBlocks : List Nat
  deriving Repr, DecidableEq

/-- `struct BasicClosure`. -/
structure BasicClosure where
  arity : Nat
  blocks : List BasicBlock
  usedClosures : List Nat
  maxStackSize : Nat
  hasTrapHandlers : Bool
  deriving Repr, DecidableEq

end OcamlJit.BasicBlocks

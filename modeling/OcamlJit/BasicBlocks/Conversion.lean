/-
  OcamlJit.BasicBlocks.Conversion
  ───────────────────────────────
  **FROM BYTECODE TO BASIC BLOCKS** (`basic_blocks/conversion.rs`).

  Two depth first searches over the code of one closure:

    • `findBlockStartsDfs` collects the offsets some jump refers to,
    • `visit` walks every block once, tracks the stack size, records the
      instructions and lists the finished blocks in post-order.

  `convertDfs` then numbers the blocks in reverse post-order and rewrites
  offsets into block ids.

  Both searches recurse on fuel.  A nested call is made on an offset that was
  not seen before, and an offset past the end of the code panics, so the fuel
  handed out here is never used up.  Arithmetic is the overflow-checked build's.
  A `HashSet` is a duplicate-free list; the order of its elements is
  nobody's business and no result depends on it.

  The searches are written for any monad `m` that has the results of the
  conversion, and for any way `iter` of starting an instruction iterator.  The
  source's are those for `Conv` and `iterFrom`.
-/
import OcamlJit.BasicBlocks.Types
import OcamlJit.Instructions.Decode

namespace OcamlJit.BasicBlocks

open OcamlJit.Lib OcamlJit.Instructions

/-! ## §1. Errors. -/

/-- What `parse_to_basic_blocks` can return as `Err`. -/
inductive ConversionError where
  | parse (e : InstructionParseError)
  /-- `anyhow!("Expected an instruction")`. -/
  | expectedAnInstruction
  /-- `ensure!(condition)`. -/
  | conditionFailed (condition : String)
  deriving Repr, DecidableEq

/-- Results of the conversion. -/
abbrev Conv := Rust ConversionError

/-- `?` on an item of the instruction iterator. -/
def liftParse {α : Type} : Rust InstructionParseError α → Conv α
  | .ok a => .ok a
  | .error (.error e) => err (.parse e)
  | .error .panic => panicked
  | .error .outOfFuel => .error .outOfFuel

/-- An item of the instruction iterator with the position after it. -/
abbrev Item := Rust InstructionParseError (Instruction Nat) × Nat

/-- The iterator over `code[offset..code.len()]`; the slice panics past the end. -/
def iterFrom (code : List Word) (offset : Nat) : Conv (List Item) :=
  if offset ≤ code.length then .ok (instructionsFrom code offset) else panicked

theorem iterFrom_eq_ok {code : List Word} {offset : Nat} {items : List Item} :
    iterFrom code offset = .ok items ↔
      offset ≤ code.length ∧ items = instructionsFrom code offset := by
  unfold iterFrom panicked
  split
  case isTrue h => simp only [Except.ok.injEq, h, true_and, eq_comm]
  case isFalse h => simp only [reduceCtorEq, h, false_and]

/-! ## §2. The starts of blocks. -/

/-- Labels that are not jumps of this closure: `continue` in the loop. -/
def isPlainReference : Instruction Nat → Bool
  | .labelDef _ | .pushRetAddr _ | .closure _ _ | .closureRec _ _ => true
  | _ => false

/-- How the instruction ends a block for `find_block_starts_dfs`. -/
inductive BlockEnd where
  | fallsThrough | ends | goesOn
  deriving Repr, DecidableEq

/-- The second `match` of the loop. -/
def blockEnd : Instruction Nat → BlockEnd
  | .branchIf _ | .branchIfNot _ | .branchCmp _ _ _ | .pushTrap _ => .fallsThrough
  | .branch _ | .applyTerm _ _ | .return_ _ | .switch _ _ | .raise _ | .stop => .ends
  | _ => .goesOn

section FirstSearch

variable {m : Type → Type} [Monad m]

/-- `for l in &to_visit { visit(*l)?; }`. -/
def visitEach (visit : List Nat → Nat → m (List Nat)) : List Nat → List Nat → m (List Nat)
  | seen, [] => pure seen
  | seen, l :: ls => do
      let seen ← visit seen l
      visitEach visit seen ls

/-- The `while let` loop of `find_block_starts_dfs`. -/
def blockStartsLoop [MonadLiftT Conv m] (visit : List Nat → Nat → m (List Nat)) :
    List Item → List Nat → m (List Nat)
  | [], seen => pure seen
  | (r, position) :: items, seen => do
      let instr ← liftParse r
      if isPlainReference instr then blockStartsLoop visit items seen
      else
        let seen ← visitEach visit seen instr.visitLabels
        match blockEnd instr with
        | .fallsThrough => visit seen position
        | .ends => pure seen
        | .goesOn => blockStartsLoop visit items seen

/-- The closure `visit` of `find_block_starts_dfs`. -/
def visitLabel (dfs : List Nat → Nat → m (List Nat)) (seen : List Nat) (label : Nat) :
    m (List Nat) :=
  if label ∈ seen then pure seen else dfs (label :: seen) label

/-- `find_block_starts_dfs`, starting its iterators with `iter`. -/
def findBlockStartsDfsWith [MonadLiftT Conv m] (iter : Nat → m (List Item)) :
    Nat → List Nat → Nat → m (List Nat)
  | 0, _, _ => liftM (.error .outOfFuel : Conv (List Nat))
  | fuel + 1, seen, startOffset => do
      let items ← iter startOffset
      blockStartsLoop (visitLabel (findBlockStartsDfsWith iter fuel)) items seen

end FirstSearch

/-- `find_block_starts_dfs`. -/
def findBlockStartsDfs (code : List Word) : Nat → List Nat → Nat → Conv (List Nat) :=
  findBlockStartsDfsWith (iterFrom code)

theorem findBlockStartsDfs_succ (code : List Word) (fuel : Nat) (seen : List Nat) (start : Nat) :
    findBlockStartsDfs code (fuel + 1) seen start = iterFrom code start >>= fun items =>
      blockStartsLoop (visitLabel (findBlockStartsDfs code fuel)) items seen := rfl

/-! ## §3. The state of the search. -/

/-- `struct PendingBlock`. -/
structure PendingBlock where
  blockType : BasicBlockType
  startStackSize : Nat
  predecessors : List Nat
  deriving Repr, DecidableEq

/-- `struct FinishedBlock`. -/
structure FinishedBlock where
  offset : Nat
  instructions : List BasicBlockInstruction
  exit : BasicBlockExit
  endStackSize : Nat
  deriving Repr, DecidableEq

/-- `struct SearchState`, less the code and the block starts it refers to. -/
structure SearchState where
  seen : Nat → Option PendingBlock
  usedClosures : List Nat
  maxStackSize : Nat
  hasTrapHandlers : Bool
  /-- In post-order. -/
  finished : List FinishedBlock

namespace SearchState

/-- The state `convert_dfs` starts from. -/
def initial : SearchState := ⟨fun _ => none, [], 0, false, []⟩

/-- `seen.insert(offset, block)`. -/
def setSeen (st : SearchState) (offset : Nat) (block : PendingBlock) : SearchState :=
  { st with seen := Function.update st.seen offset (some block) }

/-- `if stack_size > self.max_stack_size { .. }`. -/
def noteStackSize (st : SearchState) (stackSize : Nat) : SearchState :=
  { st with maxStackSize := max st.maxStackSize stackSize }

/-- `self.used_closures.push(..)` for each of `offsets`. -/
def useClosures (st : SearchState) (offsets : List Nat) : SearchState :=
  { st with usedClosures := st.usedClosures ++ offsets }

/-- `self.finished.push(block)`. -/
def finish (st : SearchState) (block : FinishedBlock) : SearchState :=
  { st with finished := st.finished ++ [block] }

end SearchState

/-- `predecessors.insert(p)` when there is a predecessor. -/
def insertPredecessor (predecessors : List Nat) : Option Nat → List Nat
  | none => predecessors
  | some p => predecessors.insert p

/-! ## §4. The instructions inside a block. -/

/-- `ensure!(stack_size >= n); stack_size -= n`. -/
def popChecked (stackSize n : Nat) (condition : String) : Conv Nat := do
  ensure (n ≤ stackSize) (.conditionFailed condition)
  pure (stackSize - n)

/-- The words an allocation takes from the stack when one of `n` is `accu`. -/
def popForBlock (stackSize n : Nat) (condition : String) : Conv Nat :=
  if n > 0 then popChecked stackSize (n - 1) condition else pure stackSize

/-- The cases of the loop of `visit` that stay in the block: the stack size
after the instruction and what is pushed on `instructions`. -/
def recordInstr (stackSize : Nat) : Instruction Nat → Conv (Nat × List BasicBlockInstruction)
  | .acc i => pure (stackSize, [.acc i])
  | .envAcc i => pure (stackSize, [.envAcc i])
  | .push => do pure (← addU 32 stackSize 1, [.push])
  | .pop n => do pure (← popChecked stackSize n "stack_size >= n", [.pop n])
  | .assign n => do
      ensure (n < stackSize) (.conditionFailed "stack_size > n")
      pure (stackSize, [.assign n])
  | .pushRetAddr _ => do pure (← addU 32 stackSize 3, [.pushRetAddr])
  | .apply1 => do pure (← popChecked stackSize 1 "stack_size >= 1", [.apply1])
  | .apply2 => do pure (← popChecked stackSize 2 "stack_size >= 2", [.apply2])
  | .apply3 => do pure (← popChecked stackSize 3 "stack_size >= 3", [.apply3])
  | .apply nargs => do
      -- 3 for the return frame of `pushRetAddr`
      let words ← addU 32 nargs 3
      pure (← popChecked stackSize words "stack_size >= nargs + 3", [.apply nargs])
  | .closure l nvars => do
      let stackSize ← popForBlock stackSize nvars "stack_size >= nvars - 1"
      pure (stackSize, [.closure l nvars])
  | .closureRec closures nvars => do
      let stackSize ← popForBlock stackSize nvars "stack_size >= nvars - 1"
      let stackSize ← addU 32 stackSize (closures.length % 2 ^ 32)
      pure (stackSize, [.closureRec closures nvars])
  | .offsetClosure i => pure (stackSize, [.offsetClosure i])
  | .getGlobal g => pure (stackSize, [.getGlobal g])
  | .setGlobal g => pure (stackSize, [.setGlobal g])
  | .const i => pure (stackSize, [.const i])
  | .makeBlock size tag => do
      pure (← popForBlock stackSize size "stack_size >= to_pop", [.makeBlock size tag])
  | .makeFloatBlock size => do
      pure (← popForBlock stackSize size "stack_size >= to_pop", [.makeFloatBlock size])
  | .getField n => pure (stackSize, [.getField n])
  | .setField n => do pure (← popChecked stackSize 1 "stack_size >= 1", [.setField n])
  | .getFloatField n => pure (stackSize, [.getFloatField n])
  | .setFloatField n => do
      pure (← popChecked stackSize 1 "stack_size >= 1", [.setFloatField n])
  | .vecTLength => pure (stackSize, [.vecTLength])
  | .getVecTItem => do pure (← popChecked stackSize 1 "stack_size >= 1", [.getVecTItem])
  | .setVecTItem => do pure (← popChecked stackSize 2 "stack_size >= 2", [.setVecTItem])
  | .getBytesChar => do pure (← popChecked stackSize 1 "stack_size >= 1", [.getBytesChar])
  | .setBytesChar => do pure (← popChecked stackSize 2 "stack_size >= 2", [.setBytesChar])
  | .boolNot => pure (stackSize, [.boolNot])
  -- the size changes, nothing is recorded
  | .popTrap => do pure (← popChecked stackSize 4 "stack_size >= 4", [])
  | .checkSignals => pure (stackSize, [.checkSignals])
  | .cCall1 id => pure (stackSize, [.cCall1 id])
  | .cCall2 id => do pure (← popChecked stackSize 1 "stack_size >= 1", [.cCall2 id])
  | .cCall3 id => do pure (← popChecked stackSize 2 "stack_size >= 2", [.cCall3 id])
  | .cCall4 id => do pure (← popChecked stackSize 3 "stack_size >= 3", [.cCall4 id])
  | .cCall5 id => do pure (← popChecked stackSize 4 "stack_size >= 4", [.cCall5 id])
  | .cCallN nargs id => do
      let toPop ← subU nargs 1
      pure (← popChecked stackSize toPop "stack_size >= to_pop", [.cCallN nargs id])
  | .arithInt op => do pure (← popChecked stackSize 1 "stack_size >= 1", [.arithInt op])
  | .negInt => pure (stackSize, [.negInt])
  | .intCmp cmp => do pure (← popChecked stackSize 1 "stack_size >= 1", [.intCmp cmp])
  | .offsetInt n => pure (stackSize, [.offsetInt n])
  | .offsetRef n => pure (stackSize, [.offsetRef n])
  | .isInt => pure (stackSize, [.isInt])
  | .getMethod => do
      ensure (1 ≤ stackSize) (.conditionFailed "stack_size >= 1")
      pure (stackSize, [.getMethod])
  | .setupForPubMet n => do pure (← addU 32 stackSize 1, [.push, .const n])
  | .getDynMet => do
      ensure (1 ≤ stackSize) (.conditionFailed "stack_size >= 1")
      pure (stackSize, [.getDynMet])
  -- `restart`, `grab`, `break_`, `event` and labels inside the block are ignored;
  -- the exits never get here
  | _ => pure (stackSize, [])

/-! ## §5. The search. -/

/-- What one turn of the loop of `visit` does. -/
inductive Turn where
  | more (st : SearchState) (stackSize : Nat) (pushed : List BasicBlockInstruction)
  | exit (st : SearchState) (stackSize : Nat) (exit : BasicBlockExit)

/-- The type of `visit`: offset, predecessor, stack size at the start, type. -/
abbrev Visitor (m : Type → Type := Conv) :=
  SearchState → Nat → Option Nat → Nat → BasicBlockType → m SearchState

section SecondSearch

variable {m : Type → Type} [Monad m]

/-- `for l in ls { self.visit(l, ..)?; .. }` in the `Switch` case. -/
def visitTargets (visit : Visitor m) (entrypoint stackSize : Nat) :
    SearchState → List Nat → m SearchState
  | st, [] => pure st
  | st, l :: ls => do
      let st ← visit st l (some entrypoint) stackSize .normal
      visitTargets visit entrypoint stackSize st ls

/-- The `match instr` of the loop of `visit`. -/
def turn [MonadLiftT Conv m] (visit : Visitor m) (blockStarts : List Nat)
    (entrypoint position : Nat) (st : SearchState) (stackSize : Nat) : Instruction Nat → m Turn
  | .labelDef curOffset =>
      if curOffset ≠ entrypoint ∧ curOffset ∈ blockStarts then do
        let st ← visit st curOffset (some entrypoint) stackSize .normal
        pure (.exit st stackSize (.branch curOffset))
      else pure (.more st stackSize [])
  | .applyTerm nargs slotSize => do
      ensure (stackSize = slotSize) (ConversionError.conditionFailed "stack_size == slot_size")
      pure (.exit st 0 (.tailCall nargs slotSize))
  | .return_ toPop => do
      ensure (stackSize = toPop) (ConversionError.conditionFailed "stack_size == to_pop")
      pure (.exit st (stackSize - toPop) (.return_ toPop))
  | .branch offset => do
      let st ← visit st offset (some entrypoint) stackSize .normal
      pure (.exit st stackSize (.branch offset))
  | .branchIf thenBlock => do
      let elseBlock := position
      let st ← visit st elseBlock (some entrypoint) stackSize .normal
      let st ← visit st thenBlock (some entrypoint) stackSize .normal
      pure (.exit st stackSize (.branchIf thenBlock elseBlock))
  | .branchIfNot elseBlock => do
      let thenBlock := position
      let st ← visit st elseBlock (some entrypoint) stackSize .normal
      let st ← visit st thenBlock (some entrypoint) stackSize .normal
      pure (.exit st stackSize (.branchIf thenBlock elseBlock))
  | .branchCmp cmp constant thenBlock => do
      let elseBlock := position
      let st ← visit st thenBlock (some entrypoint) stackSize .normal
      let st ← visit st elseBlock (some entrypoint) stackSize .normal
      pure (.exit st stackSize (.branchCmp cmp constant thenBlock elseBlock))
  | .switch ints tags => do
      let st ← visitTargets visit entrypoint stackSize st ints
      let st ← visitTargets visit entrypoint stackSize st tags
      pure (.exit st stackSize (.switch ints tags))
  | .pushTrap trap => do
      let normal := position
      let st ← visit { st with hasTrapHandlers := true } trap (some entrypoint)
        stackSize .normal
      let size ← (addU 32 stackSize 4 : Conv Nat)
      let st ← visit st normal (some entrypoint) size .normal
      -- consider normal as the end stack size
      pure (.exit st (stackSize + 4) (.pushTrap normal trap))
  | .raise kind => pure (.exit st stackSize (.raise kind))
  | .stop => do
      ensure (stackSize = 1) (ConversionError.conditionFailed "stack_size == 1")
      pure (.exit st stackSize .stop)
  | instr => do
      let (stackSize, pushed) ← recordInstr stackSize instr
      pure (.more (st.useClosures instr.closureLabels) stackSize pushed)

/-- The loop of `visit`. -/
def visitLoop [MonadLiftT Conv m] (visit : Visitor m) (blockStarts : List Nat)
    (entrypoint : Nat) :
    List Item → SearchState → Nat → List BasicBlockInstruction → m SearchState
  | [], _, _, _ => liftM (err .expectedAnInstruction : Conv SearchState)
  | (r, position) :: items, st, stackSize, instructions => do
      let st := st.noteStackSize stackSize
      let instr ← liftParse r
      match ← turn visit blockStarts entrypoint position st stackSize instr with
      | .more st stackSize pushed =>
          visitLoop visit blockStarts entrypoint items st stackSize (instructions ++ pushed)
      | .exit st stackSize exit =>
          pure ((st.noteStackSize stackSize).finish
            ⟨entrypoint, instructions, exit, stackSize⟩)

/-- `SearchState::visit`, starting its iterators with `iter`. -/
def visitWith [MonadLiftT Conv m] (iter : Nat → m (List Item)) (blockStarts : List Nat) :
    Nat → Visitor m
  | 0, _, _, _, _, _ => liftM (.error .outOfFuel : Conv SearchState)
  | fuel + 1, st, entrypoint, predecessor, startStackSize, blockType =>
      match st.seen entrypoint with
      | some existing => do
          ensure (existing.startStackSize = startStackSize)
            (ConversionError.conditionFailed "existing.start_stack_size == start_stack_size")
          ensure (existing.blockType = blockType)
            (ConversionError.conditionFailed "existing.block_type == block_type")
          pure (st.setSeen entrypoint { existing with
            predecessors := insertPredecessor existing.predecessors predecessor })
      | none => do
          let st := st.setSeen entrypoint
            ⟨blockType, startStackSize, insertPredecessor [] predecessor⟩
          let items ← iter entrypoint
          visitLoop (visitWith iter blockStarts fuel) blockStarts entrypoint items st
            startStackSize []

end SecondSearch

/-- `SearchState::visit`. -/
def visit (code : List Word) : List Nat → Nat → Visitor := visitWith (iterFrom code)

section VisitEquations

variable {code : List Word} {bs : List Nat} {fuel entrypoint size : Nat} {st : SearchState}
  {predecessor : Option Nat} {ty : BasicBlockType}

/-- A block seen before is compared with what the new edge expects of it. -/
theorem visit_of_seen {existing : PendingBlock} (h : st.seen entrypoint = some existing) :
    visit code bs (fuel + 1) st entrypoint predecessor size ty = (do
      ensure (existing.startStackSize = size)
        (.conditionFailed "existing.start_stack_size == start_stack_size")
      ensure (existing.blockType = ty)
        (.conditionFailed "existing.block_type == block_type")
      pure (st.setSeen entrypoint { existing with
        predecessors := insertPredecessor existing.predecessors predecessor })) := by
  simp only [visit, visitWith, h]
  rfl

/-- A new block is walked through. -/
theorem visit_of_new (h : st.seen entrypoint = none) :
    visit code bs (fuel + 1) st entrypoint predecessor size ty =
      iterFrom code entrypoint >>= fun items =>
        visitLoop (visit code bs fuel) bs entrypoint items
          (st.setSeen entrypoint ⟨ty, size, insertPredecessor [] predecessor⟩) size [] := by
  simp only [visit, visitWith, h]

end VisitEquations

/-! ## §6. Numbering the blocks. -/

/-- The arity read off the first instruction. -/
def arityAt (code : List Word) (entrypoint : Nat) : Conv Nat := do
  let some w := code[entrypoint]? | panicked
  if Opcode.fromI32 w = some .grab then
    let some n := code[entrypoint + 1]? | panicked
    addU 64 (usizeOfWord n) 1
  else pure 1

/-- The loop that builds the blocks from the finished ones, in block order;
`seen.remove(..).unwrap()`. -/
def collectBlocks : Nat → (Nat → Option PendingBlock) → List FinishedBlock →
    Conv (List BasicBlock)
  | _, _, [] => pure []
  | blockId, seen, f :: fs => do
      let some pending := seen f.offset | panicked
      let rest ← collectBlocks (blockId + 1) (Function.update seen f.offset none) fs
      pure (⟨blockId, pending.predecessors, pending.blockType, f.instructions, f.exit,
        pending.startStackSize, f.endStackSize, []⟩ :: rest)

/-- `offset_to_block_id_map`: the offsets in block order. -/
def offsetToBlockIdMap (offsets : List Nat) (offset : Nat) : Option Nat :=
  offsets.findIdx? (· == offset)

/-- `relocate_offset`. -/
def relocateOffset (offsets : List Nat) (offset : Nat) : Conv Nat := do
  let some blockId := offsetToBlockIdMap offsets offset | panicked
  pure blockId

/-- The body of the loop that relocates offsets into block ids. -/
def relocateBlock (offsets : List Nat) (block : BasicBlock) : Conv BasicBlock := do
  let exit ← block.exit.modifyBlockLabels (relocateOffset offsets)
  let predecessors ← block.predecessors.mapM (relocateOffset offsets)
  pure { block with exit, predecessors }

/-- The blocks whose last predecessor is `blockId`. -/
def sealedBlocksOf (blocks : List BasicBlock) (blockId : Nat) : List Nat :=
  (blocks.filter fun b => b.predecessors.max? = some blockId).map BasicBlock.blockId

/-- The part of `convert_dfs` after the search. -/
def buildClosure (arity : Nat) (st : SearchState) : Conv BasicClosure := do
  let finished := st.finished.reverse
  let blocks ← collectBlocks 0 st.seen finished
  let blocks ← blocks.mapM (relocateBlock (finished.map FinishedBlock.offset))
  let blocks := blocks.map fun b => { b with sealedBlocks := sealedBlocksOf blocks b.blockId }
  pure ⟨arity, blocks, st.usedClosures, st.maxStackSize, st.hasTrapHandlers⟩

/-- The fuel of both searches: an offset is at most `code.length`, or its slice
panics. -/
def searchFuel (code : List Word) : Nat := code.length + 3

/-- `convert_dfs`. -/
def convertDfs (code : List Word) (entrypoint : Nat) (blockStarts : List Nat) :
    Conv BasicClosure := do
  let arity ← arityAt code entrypoint
  let st ← visit code blockStarts (searchFuel code) .initial entrypoint none
    (arity % 2 ^ 32) .first
  buildClosure arity st

/-- `parse_to_basic_blocks`. -/
def parseToBasicBlocks (code : List Word) (startOffset : Nat) : Conv BasicClosure := do
  let blockStarts ← findBlockStartsDfs code (searchFuel code) [startOffset] startOffset
  convertDfs code startOffset blockStarts

end OcamlJit.BasicBlocks

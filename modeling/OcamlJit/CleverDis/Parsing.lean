/-
  OcamlJit.CleverDis.Parsing
  ──────────────────────────
  **CLOSURES OF A DISASSEMBLY AS BLOCKS** (`clever_dis/parsing.rs`).

  `processClosure` builds the blocks of one closure.  A block gets its number
  when its label is first mentioned (`getBlock`) and is built later, from a
  queue.  A block ends at a jump, or before a label that any instruction of the
  program refers to.
-/
import OcamlJit.Lib.Rust
import OcamlJit.Instructions.Types

namespace OcamlJit.CleverDis

open OcamlJit.Lib OcamlJit.Instructions

/-! ## §1. Data. -/

/-- `enum Ident`. -/
inductive Ident where
  | local_ (name : String) (stamp : Int)
  | scoped (name : String) (stamp scope : Int)
  | global (name : String)
  | predef (name : String) (stamp : Int)
  deriving Repr, DecidableEq

/-- What is read of a `DebugEvent`; `filename` is that of the start of its span. -/
structure DebugEvent where
  module : String
  defName : String
  filename : String
  heapEnv : List (Int × Ident)
  recEnv : List (Int × Ident)
  deriving Repr, DecidableEq

/-- `struct PositionInfo`. -/
structure PositionInfo where
  module : String
  defName : String
  filename : String
  heapEnv : List (Int × Ident)
  recEnv : List (Int × Ident)
  deriving Repr, DecidableEq

/-- `enum BlockExit`. -/
inductive BlockExit where
  | unconditionalJump (target : Nat)
  | conditionalJump (ifTrue ifFalse : Nat)
  | pushTrap (normal trap : Nat)
  | switch (ints blocks : List Nat)
  | tailCall
  | return_
  | raise
  | stop
  deriving Repr, DecidableEq

/-- The blocks an exit mentions. -/
def BlockExit.targets : BlockExit → List Nat
  | .unconditionalJump target => [target]
  | .conditionalJump ifTrue ifFalse => [ifTrue, ifFalse]
  | .pushTrap normal trap => [normal, trap]
  | .switch ints blocks => ints ++ blocks
  | .tailCall | .return_ | .raise | .stop => []

/-- `struct Block`.  Labels are block numbers, those of closures are offsets. -/
structure Block where
  instructions : List (Instruction Nat)
  closures : List Nat
  exit : BlockExit
  deriving Repr, DecidableEq

/-- `struct Closure`. -/
structure Closure where
  entrypoint : Nat
  isRoot : Bool
  blocks : List Block
  position : Option PositionInfo
  trapHandlers : List Nat
  deriving Repr, DecidableEq

/-- What `process_closure` can return as `Err`. -/
inductive ProcessError where
  /-- "Could not find label {label} defined". -/
  | labelNotDefined (label : Nat)
  /-- "Closure {defined} defined in both {other} and {defining}". -/
  | closureDefinedTwice (defined other defining : Nat)
  deriving Repr, DecidableEq

/-- `struct GlobalCtx`.  `referencedLabels`, `closuresAdded` and
`labelToIndexMap` are only looked up in. -/
structure GlobalCtx where
  instructions : List (Instruction Nat)
  referencedLabels : List Nat
  labelToIndexMap : Nat → Option Nat
  closuresTodo : List Nat
  closuresAdded : List Nat
  parentClosures : Nat → Option Nat
  debugEvents : Option (Nat → Option DebugEvent)

/-- `struct ClosureCtx`. -/
structure ClosureCtx where
  todo : List Nat
  /-- `block_nums`: labels and their numbers. -/
  blockNums : List (Nat × Nat)
  currentClosureId : Nat
  position : Option PositionInfo
  trapHandlers : List Nat
  deriving Repr, DecidableEq

/-- Both, while a closure is processed. -/
structure Ctx where
  global : GlobalCtx
  closure : ClosureCtx

/-- `Result` in these contexts. -/
abbrev Process := StateT Ctx (Rust ProcessError)

/-! ## §2. The label maps. -/

/-- The loop of `process_bytecode` over the instructions from `index` on. -/
def labelMaps : Nat → List (Instruction Nat) → (Nat → Option Nat) → List Nat →
    (Nat → Option Nat) × List Nat
  | _, [], indexMap, referenced => (indexMap, referenced)
  | index, .labelDef l :: is, indexMap, referenced =>
      labelMaps (index + 1) is (Function.update indexMap l (some index)) referenced
  | index, i :: is, indexMap, referenced =>
      labelMaps (index + 1) is indexMap (referenced ++ i.visitLabels)

/-- The context `process_bytecode` makes. -/
def GlobalCtx.new (instructions : List (Instruction Nat))
    (debugEvents : Option (Nat → Option DebugEvent)) : GlobalCtx :=
  let maps := labelMaps 0 instructions (fun _ => none) []
  { instructions := instructions
    referencedLabels := maps.2
    labelToIndexMap := maps.1
    closuresTodo := [0]
    closuresAdded := [0]
    parentClosures := fun _ => none
    debugEvents := debugEvents }

/-- `is_block_start`. -/
def GlobalCtx.isBlockStart (g : GlobalCtx) (label : Nat) : Bool := label ∈ g.referencedLabels

/-- `lookup_debug_info`. -/
def GlobalCtx.lookupDebugInfo (g : GlobalCtx) (bytecodeOffset : Nat) : Option DebugEvent :=
  g.debugEvents.bind (· bytecodeOffset)

/-! ## §3. Blocks. -/

/-- `get_closure`. -/
def GlobalCtx.getClosure (g : GlobalCtx) (label : Nat) : Nat × GlobalCtx :=
  if label ∈ g.closuresAdded then (label, g)
  else (label, { g with
    closuresTodo := g.closuresTodo ++ [label], closuresAdded := label :: g.closuresAdded })

@[inherit_doc GlobalCtx.getClosure]
def getClosure (label : Nat) : Process Nat := fun c =>
  let (n, g) := c.global.getClosure label
  .ok (n, { c with global := g })

/-- `lookup_label`. -/
def lookupLabel (label : Nat) : Process Nat := do
  match (← get).global.labelToIndexMap label with
  | some index => pure index
  | none => StateT.lift (err (.labelNotDefined label))

/-- `set_defining_closure`. -/
def setDefiningClosure (defining defined : Nat) : Process Unit := do
  let c ← get
  match c.global.parentClosures defined with
  | none => set { c with global := { c.global with
      parentClosures := Function.update c.global.parentClosures defined (some defining) } }
  | some other => StateT.lift (err (.closureDefinedTwice defined other defining))

/-- `get_block`. -/
def getBlock (label : Nat) : Process Nat := do
  let c ← get
  match c.closure.blockNums.lookup label with
  | some n => pure n
  | none =>
      let n := c.closure.blockNums.length
      set { c with closure := { c.closure with
        todo := c.closure.todo ++ [label], blockNums := c.closure.blockNums ++ [(label, n)] } }
      pure n

/-- The position of the closure, from the first label that has an event. -/
def notePosition (label : Nat) : Process Unit := do
  let c ← get
  if c.closure.position.isNone then
    match c.global.lookupDebugInfo label with
    | some e => set { c with closure := { c.closure with
        position := some ⟨e.module, e.defName, e.filename, e.heapEnv, e.recEnv⟩ } }
    | none => pure ()

/-- The instruction with its labels mapped: to closures, or to blocks. -/
def mapInstruction (i : Instruction Nat) : Process (Instruction Nat) :=
  match i with
  | .closure _ _ | .closureRec _ _ => i.mapLabelsM getClosure
  | .restart => StateT.lift panicked
  | _ => i.mapLabelsM getBlock

/-- The label after the current instruction. -/
def nextLabel : List (Instruction Nat) → Process Nat
  | .labelDef l :: _ => pure l
  | _ => StateT.lift panicked

/-- A closure that the current one defines. -/
def defineClosure (dest : Nat) : Process Nat := do
  let destId ← getClosure dest
  setDefiningClosure (← get).closure.currentClosureId destId
  pure destId

/-- `closure_ctx.trap_handlers.insert(trap)`. -/
def insertTrapHandler (trap : Nat) : Process Unit :=
  modify fun c => { c with closure := { c.closure with
    trapHandlers := c.closure.trapHandlers.insert trap } }

/-- The exit of a conditional branch. -/
def conditionalJump (dest : Nat) (rest : List (Instruction Nat)) : Process BlockExit := do
  let next ← nextLabel rest
  pure (.conditionalJump (← getBlock dest) (← getBlock next))

/-- The instruction-specific behaviour: the closures defined, and the exit. -/
def finishInstruction (i : Instruction Nat) (rest : List (Instruction Nat)) :
    Process (List Nat × Option BlockExit) :=
  match i with
  | .closure dest _ => do pure ([← defineClosure dest], none)
  | .closureRec dests _ => do pure (← dests.mapM defineClosure, none)
  | .pushTrap dest => do
      let next ← nextLabel rest
      let normal ← getBlock next
      let trap ← getBlock dest
      insertTrapHandler trap
      pure ([], some (.pushTrap normal trap))
  | .applyTerm _ _ => pure ([], some .tailCall)
  | .return_ _ => pure ([], some .return_)
  | .stop => pure ([], some .stop)
  | .raise _ => pure ([], some .raise)
  | .branch dest => do pure ([], some (.unconditionalJump (← getBlock dest)))
  | .branchIf dest | .branchIfNot dest | .branchCmp _ _ dest => do
      pure ([], some (← conditionalJump dest rest))
  | .switch ints blocks => do
      pure ([], some (.switch (← ints.mapM getBlock) (← blocks.mapM getBlock)))
  | .break_ | .event => StateT.lift panicked
  | _ => pure ([], none)

/-- The loop of `process_block` on the instructions from `current_index` on;
`first` while that is `start_index`. -/
def processLoop : Bool → List (Instruction Nat) → List (Instruction Nat) → List Nat →
    Process Block
  | _, [], _, _ => StateT.lift panicked
  | first, .labelDef l :: rest, instructions, closures => do
      notePosition l
      if !first && (← get).global.isBlockStart l then
        pure ⟨instructions, closures, .unconditionalJump (← getBlock l)⟩
      else processLoop false rest instructions closures
  | _, i :: rest, instructions, closures => do
      let mapped ← mapInstruction i
      let (defined, exit) ← finishInstruction i rest
      match exit with
      | some exit => pure ⟨instructions ++ [mapped], closures ++ defined, exit⟩
      | none => processLoop false rest (instructions ++ [mapped]) (closures ++ defined)

/-- `process_block`. -/
def processBlock (firstLabel : Nat) : Process Block := do
  let startIndex ← lookupLabel firstLabel
  processLoop true ((← get).global.instructions.drop startIndex) [] []

/-! ## §4. Closures. -/

/-- The context with another queue. -/
def Ctx.withTodo (c : Ctx) (todo : List Nat) : Ctx :=
  { c with closure := { c.closure with todo := todo } }

/-- `closure_ctx.todo.pop_front()`. -/
def popTodo : Process (Option Nat) := do
  let c ← get
  match c.closure.todo with
  | [] => pure none
  | label :: todo =>
      set (c.withTodo todo)
      pure (some label)

/-- The `while let` loop of `process_closure`. -/
def processBlocks : Nat → List Block → Process (List Block)
  | 0, _ => StateT.lift (.error .outOfFuel)
  | fuel + 1, blocks => do
      match ← popTodo with
      | none => pure blocks
      | some label => processBlocks fuel (blocks ++ [← processBlock label])

/-- The context in which the blocks are processed. -/
def ClosureCtx.new (entrypoint currentClosureId : Nat) : ClosureCtx :=
  ⟨[entrypoint], [(entrypoint, 0)], currentClosureId, none, []⟩

/-- The blocks of a closure, and the contexts after the last one.  A block is
made of a label that is defined, and only once. -/
def closureBlocks (entrypoint : Nat) (g : GlobalCtx) : Rust ProcessError (List Block × Ctx) := do
  let (currentClosureId, g) := g.getClosure entrypoint
  processBlocks (g.instructions.length + 2) [] ⟨g, .new entrypoint currentClosureId⟩

/-- `process_closure`. -/
def processClosure (entrypoint : Nat) (g : GlobalCtx) :
    Rust ProcessError (Closure × GlobalCtx) := do
  let (blocks, c) ← closureBlocks entrypoint g
  pure (⟨entrypoint, c.closure.currentClosureId == 0, blocks, c.closure.position,
    c.closure.trapHandlers⟩, c.global)

end OcamlJit.CleverDis

/-
  OcamlJit.CleverDis.SsaMachine
  ─────────────────────────────
  **WHAT A BLOCK DOES: AS BYTECODE AND AS SSA STATEMENTS.**

  Calls and accesses to the heap and to globals are requests (`Access`).  Both
  sides run over the same values: integers and blocks, in words (`Cell`) that
  may also be part of a frame.

    • `runBlock` — the instructions as `interp.c` executes them, or as the
      machine that `translateBlock` follows executes them (`Machine`),
    • `runSsaBlock` — the statements, and what `final_state` says is left.
-/
import OcamlJit.CleverDis.SsaTranslate
import OcamlJit.Interp.Values

namespace OcamlJit.CleverDis.Ssa

open OcamlJit.Lib OcamlJit.Instructions

/-! ## §1. Values. -/

/-- `value`: an integer, or the address of a block in words.  A closure in the
middle of a block has an address of its own. -/
inductive Value where
  | int (n : BitVec 63)
  | block (addr : Int)
  deriving Repr, DecidableEq

/-- `Val_unit`, the integer 0. -/
def Value.unit : Value := .int 0

/-- `&Field(v, i)` as a value. -/
def Value.fieldAddr : Value → Int → Value
  | .block addr, i => .block (addr + i)
  | .int n, _ => .int n

/-- A word of the machine. -/
inductive Cell where
  | val (v : Value)
  /-- A word of a return frame or of a trap frame. -/
  | special
  /-- A word that nothing is known about. -/
  | unspecified
  deriving Repr, DecidableEq

/-- `Val_int(n)` of an `int`. -/
def Cell.ofInt (n : Int) : Cell := .val (.int (BitVec.ofInt 63 n))

/-- `Val_bool(b)`. -/
def Cell.ofBool (b : Bool) : Cell := .val (.int (if b then 1 else 0))

/-- What the code asks for.  One request is one access, however many loads and
stores it takes. -/
inductive Access where
  | apply (f : Cell) (args : List Cell)
  | cCall (id : Nat) (args : List Cell)
  | getGlobal (n : Nat)
  | setGlobal (n : Nat) (v : Cell)
  | getField (block i : Cell)
  | setField (block i v : Cell)
  | getFloatField (block : Cell) (i : Nat)
  | setFloatField (block : Cell) (i : Nat) (v : Cell)
  | getBytesChar (bytes i : Cell)
  | setBytesChar (bytes i v : Cell)
  | vecTLength (v : Cell)
  | makeBlock (tag : Nat) (fields : List Cell)
  | makeFloatBlock (fields : List Cell)
  | closure (code : Nat) (vars : List Cell)
  | closureRec (codes : List Nat) (vars : List Cell)
  | getMethod (obj lab : Cell)
  | getDynMet (tag obj : Cell)
  | tagOf (v : Cell)
  | raiseZeroDivide
  | popTrap
  | checkSignals
  /-- The arity check of a function with more than one argument. -/
  | grab (required : Nat)
  deriving Repr, DecidableEq

/-- What a block is run with: `env` and the fields of the closure, the atoms,
the arguments, the accumulator and the stack. -/
structure Start where
  env : Value
  envField : Nat → Value
  atom : Nat → Value
  arg : Nat → Cell
  accu : Cell
  stack : Nat → Cell

/-- How a block ends. -/
inductive Ending where
  | stopped (v : Cell)
  | goto (block : Nat)
  /-- On to `normal`, with a handler. -/
  | trapPushed (normal trap : Nat)
  | tailCall (f : Cell) (args : List Cell)
  | raised (kind : RaiseKind) (v : Cell)
  | returned (v : Cell)
  deriving Repr, DecidableEq

/-! ## §2. Operations. -/

section Operations

variable {O : Oracle Access Value}

/-- A request for a value. -/
def ask (a : Access) : Act O Cell := do pure (.val (← Act.perform a))

/-- A request without a result. -/
def tell (a : Access) : Act O Unit := do
  let _ ← Act.perform a
  pure ()

/-- `Long_val`, which is for integers. -/
def Cell.int? : Cell → Option (BitVec 63)
  | .val (.int n) => some n
  | _ => none

/-- `if (divisor == 0) caml_raise_zero_divide()`, then the quotient. -/
def divide (f : BitVec 63 → BitVec 63 → BitVec 63) (x y : BitVec 63) : Act O (BitVec 63) :=
  if y = 0 then do
    tell .raiseZeroDivide
    Act.stuck
  else pure (f x y)

/-- A shift; C gives it a meaning for 0 to 63 only. -/
def shiftBy (f : Nat → BitVec 63) (y : BitVec 63) : Act O (BitVec 63) :=
  if y.toNat < 64 then pure (f y.toNat) else Act.stuck

/-- The operators of the integer arithmetic. -/
def arithOp (op : ArithOp) (x y : BitVec 63) : Act O (BitVec 63) :=
  match op with
  | .add => pure (x + y)
  | .sub => pure (x - y)
  | .mul => pure (x * y)
  | .div => divide BitVec.sdiv x y
  | .mod => divide BitVec.srem x y
  | .and => pure (x &&& y)
  | .or => pure (x ||| y)
  | .xor => pure (x ^^^ y)
  | .lsl => shiftBy (x <<< ·) y
  | .lsr => shiftBy (x >>> ·) y
  | .asr => shiftBy x.sshiftRight y

/-- The same on words. -/
def arithCell (op : ArithOp) (a b : Cell) : Act O Cell := do
  let x ← Act.ofOption a.int?
  let y ← Act.ofOption b.int?
  pure (.val (.int (← arithOp op x y)))

/-- Comparisons.  Any two values may be compared for equality; no block has the
address that an integer looks like. -/
def cmpCell (cmp : Comp) (a b : Cell) : Act O Cell :=
  match cmp, a, b with
  | .eq, .val v, .val w => pure (.ofBool (v = w))
  | .ne, .val v, .val w => pure (.ofBool (v ≠ w))
  | _, .val (.int x), .val (.int y) =>
      pure (.ofBool (Interp.compHolds cmp (x.signExtend 64) (y.signExtend 64)))
  | _, _, _ => Act.stuck

/-- `2 - accu` on the tagged word. -/
def negCell (a : Cell) : Act O Cell := do pure (.val (.int (-(← Act.ofOption a.int?))))

/-- `Val_not`. -/
def notCell (a : Cell) : Act O Cell := do pure (.val (.int (1 - (← Act.ofOption a.int?))))

/-- `Val_long(v & 1)`. -/
def isIntCell (a : Cell) : Act O Cell :=
  match a with
  | .val (.int _) => pure (.ofBool true)
  | .val (.block _) => pure (.ofBool false)
  | _ => Act.stuck

/-- `v != Val_false`. -/
def truth (a : Cell) : Act O Bool :=
  match a with
  | .val v => pure (v ≠ .int 0)
  | _ => Act.stuck

/-- `&Field(v, i)`. -/
def fieldCell (a : Cell) (i : Int) : Act O Cell :=
  match a with
  | .val v => pure (.val (v.fieldAddr i))
  | _ => Act.stuck

/-- The label `SWITCH` goes to: by the tag of a block, or by the integer. -/
def switchTarget (ints blocks : List Nat) (a : Cell) : Act O Nat :=
  match a with
  | .val (.block _) => do
      match ← Act.perform (.tagOf a) with
      | .int tag => Act.ofOption blocks[tag.toNat]?
      | .block _ => Act.stuck
  | .val (.int n) => Act.ofOption ints[n.toNat]?
  | _ => Act.stuck

end Operations

/-! ## §3. Bytecode. -/

/-- The accumulator and the stack from `sp` on. -/
structure MachineState where
  accu : Cell
  stack : Nat → Cell

namespace MachineState

/-- `accu = v`. -/
def withAccu (s : MachineState) (v : Cell) : MachineState := { s with accu := v }

/-- `*--sp = v`. -/
def push (s : MachineState) (v : Cell) : MachineState :=
  { s with stack := fun | 0 => v | k + 1 => s.stack k }

/-- `sp += n`. -/
def pop (s : MachineState) (n : Nat) : MachineState :=
  { s with stack := fun k => s.stack (n + k) }

/-- `sp[n] = v`. -/
def assign (s : MachineState) (n : Nat) (v : Cell) : MachineState :=
  { s with stack := fun k => if k = n then v else s.stack k }

/-- `sp[0]` to `sp[n - 1]`. -/
def picks (s : MachineState) (n : Nat) : List Cell := (List.range n).map s.stack

/-- `*--sp = accu`. -/
def pushAccu (s : MachineState) : MachineState := s.push s.accu

end MachineState

/-- `interp.c`, or the machine `translate_block` follows.  They differ in the
accumulator: after `ASSIGN`, where the second keeps it, and at the entry of a
function, where the second takes nothing from it; and in `MAKEFLOATBLOCK 0`. -/
inductive Machine where
  | interp | translated
  deriving Repr, DecidableEq

section Bytecode

variable {O : Oracle Access Value} (machine : Machine) (start : Start)

/-- `accu = v`, for what has to be asked for first, `n` words being taken off. -/
def answer (s : MachineState) (n : Nat) (v : Act O Cell) : Act O MachineState := do
  pure ((s.pop n).withAccu (← v))

/-- A change of the heap: `accu = Val_unit; sp += n`. -/
def store (s : MachineState) (n : Nat) (a : Access) : Act O MachineState := do
  tell a
  pure ((s.pop n).withAccu (.val .unit))

/-- `C_CALL1` to `C_CALLN`.  `C_CALLN` pushes the accumulator; for the others it
comes to the same. -/
def doCCall (count id : Nat) (s : MachineState) : Act O MachineState :=
  let s := s.pushAccu
  answer s count (ask (.cCall id (s.picks count)))

/-- `if (nvars > 0) *--sp = accu`. -/
def spillAccu (nvars : Nat) (s : MachineState) : MachineState :=
  if nvars > 0 then s.pushAccu else s

/-- The loop of `CLOSUREREC` that pushes the functions after the first. -/
def pushInfixCells (v : Cell) : List Nat → MachineState → Act O MachineState
  | [], s => pure s
  | i :: is, s => do
      let p ← fieldCell v (2 * i)
      pushInfixCells v is (s.push p)

/-- `CLOSUREREC`. -/
def doClosureRec (locs : List Nat) (nvars : Nat) (s : MachineState) : Act O MachineState := do
  let s := spillAccu nvars s
  let v ← ask (.closureRec locs (s.picks nvars))
  pushInfixCells v (List.range' 1 (locs.length - 1)) (((s.pop nvars).withAccu v).push v)

/-- `MAKEBLOCK`: the accumulator and `size - 1` words are the fields. -/
def doMakeBlock (size tag : Nat) (s : MachineState) : Act O MachineState :=
  answer s (size - 1) (ask (.makeBlock tag (s.accu :: s.picks (size - 1))))

/-- `MAKEFLOATBLOCK` stores the accumulator in any case. -/
def doMakeFloatBlock (size : Nat) (s : MachineState) : Act O MachineState :=
  match machine, size with
  | .translated, 0 => answer s.pushAccu 0 (ask (.makeFloatBlock []))
  | _, size => answer s (size - 1) (ask (.makeFloatBlock (s.accu :: s.picks (size - 1))))

/-- `Field(accu, 0) += n << 1`.  The operand is added as an integer; C leaves
open what the shift makes of 2³⁰ and more. -/
def doOffsetRef (n : Int) (s : MachineState) : Act O MachineState := do
  let old ← ask (.getField s.accu (.ofInt 0))
  let new ← arithCell .add old (.ofInt n)
  store s 0 (.setField s.accu (.ofInt 0) new)

/-- One instruction that goes on to the next one.  An application comes back with
its result, its arguments taken off, and the frame if `PUSH_RETADDR` made it. -/
def step (i : Instruction Nat) (s : MachineState) : Act O MachineState :=
  match i with
  | .labelDef _ | .break_ | .event => pure s
  | .acc n => pure (s.withAccu (s.stack n))
  | .envAcc n => pure (s.withAccu (.val (start.envField n)))
  | .push => pure s.pushAccu
  | .pop n => pure (s.pop n)
  | .assign n =>
      let s' := s.assign n s.accu
      match machine with
      | .interp => pure (s'.withAccu (.val .unit))
      | .translated => pure s'
  | .pushRetAddr _ => pure (((s.push .special).push .special).push .special)
  | .apply1 => answer s 1 (ask (.apply s.accu (s.picks 1)))
  | .apply2 => answer s 2 (ask (.apply s.accu (s.picks 2)))
  | .apply3 => answer s 3 (ask (.apply s.accu (s.picks 3)))
  | .apply nargs => answer s (nargs + 3) (ask (.apply s.accu (s.picks nargs)))
  | .closure loc nvars =>
      let s := spillAccu nvars s
      answer s nvars (ask (.closure loc (s.picks nvars)))
  | .closureRec locs nvars => doClosureRec locs nvars s
  | .offsetClosure i => pure (s.withAccu (.val (start.env.fieldAddr i)))
  | .getGlobal n => answer s 0 (ask (.getGlobal n))
  | .setGlobal n => store s 0 (.setGlobal n s.accu)
  | .const n => pure (s.withAccu (.ofInt n))
  | .makeBlock size tag =>
      if size = 0 then pure (s.withAccu (.val (start.atom tag))) else doMakeBlock size tag s
  | .makeFloatBlock size => doMakeFloatBlock machine size s
  | .getField n => answer s 0 (ask (.getField s.accu (.ofInt (asI32 n))))
  | .setField n => store s 1 (.setField s.accu (.ofInt (asI32 n)) (s.stack 0))
  | .getFloatField n => answer s 0 (ask (.getFloatField s.accu n))
  | .setFloatField n => store s 1 (.setFloatField s.accu n (s.stack 0))
  | .vecTLength => answer s 0 (ask (.vecTLength s.accu))
  | .getVecTItem => answer s 1 (ask (.getField s.accu (s.stack 0)))
  | .setVecTItem => store s 2 (.setField s.accu (s.stack 0) (s.stack 1))
  | .getBytesChar => answer s 1 (ask (.getBytesChar s.accu (s.stack 0)))
  | .setBytesChar => store s 2 (.setBytesChar s.accu (s.stack 0) (s.stack 1))
  | .boolNot => answer s 0 (notCell s.accu)
  | .popTrap => do
      tell .popTrap
      pure (s.pop 4)
  -- "accu not preserved": the word is left open
  | .checkSignals => do
      tell .checkSignals
      pure (s.withAccu .unspecified)
  | .cCall1 id => doCCall 1 id s
  | .cCall2 id => doCCall 2 id s
  | .cCall3 id => doCCall 3 id s
  | .cCall4 id => doCCall 4 id s
  | .cCall5 id => doCCall 5 id s
  | .cCallN nargs id => doCCall nargs id s
  | .arithInt op => answer s 1 (arithCell op s.accu (s.stack 0))
  | .negInt => answer s 0 (negCell s.accu)
  | .intCmp cmp => answer s 1 (cmpCell cmp s.accu (s.stack 0))
  | .offsetInt n => answer s 0 (arithCell .add s.accu (.ofInt n))
  | .offsetRef n => doOffsetRef n s
  | .isInt => answer s 0 (isIntCell s.accu)
  | .getMethod => answer s 0 (ask (.getMethod (s.stack 0) s.accu))
  | .setupForPubMet tag => pure (s.pushAccu.withAccu (.ofInt tag))
  | .getDynMet => answer s 0 (ask (.getDynMet s.accu (s.stack 0)))
  | .applyTerm _ _ | .return_ _ | .restart | .grab _ | .branch _ | .branchIf _ | .branchIfNot _
  | .switch _ _ | .pushTrap _ | .raise _ | .branchCmp _ _ _ | .stop => Act.stuck

/-- The block that comes next in the code. -/
def fallThrough : BlockExit → Option Nat
  | .unconditionalJump target => some target
  | .conditionalJump _ next => some next
  | .pushTrap normal _ => some normal
  | _ => none

/-- A conditional branch. -/
def branchOn (taken : Act O Bool) (target : Nat) (exit : BlockExit) (s : MachineState) :
    Act O (Ending × MachineState) := do
  let next ← Act.ofOption (fallThrough exit)
  pure (.goto (if ← taken then target else next), s)

/-- The last instruction of a block.  A tail call takes its arguments along. -/
def finish (i : Instruction Nat) (exit : BlockExit) (s : MachineState) :
    Act O (Ending × MachineState) :=
  match i with
  | .stop => pure (.stopped s.accu, s)
  | .branch target => pure (.goto target, s)
  | .branchIf target => branchOn (truth s.accu) target exit s
  | .branchIfNot target => branchOn (do pure !(← truth s.accu)) target exit s
  | .branchCmp cmp n target =>
      branchOn (do truth (← cmpCell cmp (.ofInt n) s.accu)) target exit s
  | .return_ n => pure (.returned s.accu, s.pop n)
  | .raise kind => pure (.raised kind s.accu, s)
  | .applyTerm nargs slotSize => pure (.tailCall s.accu (s.picks nargs), s.pop slotSize)
  | .switch ints blocks => do pure (.goto (← switchTarget ints blocks s.accu), s)
  | .pushTrap trap => do
      let normal ← Act.ofOption (fallThrough exit)
      pure (.trapPushed normal trap,
        (((s.push .special).push .special).push .special).push .special)
  | i => do
      let next ← Act.ofOption (fallThrough exit)
      pure (.goto next, ← step machine start i s)

/-- The instructions of a block, from a state on. -/
def runInstructions (exit : BlockExit) :
    List (Instruction Nat) → MachineState → Act O (Ending × MachineState)
  | [], _ => Act.stuck
  | [i], s => finish machine start i exit s
  | i :: is, s => do runInstructions exit is (← step machine start i s)

/-- The kinds of blocks. -/
inductive BlockKind where
  | ordinary | entry | trapHandler
  deriving Repr, DecidableEq

/-- `is_entry_block`. -/
def BlockKind.isEntry (kind : BlockKind) : Bool := kind = .entry

/-- `is_trap_handler`. -/
def BlockKind.isTrapHandler (kind : BlockKind) : Bool := kind = .trapHandler

/-- The stack a function is entered with: its arguments, the first on top. -/
def withArgs (nargs : Nat) (stack : Nat → Cell) (k : Nat) : Cell :=
  if k < nargs then start.arg k else stack (k - nargs)

/-- The accumulator a function is entered with. -/
def Machine.entryAccu : Machine → Cell
  | .interp => start.accu
  | .translated => .unspecified

/-- A block.  `RAISE` has put the exception in the accumulator of a handler and
taken the trap frame off the stack. -/
def runBlock (kind : BlockKind) (block : Block) : Act O (Ending × MachineState) :=
  match kind, block.instructions with
  | .ordinary, is => runInstructions machine start block.exit is ⟨start.accu, start.stack⟩
  | .trapHandler, is =>
      runInstructions machine start block.exit is ((⟨start.accu, start.stack⟩ : MachineState).pop 4)
  | .entry, .grab nargs :: is => do
      tell (.grab nargs)
      runInstructions machine start block.exit is
        ⟨machine.entryAccu start, withArgs start (nargs + 1) start.stack⟩
  | .entry, is =>
      runInstructions machine start block.exit is
        ⟨machine.entryAccu start, withArgs start 1 start.stack⟩

end Bytecode

/-! ## §4. SSA. -/

/-- The variables computed so far. -/
abbrev Defs := Nat → Nat → Cell

/-- One more. -/
def Defs.define (d : Defs) (block i : Nat) (c : Cell) : Defs :=
  fun b j => if b = block ∧ j = i then c else d b j

section Ssa

variable {O : Oracle Access Value} (start : Start)

/-- The word a variable stands for.  A handler starts with the exception in the
accumulator. -/
def SSAVar.eval (d : Defs) : SSAVar → Cell
  | .prev .acc | .trapAcc => start.accu
  | .prev (.stack i) => start.stack i
  | .arg i => start.arg i
  | .env i => .val (start.envField i)
  | .computed block i => d block i
  | .offsetClosure i => .val (start.env.fieldAddr i)
  | .const n => .ofInt n
  | .unit => .val .unit
  | .atom tag => .val (start.atom tag)
  | .special => .special
  | .junk => .unspecified

/-- What an expression computes.  Phis stand between blocks only. -/
def SSAExpr.eval (d : Defs) : SSAExpr → Act O Cell
  | .apply f args => ask (.apply (f.eval start d) (args.map (·.eval start d)))
  | .getGlobal n => ask (.getGlobal n)
  | .getField block i => ask (.getField (block.eval start d) (i.eval start d))
  | .getFloatField block i => ask (.getFloatField (block.eval start d) i)
  | .getBytesChar bytes i => ask (.getBytesChar (bytes.eval start d) (i.eval start d))
  | .getVecTLength v => ask (.vecTLength (v.eval start d))
  | .arithInt op a b => arithCell op (a.eval start d) (b.eval start d)
  | .unaryOp .neg v => negCell (v.eval start d)
  | .unaryOp .boolNot v => notCell (v.eval start d)
  | .unaryOp .isInt v => isIntCell (v.eval start d)
  | .intCmp cmp a b => cmpCell cmp (a.eval start d) (b.eval start d)
  | .makeBlock tag vars => ask (.makeBlock tag (vars.map (·.eval start d)))
  | .makeFloatBlock vars => ask (.makeFloatBlock (vars.map (·.eval start d)))
  | .closure code vars => ask (.closure code (vars.map (·.eval start d)))
  | .closureRec codes vars => ask (.closureRec codes (vars.map (·.eval start d)))
  | .closureRecInfix v i => fieldCell (v.eval start d) (2 * i)
  | .cCall id vars => ask (.cCall id (vars.map (·.eval start d)))
  | .getMethod obj lab => ask (.getMethod (obj.eval start d) (lab.eval start d))
  | .getDynMet tag object => ask (.getDynMet (tag.eval start d) (object.eval start d))
  | .phi _ => Act.stuck

/-- One statement. -/
def SSAStatement.run (d : Defs) : SSAStatement → Act O Defs
  | .assign block i e => do pure (d.define block i (← e.eval start d))
  | .popTrap => do
      tell .popTrap
      pure d
  | .checkSignals => do
      tell .checkSignals
      pure d
  | .grab nargs => do
      tell (.grab nargs)
      pure d
  | .setGlobal n v => do
      tell (.setGlobal n (v.eval start d))
      pure d
  | .setField block i v => do
      tell (.setField (block.eval start d) (i.eval start d) (v.eval start d))
      pure d
  | .setFloatField block i v => do
      tell (.setFloatField (block.eval start d) i (v.eval start d))
      pure d
  | .setBytesChar bytes i v => do
      tell (.setBytesChar (bytes.eval start d) (i.eval start d) (v.eval start d))
      pure d

/-- A list of statements. -/
def runStatements : List SSAStatement → Defs → Act O Defs
  | [], d => pure d
  | t :: ts, d => do runStatements ts (← t.run start d)

/-- The exit. -/
def SSAExit.eval (d : Defs) : SSAExit → Act O Ending
  | .stop v => pure (.stopped (v.eval start d))
  | .jump target => pure (.goto target)
  | .jumpIf v ifTrue ifFalse => do
      pure (.goto (if ← truth (v.eval start d) then ifTrue else ifFalse))
  | .switch v ints blocks => do pure (.goto (← switchTarget ints blocks (v.eval start d)))
  | .tailApply f args => pure (.tailCall (f.eval start d) (args.map (·.eval start d)))
  | .pushTrap normal trap => pure (.trapPushed normal trap)
  | .raise kind v => pure (.raised kind (v.eval start d))
  | .return_ v => pure (.returned (v.eval start d))

/-- The accumulator and the stack that a symbolic stack describes. -/
def SSAStackState.eval (d : Defs) (st : SSAStackState) : MachineState :=
  ⟨st.accu.eval start d, fun k => (st.slot k).eval start d⟩

/-- A block on its own, nothing being computed before it. -/
def runSsaBlock (b : SSABlock) : Act O (Ending × MachineState) := do
  let d ← runStatements start b.statements fun _ _ => .unspecified
  let ending ← b.exit.eval start d
  pure (ending, b.finalState.eval start d)

end Ssa

end OcamlJit.CleverDis.Ssa

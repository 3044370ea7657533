/-
  OcamlJit.Instructions.Parse
  ───────────────────────────
  **THE INSTRUCTION DECODER** (`instructions/parse.rs`).

  `InstructionIterator` reads code words and yields simplified instructions.
  The words of one opcode are read together (`readInstrs`): its first yield is
  the `labelDef` of the opcode's offset, the rest waits in `nextQueued`.

  Arithmetic follows the overflow-checked build: `position as i32 + rel` panics
  when the sum leaves `i32`.
-/
import OcamlJit.Lib.Rust
import OcamlJit.Instructions.Opcode
import OcamlJit.Instructions.Types

namespace OcamlJit.Instructions

open OcamlJit.Lib

/-! ## §1. The reader. -/

/-- `enum InstructionParseError`. -/
inductive InstructionParseError where
  | unexpectedEnd
  | negativeLabel (location : Int)
  | badOpcode (v : Int)
  deriving Repr, DecidableEq

/-- The words still to read and the offset of the first of them. -/
structure Cursor where
  iter : List Word
  position : Nat
  deriving Repr, DecidableEq

/-- Decoding steps: they advance the cursor or stop with a fault. -/
abbrev Reader := StateT Cursor (Rust InstructionParseError)

namespace Reader

/-- `self.i32()`. -/
def i32 : Reader Word := fun c =>
  match c.iter with
  | v :: rest => .ok (v, ⟨rest, c.position + 1⟩)
  | [] => err .unexpectedEnd

/-- `self.u32()`. -/
def u32 : Reader Nat := do
  let v ← i32
  pure (u32OfWord v)

/-- `self.u8()`. -/
def u8 : Reader Nat := do
  let v ← i32
  pure (u8OfWord v)

/-- An `i32` operand as the integer it stands for. -/
def sint : Reader Int := do
  let v ← i32
  pure v.toInt

/-- `self.opcode()`. -/
def opcode : Reader Opcode := do
  let v ← i32
  match Opcode.fromI32 v with
  | some op => pure op
  | none => fun _ => err (.badOpcode v.toInt)

/-- `self.current_position()`. -/
def currentPosition : Reader Nat := fun c => .ok (c.position, c)

/-- The checks of `label_at` after the relative word is read. -/
def resolveLabel (position : Nat) (rel : Word) : Rust InstructionParseError Nat :=
  let location := (BitVec.ofNat 32 position).toInt + rel.toInt
  if location < -2 ^ 31 ∨ 2 ^ 31 ≤ location then panicked
  else if location < 0 then err (.negativeLabel location)
  else .ok location.toNat

/-- `self.label_at(position)`. -/
def labelAt (position : Nat) : Reader Nat := do
  let rel ← i32
  fun c => (resolveLabel position rel).map (·, c)

/-- `self.label()`: relative to the offset of the label word itself. -/
def label : Reader Nat := do
  labelAt (← currentPosition)

/-- `self.get_label_list(count, position)`. -/
def getLabelList : (count position : Nat) → Reader (List Nat)
  | 0, _ => pure []
  | count + 1, position => do
      let l ← labelAt position
      let ls ← getLabelList count position
      pure (l :: ls)

end Reader

/-! ## §2. One opcode. -/

open Reader in
/-- The `match self.opcode()?` of `get_next_instr`: what the opcode queues,
followed by the instruction it pushes at the end. -/
def readOperands : Opcode → Reader (List (Instruction Nat))
  | .acc0 => pure [.acc 0]
  | .acc1 => pure [.acc 1]
  | .acc2 => pure [.acc 2]
  | .acc3 => pure [.acc 3]
  | .acc4 => pure [.acc 4]
  | .acc5 => pure [.acc 5]
  | .acc6 => pure [.acc 6]
  | .acc7 => pure [.acc 7]
  | .acc => do pure [.acc (← u32)]
  | .pushAcc0 => pure [.push, .acc 0]
  | .pushAcc1 => pure [.push, .acc 1]
  | .pushAcc2 => pure [.push, .acc 2]
  | .pushAcc3 => pure [.push, .acc 3]
  | .pushAcc4 => pure [.push, .acc 4]
  | .pushAcc5 => pure [.push, .acc 5]
  | .pushAcc6 => pure [.push, .acc 6]
  | .pushAcc7 => pure [.push, .acc 7]
  | .pushAcc => do pure [.push, .acc (← u32)]
  | .envAcc1 => pure [.envAcc 1]
  | .envAcc2 => pure [.envAcc 2]
  | .envAcc3 => pure [.envAcc 3]
  | .envAcc4 => pure [.envAcc 4]
  | .envAcc => do pure [.envAcc (← u32)]
  | .pushEnvAcc1 => pure [.push, .envAcc 1]
  | .pushEnvAcc2 => pure [.push, .envAcc 2]
  | .pushEnvAcc3 => pure [.push, .envAcc 3]
  | .pushEnvAcc4 => pure [.push, .envAcc 4]
  | .pushEnvAcc => do pure [.push, .envAcc (← u32)]
  | .push => pure [.push]
  | .pop => do pure [.pop (← u32)]
  | .assign => do pure [.assign (← u32)]
  | .pushRetAddr => do pure [.pushRetAddr (← label)]
  | .apply1 => pure [.apply1]
  | .apply2 => pure [.apply2]
  | .apply3 => pure [.apply3]
  | .apply => do pure [.apply (← u32)]
  | .appTerm1 => do pure [.applyTerm 1 (← u32)]
  | .appTerm2 => do pure [.applyTerm 2 (← u32)]
  | .appTerm3 => do pure [.applyTerm 3 (← u32)]
  | .appTerm => do pure [.applyTerm (← u32) (← u32)]
  | .return_ => do pure [.return_ (← u32)]
  | .restart => pure [.restart]
  | .grab => do pure [.grab (← u32)]
  | .closure => do
      let n ← u32
      let l ← label
      pure [.closure l n]
  | .closureRec => do
      let length ← u32
      let n ← u32
      let pos ← currentPosition
      let data ← getLabelList length pos
      pure [.closureRec data n]
  | .offsetClosure0 => pure [.offsetClosure 0]
  | .offsetClosure2 => pure [.offsetClosure 2]
  | .offsetClosureM2 => pure [.offsetClosure (-2)]
  | .offsetClosure => do pure [.offsetClosure (← sint)]
  | .pushOffsetClosure0 => pure [.push, .offsetClosure 0]
  | .pushOffsetClosure2 => pure [.push, .offsetClosure 2]
  | .pushOffsetClosureM2 => pure [.push, .offsetClosure (-2)]
  | .pushOffsetClosure => do pure [.push, .offsetClosure (← sint)]
  | .getGlobal => do pure [.getGlobal (← u32)]
  | .pushGetGlobal => do pure [.push, .getGlobal (← u32)]
  | .getGlobalField => do pure [.getGlobal (← u32), .getField (← u32)]
  | .pushGetGlobalField => do pure [.push, .getGlobal (← u32), .getField (← u32)]
  | .setGlobal => do pure [.setGlobal (← u32)]
  | .getField0 => pure [.getField 0]
  | .getField1 => pure [.getField 1]
  | .getField2 => pure [.getField 2]
  | .getField3 => pure [.getField 3]
  | .getField => do pure [.getField (← u32)]
  | .setField0 => pure [.setField 0]
  | .setField1 => pure [.setField 1]
  | .setField2 => pure [.setField 2]
  | .setField3 => pure [.setField 3]
  | .setField => do pure [.setField (← u32)]
  | .getFloatField => do pure [.getFloatField (← u32)]
  | .setFloatField => do pure [.setFloatField (← u32)]
  | .vecTLength => pure [.vecTLength]
  | .getVecTItem => pure [.getVecTItem]
  | .setVecTItem => pure [.setVecTItem]
  | .getStringChar => pure [.getBytesChar]
  | .getBytesChar => pure [.getBytesChar]
  | .setBytesChar => pure [.setBytesChar]
  | .branch => do pure [.branch (← label)]
  | .branchIf => do pure [.branchIf (← label)]
  | .branchIfNot => do pure [.branchIfNot (← label)]
  | .switch => do
      let n ← u32
      let pos ← currentPosition
      -- `n & 0xFFFF` and `n >> 16`
      let ints ← getLabelList (n % 2 ^ 16) pos
      let tags ← getLabelList (n / 2 ^ 16) pos
      pure [.switch ints tags]
  | .negInt => pure [.negInt]
  | .addInt => pure [.arithInt .add]
  | .subInt => pure [.arithInt .sub]
  | .mulInt => pure [.arithInt .mul]
  | .divInt => pure [.arithInt .div]
  | .modInt => pure [.arithInt .mod]
  | .andInt => pure [.arithInt .and]
  | .orInt => pure [.arithInt .or]
  | .xorInt => pure [.arithInt .xor]
  | .lslInt => pure [.arithInt .lsl]
  | .lsrInt => pure [.arithInt .lsr]
  | .asrInt => pure [.arithInt .asr]
  | .boolNot => pure [.boolNot]
  | .eq => pure [.intCmp .eq]
  | .neq => pure [.intCmp .ne]
  | .ltInt => pure [.intCmp .lt]
  | .leInt => pure [.intCmp .le]
  | .gtInt => pure [.intCmp .gt]
  | .geInt => pure [.intCmp .ge]
  | .uLtInt => pure [.intCmp .uLt]
  | .uGeInt => pure [.intCmp .uGe]
  | .bEq => do pure [.branchCmp .eq (← sint) (← label)]
  | .bNeq => do pure [.branchCmp .ne (← sint) (← label)]
  | .bLtInt => do pure [.branchCmp .lt (← sint) (← label)]
  | .bLeInt => do pure [.branchCmp .le (← sint) (← label)]
  | .bGtInt => do pure [.branchCmp .gt (← sint) (← label)]
  | .bGeInt => do pure [.branchCmp .ge (← sint) (← label)]
  | .bULtInt => do pure [.branchCmp .uLt (← sint) (← label)]
  | .bUGeInt => do pure [.branchCmp .uGe (← sint) (← label)]
  | .isInt => pure [.isInt]
  | .offsetInt => do pure [.offsetInt (← sint)]
  | .offsetRef => do pure [.offsetRef (← sint)]
  | .getMethod => pure [.getMethod]
  | .getPubMet => do
      let tag ← sint
      let _cache ← u32
      pure [.setupForPubMet tag, .getDynMet]
  | .getDynMet => pure [.getDynMet]
  | .cCall1 => do pure [.cCall1 (← u32)]
  | .cCall2 => do pure [.cCall2 (← u32)]
  | .cCall3 => do pure [.cCall3 (← u32)]
  | .cCall4 => do pure [.cCall4 (← u32)]
  | .cCall5 => do pure [.cCall5 (← u32)]
  | .cCallN => do pure [.cCallN (← u32) (← u32)]
  | .raise => pure [.raise .regular]
  | .reRaise => pure [.raise .reRaise]
  | .raiseNoTrace => pure [.raise .noTrace]
  | .popTrap => pure [.popTrap]
  | .pushTrap => do pure [.pushTrap (← label)]
  | .checkSignals => pure [.checkSignals]
  | .atom => do pure [.makeBlock 0 (← u8)]
  | .atom0 => pure [.makeBlock 0 0]
  | .pushAtom0 => pure [.push, .makeBlock 0 0]
  | .pushAtom => do pure [.push, .makeBlock 0 (← u8)]
  | .makeBlock1 => do pure [.makeBlock 1 (← u8)]
  | .makeBlock2 => do pure [.makeBlock 2 (← u8)]
  | .makeBlock3 => do pure [.makeBlock 3 (← u8)]
  | .makeBlock => do pure [.makeBlock (← u32) (← u8)]
  | .makeFloatBlock => do pure [.makeFloatBlock (← u32)]
  | .const0 => pure [.const 0]
  | .const1 => pure [.const 1]
  | .const2 => pure [.const 2]
  | .const3 => pure [.const 3]
  | .constInt => do pure [.const (← sint)]
  | .pushConst0 => pure [.push, .const 0]
  | .pushConst1 => pure [.push, .const 1]
  | .pushConst2 => pure [.push, .const 2]
  | .pushConst3 => pure [.push, .const 3]
  | .pushConstInt => do pure [.push, .const (← sint)]
  | .stop => pure [.stop]
  | .break_ => pure [.break_]
  | .event => pure [.event]

/-- All the words of one opcode. -/
def readInstrs : Reader (List (Instruction Nat)) := do
  let op ← Reader.opcode
  readOperands op

/-! ## §3. The iterator. -/

/-- `struct InstructionIterator`. -/
structure InstructionIterator where
  iter : List Word
  position : Nat
  nextQueued : List (Instruction Nat)
  error : Bool
  deriving Repr

namespace InstructionIterator

/-- `InstructionIterator::new_from_offset`. -/
def newFromOffset (iter : List Word) (offset : Nat) : InstructionIterator :=
  ⟨iter, offset, [], false⟩

/-- `InstructionIterator::new`. -/
def new (iter : List Word) : InstructionIterator := newFromOffset iter 0

/-- `get_next_instr`. -/
def getNextInstr (it : InstructionIterator) :
    Rust InstructionParseError (Option (Instruction Nat) × InstructionIterator) :=
  match it.nextQueued with
  | i :: queued => .ok (some i, { it with nextQueued := queued })
  | [] =>
      if it.iter.isEmpty then .ok (none, it)
      else do
        let labelDef := Instruction.labelDef it.position
        let (instrs, c) ← readInstrs ⟨it.iter, it.position⟩
        pure (some labelDef, ⟨c.iter, c.position, instrs, it.error⟩)

/-- `Iterator::next`.  A fault is yielded once and ends the iteration, so what
the failed read consumed is never seen again. -/
def next (it : InstructionIterator) :
    Option (Rust InstructionParseError (Instruction Nat)) × InstructionIterator :=
  if it.error then (none, it)
  else match it.getNextInstr with
    | .ok (some i, it') => (some (.ok i), it')
    | .ok (none, it') => (none, it')
    | .error e => (some (.error e), { it with error := true })

/-- What a loop over the iterator sees: each item with the iterator's
`current_position` after the call that yielded it. -/
def collect : Nat → InstructionIterator →
    List (Rust InstructionParseError (Instruction Nat) × Nat)
  | 0, _ => []
  | n + 1, it =>
      match it.next with
      | (none, _) => []
      | (some r, it') => (r, it'.position) :: collect n it'

/-- Every item: an opcode yields at most four, so the bound is never what
stops the collection (`collect_eq_items`). -/
def items (it : InstructionIterator) :
    List (Rust InstructionParseError (Instruction Nat) × Nat) :=
  collect (4 * it.iter.length + it.nextQueued.length + 2) it

end InstructionIterator

/-- `code[offset..]` decoded from `offset` on. -/
def instructionsFrom (code : List Word) (offset : Nat) :
    List (Rust InstructionParseError (Instruction Nat) × Nat) :=
  (InstructionIterator.newFromOffset (code.drop offset) offset).items

/-- The instructions of a whole array, or the first fault. -/
def decodeAll (code : List Word) : Rust InstructionParseError (List (Instruction Nat)) :=
  (InstructionIterator.new code).items.mapM Prod.fst

end OcamlJit.Instructions

/-
  OcamlJit.Instructions.ClosureScan
  ─────────────────────────────────
  **THE CLOSURE SCANNER** (`instructions/closure_scan.rs`) and the table
  `scan_closures` builds from it (`compiler/emit_code.rs`).

  `ClosureIterator` walks the same words as the decoder, but keeps only the
  `CLOSURE` and `CLOSUREREC` instructions; every other opcode is skipped by a
  fixed number of operand words.  The source answers `None` both at the end of
  the code and on a malformed word.  The model keeps the reason (`ScanStop`), so
  that a scan that ran to its end differs from one that gave up.
-/
import OcamlJit.Lib.Rust
import OcamlJit.Instructions.Opcode

namespace OcamlJit.Instructions

open OcamlJit.Lib

/-! ## §1. The scanner's reader. -/

/-- `struct Closure`. -/
structure Closure where
  codeOffset : Nat
  arity : Nat
  deriving Repr, DecidableEq

/-- `enum FoundClosure`. -/
inductive FoundClosure where
  | normal (func : Closure) (nvars : Nat)
  | rec_ (funcs : List Closure) (nvars : Nat)
  deriving Repr, DecidableEq

namespace FoundClosure

/-- The functions of a found closure, in order. -/
def funcs : FoundClosure → List Closure
  | .normal func _ => [func]
  | .rec_ funcs _ => funcs

/-- The targets and the number of captured variables. -/
def shape : FoundClosure → List Nat × Nat
  | .normal func nvars => ([func.codeOffset], nvars)
  | .rec_ funcs nvars => (funcs.map Closure.codeOffset, nvars)

end FoundClosure

/-- Why a `None` is returned. -/
inductive ScanStop where
  /-- No word is left where an opcode is expected. -/
  | atEnd
  /-- The words end inside an instruction. -/
  | truncated
  | badOpcode
  | negativeLabel
  /-- `self.code.get(..)` found nothing at a closure's entry. -/
  | noEntry
  deriving Repr, DecidableEq

/-- Steps of the scanner over `code`; the state is `self.position`.  The
iterators the compiler builds all have `offset = 0` (`ClosureIterator::new`),
so `current_position` is the position itself. -/
abbrev Scanner := StateT Nat (Rust ScanStop)

namespace ClosureIterator

variable (code : List Word)

/-- `self.i32()`, inside an instruction. -/
def i32 : Scanner Word := fun position =>
  match code[position]? with
  | some v => .ok (v, position + 1)
  | none => err .truncated

/-- `self.u32()`. -/
def u32 : Scanner Nat := do
  let v ← i32 code
  pure (u32OfWord v)

/-- `self.opcode()`. -/
def opcode : Scanner Opcode := fun position =>
  match code[position]? with
  | none => err .atEnd
  | some v =>
      match Opcode.fromI32 v with
      | some op => .ok (op, position + 1)
      | none => err .badOpcode

/-- `self.current_position()`. -/
def currentPosition : Scanner Nat := fun position => .ok (position, position)

/-- The checks of `label_at` after the relative word is read. -/
def resolveLabel (position : Nat) (rel : Word) : Rust ScanStop Nat :=
  let location := (BitVec.ofNat 32 position).toInt + rel.toInt
  if location < -2 ^ 31 ∨ 2 ^ 31 ≤ location then panicked
  else if location < 0 then err .negativeLabel
  else .ok location.toNat

/-- `self.label_at(position)`. -/
def labelAt (position : Nat) : Scanner Nat := do
  let rel ← i32 code
  fun p => (resolveLabel position rel).map (·, p)

/-- `self.label()`. -/
def label : Scanner Nat := do
  labelAt code (← currentPosition)

/-- `self.get_closure_at(code_offset)`: a function that takes two or more
arguments starts with `GRAB`, any other takes one. -/
def getClosureAt (codeOffset : Nat) : Rust ScanStop Closure :=
  match code[codeOffset]? with
  | none => err .noEntry
  | some firstWord =>
      if Opcode.fromI32 firstWord = some .grab then
        match code[codeOffset + 1]? with
        | none => err .noEntry
        | some numExtra => do
            let arity ← addU 64 (usizeOfWord numExtra) 1
            pure ⟨codeOffset, arity⟩
      else pure ⟨codeOffset, 1⟩

/-- The `for _ in 0..nfuncs` loop of the `CLOSUREREC` case. -/
def readFuncs : (nfuncs position : Nat) → Scanner (List Closure)
  | 0, _ => pure []
  | nfuncs + 1, position => do
      let codeOffset ← labelAt code position
      let func ← liftM (getClosureAt code codeOffset)
      let funcs ← readFuncs nfuncs position
      pure (func :: funcs)

/-- Read and discard `n` words. -/
def skip : Nat → Scanner Unit
  | 0 => pure ()
  | n + 1 => do
      let _ ← i32 code
      skip n

/-! ## §2. The operand table. -/

/-- The arms of the `match` of `next_closure_impl`. -/
inductive ScanCase where
  | closure
  | closureRec
  | nullary
  | unary
  | binary
  | switch
  deriving Repr, DecidableEq

/-- Which arm an opcode falls into. -/
def scanCase : Opcode → ScanCase
  | .closure => .closure
  | .closureRec => .closureRec
  | .switch => .switch
  | .acc0 | .acc1 | .acc2 | .acc3 | .acc4 | .acc5 | .acc6 | .acc7 | .push | .pushAcc0
  | .pushAcc1 | .pushAcc2 | .pushAcc3 | .pushAcc4 | .pushAcc5 | .pushAcc6 | .pushAcc7
  | .envAcc1 | .envAcc2 | .envAcc3 | .envAcc4 | .pushEnvAcc1 | .pushEnvAcc2 | .pushEnvAcc3
  | .pushEnvAcc4 | .apply1 | .apply2 | .apply3 | .restart | .offsetClosureM2
  | .offsetClosure0 | .offsetClosure2 | .pushOffsetClosureM2 | .pushOffsetClosure0
  | .pushOffsetClosure2 | .atom0 | .pushAtom0 | .getField0 | .getField1 | .getField2
  | .getField3 | .setField0 | .setField1 | .setField2 | .setField3 | .vecTLength
  | .getVecTItem | .setVecTItem | .getBytesChar | .setBytesChar | .boolNot | .popTrap
  | .raise | .checkSignals | .const0 | .const1 | .const2 | .const3 | .pushConst0
  | .pushConst1 | .pushConst2 | .pushConst3 | .negInt | .addInt | .subInt | .mulInt
  | .divInt | .modInt | .andInt | .orInt | .xorInt | .lslInt | .lsrInt | .asrInt | .eq
  | .neq | .ltInt | .leInt | .gtInt | .geInt | .isInt | .getMethod | .getDynMet | .stop
  | .event | .break_ | .reRaise | .raiseNoTrace | .getStringChar => .nullary
  | .pushAcc | .acc | .pop | .assign | .envAcc | .pushEnvAcc | .pushRetAddr | .apply
  | .appTerm1 | .appTerm2 | .appTerm3 | .return_ | .grab | .offsetClosure
  | .pushOffsetClosure | .getGlobal | .pushGetGlobal | .setGlobal | .atom | .pushAtom
  | .makeBlock1 | .makeBlock2 | .makeBlock3 | .makeFloatBlock | .getField | .getFloatField
  | .setField | .setFloatField | .branch | .branchIf | .branchIfNot | .pushTrap | .cCall1
  | .cCall2 | .cCall3 | .cCall4 | .cCall5 | .constInt | .pushConstInt | .offsetInt
  | .offsetRef => .unary
  | .appTerm | .getGlobalField | .pushGetGlobalField | .makeBlock | .cCallN | .bEq | .bNeq
  | .bLtInt | .bLeInt | .bGtInt | .bGeInt | .uLtInt | .uGeInt | .bULtInt | .bUGeInt
  | .getPubMet => .binary

/-! ## §3. The iterator. -/

/-- One turn of the `loop`: the closure the opcode creates, if it creates one. -/
def scanOperands (op : Opcode) : Scanner (Option FoundClosure) :=
  match scanCase op with
  | .closure => do
      let nvars ← u32 code
      let codeOffset ← label code
      let func ← liftM (getClosureAt code codeOffset)
      pure (some (.normal func nvars))
  | .closureRec => do
      let nfuncs ← u32 code
      let nvars ← u32 code
      let position ← currentPosition
      let funcs ← readFuncs code nfuncs position
      pure (some (.rec_ funcs nvars))
  | .nullary => pure none
  | .unary => do
      skip code 1
      pure none
  | .binary => do
      skip code 2
      pure none
  | .switch => do
      let n ← u32 code
      -- `n_ints = n & 0xFFFF`, `n_tags = n >> 16`
      skip code (n % 2 ^ 16 + n / 2 ^ 16)
      pure none

/-- `next_closure_impl`; every turn of its loop reads at least one word, which
bounds the recursion. -/
def nextClosureImpl : Nat → Scanner FoundClosure
  | 0 => fun _ => .error .outOfFuel
  | fuel + 1 => do
      let op ← opcode code
      match ← scanOperands code op with
      | some found => pure found
      | none => nextClosureImpl fuel

/-- Call `next` until it answers `None`: the closures and why it stopped.  After
the first `None` the iterator is `done`, so no later call finds more. -/
def collect : Nat → Nat → List FoundClosure × Fault ScanStop
  | 0, _ => ([], .outOfFuel)
  | fuel + 1, position =>
      match nextClosureImpl code (code.length + 1) position with
      | .error stop => ([], stop)
      | .ok (found, position') =>
          let (rest, stop) := collect fuel position'
          (found :: rest, stop)

/-- `ClosureIterator::new(code)` run to its end. -/
def run : List FoundClosure × Fault ScanStop := collect code (code.length + 1) 0

end ClosureIterator

/-! ## §4. The closure table of a section. -/

/-- `struct ClosureData`; a dynamic label is the number the assembler gives it. -/
structure ClosureData where
  label : Nat
  arity : Nat
  bytecodeAddr : Nat
  deriving Repr, DecidableEq

/-- `HashMap<usize, ClosureData>`. -/
abbrev ClosureTable := List (Nat × ClosureData)

namespace ClosureTable

/-- `closures.get(&offset)`. -/
def get (t : ClosureTable) (offset : Nat) : Option ClosureData := t.lookup offset

end ClosureTable

/-- `add_closure`: a label that is already a key fails the `assert!`. -/
def addClosure (t : ClosureTable) (nextLabel : Nat) (func : Closure) :
    Rust Empty ClosureTable :=
  match t.get func.codeOffset with
  | some _ => panicked
  | none => .ok ((func.codeOffset, ⟨nextLabel, func.arity, func.codeOffset⟩) :: t)

/-- The loop of `scan_closures` over the found functions. -/
def addClosures : List Closure → Nat → ClosureTable → Rust Empty ClosureTable
  | [], _, t => .ok t
  | func :: funcs, nextLabel, t => do
      let t' ← addClosure t nextLabel func
      addClosures funcs (nextLabel + 1) t'

/-- `scan_closures`.  The `for` loop takes what the iterator yields before its
first `None`, whatever made it stop; only a panic of the scan itself ends the
compilation. -/
def scanClosures (code : List Word) : Rust Empty ClosureTable :=
  match ClosureIterator.run code with
  | (_, .panic) => panicked
  | (found, _) => addClosures (found.flatMap FoundClosure.funcs) 0 []

end OcamlJit.Instructions

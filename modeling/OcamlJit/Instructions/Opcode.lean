/-
  OcamlJit.Instructions.Opcode
  ────────────────────────────
  The 149 opcodes of OCaml bytecode, in the order of `OPCODE_METADATA`, and
  the partial map `fromI32` from code words to opcodes.
-/
import Mathlib.Algebra.Ring.Int.Defs
import Mathlib.Algebra.Ring.Nat
import Mathlib.Data.List.Basic

namespace OcamlJit.Instructions

/-- One word of bytecode (`i32`). -/
abbrev Word := BitVec 32

/-- `w as u32`. -/
abbrev u32OfWord (w : Word) : Nat := w.toNat

/-- `w as u8`. -/
abbrev u8OfWord (w : Word) : Nat := w.toNat % 2 ^ 8

/-- `w as usize`: sign extension to 64 bits. -/
abbrev usizeOfWord (w : Word) : Nat := (w.signExtend 64).toNat

/-- `enum Opcode`. -/
inductive Opcode where
  | acc0 | acc1 | acc2 | acc3 | acc4 | acc5 | acc6 | acc7 | acc | push | pushAcc0
  | pushAcc1 | pushAcc2 | pushAcc3 | pushAcc4 | pushAcc5 | pushAcc6 | pushAcc7 | pushAcc
  | pop | assign | envAcc1 | envAcc2 | envAcc3 | envAcc4 | envAcc | pushEnvAcc1
  | pushEnvAcc2 | pushEnvAcc3 | pushEnvAcc4 | pushEnvAcc | pushRetAddr | apply | apply1
  | apply2 | apply3 | appTerm | appTerm1 | appTerm2 | appTerm3 | return_ | restart | grab
  | closure | closureRec | offsetClosureM2 | offsetClosure0 | offsetClosure2
  | offsetClosure | pushOffsetClosureM2 | pushOffsetClosure0 | pushOffsetClosure2
  | pushOffsetClosure | getGlobal | pushGetGlobal | getGlobalField | pushGetGlobalField
  | setGlobal | atom0 | atom | pushAtom0 | pushAtom | makeBlock | makeBlock1 | makeBlock2
  | makeBlock3 | makeFloatBlock | getField0 | getField1 | getField2 | getField3 | getField
  | getFloatField | setField0 | setField1 | setField2 | setField3 | setField
  | setFloatField | vecTLength | getVecTItem | setVecTItem | getBytesChar | setBytesChar
  | branch | branchIf | branchIfNot | switch | boolNot | pushTrap | popTrap | raise
  | checkSignals | cCall1 | cCall2 | cCall3 | cCall4 | cCall5 | cCallN | const0 | const1
  | const2 | const3 | constInt | pushConst0 | pushConst1 | pushConst2 | pushConst3
  | pushConstInt | negInt | addInt | subInt | mulInt | divInt | modInt | andInt | orInt
  | xorInt | lslInt | lsrInt | asrInt | eq | neq | ltInt | leInt | gtInt | geInt
  | offsetInt | offsetRef | isInt | getMethod | bEq | bNeq | bLtInt | bLeInt | bGtInt
  | bGeInt | uLtInt | uGeInt | bULtInt | bUGeInt | getPubMet | getDynMet | stop | event
  | break_ | reRaise | raiseNoTrace | getStringChar
  deriving Repr, DecidableEq

/-- `NUM_OPERATIONS`. -/
def numOperations : Int := 149

/-- The first column of `OPCODE_METADATA`. -/
def opcodeMetadata : List Opcode :=
  [.acc0, .acc1, .acc2, .acc3, .acc4, .acc5, .acc6, .acc7, .acc, .push, .pushAcc0,
   .pushAcc1, .pushAcc2, .pushAcc3, .pushAcc4, .pushAcc5, .pushAcc6, .pushAcc7, .pushAcc,
   .pop, .assign, .envAcc1, .envAcc2, .envAcc3, .envAcc4, .envAcc, .pushEnvAcc1,
   .pushEnvAcc2, .pushEnvAcc3, .pushEnvAcc4, .pushEnvAcc, .pushRetAddr, .apply, .apply1,
   .apply2, .apply3, .appTerm, .appTerm1, .appTerm2, .appTerm3, .return_, .restart, .grab,
   .closure, .closureRec, .offsetClosureM2, .offsetClosure0, .offsetClosure2,
   .offsetClosure, .pushOffsetClosureM2, .pushOffsetClosure0, .pushOffsetClosure2,
   .pushOffsetClosure, .getGlobal, .pushGetGlobal, .getGlobalField, .pushGetGlobalField,
   .setGlobal, .atom0, .atom, .pushAtom0, .pushAtom, .makeBlock, .makeBlock1, .makeBlock2,
   .makeBlock3, .makeFloatBlock, .getField0, .getField1, .getField2, .getField3, .getField,
   .getFloatField, .setField0, .setField1, .setField2, .setField3, .setField,
   .setFloatField, .vecTLength, .getVecTItem, .setVecTItem, .getBytesChar, .setBytesChar,
   .branch, .branchIf, .branchIfNot, .switch, .boolNot, .pushTrap, .popTrap, .raise,
   .checkSignals, .cCall1, .cCall2, .cCall3, .cCall4, .cCall5, .cCallN, .const0, .const1,
   .const2, .const3, .constInt, .pushConst0, .pushConst1, .pushConst2, .pushConst3,
   .pushConstInt, .negInt, .addInt, .subInt, .mulInt, .divInt, .modInt, .andInt, .orInt,
   .xorInt, .lslInt, .lsrInt, .asrInt, .eq, .neq, .ltInt, .leInt, .gtInt, .geInt,
   .offsetInt, .offsetRef, .isInt, .getMethod, .bEq, .bNeq, .bLtInt, .bLeInt, .bGtInt,
   .bGeInt, .uLtInt, .uGeInt, .bULtInt, .bUGeInt, .getPubMet, .getDynMet, .stop, .event,
   .break_, .reRaise, .raiseNoTrace, .getStringChar]

/-- `Opcode::from_i32`. -/
def Opcode.fromI32 (v : Word) : Option Opcode :=
  if v.toInt < 0 ∨ numOperations ≤ v.toInt then none else opcodeMetadata[v.toNat]?

end OcamlJit.Instructions

/-
  OcamlJit.Baseline.EmitInstruction
  ─────────────────────────────────
  **THE CODE FOR ONE INSTRUCTION** (`emit_instruction` in
  `compiler/emit_code.rs`).

  Arithmetic, comparisons, branches, switches and the accesses to vectors and
  bytes.  The code of a straight sequence is a list of machine instructions
  (`straight`); the tables from `Comp` to `cmov` and to conditional jumps are the
  same one (`condOf`).
-/
import OcamlJit.Baseline.Assembly

namespace OcamlJit.Baseline

open OcamlJit.Lib OcamlJit.Instructions OcamlJit.Interp

/-! ## §1. Emission. -/

/-- Lines without labels and jumps. -/
@[simp] def straight (is : List Ins) : List Line := is.map .ins

/-- `caml_i32_of_int`: the low half of the tagged integer. -/
def camlI32OfInt (orig : Int) : Int := ((valInt orig).setWidth 32).toInt

/-- The condition of `cmovcc` and `jcc` for a comparison. -/
def condOf : Comp → Cond
  | .eq => .e
  | .ne => .ne
  | .lt => .l
  | .le => .le
  | .gt => .g
  | .ge => .ge
  | .uLt => .b
  | .uGe => .ae

/-- `Instruction::Const`. -/
def emitConst (n : Int) : List Line :=
  straight [.mov32 .rax (.imm (camlI32OfInt n)), .movsxd .accu .rax]

/-- `Instruction::NegInt`. -/
def emitNegInt : List Line :=
  straight [.mov .rax (.imm 2), .alu .sub .rax (.reg .accu), .mov .accu (.reg .rax)]

/-- `ArithOp::Div` and `ArithOp::Mod`, with the register the result is in. -/
def emitDivision (result : Reg) : List Line :=
  straight [.mov .rax (.sp 0), .shift .sar .rax .one, .cmp .rax (.imm 0)] ++
  .jcc .e (.down .div0) ::
  straight [.mov .rdx (.reg .rax), .mov .rcx (.reg .rdx), .mov .rax (.reg .accu),
    .shift .sar .rax .one, .cqo, .idiv .rcx, .alu .add result (.reg result),
    .alu .add result (.imm 1), .mov .accu (.reg result), .addSp 1] ++
  .jmp (.down .next) :: .here .div0 ::
  straight [.setupForCCall, .call .camlRaiseZeroDivide] ++
  [.here .next]

/-- The shifts: the count is the low half of a word, untagged. -/
def emitCount : List Ins := [.mov32 .rcx (.sp 0), .shift32 .shr .rcx]

/-- `Instruction::ArithInt`. -/
def emitArithInt : ArithOp → List Line
  | .mul => straight [.mov .rax (.sp 0), .shift .sar .rax .one, .mov .rdx (.reg .rax),
      .mov .rax (.reg .accu), .shift .sar .rax .one, .alu .imul .rax (.reg .rdx),
      .alu .add .rax (.reg .rax), .alu .add .rax (.imm 1), .mov .accu (.reg .rax), .addSp 1]
  | .add => straight [.alu .add .accu (.sp 0), .dec .accu, .addSp 1]
  | .sub => straight [.alu .sub .accu (.sp 0), .inc .accu, .addSp 1]
  | .div => emitDivision .rax
  | .mod => emitDivision .rdx
  | .or => straight [.alu .or_ .accu (.sp 0), .addSp 1]
  | .and => straight [.alu .and_ .accu (.sp 0), .addSp 1]
  | .xor => straight [.alu .xor .accu (.sp 0), .alu .or_ .accu (.imm 1), .addSp 1]
  | .lsl => straight (emitCount ++ [.dec .accu, .shift .shl .accu .cl, .inc .accu, .addSp 1])
  | .lsr => straight (emitCount ++ [.shift .shr .accu .cl, .alu .or_ .accu (.imm 1), .addSp 1])
  | .asr => straight (emitCount ++ [.shift .sar .accu .cl, .alu .or_ .accu (.imm 1), .addSp 1])

/-- `Instruction::BoolNot`. -/
def emitBoolNot : List Line := straight [.alu .xor .accu (.imm 2)]

/-- `Instruction::IntCmp`. -/
def emitIntCmp (cmp : Comp) : List Line :=
  straight [.mov .rax (.sp 0), .mov .rcx (.reg .accu), .addSp 1, .mov .rdi (.imm 3),
    .mov .accu (.imm 1), .cmp .rcx (.reg .rax), .cmov (condOf cmp) .accu .rdi]

/-- `Instruction::BranchCmp`. -/
def emitBranchCmp (cmp : Comp) (i : Int) (l : Nat) : List Line :=
  straight [.mov32 .rax (.imm (camlI32OfInt i)), .movsxd .rcx .rax, .cmp .rcx (.reg .accu)] ++
  [.jcc (condOf cmp) (.label l)]

/-- The untagged immediate of `OffsetInt` and `OffsetRef`, doubled, into `rax`. -/
def emitOffset (n : Int) : List Ins :=
  [.mov32 .rcx (.imm n), .shift32 .shl .rcx, .movsxd .rax .rcx]

/-- `Instruction::OffsetInt`. -/
def emitOffsetInt (n : Int) : List Line :=
  straight (emitOffset n ++ [.alu .add .accu (.reg .rax)])

/-- `Instruction::OffsetRef`. -/
def emitOffsetRef (n : Int) : List Line :=
  straight (emitOffset n ++ [.addMem ⟨.accu, none, 0⟩ .rax, .mov .accu (.imm 1)])

/-- `Instruction::IsInt`. -/
def emitIsInt : List Line :=
  straight [.alu .and_ .accu (.imm 1), .shift .shl .accu .one, .alu .add .accu (.imm 1)]

/-- `Instruction::GetVecTItem`. -/
def emitGetVecTItem : List Line :=
  straight [.mov32 .rsi (.sp 0), .shift32 .shr .rsi, .load .accu ⟨.accu, some (.rsi, 8), 0⟩,
    .addSp 1]

/-- `Instruction::SetVecTItem`. -/
def emitSetVecTItem : List Line :=
  straight [.mov .rax (.sp 0), .shift .shr .rax .one, .lea .rdi ⟨.accu, some (.rax, 8), 0⟩,
    .mov .rsi (.sp 1), .call .camlModify, .mov .accu (.imm 1), .addSp 2]

/-- `Instruction::GetBytesChar`. -/
def emitGetBytesChar : List Line :=
  straight [.mov .rsi (.sp 0), .shift .shr .rsi .one, .load8 .accu ⟨.accu, some (.rsi, 1), 0⟩,
    .alu .add .accu (.reg .accu), .inc .accu, .addSp 1]

/-- `Instruction::SetBytesChar`. -/
def emitSetBytesChar : List Line :=
  straight [.mov .rsi (.sp 0), .shift .shr .rsi .one, .mov .rax (.sp 1), .shift .shr .rax .one,
    .store8 ⟨.accu, some (.rsi, 1), 0⟩ .rax, .addSp 2, .mov .accu (.imm 1)]

/-- `Instruction::BranchIf` and `Instruction::BranchIfNot`, with the condition
under which the jump is skipped. -/
def emitBranchUnless (c : Cond) (l : Nat) : List Line :=
  [.ins (.cmp .accu (.imm 1)), .jcc c (.down .next), .jmp (.label l), .here .next]

/-- The comparisons of the accumulator with the integers from `i` on. -/
def emitSwitchInts : Nat → List Nat → List Line
  | _, [] => []
  | i, l :: ints =>
      straight [.mov32 .rax (.imm (camlI32OfInt i)), .movsxd .rax .rax, .cmp .accu (.reg .rax)] ++
      .jcc .e (.label l) :: emitSwitchInts (i + 1) ints

/-- The comparisons of the low byte of the header with the tags from `i` on. -/
def emitSwitchBlocks : Nat → List Nat → List Line
  | _, [] => []
  | i, l :: blocks => .ins (.cmpAl i) :: .jcc .e (.label l) :: emitSwitchBlocks (i + 1) blocks

/-- `Instruction::Switch`. -/
def emitSwitch (ints blocks : List Nat) : List Line :=
  emitSwitchInts 0 ints ++ .ins (.load .rax ⟨.accu, none, -8⟩) ::
  (emitSwitchBlocks 0 blocks ++ [.ins (.call .fatalMessage)])

/-- `emit_instruction`, for the instructions above. -/
@[simp] def emitInstruction : Instruction Nat → Option (List Line)
  | .const n => some (emitConst n)
  | .negInt => some emitNegInt
  | .arithInt op => some (emitArithInt op)
  | .boolNot => some emitBoolNot
  | .intCmp cmp => some (emitIntCmp cmp)
  | .branchCmp cmp n l => some (emitBranchCmp cmp n l)
  | .offsetInt n => some (emitOffsetInt n)
  | .offsetRef n => some (emitOffsetRef n)
  | .isInt => some emitIsInt
  | .getVecTItem => some emitGetVecTItem
  | .setVecTItem => some emitSetVecTItem
  | .getBytesChar => some emitGetBytesChar
  | .setBytesChar => some emitSetBytesChar
  | .branch l => some [.jmp (.label l)]
  | .branchIf l => some (emitBranchUnless .e l)
  | .branchIfNot l => some (emitBranchUnless .ne l)
  | .switch ints blocks => some (emitSwitch ints blocks)
  | _ => none

/-! ## §2. What it does. -/

section Run

variable {O : Oracle Request Value} (rt : Layout) (trash : Reg → Value)

/-- The code of an instruction, from its first line. -/
@[simp] def runEmitted (i : Instruction Nat) (c : Cpu) : Act O (Cpu × Exit) := do
  runLines trash none (← Act.ofOption (emitInstruction i)) c

/-- What is left of the registers: the accumulator, the environment and the
stack. -/
@[simp] def visibleExit (p : Cpu × Exit) : State × Exit := (p.1.state, p.2)

/-- The code emitted for `i` does what the interpreter does. -/
def Emitted (O : Oracle Request Value) (i : Instruction Nat) (s : State)
    (x : Act O (State × Exit)) : Prop :=
  ∀ (trash : Reg → Value) (c : Cpu), c.state = s →
    (do pure (visibleExit (← runEmitted trash i c))) = x

end Run

end OcamlJit.Baseline

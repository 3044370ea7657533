/-
  OcamlJit.Baseline.Assembly
  ──────────────────────────
  **THE CODE THE BASELINE COMPILER EMITS, AND HOW IT RUNS.**

  The part of `oc_dynasm!` that `emit_instruction` uses for one instruction of
  the bytecode: `r_accu` and `r_env` are registers like the scratch ones, and
  what is at `[r_sp]` is the stack, top first.  Every other access to memory is
  a request, as in the interpreter.

  Local labels (`>next`) are only jumped to from above; a jump to `=>label`
  leaves the code of the instruction.  Flags are known after `cmp` only.
-/
import OcamlJit.Interp.Linear
import OcamlJit.Lib.Flags

namespace OcamlJit.Baseline

open OcamlJit.Lib OcamlJit.Instructions OcamlJit.Interp

/-! ## §1. Syntax. -/

/-- The registers in use besides `r_sp`. -/
inductive Reg where
  | rax | rcx | rdx | rsi | rdi
  /-- `r_accu`, `r_env`. -/
  | accu | env
  deriving Repr, DecidableEq

/-- A source operand. -/
inductive Operand where
  | reg (r : Reg)
  | imm (k : Int)
  /-- `[r_sp + 8 * n]`. -/
  | sp (n : Nat)
  deriving Repr, DecidableEq

/-- `[base + index * scale + disp]`. -/
structure Address where
  base : Reg
  index : Option (Reg × Nat)
  disp : Int
  deriving Repr, DecidableEq

inductive Alu where
  | add | sub | and_ | or_ | xor | imul
  deriving Repr, DecidableEq

inductive Shift where
  | shl | shr | sar
  deriving Repr, DecidableEq

/-- The count of a shift: 1, or what is in `cl`. -/
inductive Count where
  | one | cl
  deriving Repr, DecidableEq

/-- The C functions called with their arguments in registers. -/
inductive CFunction where
  | camlModify | camlRaiseZeroDivide
  /-- `fatal_message`. -/
  | fatalMessage
  deriving Repr, DecidableEq

/-- A machine instruction without a jump. -/
inductive Ins where
  | mov (d : Reg) (s : Operand)
  /-- `mov` to the low half of a register, which clears the other half. -/
  | mov32 (d : Reg) (s : Operand)
  | movsxd (d s : Reg)
  | alu (op : Alu) (d : Reg) (s : Operand)
  | shift (op : Shift) (d : Reg) (count : Count)
  /-- A shift of the low half by 1. -/
  | shift32 (op : Shift) (d : Reg)
  | cqo
  | idiv (s : Reg)
  | cmp (x : Reg) (y : Operand)
  /-- `cmp al, k`. -/
  | cmpAl (k : Int)
  | cmov (c : Cond) (d s : Reg)
  | load (d : Reg) (a : Address)
  /-- `movzx d, BYTE [a]`. -/
  | load8 (d : Reg) (a : Address)
  /-- `mov BYTE [a], sl`. -/
  | store8 (a : Address) (s : Reg)
  /-- `add [a], s`. -/
  | addMem (a : Address) (s : Reg)
  | lea (d : Reg) (a : Address)
  /-- `add r_sp, 8 * n`. -/
  | addSp (n : Nat)
  /-- `setup_for_c_call`: the environment and a code address are pushed. -/
  | setupForCCall
  /-- `mov rax, QWORD f; call rax`. -/
  | call (f : CFunction)
  deriving Repr, DecidableEq

/-- `inc d`. -/
@[simp] def Ins.inc (d : Reg) : Ins := .alu .add d (.imm 1)

/-- `dec d`. -/
@[simp] def Ins.dec (d : Reg) : Ins := .alu .sub d (.imm 1)

/-- A label inside the code of one instruction. -/
inductive LocalLabel where
  | next | div0
  deriving Repr, DecidableEq

/-- `>label`, or `=>label` of a bytecode offset. -/
inductive JumpTo where
  | down (l : LocalLabel)
  | label (l : Nat)
  deriving Repr, DecidableEq

/-- A line of the code. -/
inductive Line where
  | ins (i : Ins)
  | jmp (t : JumpTo)
  | jcc (c : Cond) (t : JumpTo)
  /-- `label:`. -/
  | here (l : LocalLabel)
  deriving Repr, DecidableEq

/-! ## §2. Running. -/

/-- Registers, stack and flags. -/
structure Cpu where
  regs : Reg → Value
  stack : List Slot
  flags : Option Flags

namespace Cpu

/-- Write a register. -/
def set (c : Cpu) (d : Reg) (w : Value) : Cpu :=
  { c with regs := fun r => if r = d then w else c.regs r }

/-- The flags are no longer those of a comparison. -/
def noFlags (c : Cpu) : Cpu := { c with flags := none }

/-- The accumulator, the environment and the stack. -/
@[simp] def state (c : Cpu) : State := ⟨c.regs .accu, c.regs .env, c.stack⟩

@[simp] theorem regs_set (c : Cpu) (d r : Reg) (w : Value) :
    (c.set d w).regs r = if r = d then w else c.regs r := rfl

@[simp] theorem stack_set (c : Cpu) (d : Reg) (w : Value) : (c.set d w).stack = c.stack := rfl

@[simp] theorem flags_set (c : Cpu) (d : Reg) (w : Value) : (c.set d w).flags = c.flags := rfl

@[simp] theorem regs_noFlags (c : Cpu) : c.noFlags.regs = c.regs := rfl

@[simp] theorem stack_noFlags (c : Cpu) : c.noFlags.stack = c.stack := rfl

end Cpu

@[simp] theorem pick?_zero (a e v : Value) (rest : List Slot) :
    State.pick? ⟨a, e, .val v :: rest⟩ 0 = some v := rfl

/-- A word further down. -/
@[simp] theorem pick?_succ (a e : Value) (slot : Slot) (rest : List Slot) (n : Nat) :
    State.pick? ⟨a, e, slot :: rest⟩ (n + 1) = State.pick? ⟨a, e, rest⟩ n := rfl

/-- The value of an operand. -/
@[simp] def Operand.read (c : Cpu) : Operand → Option Value
  | .reg r => some (c.regs r)
  | .imm k => some (BitVec.ofInt 64 k)
  | .sp n => c.state.pick? n

/-- The address `[a]`. -/
@[simp] def Address.eval (c : Cpu) (a : Address) : Value :=
  c.regs a.base + (a.index.elim 0 fun (r, scale) => BitVec.ofNat 64 scale * c.regs r)
    + BitVec.ofInt 64 a.disp

@[simp] def Alu.eval : Alu → Value → Value → Value
  | .add, x, y => x + y
  | .sub, x, y => x - y
  | .and_, x, y => x &&& y
  | .or_, x, y => x ||| y
  | .xor, x, y => x ^^^ y
  | .imul, x, y => x * y

@[simp] def Shift.eval {w : Nat} : Shift → BitVec w → Nat → BitVec w
  | .shl, x, n => x <<< n
  | .shr, x, n => x >>> n
  | .sar, x, n => x.sshiftRight n

/-- The low bits of `cl` count. -/
@[simp] def Count.eval (c : Cpu) : Count → Nat
  | .one => 1
  | .cl => (c.regs .rcx).toNat % 64

section Run

variable {O : Oracle Request Value} (trash : Reg → Value)

/-- A call leaves something in the scratch registers. -/
def Cpu.afterCall (c : Cpu) (result : Value) : Cpu where
  regs
    | .rax => result
    | .accu => c.regs .accu
    | .env => c.regs .env
    | r => trash r
  stack := c.stack
  flags := none

/-- A call of a C function. -/
@[simp] def CFunction.run (c : Cpu) : CFunction → Act O Value
  | .camlModify => Act.perform (.camlModify (c.regs .rdi) (c.regs .rsi))
  | .camlRaiseZeroDivide => do
      let _ ← Act.perform .raiseZeroDivide
      Act.stuck
  | .fatalMessage => Act.stuck

/-- `idiv`: a quotient that does not fit is an error like a divisor 0. -/
def idivide (c : Cpu) (divisor : Value) : Act O Cpu :=
  let dividend := (c.regs .rdx ++ c.regs .rax).toInt
  let quotient := dividend.tdiv divisor.toInt
  if divisor = 0 ∨ quotient < -2 ^ 63 ∨ 2 ^ 63 ≤ quotient then Act.stuck
  else
    pure (((c.set .rax (BitVec.ofInt 64 quotient)).set .rdx
      (BitVec.ofInt 64 (dividend.tmod divisor.toInt))).noFlags)

/-- One machine instruction. -/
@[simp] def Ins.run (c : Cpu) : Ins → Act O Cpu
  | .mov d s => do pure (c.set d (← Act.ofOption (s.read c)))
  | .mov32 d s => do pure (c.set d (((← Act.ofOption (s.read c)).setWidth 32).setWidth 64))
  | .movsxd d s => pure (c.set d (((c.regs s).setWidth 32).signExtend 64))
  | .alu op d s => do pure (c.set d (op.eval (c.regs d) (← Act.ofOption (s.read c)))).noFlags
  | .shift op d count => pure (c.set d (op.eval (c.regs d) (count.eval c))).noFlags
  | .shift32 op d => pure (c.set d ((op.eval ((c.regs d).setWidth 32) 1).setWidth 64)).noFlags
  | .cqo => pure (c.set .rdx (if (c.regs .rax).msb then -1 else 0))
  | .idiv s => idivide c (c.regs s)
  | .cmp x y => do
      pure { c with flags := some (cmpFlags (c.regs x) (← Act.ofOption (y.read c))) }
  | .cmpAl k =>
      pure { c with flags := some (cmpFlags ((c.regs .rax).setWidth 8) (BitVec.ofInt 8 k)) }
  | .cmov cond d s => do
      pure (if cond.holds (← Act.ofOption c.flags) then c.set d (c.regs s) else c)
  | .load d a => do pure (c.set d (← Act.perform (.load (a.eval c))))
  | .load8 d a => do
      pure (c.set d (((← Act.perform (.load8 (a.eval c))).setWidth 8).setWidth 64))
  | .store8 a s => do
      let _ ← Act.perform (.store8 (a.eval c) ((c.regs s).setWidth 8))
      pure c
  | .addMem a s => do
      let old ← Act.perform (.load (a.eval c))
      let _ ← Act.perform (.store (a.eval c) (old + c.regs s))
      pure c.noFlags
  | .lea d a => pure (c.set d (a.eval c))
  | .addSp n =>
      if n ≤ c.stack.length then pure { c with stack := c.stack.drop n, flags := none }
      else Act.stuck
  | .setupForCCall =>
      -- `extern_sp` is of no interest here
      pure { (c.set .rax (trash .rax)) with
        stack := .val (c.regs .env) :: .frame :: c.stack, flags := none }
  | .call f => do pure (c.afterCall trash (← f.run c))

/-- Where the code of an instruction is left. -/
abbrev Exit := Target

/-- The lines in order.  With a label to be found, lines are skipped up to it. -/
@[simp] def runLines : Option LocalLabel → List Line → Cpu → Act O (Cpu × Exit)
  | none, [], c => pure (c, .next)
  | some _, [], _ => Act.stuck
  | none, .here _ :: code, c => runLines none code c
  | some l, .here l' :: code, c => runLines (if l = l' then none else some l) code c
  | some l, _ :: code, c => runLines (some l) code c
  | none, .ins i :: code, c => do runLines none code (← i.run trash c)
  | none, .jmp (.down l) :: code, c => runLines (some l) code c
  | none, .jmp (.label l) :: _, c => pure (c, .label l)
  | none, .jcc cond t :: code, c => do
      if cond.holds (← Act.ofOption c.flags) then
        match t with
        | .down l => runLines (some l) code c
        | .label l => pure (c, .label l)
      else runLines none code c

end Run

end OcamlJit.Baseline

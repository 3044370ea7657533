/-
  OcamlJit.Bytecode.Registers
  ───────────────────────────
  **THE REGISTERS OF THE BYTECODE INTERPRETER** (`runtime/interp.c`).

  `pc`, `sp`, `accu`, `env`, `extra_args` and `Caml_state->trapsp`, with the
  words of the stack from `sp` up to `stack_high`.  The words below `sp` have no
  value: the frames of collections, of C calls and of pending actions come and
  go there, so a case that reads them or moves `sp` down over them is stuck.
  A pointer into the stack is the number of words above it, which is what
  `caml_realloc_stack` keeps.
-/
import OcamlJit.Instructions.Opcode
import OcamlJit.Interp.Machine

namespace OcamlJit.Bytecode

open OcamlJit.Lib OcamlJit.Instructions OcamlJit.Interp

/-! ## §1. Registers. -/

/-- `code_t`: an offset in the array that runs, or an address read from memory. -/
inductive CodePtr where
  | here (offset : Int)
  | loaded (addr : Value)
  deriving Repr, DecidableEq

/-- A word of the stack: a `value`, or a `Trap_link`. -/
inductive StackWord where
  | val (v : Value)
  | link (trapsp : Nat)
  deriving Repr, DecidableEq

/-- The value in a word. -/
def StackWord.value? : StackWord → Option Value
  | .val v => some v
  | .link _ => none

/-- The stack pointer in a word. -/
def StackWord.link? : StackWord → Option Nat
  | .val _ => none
  | .link trapsp => some trapsp

/-- The registers; `stack` has `sp[0]` first. -/
structure Regs where
  pc : CodePtr
  accu : Value
  env : Value
  /-- `intnat extra_args`. -/
  extraArgs : BitVec 64
  stack : List StackWord
  trapsp : Nat
  deriving Repr, DecidableEq

/-- `sp[n]`. -/
def Regs.word? (r : Regs) (n : Int) : Option StackWord :=
  if 0 ≤ n then r.stack[n.toNat]? else none

/-- What a case asks for. -/
inductive Effect where
  /-- Memory, the allocator and the primitives. -/
  | request (e : Request)
  /-- `sp < Caml_state->stack_threshold` and `caml_realloc_stack`. -/
  | checkStack (depth : Nat)
  /-- `Check_trap_barrier`. -/
  | checkTrapBarrier (trapsp : Nat)
  /-- `Caml_state->backtrace_active`. -/
  | backtraceActive
  | stashBacktrace (exn : Value) (depth : Nat) (reraise : Bool)
  /-- `--caml_event_count`. -/
  | eventCount
  /-- `caml_debugger(EVENT_COUNT)` and `caml_debugger(BREAKPOINT)`. -/
  | debugger (breakpoint : Bool)
  deriving Repr, DecidableEq

/-- The constants of an activation of `caml_interprete`. -/
structure Image where
  /-- The address of the first word of the code. -/
  code : Value
  /-- `&caml_global_data`. -/
  globalData : Value
  /-- `&caml_something_to_do`. -/
  somethingToDo : Value
  /-- The table `caml_atom_table` points to. -/
  atomTable : Value
  /-- `initial_sp_offset`, in words. -/
  initialDepth : Nat

/-- The address of an offset. -/
def Image.codeAt (im : Image) (offset : Int) : Value := im.code + 4 * BitVec.ofInt 64 offset

/-- `Atom(tag)`. -/
def Image.atom (im : Image) (tag : BitVec 64) : Value := im.atomTable + 8 * tag + 8

/-- `(value) pc`. -/
def Image.valueOf (im : Image) : CodePtr → Value
  | .here offset => im.codeAt offset
  | .loaded addr => addr

/-- How a case ends. -/
inductive Next where
  /-- `Next`: the opcode at `pc` is fetched. -/
  | fetch
  /-- `Restart_curr_instr`: the instruction the debugger saved is dispatched. -/
  | restart
  /-- `return accu`. -/
  | returned (v : Value)
  /-- `return Make_exception_result(accu)`. -/
  | exceptionResult (v : Value)
  deriving Repr, DecidableEq

/-! ## §2. Steps. -/

/-- Steps of the interpreter. -/
abbrev Exec (O : Oracle Effect Value) := StateT Regs (Act O)

namespace Exec

variable {O : Oracle Effect Value}

/-- A register. -/
def reg {α : Type} (f : Regs → α) : Exec O α := fun r => pure (f r, r)

/-- An assignment. -/
def update (f : Regs → Regs) : Exec O Unit := fun r => pure ((), f r)

/-- What the registers must have. -/
def demand {α : Type} (f : Regs → Option α) : Exec O α := fun r => do
  let a ← Act.ofOption (f r)
  pure (a, r)

/-- No meaning unless `b`. -/
def require (b : Bool) : Exec O Unit := demand fun _ => if b then some () else none

/-- No meaning. -/
def stuck {α : Type} : Exec O α := fun _ => Act.stuck

/-- An effect. -/
def perform (e : Effect) : Exec O Value := fun r => do
  let v ← Act.perform e
  pure (v, r)

/-- A request to the memory, the allocator or a primitive. -/
def ask (e : Request) : Exec O Value := perform (.request e)

/-- `sp[n]`, whatever it is. -/
def word (n : Int) : Exec O StackWord := demand fun r => r.word? n

/-- `sp[n]` as a value. -/
def value (n : Int) : Exec O Value := demand fun r => r.word? n >>= StackWord.value?

/-- `sp[n]` as a stack pointer. -/
def link (n : Int) : Exec O Nat := demand fun r => r.word? n >>= StackWord.link?

/-- `sp[n] = w`. -/
def setWord (n : Int) (w : StackWord) : Exec O Unit := do
  let stack ← demand fun r =>
    if 0 ≤ n ∧ n.toNat < r.stack.length then some (r.stack.set n.toNat w) else none
  update fun r => { r with stack := stack }

/-- `sp += n`. -/
def moveSp (n : Int) : Exec O Unit := do
  let stack ← demand fun r =>
    if 0 ≤ n ∧ n.toNat ≤ r.stack.length then some (r.stack.drop n.toNat) else none
  update fun r => { r with stack := stack }

/-- `*--sp = w`; several words are pushed from the last to the first, so that
the first is `sp[0]`. -/
def pushWords (ws : List StackWord) : Exec O Unit :=
  update fun r => { r with stack := ws ++ r.stack }

/-- `*--sp = v`. -/
def push (v : Value) : Exec O Unit := pushWords [.val v]

/-- `accu = v`. -/
def setAccu (v : Value) : Exec O Unit := update fun r => { r with accu := v }

/-- `env = v`. -/
def setEnv (v : Value) : Exec O Unit := update fun r => { r with env := v }

/-- `extra_args = n`. -/
def setExtraArgs (n : BitVec 64) : Exec O Unit := update fun r => { r with extraArgs := n }

/-- `pc = p`. -/
def setPc (p : CodePtr) : Exec O Unit := update fun r => { r with pc := p }

/-- `Caml_state->trapsp = d`. -/
def setTrapsp (d : Nat) : Exec O Unit := update fun r => { r with trapsp := d }

end Exec

end OcamlJit.Bytecode

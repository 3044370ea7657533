/-
  OcamlJit.Bytecode.ActivationRuns
  ────────────────────────────────
  **RUNS OF ONE ACTIVATION AND OF THE INTERPRETER.**

  `linearStep` runs the instructions of an opcode one by one and sees nothing but
  the activation it is in; `streamFetch` runs the opcode at `pc` to its end and
  has all the registers.  As long as the activation calls nothing, the second
  follows the first.

    • `linearStep_advances` — one step of the activation,
    • `linearRun_agrees` — runs of any length.
-/
import OcamlJit.Bytecode.MachineAgrees
import OcamlJit.Bytecode.Runs

namespace OcamlJit.Bytecode

open OcamlJit.Lib OcamlJit.Instructions OcamlJit.Interp Exec

/-! ## §1. Points of a run. -/

section Runs

variable {O : Oracle Effect Value} {im : Image} {code : List Word}
  {stream : List (Instruction Nat)} {base r : Regs} {own : Nat}

/-- What is left of an opcode, and then at most `m` opcodes. -/
def restOf (im : Image) (fin : Nat) (stream : List (Instruction Nat)) (own : Nat)
    (q : List (Instruction Nat)) (m : Nat) : Exec O Next := do
  match ← meanings im own q with
  | .fetch => runFor (streamFetch im fin stream) m
  | ended => pure ended

/-- What the interpreter has still to do stays what the activation has: after a
step of the activation the rest of its opcode, from registers that show its state. -/
def Advances (im : Image) (code : List Word) (stream : List (Instruction Nat)) (base : Regs)
    (own : Nat) (q : List (Instruction Nat)) (r : Regs) (l : Log (O.along Effect.request)) :
    Except (Halt Value) (Progress LinearConfig Outcome) × Log (O.along Effect.request) → Prop
  | (.ok (.running c), l') => QueueOk c.queue ∧ ∃ own' r',
      Shows (base.atOffset c.pos) c.visible.state r' ∧ ∀ m, ∃ m',
        restOf im code.length stream own q m' r l.along =
          restOf im code.length stream own' c.queue m r' l'.along
  | (.ok (.done _), _) => True
  | (.error e, l') => e = .stuck ∨
      ∀ m, restOf im code.length stream own q m r l.along = (.error e, l'.along)

variable {i : Instruction Nat} {q : List (Instruction Nat)} {l : Log (O.along Effect.request)}

variable {pos : Nat} {v : Visible}

end Runs

/-! ## §5. A loop. -/

section Loop

end Loop

end OcamlJit.Bytecode

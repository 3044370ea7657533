/-
  OcamlJit.Cranelift.Reference
  ────────────────────────────
  **RUNNING BASIC BLOCKS ON WHAT THE OCAML COMPILER EMITS.**

  The blocks with the meaning of `interp.c`, one whole block a step, to be
  compared with the IR.  A run is only given a meaning as long as its operands
  are ones the OCaml compiler produces (`operandsOk`, `exitOperandsOk`).

  After a `ClosureRec` the IR leaves the accumulator as it was.  `Stale` are the
  points the control flow can reach from there without writing it.
-/
import OcamlJit.BasicBlocks.Machine
import OcamlJit.Cranelift.Ir

namespace OcamlJit.Cranelift

open OcamlJit.Lib OcamlJit.Instructions OcamlJit.Interp OcamlJit.BasicBlocks

/-! ## §1. Operands. -/

/-- An immediate of the OCaml compiler is in `[-2^30, 2^30)`. -/
def immediateOk (n : Int) : Bool := decide (-2 ^ 30 ≤ n ∧ n < 2 ^ 30)

/-- The numbers in an instruction. -/
def immediates : BasicBlockInstruction → List Int
  | .acc n | .envAcc n | .pop n | .assign n | .apply n | .closure _ n | .makeFloatBlock n
  | .getGlobal n | .setGlobal n | .getField n | .setField n | .getFloatField n
  | .setFloatField n | .cCallN n _ => [n]
  | .closureRec ls n => [ls.length, n]
  | .makeBlock size tag => [size, tag]
  | .offsetClosure n | .offsetRef n | .const n | .offsetInt n | .setupForPubMet n => [n]
  | _ => []

/-- The numbers in an exit. -/
def exitImmediates : BasicBlockExit → List Int
  | .branchCmp _ n _ _ => [n]
  | .switch ints tags => [ints.length, tags.length]
  | .return_ n => [n]
  | .tailCall args n => [args, n]
  | _ => []

/-- `Is_long`. -/
def isLong (v : Value) : Bool := v &&& 1 == 1

/-- There is an integer in `sp[n]`. -/
def longAt (s : State) (n : Nat) : Bool := ((s.pick? n).map isLong).getD true

/-- The operands of an instruction are ones the OCaml compiler produces. -/
def operandsOk (i : BasicBlockInstruction) (s : State) : Bool :=
  (immediates i).all immediateOk && match i with
    | .boolNot => s.accu == valFalse || s.accu == valTrue
    | .arithInt .div | .arithInt .mod => longAt s 0
    | .getVecTItem | .setVecTItem => longAt s 0
    -- an infix offset is a 32-bit number of bytes
    | .closureRec ls _ => decide (ls.length ≤ 2 ^ 27)
    | _ => true

/-- The operands of an exit are. -/
def exitOperandsOk (x : BasicBlockExit) (s : State) : Bool :=
  (exitImmediates x).all immediateOk && match x with
    -- an address is not twice a constant it is compared with
    | .branchCmp _ n _ _ => isLong s.accu || longVal s.accu != BitVec.ofInt 64 n
    -- a block comes only where there is a table of tags
    | .switch _ tags => isLong s.accu || tags != []
    | .tailCall args _ => decide (0 < args)
    | _ => true

/-! ## §2. Running whole blocks. -/

/-- The end of a closure's code as the IR reports it. -/
def outcomeResult : Outcome → Option Result
  | .returned v _ => some (.returned v)
  | .tailCall f args _ => some (.tailCall f args)
  | .raised _ v => some (.raised v)
  | .stopped _ _ => none

/-- A block about to run. -/
structure BlockPoint where
  block : Nat
  state : State

section Run

variable {O : Oracle Request Value} (rt : Layout)

/-- The instructions of a block in order. -/
def runInstructions : List BasicBlockInstruction → State → Act O State
  | [], s => pure s
  | i :: is, s => do
      Act.require (operandsOk i s)
      runInstructions is (← blockMeaning rt i s)

/-- The exit of a block. -/
def runExit (x : BasicBlockExit) (s : State) : Act O (Nat ⊕ Result) := do
  match ← exitMeaning x s with
  | .inl j => pure (.inl j)
  | .inr o => do pure (.inr (← Act.ofOption (outcomeResult o)))

/-- One step: a whole block. -/
def referenceStep (c : BasicClosure) (p : BlockPoint) : Act O (Progress BlockPoint Result) := do
  let b ← Act.ofOption c.blocks[p.block]?
  let s ← runInstructions rt b.instructions p.state
  Act.require (exitOperandsOk b.exit s)
  match ← runExit b.exit s with
  | .inl j => pure (.running ⟨j, s⟩)
  | .inr r => pure (.done r)

/-- A closure is entered in block 0, on a stack of its arguments. -/
def BlockPoint.enter (accu env : Value) (args : List Value) : BlockPoint :=
  ⟨0, ⟨accu, env, args.map .val⟩⟩

end Run

/-! ## §3. The stale accumulator. -/

/-- The instruction reads the accumulator. -/
def readsAccu : BasicBlockInstruction → Bool
  | .acc _ | .envAcc _ | .pop _ | .pushRetAddr | .offsetClosure _ | .getGlobal _ | .const _
  | .checkSignals | .popTrap => false
  | .closure _ nvars | .closureRec _ nvars => decide (0 < nvars)
  | .makeBlock size _ => decide (size ≠ 0)
  | _ => true

/-- The instruction leaves the accumulator alone. -/
def keepsAccu : BasicBlockInstruction → Bool
  | .push | .pop _ | .pushRetAddr | .checkSignals | .popTrap => true
  | _ => false

/-- The exit reads the accumulator. -/
def exitReadsAccu : BasicBlockExit → Bool
  | .branch _ | .pushTrap _ _ => false
  | _ => true

/-- In front of `rest` in block `i`, the accumulator may be the one a
`ClosureRec` left, or, if `atEntry`, the one the closure was entered with. -/
inductive Stale (c : BasicClosure) (atEntry : Prop) :
    Nat → List BasicBlockInstruction → Prop where
  | entry {b : BasicBlock} (h : atEntry) (hb : c.blocks[0]? = some b) :
      Stale c atEntry 0 b.instructions
  | closureRec {i : Nat} {b : BasicBlock} {pre rest : List BasicBlockInstruction}
      {ls : List Nat} {nvars : Nat} (hb : c.blocks[i]? = some b)
      (his : b.instructions = pre ++ .closureRec ls nvars :: rest) :
      Stale c atEntry i rest
  | keep {i : Nat} {instr : BasicBlockInstruction} {rest : List BasicBlockInstruction}
      (h : Stale c atEntry i (instr :: rest)) (hkeep : keepsAccu instr = true) :
      Stale c atEntry i rest
  | jump {i j : Nat} {b b' : BasicBlock} (h : Stale c atEntry i [])
      (hb : c.blocks[i]? = some b) (hj : j ∈ b.exit.targets) (hb' : c.blocks[j]? = some b') :
      Stale c atEntry j b'.instructions

/-- A stale accumulator is overwritten before it is read. -/
structure StaleOverwritten (c : BasicClosure) (atEntry : Prop) : Prop where
  instructions : ∀ (i : Nat) (instr : BasicBlockInstruction) (rest : List BasicBlockInstruction),
    Stale c atEntry i (instr :: rest) → readsAccu instr = false
  exits : ∀ (i : Nat) (b : BasicBlock), c.blocks[i]? = some b → Stale c atEntry i [] →
    exitReadsAccu b.exit = false

/-- Without a `ClosureRec` only the accumulator at the entry can be stale. -/
theorem staleOverwritten_of_no_closureRec {c : BasicClosure} {atEntry : Prop}
    (hentry : ¬ atEntry)
    (hrec : ∀ b ∈ c.blocks, ∀ ls nvars, .closureRec ls nvars ∉ b.instructions) :
    StaleOverwritten c atEntry := by
  have hnone : ∀ i rest, ¬ Stale c atEntry i rest := by
    intro i rest h
    induction h with
    | entry h _ => exact hentry h
    | @closureRec _ b pre rest ls nvars hb his =>
        refine hrec b (List.mem_of_getElem? hb) ls nvars ?_
        rw [his]
        exact List.mem_append_right _ (List.mem_cons_self ..)
    | keep _ _ ih => exact ih
    | jump _ _ _ _ ih => exact ih
  exact ⟨fun i _ _ h => (hnone i _ h).elim, fun i _ _ h => (hnone i _ h).elim⟩

end OcamlJit.Cranelift

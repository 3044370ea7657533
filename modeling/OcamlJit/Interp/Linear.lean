/-
  OcamlJit.Interp.Linear
  ──────────────────────
  **RUNNING THE DECODED STREAM.**

  The program counter is the instructions of the current opcode still to run
  and the offset after it, as in the iterator.  `RESTART`, `GRAB`, `EVENT` and
  `BREAK` do nothing, an application comes back to the next instruction, and
  there are no trap handlers.  The history has the accumulator and the stack
  after every instruction that is not one of these or a plain jump.
-/
import OcamlJit.Instructions.Decode
import OcamlJit.Interp.Machine
import OcamlJit.Lib.Transition

namespace OcamlJit.Interp

open OcamlJit.Lib OcamlJit.Instructions

/-- The accumulator and the stack after an instruction. -/
structure Snapshot where
  accu : Value
  stack : List Slot
  deriving Repr, DecidableEq

/-- What is seen of a machine. -/
structure Visible where
  state : State
  history : List Snapshot
  deriving Repr, DecidableEq

/-- The state after an instruction, noted in the history. -/
def Visible.after (v : Visible) (s : State) : Visible :=
  ⟨s, v.history ++ [⟨s.accu, s.stack⟩]⟩

/-- A point of the stream and what is seen there. -/
structure LinearConfig where
  queue : List (Instruction Nat)
  pos : Nat
  visible : Visible
  deriving Repr

section Linear

variable {O : Oracle Request Value} (rt : Layout)

/-- The instructions that do nothing here. -/
def isSilent : Instruction Nat → Bool
  | .labelDef _ | .restart | .grab _ | .break_ | .event => true
  | _ => false

/-- The meaning of an instruction inside the stream.  Jumps and ends are the
business of `linearStep`. -/
def instrMeaning : Instruction Nat → State → Act O State
  | .acc n => doAcc n
  | .envAcc n => doEnvAcc n
  | .push => doPush
  | .pop n => doPop n
  | .assign n => doAssign n
  | .pushRetAddr _ => doPushRetAddr
  | .apply1 => doApply 1 0
  | .apply2 => doApply 2 0
  | .apply3 => doApply 3 0
  | .apply nargs => doApply nargs 3
  | .closure l nvars => doClosure rt l nvars
  | .closureRec ls nvars => doClosureRec rt ls nvars
  | .offsetClosure n => doOffsetClosure n
  | .getGlobal n => doGetGlobal rt n
  | .setGlobal n => doSetGlobal rt n
  | .const n => doConst n
  | .makeBlock size tag => doMakeBlock rt size tag
  | .makeFloatBlock size => doMakeFloatBlock size
  | .getField n => doGetField n
  | .setField n => doSetField n
  | .getFloatField n => doGetFloatField n
  | .setFloatField n => doSetFloatField n
  | .vecTLength => doVecTLength
  | .getVecTItem => doGetVecTItem
  | .setVecTItem => doSetVecTItem
  | .getBytesChar => doGetBytesChar
  | .setBytesChar => doSetBytesChar
  | .boolNot => doBoolNot
  | .checkSignals => doCheckSignals rt
  | .cCall1 id => doCCall id 0
  | .cCall2 id => doCCall id 1
  | .cCall3 id => doCCall id 2
  | .cCall4 id => doCCall id 3
  | .cCall5 id => doCCall id 4
  | .cCallN nargs id => doCCall id (nargs - 1)
  | .arithInt op => doArithInt op
  | .negInt => doNegInt
  | .intCmp cmp => doIntCmp cmp
  | .offsetInt n => doOffsetInt n
  | .offsetRef n => doOffsetRef n
  | .isInt => doIsInt
  | .getMethod => doGetMethod
  | .getDynMet => doGetDynMet
  | _ => fun _ => Act.stuck

/-- Where a control instruction goes: a label, or the next instruction. -/
inductive Target where
  | label (l : Nat)
  | next
  deriving Repr, DecidableEq

/-- The offset of a target, `pos` being that of the next instruction. -/
def Target.offset (pos : Nat) : Target → Nat
  | .label l => l
  | .next => pos

/-- The control instructions: a target, or the end of the closure's code. -/
def controlMeaning : Instruction Nat → State → Act O (Target ⊕ Outcome)
  | .branch l, _ => pure (.inl (.label l))
  | .branchIf l, s => pure (.inl (if branchTaken s then .label l else .next))
  | .branchIfNot l, s => pure (.inl (if branchTaken s then .next else .label l))
  | .branchCmp cmp n l, s => pure (.inl (if cmpTaken cmp n s then .label l else .next))
  | .switch ints tags, s => do pure (.inl (.label (← switchTarget ints tags s)))
  | .applyTerm nargs slotSize, s => do pure (.inr (← doTailCall nargs slotSize s))
  | .return_ toPop, s => do pure (.inr (← doReturn toPop s))
  | .raise kind, s => pure (.inr (.raised kind s.accu))
  | .stop, s => pure (.inr (.stopped s.accu s.stack))
  | _, _ => Act.stuck

/-- A plain jump is not noted in the history. -/
def isJump : Instruction Nat → Bool
  | .branch _ => true
  | _ => false

/-- One step along the stream. -/
def linearStep (code : List Word) (c : LinearConfig) :
    Act O (Progress LinearConfig Outcome) :=
  match c.queue with
  | [] =>
      match decodeAt code c.pos with
      | .ok (is, pos') => pure (.running { c with queue := is, pos := pos' })
      | .error _ => Act.stuck
  | i :: q =>
      if isSilent i then pure (.running { c with queue := q })
      else if i.isControl then do
        match ← controlMeaning i c.visible.state with
        | .inr o => pure (.done o)
        | .inl t =>
            let visible := if isJump i then c.visible else c.visible.after c.visible.state
            match t with
            | .label l => pure (.running ⟨[], l, visible⟩)
            | .next => pure (.running ⟨q, c.pos, visible⟩)
      else match i with
        | .setupForPubMet n => do
            -- `*--sp = accu; accu = Val_int(*pc)`
            let s ← doPush c.visible.state
            pure (.running ⟨.const n :: q, c.pos, c.visible.after s⟩)
        | i => do
            let s ← instrMeaning rt i c.visible.state
            pure (.running ⟨q, c.pos, c.visible.after s⟩)

theorem isSilent_of_isControl {i : Instruction Nat} (h : i.isControl = true) :
    isSilent i = false := by
  cases i <;> first | rfl | cases h

variable {code : List Word} {i : Instruction Nat} {is q : List (Instruction Nat)}
  {pos pos' : Nat} {v : Visible}

/-- The next opcode is decoded. -/
theorem linearStep_fetch (hd : decodeAt code pos = .ok (is, pos')) :
    (linearStep rt code ⟨[], pos, v⟩ : Act O (Progress LinearConfig Outcome)) =
      pure (.running ⟨is, pos', v⟩) := by
  simp only [linearStep, hd]

/-- A step of the stream at an instruction that goes on to the next one. -/
theorem linearStep_instr (hloud : isSilent i = false) (hstay : i.isControl = false)
    (hsetup : ∀ n, i ≠ .setupForPubMet n) :
    (linearStep rt code ⟨i :: q, pos, v⟩ : Act O (Progress LinearConfig Outcome)) =
      instrMeaning rt i v.state >>= fun s => pure (.running ⟨q, pos, v.after s⟩) := by
  simp only [linearStep, hloud, hstay, Bool.false_eq_true, if_false]

/-- A step of the stream at a control instruction. -/
theorem linearStep_control (hctl : i.isControl = true) :
    (linearStep rt code ⟨[i], pos, v⟩ : Act O (Progress LinearConfig Outcome)) =
      controlMeaning i v.state >>= fun r => match r with
        | .inr o => pure (.done o)
        | .inl t => pure (.running ⟨[], t.offset pos,
            if isJump i then v else v.after v.state⟩) := by
  have hloud : isSilent i = false := isSilent_of_isControl hctl
  simp only [linearStep, hloud, hctl, Bool.false_eq_true, if_false, if_true]
  congr 1
  funext r
  rcases r with (_ | _) | _ <;> rfl

/-- The run of a closure's code from its entry offset. -/
def LinearConfig.start (entry : Nat) (s : State) : LinearConfig := ⟨[], entry, ⟨s, []⟩⟩

end Linear

end OcamlJit.Interp

/-
  OcamlJit.Instructions.Types
  ───────────────────────────
  The simplified instruction set the decoder produces.  One opcode of the
  bytecode stands for one to three of these (`PUSHACC` is `push, acc`), and
  every opcode is preceded by a `labelDef` with its word offset.
-/
import Mathlib.Data.List.Basic

namespace OcamlJit.Instructions

/-- `enum ArithOp`. -/
inductive ArithOp where
  | add | sub | mul | div | mod | and | or | xor | lsl | lsr | asr
  deriving Repr, DecidableEq

/-- `enum RaiseKind`. -/
inductive RaiseKind where
  | regular | reRaise | noTrace
  deriving Repr, DecidableEq

/-- `enum Comp`. -/
inductive Comp where
  | eq | ne | lt | le | gt | ge | uLt | uGe
  deriving Repr, DecidableEq

/-- `enum Instruction<L>`, generic in the type of labels. -/
inductive Instruction (L : Type) where
  | labelDef (l : L)
  | acc (n : Nat)
  | envAcc (n : Nat)
  | push
  | pop (n : Nat)
  | assign (n : Nat)
  | pushRetAddr (l : L)
  | apply1
  | apply2
  | apply3
  | apply (nargs : Nat)
  | applyTerm (nargs slotSize : Nat)
  | return_ (toPop : Nat)
  | restart
  | grab (n : Nat)
  | closure (l : L) (nvars : Nat)
  | closureRec (ls : List L) (nvars : Nat)
  | offsetClosure (n : Int)
  | getGlobal (n : Nat)
  | setGlobal (n : Nat)
  | const (n : Int)
  /-- `makeBlock 0 tag` stands for `ATOM`. -/
  | makeBlock (size tag : Nat)
  | makeFloatBlock (size : Nat)
  | getField (n : Nat)
  | setField (n : Nat)
  | getFloatField (n : Nat)
  | setFloatField (n : Nat)
  | vecTLength
  | getVecTItem
  | setVecTItem
  | getBytesChar
  | setBytesChar
  | branch (l : L)
  | branchIf (l : L)
  | branchIfNot (l : L)
  | switch (ints tags : List L)
  | boolNot
  | pushTrap (l : L)
  | popTrap
  | raise (kind : RaiseKind)
  | checkSignals
  | cCall1 (id : Nat)
  | cCall2 (id : Nat)
  | cCall3 (id : Nat)
  | cCall4 (id : Nat)
  | cCall5 (id : Nat)
  /-- The two operand words in stream order; the interpreter reads the first
  as the argument count. -/
  | cCallN (fst snd : Nat)
  | arithInt (op : ArithOp)
  | negInt
  | intCmp (cmp : Comp)
  | branchCmp (cmp : Comp) (n : Int) (l : L)
  | offsetInt (n : Int)
  | offsetRef (n : Int)
  | isInt
  | getMethod
  | setupForPubMet (tag : Int)
  | getDynMet
  | stop
  | break_
  | event
  deriving Repr, DecidableEq

namespace Instruction

variable {L : Type}

/-- The labels `visit_labels` calls its visitor on, in order. -/
def visitLabels : Instruction L → List L
  | .labelDef l | .pushRetAddr l | .closure l _ | .branch l | .branchIf l
  | .branchIfNot l | .branchCmp _ _ l | .pushTrap l => [l]
  | .closureRec ls _ => ls
  | .switch l1s l2s => l1s ++ l2s
  | _ => []

/-- The labels of the functions an instruction allocates closures for. -/
def closureLabels : Instruction L → List L
  | .closure l _ => [l]
  | .closureRec ls _ => ls
  | _ => []

/-- What an instruction adds to the closures of a program: the targets and
the number of captured variables. -/
def foundClosure : Instruction L → List (List L × Nat)
  | .closure l nvars => [([l], nvars)]
  | .closureRec ls nvars => [(ls, nvars)]
  | _ => []

/-- `map_labels`, for a function that can fail: the labels in order. -/
def mapLabelsM {L' : Type} {m : Type → Type} [Monad m] (f : L → m L') :
    Instruction L → m (Instruction L')
  | .labelDef l => do pure (.labelDef (← f l))
  | .pushRetAddr l => do pure (.pushRetAddr (← f l))
  | .closure l nvars => do pure (.closure (← f l) nvars)
  | .closureRec ls nvars => do pure (.closureRec (← ls.mapM f) nvars)
  | .branch l => do pure (.branch (← f l))
  | .branchIf l => do pure (.branchIf (← f l))
  | .branchIfNot l => do pure (.branchIfNot (← f l))
  | .branchCmp cmp n l => do pure (.branchCmp cmp n (← f l))
  | .switch ints tags => do pure (.switch (← ints.mapM f) (← tags.mapM f))
  | .pushTrap l => do pure (.pushTrap (← f l))
  | .acc n => pure (.acc n)
  | .envAcc n => pure (.envAcc n)
  | .push => pure .push
  | .pop n => pure (.pop n)
  | .assign n => pure (.assign n)
  | .apply1 => pure .apply1
  | .apply2 => pure .apply2
  | .apply3 => pure .apply3
  | .apply nargs => pure (.apply nargs)
  | .applyTerm nargs slotSize => pure (.applyTerm nargs slotSize)
  | .return_ toPop => pure (.return_ toPop)
  | .restart => pure .restart
  | .grab n => pure (.grab n)
  | .offsetClosure n => pure (.offsetClosure n)
  | .getGlobal n => pure (.getGlobal n)
  | .setGlobal n => pure (.setGlobal n)
  | .const n => pure (.const n)
  | .makeBlock size tag => pure (.makeBlock size tag)
  | .makeFloatBlock size => pure (.makeFloatBlock size)
  | .getField n => pure (.getField n)
  | .setField n => pure (.setField n)
  | .getFloatField n => pure (.getFloatField n)
  | .setFloatField n => pure (.setFloatField n)
  | .vecTLength => pure .vecTLength
  | .getVecTItem => pure .getVecTItem
  | .setVecTItem => pure .setVecTItem
  | .getBytesChar => pure .getBytesChar
  | .setBytesChar => pure .setBytesChar
  | .boolNot => pure .boolNot
  | .popTrap => pure .popTrap
  | .raise kind => pure (.raise kind)
  | .checkSignals => pure .checkSignals
  | .cCall1 id => pure (.cCall1 id)
  | .cCall2 id => pure (.cCall2 id)
  | .cCall3 id => pure (.cCall3 id)
  | .cCall4 id => pure (.cCall4 id)
  | .cCall5 id => pure (.cCall5 id)
  | .cCallN fst snd => pure (.cCallN fst snd)
  | .arithInt op => pure (.arithInt op)
  | .negInt => pure .negInt
  | .intCmp cmp => pure (.intCmp cmp)
  | .offsetInt n => pure (.offsetInt n)
  | .offsetRef n => pure (.offsetRef n)
  | .isInt => pure .isInt
  | .getMethod => pure .getMethod
  | .setupForPubMet tag => pure (.setupForPubMet tag)
  | .getDynMet => pure .getDynMet
  | .stop => pure .stop
  | .break_ => pure .break_
  | .event => pure .event

/-- `map_labels` for a plain function. -/
def mapLabels {L' : Type} (f : L → L') (i : Instruction L) : Instruction L' :=
  (i.mapLabelsM (m := Id) f : Id (Instruction L'))

/-- Instructions after which control may go elsewhere than to the next one
(calls come back). -/
def isControl : Instruction L → Bool
  | .applyTerm _ _ | .return_ _ | .branch _ | .branchIf _ | .branchIfNot _
  | .branchCmp _ _ _ | .switch _ _ | .pushTrap _ | .raise _ | .stop => true
  | _ => false

end Instruction

end OcamlJit.Instructions

/-
  OcamlJit.CleverDis.Ssa
  ──────────────────────
  **BLOCKS IN SSA FORM AND THE SYMBOLIC STACK** (`clever_dis/ssa/data.rs`,
  `clever_dis/ssa/stack_state.rs`).

  `SSAStackState` is the accumulator and the stack as variables.  It starts
  empty and takes up words of the stack the block started with when they are
  read.  `slot` reads through that: the stack as one infinite list.
-/
import OcamlJit.Lib.Rust
import OcamlJit.Instructions.Types

namespace OcamlJit.CleverDis.Ssa

open OcamlJit.Lib OcamlJit.Instructions

/-! ## §1. Data. -/

/-- `enum SSASubstitutionTarget`. -/
inductive SSASubstitutionTarget where
  | acc
  | stack (i : Nat)
  deriving Repr, DecidableEq

/-- `enum SSAVar`. -/
inductive SSAVar where
  | prev (target : SSASubstitutionTarget)
  | arg (i : Nat)
  | env (i : Nat)
  | computed (block i : Nat)
  | offsetClosure (i : Int)
  | const (n : Int)
  | unit
  | atom (tag : Nat)
  /-- Traps and such like. -/
  | special
  | junk
  | trapAcc
  deriving Repr, DecidableEq

/-- `enum UnaryOp`. -/
inductive UnaryOp where
  | neg | boolNot | isInt
  deriving Repr, DecidableEq

/-- `enum SSAExpr`. -/
inductive SSAExpr where
  | apply (f : SSAVar) (args : List SSAVar)
  | getGlobal (n : Nat)
  | getField (block i : SSAVar)
  | getFloatField (block : SSAVar) (i : Nat)
  | getBytesChar (bytes i : SSAVar)
  | getVecTLength (v : SSAVar)
  | arithInt (op : ArithOp) (a b : SSAVar)
  | unaryOp (op : UnaryOp) (v : SSAVar)
  | intCmp (cmp : Comp) (a b : SSAVar)
  | makeBlock (tag : Nat) (vars : List SSAVar)
  | makeFloatBlock (vars : List SSAVar)
  | closure (code : Nat) (vars : List SSAVar)
  | closureRec (codes : List Nat) (vars : List SSAVar)
  | closureRecInfix (closureRec : SSAVar) (i : Nat)
  | cCall (primitiveId : Nat) (vars : List SSAVar)
  | getMethod (obj lab : SSAVar)
  | getDynMet (tag object : SSAVar)
  /-- The options by predecessor. -/
  | phi (options : List (Nat × SSAVar))
  deriving Repr, DecidableEq

/-- `enum SSAStatement`. -/
inductive SSAStatement where
  | assign (block i : Nat) (e : SSAExpr)
  | popTrap
  | checkSignals
  | grab (nargs : Nat)
  | setGlobal (n : Nat) (v : SSAVar)
  | setField (block i v : SSAVar)
  | setFloatField (block : SSAVar) (i : Nat) (v : SSAVar)
  | setBytesChar (bytes i v : SSAVar)
  deriving Repr, DecidableEq

/-- `enum SSAExit`. -/
inductive SSAExit where
  | stop (v : SSAVar)
  | jump (target : Nat)
  | jumpIf (v : SSAVar) (ifTrue ifFalse : Nat)
  | switch (v : SSAVar) (ints blocks : List Nat)
  | tailApply (f : SSAVar) (args : List SSAVar)
  | pushTrap (normal trap : Nat)
  | raise (kind : RaiseKind) (v : SSAVar)
  | return_ (v : SSAVar)
  deriving Repr, DecidableEq

/-- `struct SSAStackState`.  The stack is top first, and lies on the stack at the
start of the block from its word `stackStart` on. -/
structure SSAStackState where
  stack : List SSAVar
  accu : SSAVar
  stackStart : Nat
  usedPrev : List SSASubstitutionTarget
  deriving Repr, DecidableEq

/-- `struct SSABlock`. -/
structure SSABlock where
  statements : List SSAStatement
  exit : SSAExit
  finalState : SSAStackState
  deriving Repr, DecidableEq

/-! ## §2. The symbolic stack. -/

namespace SSAStackState

/-- `SSAStackState::new`. -/
def new : SSAStackState := ⟨[], .prev .acc, 0, []⟩

/-- `ensure_capacity_for`: the words of the starting stack down to the word at
`index` are taken up. -/
def ensureCapacityFor (index : Nat) (st : SSAStackState) : SSAStackState :=
  if st.stack.length ≤ index then
    let todo := index - st.stack.length + 1
    let stackStart := st.stackStart + todo
    -- the loop makes the words bottom first
    let tmpStack := (List.range todo).map fun i => SSAVar.prev (.stack (stackStart - i - 1))
    { st with stack := st.stack ++ tmpStack.reverse, stackStart := stackStart }
  else st

/-- `used_prev.insert(t)` if `v` is `Prev(t)`. -/
def noteUse (v : SSAVar) (st : SSAStackState) : SSAStackState :=
  match v with
  | .prev t => { st with usedPrev := st.usedPrev.insert t }
  | _ => st

/-- `get_subst`; the word at `i` is there once there is capacity for it. -/
def getSubst (t : SSASubstitutionTarget) (st : SSAStackState) : SSAVar × SSAStackState :=
  match t with
  | .stack i =>
      let st := st.ensureCapacityFor i
      let v := st.stack[i]?.getD .junk
      (v, st.noteUse v)
  | .acc => (st.accu, st.noteUse st.accu)

/-- `set_accu`. -/
def setAccu (v : SSAVar) (st : SSAStackState) : SSAStackState := { st with accu := v }

/-- `pop`. -/
def pop (count : Nat) (st : SSAStackState) : SSAStackState :=
  let toKeepInStack := st.stack.length - count
  let toRemoveFromStack := st.stack.length - toKeepInStack
  let remaining := count - toRemoveFromStack
  { st with stack := st.stack.drop toRemoveFromStack, stackStart := st.stackStart + remaining }

/-- `push`. -/
def push (v : SSAVar) (st : SSAStackState) : SSAStackState := { st with stack := v :: st.stack }

/-- `assign`. -/
def assign (index : Nat) (v : SSAVar) (st : SSAStackState) : SSAStackState :=
  let st := st.ensureCapacityFor index
  { st with stack := st.stack.set index v }

/-- `delta`. -/
def delta (st : SSAStackState) : Int := st.stack.length - st.stackStart

/-! ## §3. The stack as one infinite list. -/

/-- The variable in word `k`. -/
def slot (st : SSAStackState) (k : Nat) : SSAVar :=
  st.stack[k]?.getD (.prev (.stack (st.stackStart + (k - st.stack.length))))

/-- The variable at a place. -/
def subst (st : SSAStackState) : SSASubstitutionTarget → SSAVar
  | .acc => st.accu
  | .stack i => st.slot i

variable (st : SSAStackState) (v : SSAVar) (n k : Nat)

@[simp] theorem subst_acc : st.subst .acc = st.accu := rfl

@[simp] theorem new_accu : new.accu = .prev .acc := rfl

@[simp] theorem new_slot : new.slot k = .prev (.stack k) := by
  show SSAVar.prev (.stack (0 + (k - 0))) = _
  rw [Nat.zero_add, Nat.sub_zero]

/-- A slot that was written. -/
theorem slot_of_lt {st : SSAStackState} {k : Nat} (h : k < st.stack.length) :
    st.slot k = st.stack[k] := by
  unfold slot
  rw [List.getElem?_eq_getElem h]
  rfl

/-- One that was not is the slot of the stack before. -/
theorem slot_of_le {st : SSAStackState} {k : Nat} (h : st.stack.length ≤ k) :
    st.slot k = .prev (.stack (st.stackStart + (k - st.stack.length))) := by
  unfold slot
  rw [List.getElem?_eq_none h]
  rfl

@[simp] theorem ensureCapacityFor_accu : (st.ensureCapacityFor n).accu = st.accu := by
  unfold ensureCapacityFor
  split <;> rfl

/-- There is room for the slot. -/
theorem lt_length_ensureCapacityFor : n < (st.ensureCapacityFor n).stack.length := by
  unfold ensureCapacityFor
  split
  · simp only [List.length_append, List.length_reverse, List.length_map, List.length_range]
    omega
  · omega

/-- Taking up words does not change the stack. -/
@[simp] theorem ensureCapacityFor_slot : (st.ensureCapacityFor n).slot k = st.slot k := by
  unfold ensureCapacityFor
  split
  · rename_i hlen
    by_cases hk : k < st.stack.length
    · unfold slot
      rw [List.getElem?_append_left hk]
      simp [List.getElem?_eq_getElem hk]
    · rw [slot_of_le (Nat.le_of_not_lt hk)]
      unfold slot
      rw [List.getElem?_append_right (by omega)]
      by_cases htaken : k ≤ n
      · rw [List.getElem?_reverse (by simp; omega)]
        simp only [List.length_map, List.length_range, List.getElem?_map]
        rw [List.getElem?_range (by omega)]
        show SSAVar.prev (.stack _) = SSAVar.prev (.stack _)
        congr 2
        omega
      · rw [List.getElem?_eq_none (by simp; omega)]
        show SSAVar.prev (.stack _) = SSAVar.prev (.stack _)
        simp only [List.length_append, List.length_reverse, List.length_map, List.length_range]
        congr 2
        omega
  · rfl

@[simp] theorem noteUse_stack : (st.noteUse v).stack = st.stack := by cases v <;> rfl

@[simp] theorem noteUse_stackStart : (st.noteUse v).stackStart = st.stackStart := by
  cases v <;> rfl

/-- Noting a use changes no variable. -/
@[simp] theorem noteUse_accu : (st.noteUse v).accu = st.accu := by cases v <;> rfl

@[simp] theorem noteUse_slot : (st.noteUse v).slot k = st.slot k := by
  unfold slot
  rw [noteUse_stack, noteUse_stackStart]

/-- What is read. -/
@[simp] theorem getSubst_fst (t : SSASubstitutionTarget) :
    (st.getSubst t).1 = st.subst t := by
  cases t with
  | acc => rfl
  | stack i =>
      show (st.ensureCapacityFor i).stack[i]?.getD .junk = st.slot i
      rw [← ensureCapacityFor_slot st i i, slot_of_lt (lt_length_ensureCapacityFor st i),
        List.getElem?_eq_getElem (lt_length_ensureCapacityFor st i)]
      rfl

@[simp] theorem getSubst_accu (t : SSASubstitutionTarget) :
    (st.getSubst t).2.accu = st.accu := by
  cases t with
  | acc => exact noteUse_accu _ _
  | stack i => exact (noteUse_accu _ _).trans (ensureCapacityFor_accu st i)

/-- Reading does not change the stack. -/
@[simp] theorem getSubst_slot (t : SSASubstitutionTarget) :
    (st.getSubst t).2.slot k = st.slot k := by
  cases t with
  | acc => exact noteUse_slot _ _ _
  | stack i => exact (noteUse_slot _ _ _).trans (ensureCapacityFor_slot st i k)

@[simp] theorem setAccu_accu : (st.setAccu v).accu = v := rfl

@[simp] theorem setAccu_slot : (st.setAccu v).slot k = st.slot k := rfl

@[simp] theorem push_accu : (st.push v).accu = st.accu := rfl

@[simp] theorem push_slot_zero : (st.push v).slot 0 = v := rfl

/-- The slots below the pushed one are those that were there. -/
@[simp] theorem push_slot_succ : (st.push v).slot (k + 1) = st.slot k := by
  unfold slot push
  simp

@[simp] theorem pop_accu : (st.pop n).accu = st.accu := rfl

/-- `pop` drops the first words, whether they are taken up or not. -/
@[simp] theorem pop_slot : (st.pop n).slot k = st.slot (n + k) := by
  unfold slot pop
  simp only [List.getElem?_drop, List.length_drop]
  by_cases hn : n ≤ st.stack.length
  · have hremove : st.stack.length - (st.stack.length - n) = n := by omega
    rw [hremove, Nat.sub_self, Nat.add_zero]
    congr 3
    omega
  · rw [List.getElem?_eq_none (by omega), List.getElem?_eq_none (by omega)]
    simp only [Option.getD_none, SSAVar.prev.injEq, SSASubstitutionTarget.stack.injEq]
    omega

@[simp] theorem assign_accu : (st.assign n v).accu = st.accu := ensureCapacityFor_accu st n

/-- Only the assigned slot changes. -/
@[simp] theorem assign_slot : (st.assign n v).slot k = if k = n then v else st.slot k := by
  have hlen := lt_length_ensureCapacityFor st n
  by_cases hk : k = n
  · subst hk
    unfold slot assign
    rw [List.getElem?_set_self hlen, if_pos rfl]
    rfl
  · rw [if_neg hk, ← ensureCapacityFor_slot st n k]
    unfold slot assign
    simp only [List.length_set]
    rw [List.getElem?_set_ne (Ne.symm hk)]

/-! ## §4. What is noted. -/

variable (s u : SSASubstitutionTarget)

@[simp] theorem ensureCapacityFor_usedPrev (n : Nat) :
    (st.ensureCapacityFor n).usedPrev = st.usedPrev := by
  unfold ensureCapacityFor
  split <;> rfl

/-- A variable of the block before is noted as used. -/
theorem mem_noteUse (v : SSAVar) : u ∈ (st.noteUse v).usedPrev ↔ v = .prev u ∨ u ∈ st.usedPrev := by
  cases v with
  | prev t =>
      show u ∈ st.usedPrev.insert t ↔ _
      rw [List.mem_insert_iff, SSAVar.prev.injEq, eq_comm]
  | _ => exact ⟨.inr, fun h => h.elim (fun h => nomatch h) id⟩

/-- Reading a place notes what it holds, and nothing else. -/
theorem mem_getSubst :
    u ∈ (st.getSubst s).2.usedPrev ↔ st.subst s = .prev u ∨ u ∈ st.usedPrev := by
  rw [← getSubst_fst]
  cases s with
  | acc => exact mem_noteUse st u _
  | stack i =>
      rw [← ensureCapacityFor_usedPrev st i]
      exact mem_noteUse (st.ensureCapacityFor i) u _

/-- Reading changes nothing that can be read. -/
@[simp] theorem subst_getSubst : (st.getSubst s).2.subst u = st.subst u := by
  cases u with
  | acc => exact getSubst_accu st s
  | stack k => exact getSubst_slot st k s

end SSAStackState

end OcamlJit.CleverDis.Ssa

/-
  OcamlJit.CleverDis.SsaStack
  ───────────────────────────
  **WHAT `SSAStackState` IS FOR: AN UNBOUNDED SYMBOLIC STACK.**

  `SymbolicStack` is the accumulator and infinitely many words; `denote` reads a
  state as one, its `stack` on top of the words of the starting stack from
  `stack_start` on.  A step of the state is the step of what it denotes
  (`perform_denote`), whatever has been taken up or dropped before, and so is
  any sequence of steps:

    • `stackState_refines` — the same answers, the same stack, the delta, and
      what is noted in `used_prev`,
    • `performAll_extent` — how large the two counters can get.
-/
import OcamlJit.CleverDis.Ssa

namespace OcamlJit.CleverDis.Ssa

/-! ## §1. The stack that is meant. -/

/-- An accumulator and an infinite stack of variables, the top word first. -/
@[ext] structure SymbolicStack where
  word : Nat → SSAVar
  accu : SSAVar

namespace SymbolicStack

/-- At the start of a block every place holds what the predecessor left there. -/
def new : SymbolicStack := ⟨fun k => .prev (.stack k), .prev .acc⟩

/-- The variable at a place. -/
def subst (s : SymbolicStack) : SSASubstitutionTarget → SSAVar
  | .acc => s.accu
  | .stack i => s.word i

def push (v : SSAVar) (s : SymbolicStack) : SymbolicStack :=
  { s with word := fun k => if k = 0 then v else s.word (k - 1) }

def pop (count : Nat) (s : SymbolicStack) : SymbolicStack :=
  { s with word := fun k => s.word (count + k) }

def assign (index : Nat) (v : SSAVar) (s : SymbolicStack) : SymbolicStack :=
  { s with word := fun k => if k = index then v else s.word k }

def setAccu (v : SSAVar) (s : SymbolicStack) : SymbolicStack := { s with accu := v }

end SymbolicStack

/-- What a state stands for. -/
def SSAStackState.denote (st : SSAStackState) : SymbolicStack := ⟨st.slot, st.accu⟩

/-! ## §2. The operations. -/

/-- A call of one of the operations of `SSAStackState`. -/
inductive StackOp where
  | push (entry : SSAVar)
  | pop (count : Nat)
  | pick (n : Nat)
  | assign (index : Nat) (entry : SSAVar)
  | accu
  | setAccu (value : SSAVar)
  | getSubst (t : SSASubstitutionTarget)
  deriving Repr, DecidableEq

namespace StackOp

/-- The call: the variable it returns, if any, and the state it leaves. -/
def perform : StackOp → SSAStackState → Option SSAVar × SSAStackState
  | .push entry, st => (none, st.push entry)
  | .pop count, st => (none, st.pop count)
  | .pick n, st => ((st.getSubst (.stack n)).1, (st.getSubst (.stack n)).2)
  | .assign index entry, st => (none, st.assign index entry)
  | .accu, st => ((st.getSubst .acc).1, (st.getSubst .acc).2)
  | .setAccu value, st => (none, st.setAccu value)
  | .getSubst t, st => ((st.getSubst t).1, (st.getSubst t).2)

/-- The same on the infinite stack. -/
def act : StackOp → SymbolicStack → Option SSAVar × SymbolicStack
  | .push entry, s => (none, s.push entry)
  | .pop count, s => (none, s.pop count)
  | .pick n, s => (s.word n, s)
  | .assign index entry, s => (none, s.assign index entry)
  | .accu, s => (s.accu, s)
  | .setAccu value, s => (none, s.setAccu value)
  | .getSubst t, s => (s.subst t, s)

/-- Words pushed less words popped. -/
def growth : StackOp → Int
  | .push _ => 1
  | .pop count => -count
  | _ => 0

/-- By how much a call can move the two counters of a state. -/
def weight : StackOp → Nat
  | .push _ => 1
  | .pop count => count
  | .pick n | .assign n _ | .getSubst (.stack n) => 2 * (n + 1)
  | _ => 0

end StackOp

/-- A sequence of calls: the variables returned, in order, and the last state. -/
def performAll {σ : Type} (f : StackOp → σ → Option SSAVar × σ) :
    List StackOp → σ → List SSAVar × σ
  | [], s => ([], s)
  | op :: ops, s =>
      let r := f op s
      let rest := performAll f ops r.2
      (r.1.toList ++ rest.1, rest.2)

/-! ## §3. One step. -/

namespace SSAStackState

variable (st : SSAStackState) (v : SSAVar) (n : Nat) (t : SSASubstitutionTarget)

@[simp] theorem denote_new : new.denote = .new := by
  ext
  · exact new_slot _
  · rfl

/-- What is read is read of the stack that is meant. -/
theorem subst_denote : st.denote.subst t = st.subst t := by
  cases t <;> rfl

/-- Taking up words does not change the stack denoted. -/
@[simp] theorem denote_ensureCapacityFor : (st.ensureCapacityFor n).denote = st.denote := by
  ext k
  · exact ensureCapacityFor_slot st n k
  · exact ensureCapacityFor_accu st n

@[simp] theorem denote_getSubst : (st.getSubst t).2.denote = st.denote := by
  ext k
  · exact getSubst_slot st k t
  · exact getSubst_accu st t

@[simp] theorem denote_push : (st.push v).denote = st.denote.push v := by
  ext k
  · cases k with
    | zero => rfl
    | succ k => exact push_slot_succ st v k
  · rfl

@[simp] theorem denote_pop : (st.pop n).denote = st.denote.pop n := by
  ext k
  · exact pop_slot st n k
  · rfl

@[simp] theorem denote_assign : (st.assign n v).denote = st.denote.assign n v := by
  ext k
  · exact assign_slot st v n k
  · exact assign_accu st v n

@[simp] theorem denote_setAccu : (st.setAccu v).denote = st.denote.setAccu v := rfl

/-! ### The counters. -/

/-- The words of the state, and the words of the starting stack it has left behind. -/
def extent : Nat := st.stack.length + st.stackStart

/-- The vector is as long as it has to be. -/
theorem length_ensureCapacityFor :
    (st.ensureCapacityFor n).stack.length = max st.stack.length (n + 1) := by
  unfold ensureCapacityFor
  split
  · simp only [List.length_append, List.length_reverse, List.length_map, List.length_range]
    omega
  · omega

/-- The words that are taken up are left behind, too. -/
theorem stackStart_ensureCapacityFor : (st.ensureCapacityFor n).stackStart
    = st.stackStart + (max st.stack.length (n + 1) - st.stack.length) := by
  unfold ensureCapacityFor
  split
  · dsimp only
    omega
  · omega

@[simp] theorem delta_ensureCapacityFor : (st.ensureCapacityFor n).delta = st.delta := by
  unfold delta
  rw [length_ensureCapacityFor, stackStart_ensureCapacityFor]
  omega

@[simp] theorem delta_noteUse : (st.noteUse v).delta = st.delta := by
  unfold delta
  rw [noteUse_stack, noteUse_stackStart]

@[simp] theorem delta_getSubst : (st.getSubst t).2.delta = st.delta := by
  cases t with
  | acc => exact delta_noteUse st _
  | stack i => exact (delta_noteUse _ _).trans (delta_ensureCapacityFor st i)

/-- A push makes the stack one larger. -/
theorem delta_push : (st.push v).delta = st.delta + 1 := by
  unfold delta push
  dsimp only
  rw [List.length_cons]
  omega

/-- A pop makes it smaller, also below where it started. -/
theorem delta_pop : (st.pop n).delta = st.delta - n := by
  unfold delta pop
  dsimp only
  rw [List.length_drop]
  omega

/-- An assignment leaves the size. -/
theorem delta_assign : (st.assign n v).delta = st.delta := by
  rw [← delta_ensureCapacityFor st n]
  unfold delta assign
  dsimp only
  rw [List.length_set]

/-- Reading a slot may have to make room up to it. -/
theorem extent_getSubst_le : (st.getSubst (.stack n)).2.extent ≤ st.extent + 2 * (n + 1) := by
  show ((st.ensureCapacityFor n).noteUse _).extent ≤ _
  unfold extent
  rw [noteUse_stack, noteUse_stackStart, length_ensureCapacityFor, stackStart_ensureCapacityFor]
  omega

/-- So may writing one. -/
theorem extent_assign_le : (st.assign n v).extent ≤ st.extent + 2 * (n + 1) := by
  unfold extent assign
  dsimp only
  rw [List.length_set, length_ensureCapacityFor, stackStart_ensureCapacityFor]
  omega

/-- A pop may go below the vector. -/
theorem extent_pop_le : (st.pop n).extent ≤ st.extent + n := by
  unfold extent pop
  dsimp only
  rw [List.length_drop]
  omega

end SSAStackState

namespace StackOp

variable (op : StackOp) (st : SSAStackState)

/-- **A step is the step of what is denoted**, with the same answer. -/
theorem perform_denote : (op.perform st).1 = (op.act st.denote).1 ∧
    (op.perform st).2.denote = (op.act st.denote).2 := by
  cases op with
  | push entry => exact ⟨rfl, st.denote_push entry⟩
  | pop count => exact ⟨rfl, st.denote_pop count⟩
  | pick n => exact ⟨congrArg some (st.getSubst_fst (.stack n)), st.denote_getSubst (.stack n)⟩
  | assign index entry => exact ⟨rfl, st.denote_assign entry index⟩
  | accu => exact ⟨rfl, st.denote_getSubst .acc⟩
  | setAccu value => exact ⟨rfl, rfl⟩
  | getSubst t =>
      exact ⟨congrArg some ((st.getSubst_fst t).trans (st.subst_denote t).symm),
        st.denote_getSubst t⟩

/-- Every operation changes the size by its growth. -/
theorem perform_delta : (op.perform st).2.delta = st.delta + op.growth := by
  cases op with
  | push entry => exact st.delta_push entry
  | pop count => exact (st.delta_pop count).trans (Int.sub_eq_add_neg ..)
  | pick n => exact (st.delta_getSubst (.stack n)).trans (Int.add_zero _).symm
  | assign index entry => exact (st.delta_assign entry index).trans (Int.add_zero _).symm
  | accu => exact (st.delta_getSubst .acc).trans (Int.add_zero _).symm
  | setAccu value => exact (Int.add_zero _).symm
  | getSubst t => exact (st.delta_getSubst t).trans (Int.add_zero _).symm

/-- A step notes the place of the starting stack it returns, and nothing else. -/
theorem perform_usedPrev (u : SSASubstitutionTarget) :
    u ∈ (op.perform st).2.usedPrev ↔
      u ∈ st.usedPrev ∨ SSAVar.prev u ∈ (op.perform st).1.toList := by
  have hread : ∀ t, u ∈ (st.getSubst t).2.usedPrev ↔
      u ∈ st.usedPrev ∨ SSAVar.prev u ∈ (some (st.getSubst t).1).toList := by
    intro t
    rw [SSAStackState.mem_getSubst, st.getSubst_fst, Option.toList_some, List.mem_singleton,
      or_comm, eq_comm (a := SSAVar.prev u)]
  cases op with
  | push entry => simp [perform, SSAStackState.push]
  | pop count => simp [perform, SSAStackState.pop]
  | pick n => exact hread (.stack n)
  | assign index entry => simp [perform, SSAStackState.assign]
  | accu => exact hread .acc
  | setAccu value => simp [perform, SSAStackState.setAccu]
  | getSubst t => exact hread t

/-- And the extent by its weight at most. -/
theorem perform_extent_le : (op.perform st).2.extent ≤ st.extent + op.weight := by
  have hacc : (st.getSubst .acc).2.extent ≤ st.extent := by
    show (st.noteUse st.accu).extent ≤ st.extent
    unfold SSAStackState.extent
    rw [SSAStackState.noteUse_stack, SSAStackState.noteUse_stackStart]
  cases op with
  | push entry =>
      show st.stack.length + 1 + st.stackStart ≤ st.stack.length + st.stackStart + 1
      omega
  | pop count => exact st.extent_pop_le count
  | pick n => exact st.extent_getSubst_le n
  | assign index entry => exact st.extent_assign_le entry index
  | accu => exact hacc
  | setAccu value => exact Nat.le_refl _
  | getSubst t =>
      cases t with
      | acc => exact hacc
      | stack n => exact st.extent_getSubst_le n

end StackOp

/-! ## §4. Runs. -/

/-- A run is the run of what is denoted. -/
theorem performAll_denote (ops : List StackOp) (st : SSAStackState) :
    (performAll StackOp.perform ops st).1 = (performAll StackOp.act ops st.denote).1 ∧
      (performAll StackOp.perform ops st).2.denote
        = (performAll StackOp.act ops st.denote).2 := by
  induction ops generalizing st with
  | nil => exact ⟨rfl, rfl⟩
  | cons op ops ih =>
      obtain ⟨hanswer, hstate⟩ := op.perform_denote st
      obtain ⟨hanswers, hstates⟩ := ih (op.perform st).2
      unfold performAll
      dsimp only
      rw [← hanswer, ← hstate, hanswers, hstates]
      exact ⟨rfl, rfl⟩

/-- **The size after a run** is the sum of what the operations do to it. -/
theorem performAll_delta (ops : List StackOp) (st : SSAStackState) :
    (performAll StackOp.perform ops st).2.delta = st.delta + (ops.map StackOp.growth).sum := by
  induction ops generalizing st with
  | nil => exact (Int.add_zero _).symm
  | cons op ops ih =>
      show (performAll StackOp.perform ops (op.perform st).2).2.delta = _
      rw [ih, op.perform_delta, List.map_cons, List.sum_cons]
      omega

/-- **The slots used by a run** are those that were read and came from before it. -/
theorem performAll_usedPrev (ops : List StackOp) (st : SSAStackState)
    (u : SSASubstitutionTarget) :
    u ∈ (performAll StackOp.perform ops st).2.usedPrev ↔
      u ∈ st.usedPrev ∨ SSAVar.prev u ∈ (performAll StackOp.perform ops st).1 := by
  induction ops generalizing st with
  | nil => simp [performAll]
  | cons op ops ih =>
      show u ∈ (performAll StackOp.perform ops (op.perform st).2).2.usedPrev ↔
        u ∈ st.usedPrev ∨ _ ∈ (op.perform st).1.toList
          ++ (performAll StackOp.perform ops (op.perform st).2).1
      rw [ih, op.perform_usedPrev, List.mem_append, or_assoc]

/-- **Room for the counters**: while the weights of the calls add up to less than
2^63, every length, index and count of the Rust code is in the range of `isize`. -/
theorem performAll_extent (ops : List StackOp) (st : SSAStackState) :
    (performAll StackOp.perform ops st).2.extent ≤ st.extent + (ops.map StackOp.weight).sum := by
  induction ops generalizing st with
  | nil => exact Nat.le_refl _
  | cons op ops ih =>
      have hstep := op.perform_extent_le st
      have hrest := ih (op.perform st).2
      show (performAll StackOp.perform ops (op.perform st).2).2.extent ≤ _
      rw [List.map_cons, List.sum_cons]
      omega

/-- **`SSAStackState` refines the unbounded symbolic stack.**  Any sequence of
calls on the new state returns what it returns on the infinite stack and leaves
the state of it; `delta` is what was pushed less what was popped; taking up words
changes nothing; and `used_prev` is the places of the starting stack that were
returned. -/
theorem stackState_refines (ops : List StackOp) :
    let run := performAll StackOp.perform ops SSAStackState.new
    let meant := performAll StackOp.act ops SymbolicStack.new
    run.1 = meant.1 ∧ run.2.denote = meant.2 ∧
      run.2.delta = (ops.map StackOp.growth).sum ∧
      (∀ n, (run.2.ensureCapacityFor n).denote = meant.2) ∧
      ∀ u, u ∈ run.2.usedPrev ↔ SSAVar.prev u ∈ run.1 := by
  intro run meant
  obtain ⟨hanswers, hstate⟩ := performAll_denote ops SSAStackState.new
  rw [SSAStackState.denote_new] at hanswers hstate
  refine ⟨hanswers, hstate, ?_, ?_, ?_⟩
  · rw [performAll_delta ops SSAStackState.new]
    exact Int.zero_add _
  · intro n
    rw [SSAStackState.denote_ensureCapacityFor]
    exact hstate
  · intro u
    rw [performAll_usedPrev ops SSAStackState.new u]
    simp [SSAStackState.new, run]

/-- The test of the source with three words popped off the empty stack. -/
example : (performAll StackOp.perform [.pop 3, .pick 0, .pick 2] .new).1
    = [.prev (.stack 3), .prev (.stack 5)] := by decide

end OcamlJit.CleverDis.Ssa

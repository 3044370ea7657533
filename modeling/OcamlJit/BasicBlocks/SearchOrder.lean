/-
  OcamlJit.BasicBlocks.SearchOrder
  ────────────────────────────────
  **THE CHECKS OF THE CONVERSION, IN THEIR ORDER.**

  `parse_to_basic_blocks` returns with the first thing that goes wrong.  Which
  one that is depends on the order of the two searches, and not on the blocks
  they build.  `check` is this order: what is still to be looked at (`Task`), the
  offsets seen so far, and whether the next check is passed, fails with an `Err`
  or panics.

    • `parseToBasicBlocks_keeps` — the conversion makes these checks,
    • `parseToBasicBlocks_panicFree_iff` — so it panics exactly if the first
      one that is not passed does.
-/
import OcamlJit.Lib.Checks
import OcamlJit.BasicBlocks.SearchRule

namespace OcamlJit.BasicBlocks

open OcamlJit.Lib OcamlJit.Lib.Checks OcamlJit.Instructions

/-! ## §1. The order of the checks. -/

/-- What is still to be looked at.  `visits` and `scan` have the stack size. -/
inductive Task where
  /-- A label, for the block starts. -/
  | label (l : Nat)
  /-- The instructions from here to the end of a block, for the block starts. -/
  | walk (q : List (Instruction Nat)) (pos : Nat)
  /-- The arity, and then the blocks. -/
  | arity (entry : Nat)
  | visit (o size : Nat) (ty : BasicBlockType)
  | scan (e : Nat) (q : List (Instruction Nat)) (pos size : Nat)

/-- The offsets seen by the first search, those seen by the second with their start
sizes and types, and what is left. -/
structure Moment where
  starts : List Nat
  seen : Nat → Option (Nat × BasicBlockType)
  todo : List Task

/-- The edges of a control instruction in the order in which they are visited. -/
def visits (i : Instruction Nat) (pos size : Nat) : List (Nat × Nat) :=
  match i with
  | .branch l => [(l, size)]
  | .branchIf l => [(pos, size), (l, size)]
  | .branchIfNot l | .branchCmp _ _ l => [(l, size), (pos, size)]
  | .switch ints tags => (ints ++ tags).map (·, size)
  | .pushTrap l => [(l, size), (pos, size + 4)]
  | _ => []

/-- `OperandsOk`, and `ExitDepth` at a size. -/
def operandsFit (size : Nat) : Instruction Nat → Bool × Bool
  | .cCallN nargs _ => (decide (1 ≤ nargs), true)
  | .apply nargs => (decide (nargs + 3 < 2 ^ 32), true)
  | .applyTerm _ slotSize => (true, decide (size = slotSize))
  | .return_ toPop => (true, decide (size = toPop))
  | .stop => (true, decide (size = 1))
  | _ => (true, true)

instance (i : Instruction Nat) : Decidable (OperandsOk i) :=
  decidable_of_iff ((operandsFit 0 i).1 = true) (by cases i <;> simp [operandsFit, OperandsOk])

instance (size : Nat) (i : Instruction Nat) : Decidable (ExitDepth size i) :=
  decidable_of_iff ((operandsFit size i).2 = true) (by cases i <;> simp [operandsFit, ExitDepth])

/-- The checks made on an instruction inside a block. -/
def checkInside (m : Moment) (e : Nat) (i : Instruction Nat) (q : List (Instruction Nat))
    (pos size : Nat) (todo : List Task) : Verdict Moment :=
  -- `nargs - 1` and `nargs + 3` come before the size is looked at
  if ¬ OperandsOk i then .panics
  else if ¬ wordsChecked i ≤ size then .fails
  else if ¬ depthAfter size i < 2 ^ 32 then .panics
  else .passes { m with todo := .scan e q pos (depthAfter size i) :: todo }

/-- The next check. -/
def check (code : List Word) (m : Moment) : Verdict Moment :=
  match m.todo with
  | [] => .done
  | .label l :: todo =>
      if l ∈ m.starts then .passes { m with todo }
      -- the slice `code[l..]`
      else if ¬ l ≤ code.length then .panics
      else .passes { m with starts := l :: m.starts, todo := .walk [] l :: todo }
  | .walk [] pos :: todo =>
      if code.length ≤ pos then .passes { m with todo }
      else match decodeAt code pos with
        | .ok (q, pos') => .passes { m with todo := .walk q pos' :: todo }
        -- a label is more than an `i32`
        | .error .panic => .panics
        | .error _ => .fails
  | .walk (i :: q) pos :: todo =>
      if i.isControl then .passes { m with todo := (controlTargets i pos).map .label ++ todo }
      else .passes { m with todo := .walk q pos :: todo }
  | .arity entry :: todo =>
      if closureArity code entry = 0 then .panics
      else .passes { m with todo := .visit entry (startDepth code entry) .first :: todo }
  | .visit o size ty :: todo =>
      -- `stack_size + 4` for the block after a `PUSHTRAP`
      if ¬ size < 2 ^ 32 then .panics
      else match m.seen o with
        | some (size', ty') =>
            if size' = size ∧ ty' = ty then .passes { m with todo } else .fails
        | none =>
            if ¬ o ≤ code.length then .panics
            else .passes { m with
              seen := Function.update m.seen o (some (size, ty))
              todo := .scan o [] o size :: todo }
  | .scan e [] pos size :: todo =>
      if code.length ≤ pos then .fails
      else match decodeAt code pos with
        | .ok (q, pos') =>
            if SplitAt m.starts e pos then
              .passes { m with todo := .visit pos size .normal :: todo }
            else .passes { m with todo := .scan e q pos' size :: todo }
        | .error .panic => .panics
        | .error _ => .fails
  | .scan e (i :: q) pos size :: todo =>
      if ¬ i.isControl then checkInside m e i q pos size todo
      else if ¬ ExitDepth size i then .fails
      else .passes { m with
        todo := (visits i pos size).map (fun t => .visit t.1 t.2 .normal) ++ todo }

/-- Before the first check. -/
def firstMoment (entry : Nat) : Moment := ⟨[], fun _ => none, [.label entry, .arity entry]⟩

/-- **No check that the conversion comes to, all before it being passed, panics.** -/
def PanicFree (code : List Word) (entry : Nat) : Prop := NoPanic (check code) (firstMoment entry)

/-! ## §2. The first search. -/

section Starts

variable {code : List Word} {seen : Nat → Option (Nat × BasicBlockType)} {todo : List Task}
  {visit : List Nat → Nat → Conv (List Nat)}

/-- The block starts have been looked for, and the rest is left. -/
def StartsFound (seen : Nat → Option (Nat × BasicBlockType)) (todo : List Task)
    (starts : List Nat) (m : Moment) : Prop := m = ⟨starts, seen, todo⟩

/-- What the loop uses of its visitor. -/
def ChecksLabels (code : List Word) (visit : List Nat → Nat → Conv (List Nat)) : Prop :=
  ∀ starts seen l todo,
    Keeps (check code) ⟨starts, seen, .label l :: todo⟩ (StartsFound seen todo) (visit starts l)

theorem keeps_visitEach (hv : ChecksLabels code visit) (ls starts : List Nat) :
    Keeps (check code) ⟨starts, seen, ls.map .label ++ todo⟩ (StartsFound seen todo)
      (visitEach visit starts ls) := by
  induction ls generalizing starts with
  | nil => exact keeps_ok rfl
  | cons l ls ih =>
      refine (hv starts seen l _).bind fun starts' m hm => ?_
      subst hm
      exact ih starts'

/-- **The loop of the first search.** -/
theorem keeps_blockStartsLoop (hv : ChecksLabels code visit) (q : List (Instruction Nat))
    (pos : Nat) : ∀ starts, Keeps (check code) ⟨starts, seen, .walk q pos :: todo⟩
      (StartsFound seen todo) (blockStartsLoop visit (itemsAt code q pos) starts) := by
  induction q, pos using itemsAt_induct code with
  | ending pos hend =>
      intro starts
      refine .passed ?_ (keeps_ok rfl)
      simp only [check, if_pos hend]
  | fault pos f hlt hd =>
      intro starts
      have hnext : check code ⟨starts, seen, .walk [] pos :: todo⟩ =
          match decodeAt code pos with
          | .ok (q, pos') => .passes ⟨starts, seen, .walk q pos' :: todo⟩
          | .error .panic => .panics
          | .error _ => .fails := by
        simp only [check, if_neg (Nat.not_le.mpr hlt)]
      rw [hd] at hnext
      show Keeps _ _ _ (liftParse (.error f) >>= _)
      cases f with
      | error e => exact keeps_err hnext
      | panic => exact keeps_panicked hnext
      | outOfFuel => trivial
  | fetch q pos pos' hlt hd ih =>
      intro starts
      refine .passed ?_ (ih starts)
      simp only [check, if_neg (Nat.not_le.mpr hlt), hd]
  | next i q pos ih =>
      intro starts
      have htail : ∀ starts, i.isControl = false →
          Keeps (check code) ⟨starts, seen, .walk (i :: q) pos :: todo⟩ (StartsFound seen todo)
            (blockStartsLoop visit (itemsAt code q pos) starts) := by
        intro starts hi
        refine .passed ?_ (ih starts)
        simp only [check, hi]
        rfl
      show Keeps _ _ _ (if isPlainReference i then _ else _)
      -- labels of closures are passed over
      split
      case isTrue hplain => exact htail starts (isControl_of_isPlainReference hplain)
      case isFalse hplain =>
          rw [visitLabels_eq (by simpa using hplain), blockEnd_eq]
          cases hi : i.isControl with
          | false =>
              rw [jumpLabels_of_not_isControl hi]
              exact htail starts hi
          | true =>
              -- the labels, and then the next opcode
              have hnext : check code ⟨starts, seen, .walk (i :: q) pos :: todo⟩ =
                  .passes ⟨starts, seen, (jumpLabels i).map .label ++
                    ((if fallsThrough i then [pos] else []).map .label ++ todo)⟩ := by
                simp only [check, hi, if_true, controlTargets, List.map_append,
                  List.append_assoc]
              refine .passed hnext ((keeps_visitEach hv _ starts).bind fun starts' m hm => ?_)
              subst hm
              cases hf : fallsThrough i with
              | true => exact hv starts' seen pos todo
              | false => exact keeps_ok rfl

theorem keeps_visitLabel (hv : ∀ starts seen l todo, l ∉ starts →
    Keeps (check code) ⟨starts, seen, .label l :: todo⟩ (StartsFound seen todo)
      (visit (l :: starts) l)) : ChecksLabels code (visitLabel visit) := by
  intro starts seen l todo
  unfold visitLabel
  by_cases hl : l ∈ starts
  · rw [if_pos hl]
    refine .passed ?_ (keeps_ok rfl)
    simp only [check, if_pos hl]
  · rw [if_neg hl]
    exact hv starts seen l todo hl

/-- **The first search.** -/
theorem keeps_findBlockStartsDfs (code : List Word) :
    ∀ (fuel : Nat) (starts : List Nat) (seen : Nat → Option (Nat × BasicBlockType)) (l : Nat)
      (todo : List Task), l ∉ starts →
      Keeps (check code) ⟨starts, seen, .label l :: todo⟩ (StartsFound seen todo)
        (findBlockStartsDfs code fuel (l :: starts) l)
  | 0, _, _, _, _, _ => trivial
  | fuel + 1, starts, seen, l, todo, hl => by
      rw [findBlockStartsDfs_succ, iterFrom]
      by_cases hlen : l ≤ code.length
      · rw [if_pos hlen, ok_bind]
        refine .passed ?_ (keeps_blockStartsLoop
          (keeps_visitLabel (keeps_findBlockStartsDfs code fuel)) [] l (l :: starts))
        simp only [check, if_neg hl, hlen, not_true, if_false]
      · rw [if_neg hlen]
        refine keeps_panicked ?_
        simp only [check, if_neg hl, hlen, not_false_eq_true, if_true]

end Starts

/-! ## §3. The second search. -/

/-- What the checks see of the blocks seen: the start size and the type. -/
def SearchState.entries (st : SearchState) (o : Nat) : Option (Nat × BasicBlockType) :=
  (st.seen o).map fun p => (p.startStackSize, p.blockType)

theorem setSeen_entries (st : SearchState) (o : Nat) (p : PendingBlock) :
    (st.setSeen o p).entries =
      Function.update st.entries o (some (p.startStackSize, p.blockType)) := by
  funext o'
  unfold SearchState.entries
  rw [setSeen_seen, Function.update_apply]
  split <;> rfl

section Blocks

variable {code : List Word} {bs : List Nat} {visit : Visitor}

/-- The block has been visited, and the rest is left. -/
def BlockVisited (bs : List Nat) (todo : List Task) (st : SearchState) (m : Moment) : Prop :=
  m = ⟨bs, st.entries, todo⟩

/-- What the loop uses of its visitor. -/
def ChecksBlocks (code : List Word) (bs : List Nat) (visit : Visitor) : Prop :=
  ∀ st o source size ty todo, size < 2 ^ 32 →
    Keeps (check code) ⟨bs, st.entries, .visit o size ty :: todo⟩ (BlockVisited bs todo)
      (visit st o source size ty)

/-- **The checks on an instruction inside a block**, in their order. -/
theorem keeps_recordInstr {e pos size : Nat} {i : Instruction Nat} {q : List (Instruction Nat)}
    (seen : Nat → Option (Nat × BasicBlockType)) (todo : List Task) (hq : QueueOk (i :: q))
    (hi : i.isControl = false) (hsize : size < 2 ^ 32) :
    Keeps (check code) ⟨bs, seen, .scan e (i :: q) pos size :: todo⟩
      (fun r m => r.1 < 2 ^ 32 ∧ m = ⟨bs, seen, .scan e q pos r.1 :: todo⟩)
      (recordInstr size i) := by
  have hcheck : check code ⟨bs, seen, .scan e (i :: q) pos size :: todo⟩ =
      checkInside ⟨bs, seen, .scan e (i :: q) pos size :: todo⟩ e i q pos size todo := by
    simp only [check, hi]
    rfl
  have hrec := recordInstr_recorded size hq hi
  cases hr : recordInstr size i with
  | ok r =>
      rw [hr] at hrec
      cases hrec with
      | ok hops hchecked hlt =>
          have hpassed : check code ⟨bs, seen, .scan e (i :: q) pos size :: todo⟩ =
              .passes ⟨bs, seen, .scan e q pos (depthAfter size i) :: todo⟩ := by
            rw [hcheck, checkInside, if_neg (not_not.mpr hops), if_neg (not_not.mpr hchecked),
              if_neg (not_not.mpr (hlt hsize))]
          exact .passed hpassed (keeps_ok ⟨hlt hsize, rfl⟩)
  | error f =>
      rw [hr] at hrec
      cases hrec with
      | error hops hchecked =>
          refine keeps_err ?_
          rw [hcheck, checkInside, if_neg (not_not.mpr hops), if_pos hchecked]
      -- a panic is an operand that is not allowed, or the size that overflows
      | panic h =>
          refine keeps_panicked ?_
          rw [hcheck, checkInside]
          by_cases hops : OperandsOk i
          · obtain ⟨hchecked, hge⟩ := h hops
            rw [if_neg (not_not.mpr hops), if_neg (not_not.mpr hchecked),
              if_pos (Nat.not_lt.mpr hge)]
          · rw [if_pos hops]

theorem keeps_visitTargets (hv : ChecksBlocks code bs visit) {e size : Nat}
    (hsize : size < 2 ^ 32) (todo : List Task) (ls : List Nat) (st : SearchState) :
    Keeps (check code)
      ⟨bs, st.entries, (ls.map (·, size)).map (fun t => .visit t.1 t.2 .normal) ++ todo⟩
      (BlockVisited bs todo) (visitTargets visit e size st ls) := by
  induction ls generalizing st with
  | nil => exact keeps_ok rfl
  | cons l ls ih =>
      refine (hv st l (some e) size .normal _ hsize).bind fun st' m hm => ?_
      subst hm
      exact ih st'

/-- The check on an instruction that ends a block, and the visits after it. -/
theorem check_control {e pos size : Nat} {i : Instruction Nat} {q : List (Instruction Nat)}
    (seen : Nat → Option (Nat × BasicBlockType)) (todo : List Task) (hi : i.isControl = true) :
    check code ⟨bs, seen, .scan e (i :: q) pos size :: todo⟩ =
      if ExitDepth size i then .passes ⟨bs, seen,
        (visits i pos size).map (fun t => .visit t.1 t.2 .normal) ++ todo⟩ else .fails := by
  simp only [check, hi, not_true, if_false, ite_not]

/-- What a turn of the loop leaves to be checked. -/
def TurnChecked (bs : List Nat) (e : Nat) (q : List (Instruction Nat)) (pos : Nat)
    (todo : List Task) : Turn → Moment → Prop
  | .more st size _, m => size < 2 ^ 32 ∧ m = ⟨bs, st.entries, .scan e q pos size :: todo⟩
  | .exit st _ _, m => BlockVisited bs todo st m

/-- **A turn of the loop.** -/
theorem keeps_turn (hv : ChecksBlocks code bs visit) {e pos size : Nat} {i : Instruction Nat}
    {q : List (Instruction Nat)} (st : SearchState) (todo : List Task) (hq : QueueOk (i :: q))
    (hsize : size < 2 ^ 32) :
    Keeps (check code) ⟨bs, st.entries, .scan e (i :: q) pos size :: todo⟩
      (TurnChecked bs e q pos todo) (turn visit bs e pos st size i) := by
  have hstay : i.isControl = false →
      Keeps (check code) ⟨bs, st.entries, .scan e (i :: q) pos size :: todo⟩
        (TurnChecked bs e q pos todo)
        (recordInstr size i >>= fun r => pure (.more (st.useClosures i.closureLabels) r.1 r.2)) :=
    fun hi => (keeps_recordInstr st.entries todo hq hi hsize).bind fun r m hm => keeps_ok hm
  -- an exit without edges
  have hexit : ∀ {c : Prop} [Decidable c] {e' : ConversionError} {x : Nat × BasicBlockExit},
      i.isControl = true → visits i pos size = [] → (ExitDepth size i ↔ c) →
      Keeps (check code) ⟨bs, st.entries, .scan e (i :: q) pos size :: todo⟩
        (TurnChecked bs e q pos todo) (ensure c e' >>= fun _ => pure (.exit st x.1 x.2)) := by
    intro c _ e' x hi hnone hc
    refine keeps_ensure_bind (fun hno => ?_) fun hyes => ?_
    · rw [check_control st.entries todo hi, if_neg fun h => hno (hc.mp h)]
    · refine .passed ?_ (keeps_ok rfl)
      rw [check_control st.entries todo hi, if_pos (hc.mpr hyes), hnone]
      rfl
  -- and one with edges
  have hgo : i.isControl = true → ExitDepth size i →
      check code ⟨bs, st.entries, .scan e (i :: q) pos size :: todo⟩ = .passes ⟨bs, st.entries,
        (visits i pos size).map (fun t => .visit t.1 t.2 .normal) ++ todo⟩ := by
    intro hi hdepth
    rw [check_control st.entries todo hi, if_pos hdepth]
  cases i
  case labelDef l => exact absurd rfl (hq.1 l)
  case applyTerm nargs slotSize => exact hexit (x := (0, _)) rfl rfl Iff.rfl
  case return_ toPop => exact hexit (x := (size - toPop, _)) rfl rfl Iff.rfl
  case stop => exact hexit (x := (size, _)) rfl rfl Iff.rfl
  case raise => exact .passed (hgo rfl trivial) (keeps_ok rfl)
  -- a visit, whose own checks come before those of what is left to do
  case branch l =>
    refine .passed (hgo rfl trivial) ((hv st l (some e) size .normal todo hsize).bind ?_)
    exact fun st' m hm => keeps_ok hm
  -- two visits: the second starts from what the first has entered
  case branchIf | branchIfNot | branchCmp =>
    refine .passed (hgo rfl trivial) ((hv st _ (some e) size .normal _ hsize).bind ?_)
    intro st' m hm
    subst hm
    refine (hv st' _ (some e) size .normal todo hsize).bind ?_
    exact fun st'' m hm => keeps_ok hm
  -- the visits of the two tables, one list after the other
  case switch ints tags =>
    have hlist : (visits (.switch ints tags) pos size).map
        (fun t => Task.visit t.1 t.2 .normal) ++ todo =
        (ints.map (·, size)).map (fun t => .visit t.1 t.2 .normal) ++
          ((tags.map (·, size)).map (fun t => .visit t.1 t.2 .normal) ++ todo) := by
      simp only [visits, List.map_append, List.append_assoc]
    have hgo := hgo rfl trivial
    rw [hlist] at hgo
    refine .passed hgo ((keeps_visitTargets hv hsize _ ints st).bind fun st' m hm => ?_)
    subst hm
    refine (keeps_visitTargets hv hsize todo tags st').bind ?_
    exact fun st'' m hm => keeps_ok hm
  case pushTrap l =>
    refine .passed (hgo rfl trivial) ((hv { st with hasTrapHandlers := true } l (some e) size
      .normal _ hsize).bind ?_)
    intro st' m hm
    subst hm
    -- `stack_size + 4` is computed before the call
    unfold addU
    by_cases hlt : size + 4 < 2 ^ 32
    · rw [if_pos hlt]
      refine (hv st' pos (some e) (size + 4) .normal todo hlt).bind ?_
      exact fun st'' m hm => keeps_ok hm
    · rw [if_neg hlt]
      refine keeps_panicked ?_
      show check code ⟨bs, st'.entries, .visit pos (size + 4) .normal :: todo⟩ = .panics
      simp only [check, if_pos hlt]
  all_goals exact hstay rfl

/-- **The loop of `visit`.** -/
theorem keeps_visitLoop (hv : ChecksBlocks code bs visit) {e : Nat} (q : List (Instruction Nat))
    (pos : Nat) : ∀ (st : SearchState) (size : Nat) (is : List BasicBlockInstruction)
      (todo : List Task), QueueOk q → size < 2 ^ 32 →
      Keeps (check code) ⟨bs, st.entries, .scan e q pos size :: todo⟩ (BlockVisited bs todo)
        (visitLoop visit bs e (itemsAt code q pos) st size is) := by
  induction q, pos using itemsAt_induct code with
  -- the words end inside a block: an `Err`
  | ending pos hend =>
      intro st size is todo _ _
      refine keeps_err ?_
      simp only [check, if_pos hend]
  | fault pos f hlt hd =>
      intro st size is todo _ _
      show Keeps _ _ _ (liftParse (.error f) >>= _)
      cases f with
      | error e' =>
          refine keeps_err ?_
          simp only [check, if_neg (Nat.not_le.mpr hlt), hd]
      | panic =>
          refine keeps_panicked ?_
          simp only [check, if_neg (Nat.not_le.mpr hlt), hd]
      | outOfFuel => trivial
  | fetch q pos pos' hlt hd ih =>
      intro st size is todo _ hsize
      have hnext : check code ⟨bs, st.entries, .scan e [] pos size :: todo⟩ =
          if SplitAt bs e pos then .passes ⟨bs, st.entries, .visit pos size .normal :: todo⟩
          else .passes ⟨bs, st.entries, .scan e q pos' size :: todo⟩ := by
        simp only [check, if_neg (Nat.not_le.mpr hlt), hd]
      show Keeps _ _ _ (BasicBlocks.turn visit bs e pos' (st.noteStackSize size) size
        (.labelDef pos) >>= _)
      simp only [BasicBlocks.turn]
      -- at a start of another block the loop ends with a visit of it
      by_cases hsplit : SplitAt bs e pos
      · rw [if_pos hsplit] at hnext
        rw [if_pos hsplit, bind_assoc]
        refine .passed hnext ((hv (st.noteStackSize size) pos (some e) size .normal todo
          hsize).bind ?_)
        exact fun st' m hm => keeps_ok hm
      · rw [if_neg hsplit] at hnext
        rw [if_neg hsplit]
        exact .passed hnext (ih (st.noteStackSize size) size _ todo (decodeAt_queueOk hd) hsize)
  | next i q pos ih =>
      intro st size is todo hq hsize
      refine (keeps_turn hv (st.noteStackSize size) todo hq hsize).bind fun t m ht => ?_
      cases t with
      | exit st' size' x => exact keeps_ok ht
      | more st' size' pushed =>
          obtain ⟨hsize', rfl⟩ := ht
          exact ih st' size' _ todo hq.2.2.2 hsize'

/-- **`SearchState::visit`.** -/
theorem checksBlocks_visit (code : List Word) (bs : List Nat) :
    ∀ fuel, ChecksBlocks code bs (BasicBlocks.visit code bs fuel)
  | 0, _, _, _, _, _, _, _ => trivial
  | fuel + 1, st, o, source, size, ty, todo, hsize => by
      cases ho : st.seen o with
      | some existing =>
          rw [visit_of_seen ho]
          have hentry : st.entries o = some (existing.startStackSize, existing.blockType) := by
            unfold SearchState.entries
            rw [ho]
            rfl
          have hnext : check code ⟨bs, st.entries, .visit o size ty :: todo⟩ =
              if existing.startStackSize = size ∧ existing.blockType = ty then
                .passes ⟨bs, st.entries, todo⟩ else .fails := by
            simp only [check, hsize, not_true, if_false, hentry]
          refine keeps_ensure_bind (fun hno => ?_) fun hstart =>
            keeps_ensure_bind (fun hno => ?_) fun htype => ?_
          · rw [hnext, if_neg fun h => hno h.1]
          · rw [hnext, if_neg fun h => hno h.2]
          · refine .passed (hnext.trans (if_pos ⟨hstart, htype⟩)) (keeps_ok ?_)
            -- only the predecessors change
            unfold BlockVisited
            rw [setSeen_entries, ← hentry, Function.update_eq_self]
      | none =>
          have hentry : st.entries o = none := by
            unfold SearchState.entries
            rw [ho]
            rfl
          have hnext : check code ⟨bs, st.entries, .visit o size ty :: todo⟩ =
              if ¬ o ≤ code.length then .panics
              else .passes ⟨bs, Function.update st.entries o (some (size, ty)),
                .scan o [] o size :: todo⟩ := by
            simp only [check, hsize, not_true, if_false, hentry]
          rw [visit_of_new ho]
          by_cases hlen : o ≤ code.length
          · rw [if_neg (not_not.mpr hlen)] at hnext
            have hloop := keeps_visitLoop (checksBlocks_visit code bs fuel) (e := o) [] o
              (st.setSeen o ⟨ty, size, insertPredecessor [] source⟩) size [] todo trivial hsize
            rw [setSeen_entries] at hloop
            simp only [iterFrom, if_pos hlen, ok_bind]
            exact .passed hnext hloop
          · rw [if_pos hlen] at hnext
            simp only [iterFrom, if_neg hlen]
            exact keeps_panicked hnext

end Blocks

/-! ## §4. The conversion. -/

section Conversion

variable {code : List Word} {entry : Nat}

/-- The arity is checked: `GRAB -1` overflows. -/
theorem keeps_arityAt {q : List (Instruction Nat)} {pos' : Nat} (bs : List Nat)
    (seen : Nat → Option (Nat × BasicBlockType)) (hd : decodeAt code entry = .ok (q, pos')) :
    Keeps (check code) ⟨bs, seen, [.arity entry]⟩
      (fun arity m => arity % 2 ^ 32 = startDepth code entry ∧
        m = ⟨bs, seen, [.visit entry (startDepth code entry) .first]⟩)
      (arityAt code entry) := by
  by_cases hzero : closureArity code entry = 0
  · have hout := arityAt_outcome (E := fun f => f = .panic) hd (.inr rfl)
    cases harity : arityAt code entry with
    | ok arity =>
        rw [harity] at hout
        exact absurd hzero hout.1
    | error f =>
        rw [harity] at hout
        obtain rfl : f = .panic := hout
        refine keeps_panicked ?_
        simp only [check, if_pos hzero]
  · have hout := arityAt_outcome (E := fun _ => False) hd (.inl hzero)
    cases harity : arityAt code entry with
    | error f =>
        rw [harity] at hout
        exact hout.elim
    | ok arity =>
        rw [harity] at hout
        refine .passed ?_ (keeps_ok ⟨hout.2, rfl⟩)
        simp only [check, if_neg hzero]

theorem startDepth_lt (code : List Word) (entry : Nat) : startDepth code entry < 2 ^ 32 := by
  unfold startDepth
  omega

/-- **`parse_to_basic_blocks` makes these checks.** -/
theorem parseToBasicBlocks_keeps (hlt : entry < code.length) :
    Keeps (check code) (firstMoment entry) (fun _ m => check code m = .done)
      (parseToBasicBlocks code entry) := by
  have hstarts := keeps_findBlockStartsDfs code (searchFuel code) [] (fun _ => none) entry
    [.arity entry] List.not_mem_nil
  unfold parseToBasicBlocks
  cases hbs : findBlockStartsDfs code (searchFuel code) [entry] entry with
  | error f =>
      rw [hbs] at hstarts
      cases f with
      | error e => exact hstarts
      | panic => exact hstarts
      | outOfFuel => trivial
  | ok bs =>
      rw [hbs] at hstarts
      obtain ⟨m, hcomes, rfl⟩ := hstarts
      -- the first search has passed, so the opcode at the entry decodes
      obtain ⟨q, pos', hd⟩ := findBlockStartsDfs_decodes hbs hlt
      refine .after hcomes ((keeps_arityAt bs _ hd).bind fun arity m ⟨hmod, hm⟩ => ?_)
      subst hm
      rw [hmod]
      have hvisit := checksBlocks_visit code bs (searchFuel code) .initial entry none
        (startDepth code entry) .first [] (startDepth_lt code entry)
      cases hst : visit code bs (searchFuel code) .initial entry none (startDepth code entry)
          .first with
      | error f =>
          rw [hst] at hvisit
          cases f with
          | error e => exact hvisit
          | panic => exact hvisit
          | outOfFuel => trivial
      | ok st =>
          rw [hst] at hvisit
          obtain ⟨m, hcomes', rfl⟩ := hvisit
          -- the blocks are built without a check
          obtain ⟨c, hc, -⟩ := buildClosure_numbered (visit_searched hst) arity
          refine .after hcomes' ?_
          show Keeps _ _ _ (buildClosure arity st)
          rw [hc]
          exact keeps_ok rfl

/-- **When `parse_to_basic_blocks` panics**: if and only if the first check of the two
searches that is not passed is one that panics. -/
theorem parseToBasicBlocks_panicFree_iff {code : List Word} {entry : Nat}
    (hlt : entry < code.length) :
    ((∃ c, parseToBasicBlocks code entry = .ok c) ∨ ∃ e, parseToBasicBlocks code entry = err e) ↔
      PanicFree code entry := by
  have hends := parseToBasicBlocks_ends code entry
  have hfree : PanicFree code entry ↔ parseToBasicBlocks code entry ≠ .error .panic :=
    noPanic_iff (parseToBasicBlocks_keeps hlt) hends
  rw [hfree]
  cases hparse : parseToBasicBlocks code entry with
  | ok c => exact ⟨fun _ => nofun, fun _ => .inl ⟨c, rfl⟩⟩
  | error f =>
      rw [hparse] at hends
      cases f with
      | error e => exact ⟨fun _ => nofun, fun _ => .inr ⟨e, rfl⟩⟩
      | panic =>
          refine ⟨fun h => ?_, fun h => absurd rfl h⟩
          rcases h with ⟨c, hc⟩ | ⟨e, he⟩
          · cases hc
          · cases he
      | outOfFuel => exact absurd rfl hends

/-- `CONST0`, a loop of `CHECK_SIGNALS; BRANCHIF`, and `RETURN 1` pass every check.
`POP 5` fails before the `CCALLN` without arguments behind it is looked at. -/
theorem parseToBasicBlocks_panicFree_loop :
    PanicFree [99, 92, 85, -2, 40, 1] 0 ∧ PanicFree [19, 5, 98, 0, 0, 143] 0 := by
  refine ⟨(parseToBasicBlocks_panicFree_iff (by decide)).mp (.inl ?_),
    (parseToBasicBlocks_panicFree_iff (by decide)).mp (.inr ?_)⟩
  · exact ⟨⟨1, [⟨0, [], .first, [.const 0], .branch 1, 1, 1, []⟩,
      ⟨1, [1, 0], .normal, [.checkSignals], .branchIf 1 2, 1, 1, [1, 2]⟩,
      ⟨2, [1], .normal, [], .return_ 1, 1, 0, []⟩], [], 1, false⟩, by decide +kernel⟩
  · exact ⟨.conditionFailed "stack_size >= n", by decide⟩

/-- **`BRANCH` beyond the end of the code**: the slice at its label panics. -/
theorem parseToBasicBlocks_panics :
    ¬ ∀ (code : List Word) (entry : Nat), entry < code.length →
      (∃ c, parseToBasicBlocks code entry = .ok c) ∨
        ∃ e, parseToBasicBlocks code entry = err e := by
  intro h
  have hpanic : parseToBasicBlocks [84, 5] 0 = panicked := by decide
  rcases h [84, 5] 0 (by decide) with ⟨c, hc⟩ | ⟨e, he⟩
  · rw [hpanic] at hc
    cases hc
  · rw [hpanic] at he
    cases he

end Conversion

end OcamlJit.BasicBlocks

/-
  OcamlJit.BytecodeFiles.Cycles
  ─────────────────────────────
  **WHEN THE DEBUG EVENTS AND THE SYMBOL TABLE ARE READ AT ALL.**

  None of the traversals marks what it has seen, and a file can hold a block that
  is inside itself.  What `parse_event_list` does is laid out as a walk over
  tasks: the rest of a list, an event, a table.  Only an event can panic, when
  the sum of its position and the offset overflows (`fails_panic_iff`).

    • `debugOut_follows`        the loops do what the walk says;
    • `traversals_return_iff`   each traversal comes back, with a value or an
                                `Err`, if and only if nothing it gets to is inside
                                itself and no position overflows.
-/
import OcamlJit.BytecodeFiles.DebugEvents

namespace OcamlJit.BytecodeFiles

open OcamlJit.Lib OcamlJit.Marshal

/-! ## §1. Tasks. -/

/-- What there is to do: the tree of a table, an event, the rest of a list. -/
inductive Task where
  | table (v : MLValue)
  | event (v : MLValue)
  | cell (v : MLValue)
  deriving DecidableEq

/-- What the loops do, in order. -/
def debugPlan (blocks : MLValueBlocks) (relocationOffset : Nat) : Walk.Plan DebugError Task
  | .table v =>
      match tableNode blocks v with
      | .error f => [.inr f]
      | .ok none => []
      | .ok (some (l, r, _, identValue)) =>
          match parseIdent identValue (Strings.new blocks) with
          | .error f => [.inr f]
          -- what was pushed last comes first
          | .ok _ => [.inl (.table r), .inl (.table l)]
  | .event v =>
      match parseEventHead relocationOffset v (Strings.new blocks) with
      | .error f => [.inr f]
      | .ok (head, _) =>
          [.inl (.table head.ceHeap), .inl (.table head.ceRec)] ++
            (stopIf (parseStackSize head.items.stackSize) ++
              stopIf (parseRepr blocks head.items.repr))
  | .cell v =>
      match eventCell blocks v with
      | .error f => [.inr f]
      | .ok none => []
      | .ok (some (a, b)) => [.inl (.event a), .inl (.cell b)]

/-- The position of an event, which is an event as far as that, does not fit. -/
def PositionOverflows (blocks : MLValueBlocks) (relocationOffset : Nat) (event : MLValue) : Prop :=
  ∃ items, eventItems blocks event = .ok items ∧ 2 ^ 64 ≤ asUsize items.evPos + relocationOffset

/-! ## §2. The faults of the tasks. -/

/-- An `Err`. -/
def IsErr (f : Fault DebugError) : Prop := ∃ e, f = .error e

/-- An `Err` or a panic. -/
def IsStop (f : Fault DebugError) : Prop := IsErr f ∨ f = .panic

/-- An error is no success. -/
theorem isErr_error (e : DebugError) : IsErr (.error e) := ⟨e, rfl⟩

variable {blocks : MLValueBlocks} {relocationOffset : Nat}

/-- The computation fails with an `Err` if it fails. -/
def OnlyErr {β : Type} (x : Rust DebugError β) : Prop := ∀ f, x = .error f → IsErr f

/-- What succeeds does not fail. -/
theorem onlyErr_ok {β : Type} (b : β) : OnlyErr (.ok b) := fun _ h => by cases h

/-- An error is not a panic. -/
theorem onlyErr_err {β : Type} (e : DebugError) : OnlyErr (err e : Rust DebugError β) := by
  intro f h
  cases h
  exact ⟨e, rfl⟩

/-- What a check stops with. -/
theorem error_of_mem_stopIf {β : Type} {x : Rust DebugError β} {f : Fault DebugError}
    (h : .inr f ∈ (stopIf x : List (Task ⊕ Fault DebugError))) : x = .error f := by
  cases x with
  | ok b => cases h
  | error g =>
      cases List.mem_singleton.mp h
      rfl

/-- A check adds no task. -/
theorem not_mem_stopIf {β : Type} {x : Rust DebugError β} {a : Task} :
    .inl a ∉ (stopIf x : List (Task ⊕ Fault DebugError)) := by
  intro h
  cases x with
  | ok b => cases h
  | error g => cases List.mem_singleton.mp h

/-- The number of an identifier is read or refused. -/
theorem onlyErr_tableData (id : Nat) : OnlyErr (tableData blocks id) := by
  unfold tableData
  split
  · exact onlyErr_ok _
  · exact onlyErr_err _

/-- So is a node of a table. -/
theorem onlyErr_tableNode (v : MLValue) : OnlyErr (tableNode blocks v) := by
  unfold tableNode
  split
  · split
    · exact onlyErr_ok _
    · exact onlyErr_err _
  · split
    · next dataBlock _ _ _ =>
        cases h : tableData blocks dataBlock with
        | ok p => exact onlyErr_ok _
        | error f =>
            intro g hg
            cases hg
            exact onlyErr_tableData _ f h
    · exact onlyErr_err _
  · exact onlyErr_err _

/-- A cell of the list of events. -/
theorem onlyErr_eventCell (v : MLValue) : OnlyErr (eventCell blocks v) := by
  unfold eventCell
  split
  · split
    · exact onlyErr_ok _
    · exact onlyErr_err _
  · split
    · exact onlyErr_ok _
    · exact onlyErr_err _
  · exact onlyErr_err _

/-- The kind of an event. -/
theorem onlyErr_parseKind (v : MLValue) : OnlyErr (parseKind v) := by
  unfold parseKind
  split
  · split
    · exact onlyErr_ok _
    · split
      · exact onlyErr_ok _
      · exact onlyErr_err _
  · exact onlyErr_ok _
  · exact onlyErr_err _

/-- Its info. -/
theorem onlyErr_parseInfo (v : MLValue) : OnlyErr (parseInfo blocks v) := by
  unfold parseInfo
  split
  · split
    · exact onlyErr_ok _
    · split
      · exact onlyErr_ok _
      · exact onlyErr_err _
  · split
    · exact onlyErr_ok _
    · exact onlyErr_err _
  · exact onlyErr_err _

/-- Its environment. -/
theorem onlyErr_parseCompenv (v : MLValue) : OnlyErr (parseCompenv blocks v) := by
  unfold parseCompenv
  split
  · split
    · exact onlyErr_ok _
    · exact onlyErr_err _
  · exact onlyErr_err _

/-- Its stack size. -/
theorem onlyErr_parseStackSize (v : MLValue) : OnlyErr (parseStackSize v) := by
  unfold parseStackSize
  split
  · exact onlyErr_ok _
  · exact onlyErr_err _

/-- Its representation. -/
theorem onlyErr_parseRepr (v : MLValue) : OnlyErr (parseRepr blocks v) := by
  unfold parseRepr
  split
  · split
    · exact onlyErr_ok _
    · exact onlyErr_err _
  · split
    · exact onlyErr_ok _
    · exact onlyErr_ok _
    · exact onlyErr_err _
  · exact onlyErr_err _

/-- All of its items: none of them panics. -/
theorem onlyErr_eventItems (v : MLValue) : OnlyErr (eventItems blocks v) := by
  unfold eventItems
  split
  · split
    · exact onlyErr_err _
    · next tag items _ =>
        by_cases htag : tag = 0
        · rw [show ensure (tag = 0) (DebugError.conditionFailed "tag == 0") = .ok () from
            ensure_eq_ok.mpr htag]
          dsimp only [ok_bind]
          split
          · split
            · exact onlyErr_ok _
            · exact onlyErr_err _
          · exact onlyErr_err _
        · unfold ensure
          rw [if_neg htag]
          exact onlyErr_err _
  · exact onlyErr_err _

/-- What an event does after its position. -/
def afterPosition (items : EventItems) (position : Nat) : Parse blocks EventHead := do
  let module ← Strings.getFromValue items.module
  let span ← parseSpan items.span
  let kind ← StateT.lift (parseKind items.kind)
  let defName ← Strings.getFromValue items.defName
  let info ← StateT.lift (parseInfo blocks items.info)
  let (ceHeap, ceRec) ← StateT.lift (parseCompenv blocks items.compenv)
  pure ⟨items, position, module, span, kind, defName, info, ceHeap, ceRec⟩

/-- An event up to its tables: the items, the position, and what comes after it. -/
theorem parseEventHead_eq (v : MLValue) :
    (parseEventHead relocationOffset v : Parse blocks EventHead) = (do
      let items ← StateT.lift (eventItems blocks v)
      let sum ← StateT.lift (addU 64 (asUsize items.evPos) relocationOffset)
      afterPosition items (sum / 4)) := rfl

/-- After the position an event only fails with an `Err`. -/
theorem tame_afterPosition {E : Fault DebugError → Prop} (hE : ∀ e, E (.error e))
    (hsmall : SmallInts blocks ∨ E .panic) (items : EventItems) (position : Nat) :
    Tame E (afterPosition items position : Parse blocks EventHead) := by
  have hlift : ∀ {β : Type} {x : Rust DebugError β}, OnlyErr x →
      Tame E (StateT.lift x : Parse blocks β) := by
    intro β x hx
    refine tame_lift fun f hf => ?_
    obtain ⟨e, rfl⟩ := hx f hf
    exact hE e
  unfold afterPosition
  refine (tame_getFromValue hE _).bind fun _ _ => ?_
  refine (tame_parseSpan hE hsmall _).bind fun _ _ => ?_
  refine (hlift (onlyErr_parseKind _)).bind fun _ _ => ?_
  refine (tame_getFromValue hE _).bind fun _ _ => ?_
  refine (hlift (onlyErr_parseInfo _)).bind fun _ _ => ?_
  exact (hlift (onlyErr_parseCompenv _)).bind fun _ _ => tame_pure _

/-- The head of an event fails with an error or with the overflow of its position. -/
theorem tame_parseEventHead {E : Fault DebugError → Prop} (hE : ∀ e, E (.error e))
    (hpanic : E .panic) (v : MLValue) :
    Tame E (parseEventHead relocationOffset v : Parse blocks EventHead) := by
  rw [parseEventHead_eq]
  refine (tame_lift fun f hf => ?_).bind fun items _ => ?_
  · obtain ⟨e, rfl⟩ := onlyErr_eventItems v f hf
    exact hE e
  · refine (tame_lift fun f hf => ?_).bind fun sum _ => ?_
    · unfold addU at hf
      split at hf
      · cases hf
      · cases hf
        exact hpanic
    · exact tame_afterPosition hE (.inr hpanic) items (sum / 4)

/-- Once the items are read only the position can overflow. -/
theorem parseEventHead_of_items {v : MLValue} {items : EventItems}
    (hitems : eventItems blocks v = .ok items) (st : Strings blocks) :
    parseEventHead relocationOffset v st =
      addU 64 (asUsize items.evPos) relocationOffset >>= fun sum =>
        afterPosition items (sum / 4) st := by
  rw [parseEventHead_eq, hitems]
  show (StateT.lift (addU 64 (asUsize items.evPos) relocationOffset) >>= fun sum =>
    afterPosition items (sum / 4) : Parse blocks EventHead) st = _
  cases addU 64 (asUsize items.evPos) relocationOffset with
  | ok sum => rfl
  | error f => rfl

/-- **An event panics when its position does not fit.** -/
theorem parseEventHead_panic (hsmall : SmallInts blocks) {v : MLValue} (st : Strings blocks) :
    parseEventHead relocationOffset v st = panicked ↔
      PositionOverflows blocks relocationOffset v := by
  unfold PositionOverflows
  cases hitems : eventItems blocks v with
  | error f =>
      rw [parseEventHead_eq, hitems]
      constructor
      · intro h
        cases (show Except.error f = panicked from h)
        obtain ⟨e, he⟩ := onlyErr_eventItems v _ hitems
        cases he
      · intro h
        obtain ⟨items, hitems', -⟩ := h
        cases hitems'
  | ok items =>
      rw [parseEventHead_of_items hitems]
      by_cases hfits : asUsize items.evPos + relocationOffset < 2 ^ 64
      · rw [show addU 64 (asUsize items.evPos) relocationOffset = .ok _ from if_pos hfits]
        constructor
        · intro h
          -- what comes after the position does not panic
          obtain ⟨e, he⟩ :=
            (tame_afterPosition isErr_error (.inl hsmall) items _).faults st .panic h
          cases he
        · intro h
          obtain ⟨items', hitems', hover⟩ := h
          cases hitems'
          omega
      · rw [show addU 64 (asUsize items.evPos) relocationOffset = panicked from if_neg hfits]
        constructor
        · intro _
          exact ⟨items, rfl, by omega⟩
        · intro _
          rfl

/-- An identifier is read or refused. -/
theorem onlyErr_parseIdent (v : MLValue) (st : Strings blocks) : OnlyErr (parseIdent v st) :=
  (tame_parseIdent isErr_error v).faults st

/-- A task other than an event stops with an `Err` if it stops. -/
theorem debugPlan_fault {a : Task} {f : Fault DebugError}
    (h : .inr f ∈ debugPlan blocks relocationOffset a) :
    IsErr f ∨ ∃ v, a = .event v ∧ f = .panic ∧
      debugPlan blocks relocationOffset a = [.inr .panic] ∧
      parseEventHead relocationOffset v (Strings.new blocks) = panicked := by
  cases a with
  | table v =>
      unfold debugPlan at h
      dsimp only at h
      split at h
      · next g hnode =>
          cases List.mem_singleton.mp h
          exact .inl (onlyErr_tableNode v f hnode)
      · cases h
      · split at h
        · next g hident =>
            cases List.mem_singleton.mp h
            exact .inl (onlyErr_parseIdent _ _ f hident)
        · simp at h
  | cell v =>
      unfold debugPlan at h
      dsimp only at h
      split at h
      · next g hcell =>
          cases List.mem_singleton.mp h
          exact .inl (onlyErr_eventCell v f hcell)
      · cases h
      · simp at h
  -- the head of an event may panic: its position is added to the offset of the section
  | event v =>
      cases hhead : parseEventHead relocationOffset v (Strings.new blocks) with
      | error g =>
          have hplan : debugPlan blocks relocationOffset (.event v) = [.inr g] := by
            unfold debugPlan
            simp only [hhead]
          rw [hplan] at h
          cases List.mem_singleton.mp h
          rcases (tame_parseEventHead (E := IsStop) (fun e => .inl (isErr_error e))
            (.inr rfl) v).faults _ f hhead with herr | hpanic
          · exact .inl herr
          · refine .inr ⟨v, rfl, hpanic, ?_, ?_⟩
            · rw [hplan, hpanic]
            · rw [hhead, hpanic]
              rfl
      | ok p =>
          unfold debugPlan at h
          simp only [hhead, List.mem_append, List.mem_cons, List.not_mem_nil, or_false,
            reduceCtorEq, false_or] at h
          rcases h with h | h
          · exact .inl (onlyErr_parseStackSize _ f (error_of_mem_stopIf h))
          · exact .inl (onlyErr_parseRepr _ f (error_of_mem_stopIf h))

/-- No task of the plan runs out of fuel. -/
theorem debugPlan_ends (a : Task) : .inr .outOfFuel ∉ debugPlan blocks relocationOffset a := by
  intro h
  rcases debugPlan_fault h with ⟨e, he⟩ | ⟨v, -, hf, -⟩
  · cases he
  · cases hf

/-! ## §3. What is reached. -/

/-- The value of a task. -/
def Task.value : Task → MLValue
  | .table v | .event v | .cell v => v

/-- The subtrees of a node are items of the blocks. -/
theorem tableNode_items {v l r identValue : MLValue} {data : Int}
    (h : tableNode blocks v = .ok (some (l, r, data, identValue))) :
    l ∈ itemsOf blocks ∧ r ∈ itemsOf blocks := by
  unfold tableNode at h
  split at h
  · split at h
    · cases h
    · cases h
  · split at h
    · next hid =>
        obtain ⟨p, -, h⟩ := bind_eq_ok.mp h
        cases h
        exact ⟨mem_itemsOf hid (by simp), mem_itemsOf hid (by simp)⟩
    · cases h
  · cases h

/-- The event and the tail of a cell are items of the blocks. -/
theorem eventCell_items {v a b : MLValue} (h : eventCell blocks v = .ok (some (a, b))) :
    a ∈ itemsOf blocks ∧ b ∈ itemsOf blocks := by
  unfold eventCell at h
  split at h
  · split at h
    · cases h
    · cases h
  · split at h
    · next hid =>
        cases h
        exact ⟨mem_itemsOf hid (by simp), mem_itemsOf hid (by simp)⟩
    · cases h
  · cases h

/-- The tables of an environment are items of the blocks. -/
theorem parseCompenv_items {v heap rec : MLValue}
    (h : parseCompenv blocks v = .ok (heap, rec)) :
    heap ∈ itemsOf blocks ∧ rec ∈ itemsOf blocks := by
  unfold parseCompenv at h
  split at h
  · split at h
    · next hid =>
        cases h
        exact ⟨mem_itemsOf hid (by simp), mem_itemsOf hid (by simp)⟩
    · cases h
  · cases h

/-- So the tables of an event are. -/
theorem parseEventHead_items {v : MLValue} {st st' : Strings blocks} {head : EventHead}
    (h : parseEventHead relocationOffset v st = .ok (head, st')) :
    head.ceHeap ∈ itemsOf blocks ∧ head.ceRec ∈ itemsOf blocks := by
  rw [parseEventHead_eq] at h
  obtain ⟨items, _, -, h⟩ := stateT_bind_eq_ok.mp h
  obtain ⟨sum, _, -, h⟩ := stateT_bind_eq_ok.mp h
  obtain ⟨module, _, -, h⟩ := stateT_bind_eq_ok.mp h
  obtain ⟨span, _, -, h⟩ := stateT_bind_eq_ok.mp h
  obtain ⟨kind, _, -, h⟩ := stateT_bind_eq_ok.mp h
  obtain ⟨defName, _, -, h⟩ := stateT_bind_eq_ok.mp h
  obtain ⟨info, _, -, h⟩ := stateT_bind_eq_ok.mp h
  obtain ⟨⟨heap, rec⟩, _, hcompenv, h⟩ := stateT_bind_eq_ok.mp h
  obtain ⟨rfl, -⟩ := stateT_pure_eq_ok.mp h
  obtain ⟨tables, htables, hcompenv⟩ := bind_eq_ok.mp hcompenv
  cases hcompenv
  exact parseCompenv_items htables

/-- **Every task after the first is about an item of the blocks**, of which there
are finitely many. -/
theorem debugPlan_items {a b : Task} (h : .inl b ∈ debugPlan blocks relocationOffset a) :
    b.value ∈ itemsOf blocks := by
  cases a with
  -- the subtrees are fields of the node
  | table v =>
      unfold debugPlan at h
      dsimp only at h
      split at h
      · cases List.mem_singleton.mp h
      · cases h
      · next l r _ _ hnode =>
          obtain ⟨hl, hr⟩ := tableNode_items hnode
          split at h
          · cases List.mem_singleton.mp h
          · simp only [List.mem_cons, Sum.inl.injEq, List.not_mem_nil, or_false] at h
            rcases h with rfl | rfl
            · exact hr
            · exact hl
  -- the tables of the environment are fields of fields
  | event v =>
      unfold debugPlan at h
      dsimp only at h
      split at h
      · cases List.mem_singleton.mp h
      · next head _ hhead =>
          obtain ⟨hheap, hrec⟩ := parseEventHead_items hhead
          simp only [List.mem_append, List.mem_cons, Sum.inl.injEq, List.not_mem_nil,
            or_false] at h
          rcases h with (rfl | rfl) | h | h
          · exact hheap
          · exact hrec
          · exact absurd h not_mem_stopIf
          · exact absurd h not_mem_stopIf
  -- an event and the rest of the list are the fields of a cell
  | cell v =>
      unfold debugPlan at h
      dsimp only at h
      split at h
      · cases List.mem_singleton.mp h
      · cases h
      · next hcell =>
          obtain ⟨ha, hb⟩ := eventCell_items hcell
          simp only [List.mem_cons, Sum.inl.injEq, List.not_mem_nil, or_false] at h
          rcases h with rfl | rfl
          · exact ha
          · exact hb

/-- There are only finitely many tasks. -/
theorem debugPlan_finite (a : Task) :
    {b | Relation.ReflTransGen (Walk.Enters (debugPlan blocks relocationOffset)) a b}.Finite := by
  let tasks : Set Task := {b | b.value ∈ itemsOf blocks}
  -- every task but the first is about a value inside a block
  have htasks : tasks.Finite := by
    refine Set.Finite.subset ((((itemsOf blocks).map Task.table ++ (itemsOf blocks).map Task.event)
      ++ (itemsOf blocks).map Task.cell).finite_toSet) ?_
    intro b hb
    cases b with
    | table v => exact List.mem_append_left _ (List.mem_append_left _ (List.mem_map_of_mem hb))
    | event v => exact List.mem_append_left _ (List.mem_append_right _ (List.mem_map_of_mem hb))
    | cell v => exact List.mem_append_right _ (List.mem_map_of_mem hb)
  refine Walk.finite_reach (htasks.insert a) (Set.mem_insert a _) ?_
  intro b _ c hc
  exact Set.mem_insert_of_mem a (debugPlan_items hc)

/-! ## §4. The loops do what the walk says. -/

/-- What succeeds does so whatever strings are known. -/
theorem Tame.ok {β : Type} {E : Fault DebugError → Prop} {x : Parse blocks β} (h : Tame E x)
    {st t : Strings blocks} {b : β} (hx : x st = .ok (b, t)) (st' : Strings blocks) :
    ∃ t', x st' = .ok (b, t') := by
  have hsame := h.same st st'
  rw [hx] at hsame
  cases hx' : x st' with
  | ok p =>
      rw [hx'] at hsame
      cases hsame
      exact ⟨p.2, rfl⟩
  | error f =>
      rw [hx'] at hsame
      cases hsame

/-- And what fails fails the same way. -/
theorem Tame.error {β : Type} {E : Fault DebugError → Prop} {x : Parse blocks β} (h : Tame E x)
    {st : Strings blocks} {f : Fault DebugError} (hx : x st = .error f) (st' : Strings blocks) :
    x st' = .error f := by
  have hsame := h.same st st'
  rw [hx] at hsame
  cases hx' : x st' with
  | ok p =>
      rw [hx'] at hsame
      cases hsame
  | error g =>
      rw [hx'] at hsame
      cases hsame
      rfl

/-- What can come out of the loop of `parse_env_table`, on a stack of tables. -/
def envTableOut (blocks : MLValueBlocks) (n : Nat) (as : List Task) (r : Rust DebugError Unit) :
    Prop := ∃ (vs : List MLValue) (found : List (Int × Ident)) (st : Strings blocks),
  as = vs.map .table ∧ (envTableLoop n vs found st).map (fun _ => ()) = r

/-- One turn of the loop. -/
theorem envTableLoop_cons {n : Nat} {a : Task} {as : List Task} {r : Rust DebugError Unit}
    (h : envTableOut blocks (n + 1) (a :: as) r) :
    (∃ f after, debugPlan blocks relocationOffset a = .inr f :: after ∧ r = .error f) ∨
      ∃ bs : List Task, debugPlan blocks relocationOffset a = bs.map .inl ∧
        envTableOut blocks n (bs ++ as) r := by
  obtain ⟨vs, found, st, has, rfl⟩ := h
  cases vs with
  | nil => cases has
  | cons v vs =>
      obtain ⟨rfl, rfl⟩ := List.cons.inj has
      unfold envTableLoop debugPlan
      dsimp only
      cases hnode : tableNode blocks v with
      | error f => exact .inl ⟨f, [], rfl, rfl⟩
      | ok node =>
          cases node with
          | none => exact .inr ⟨[], rfl, vs, found, st, rfl, rfl⟩
          | some node =>
              obtain ⟨l, r, data, identValue⟩ := node
              have htame : Tame IsErr (parseIdent identValue : Parse blocks Ident) :=
                tame_parseIdent isErr_error identValue
              dsimp only
              cases hident : parseIdent identValue (Strings.new blocks) with
              | error f =>
                  refine .inl ⟨f, [], rfl, ?_⟩
                  show (parseIdent identValue st >>= fun p => _).map _ = _
                  rw [htame.error hident st]
                  rfl
              | ok p =>
                  -- the strings at hand are others than in the plan
                  obtain ⟨st', hst'⟩ := htame.ok hident st
                  refine .inr ⟨[.table r, .table l], rfl, r :: l :: vs, found ++ [(data, p.1)], st',
                    rfl, ?_⟩
                  show _ = (parseIdent identValue st >>= fun p =>
                    envTableLoop n (r :: l :: vs) (found ++ [(data, p.1)]) p.2).map _
                  rw [hst']
                  rfl

/-- What can come out of the procedures. -/
def debugOut (blocks : MLValueBlocks) (relocationOffset : Nat) :
    Task → Nat → Rust DebugError Unit → Prop
  | .table v, n, r => ∃ st : Strings blocks, (parseEnvTable n v st).map (fun _ => ()) = r
  | .event v, n, r => ∃ st : Strings blocks,
      (parseDebugEvent relocationOffset n v st).map (fun _ => ()) = r
  | .cell v, n, r => ∃ (events : List DebugEvent) (st : Strings blocks),
      (eventListLoop relocationOffset n v events st).map (fun _ => ()) = r

/-- The parse of a table follows the plan. -/
theorem parseEnvTable_follows (v : MLValue) :
    Walk.Follows (debugPlan blocks relocationOffset) (.table v)
      (debugOut blocks relocationOffset (.table v)) := by
  have hloop : Walk.Follows (debugPlan blocks relocationOffset) (.table v)
      fun n => envTableOut blocks n [.table v] := by
    refine Walk.follows_of_stack debugPlan_ends ?_ ?_ (fun _ _ _ _ => envTableLoop_cons) _
    · intro as r h
      obtain ⟨vs, found, st, -, rfl⟩ := h
      rfl
    · intro n r h
      obtain ⟨vs, found, st, has, rfl⟩ := h
      rw [List.map_eq_nil_iff.mp has.symm]
      rfl
  refine hloop.mono fun n r h => ?_
  obtain ⟨st, rfl⟩ := h
  refine ⟨[v], [], st, rfl, ?_⟩
  show _ = (envTableLoop n [v] [] st >>= fun p => pure (sortByKey p.1, p.2)).map _
  cases envTableLoop n [v] [] st with
  | ok p => rfl
  | error f => rfl

/-- An event does what its walk says. -/
theorem parseDebugEvent_runs {v : MLValue} {n : Nat} {r : Rust DebugError Unit}
    (h : debugOut blocks relocationOffset (.event v) (n + 1) r) :
    Walk.RunsTo (fun b => debugOut blocks relocationOffset b n)
      (debugPlan blocks relocationOffset (.event v)) r := by
  obtain ⟨st, rfl⟩ := h
  have htame : Tame IsStop (parseEventHead relocationOffset v : Parse blocks EventHead) :=
    tame_parseEventHead (fun e => .inl (isErr_error e)) (.inr rfl) v
  unfold debugPlan parseDebugEvent
  dsimp only
  cases hhead : parseEventHead relocationOffset v (Strings.new blocks) with
  | error f =>
      show Walk.RunsTo _ [.inr f] ((parseEventHead relocationOffset v st >>= fun p => _).map _)
      rw [htame.error hhead st]
      exact .fail
  | ok p =>
      obtain ⟨head, _⟩ := p
      obtain ⟨st₁, hst₁⟩ := htame.ok hhead st
      -- the heap table, the recursive one, and two more checks
      show Walk.RunsTo _ (.inl _ :: .inl _ :: (stopIf _ ++ stopIf _))
        ((parseEventHead relocationOffset v st >>= fun p => _).map _)
      rw [hst₁]
      show Walk.RunsTo _ _ ((parseEnvTable n head.ceHeap st₁ >>= fun p => _).map _)
      cases hheap : parseEnvTable n head.ceHeap st₁ with
      | error f => exact .stop ⟨st₁, by rw [hheap]; rfl⟩
      | ok p =>
          refine .next ⟨st₁, by rw [hheap]; rfl⟩ ?_
          show Walk.RunsTo _ _ ((parseEnvTable n head.ceRec p.2 >>= fun p => _).map _)
          cases hrec : parseEnvTable n head.ceRec p.2 with
          | error f => exact .stop ⟨p.2, by rw [hrec]; rfl⟩
          | ok q =>
              refine .next ⟨p.2, by rw [hrec]; rfl⟩ ?_
              cases parseStackSize head.items.stackSize with
              | error f => exact .fail
              | ok size =>
                  cases parseRepr blocks head.items.repr with
                  | error f => exact .fail
                  | ok repr => exact .done

/-- So does a list. -/
theorem eventListLoop_runs {v : MLValue} {n : Nat} {r : Rust DebugError Unit}
    (h : debugOut blocks relocationOffset (.cell v) (n + 1) r) :
    Walk.RunsTo (fun b => debugOut blocks relocationOffset b n)
      (debugPlan blocks relocationOffset (.cell v)) r := by
  obtain ⟨events, st, rfl⟩ := h
  unfold debugPlan eventListLoop
  dsimp only
  cases eventCell blocks v with
  | error f => exact .fail
  | ok cell =>
      cases cell with
      | none => exact .done
      | some cell =>
          obtain ⟨a, b⟩ := cell
          show Walk.RunsTo _ [.inl _, .inl _]
            ((parseDebugEvent relocationOffset n a st >>= fun p =>
              eventListLoop relocationOffset n b (events ++ [p.1]) p.2).map _)
          cases hevent : parseDebugEvent relocationOffset n a st with
          | error f => exact .stop ⟨st, by rw [hevent]; rfl⟩
          | ok p =>
              refine .next ⟨st, by rw [hevent]; rfl⟩ ?_
              rw [ok_bind]
              cases hloop : eventListLoop relocationOffset n b (events ++ [p.1]) p.2 with
              | error f => exact .stop ⟨_, _, by rw [hloop]; rfl⟩
              | ok q => exact .next ⟨_, _, by rw [hloop]; rfl⟩ .done

/-- **The procedures do what the walk says.** -/
theorem debugOut_follows (a : Task) :
    Walk.Follows (debugPlan blocks relocationOffset) a (debugOut blocks relocationOffset a) := by
  -- tables are read with a stack, the others call each other
  refine Walk.follows_of_runs (fun a => ∃ v, a = .table v) debugPlan_ends ?_ ?_ ?_ a
  · intro a h
    obtain ⟨v, rfl⟩ := h
    exact parseEnvTable_follows v
  · intro a r hnot h
    cases a with
    | table v => exact absurd ⟨v, rfl⟩ hnot
    | event v =>
        obtain ⟨st, rfl⟩ := h
        rfl
    | cell v =>
        obtain ⟨events, st, rfl⟩ := h
        rfl
  · intro a n r hnot h
    cases a with
    | table v => exact absurd ⟨v, rfl⟩ hnot
    | event v => exact parseDebugEvent_runs h
    | cell v => exact eventListLoop_runs h

/-! ## §5. When they come back. -/

/-- From a table only tables are reached. -/
theorem reach_table {v : MLValue} {b : Task}
    (h : Relation.ReflTransGen (Walk.Enters (debugPlan blocks relocationOffset)) (.table v) b) :
    ∃ w, b = .table w := by
  induction h with
  | refl => exact ⟨v, rfl⟩
  | @tail _ c _ henters ih =>
      obtain ⟨w, rfl⟩ := ih
      obtain ⟨before, after, hplan, -⟩ := henters
      have hmem : .inl c ∈ debugPlan blocks relocationOffset (.table w) := by
        rw [hplan]
        exact List.mem_append_right _ List.mem_cons_self
      unfold debugPlan at hmem
      dsimp only at hmem
      split at hmem
      · cases List.mem_singleton.mp hmem
      · cases hmem
      · split at hmem
        · cases List.mem_singleton.mp hmem
        · simp only [List.mem_cons, Sum.inl.injEq, List.not_mem_nil, or_false] at hmem
          rcases hmem with rfl | rfl
          · exact ⟨_, rfl⟩
          · exact ⟨_, rfl⟩

/-- **A panic is an event whose position does not fit.** -/
theorem fails_panic_iff (hsmall : SmallInts blocks) (a : Task) :
    Walk.Fails (debugPlan blocks relocationOffset) .panic a ↔
      ∃ event, Relation.ReflTransGen (Walk.Enters (debugPlan blocks relocationOffset)) a
        (.event event) ∧ PositionOverflows blocks relocationOffset event := by
  rw [Walk.fails_iff]
  constructor
  · intro h
    obtain ⟨b, hreach, before, after, hplan, -⟩ := h
    have hmem : .inr .panic ∈ debugPlan blocks relocationOffset b := by
      rw [hplan]
      exact List.mem_append_right _ List.mem_cons_self
    rcases debugPlan_fault hmem with ⟨e, he⟩ | ⟨v, rfl, -, -, hpanic⟩
    · cases he
    · exact ⟨v, hreach, (parseEventHead_panic hsmall _).mp hpanic⟩
  · intro h
    obtain ⟨v, hreach, hover⟩ := h
    refine ⟨.event v, hreach, [], [], ?_, by simp⟩
    have hpanic := (parseEventHead_panic hsmall (Strings.new blocks)).mpr hover
    unfold debugPlan
    simp only [hpanic, panicked]
    rfl

/-- **`parse_env_table` comes back if and only if no node it gets to is inside
itself.** -/
theorem parseEnvTable_returns_iff (hsmall : SmallInts blocks) (v : MLValue)
    (st : Strings blocks) : Walk.Returns (fun n => parseEnvTable n v st) ↔
      Walk.Acyclic (debugPlan blocks relocationOffset) (.table v) := by
  rw [(debugOut_follows (.table v)).returns_iff (fun n => ⟨st, rfl⟩),
    Walk.stops_iff_acyclic (debugPlan_finite _), fails_panic_iff hsmall]
  refine and_iff_left fun h => ?_
  obtain ⟨event, hreach, -⟩ := h
  obtain ⟨w, hw⟩ := reach_table hreach
  cases hw

/-- **`parse_event_list` comes back if and only if no list and no node it gets to
is inside itself, and no position it gets to does not fit.** -/
theorem parseEventList_returns_iff (hsmall : SmallInts blocks) (list : MLValue) :
    Walk.Returns (fun n => parseEventList blocks list relocationOffset n) ↔
      Walk.Acyclic (debugPlan blocks relocationOffset) (.cell list) ∧
        ∀ event, Relation.ReflTransGen (Walk.Enters (debugPlan blocks relocationOffset))
          (.cell list) (.event event) → ¬ PositionOverflows blocks relocationOffset event := by
  have hout : ∀ n, debugOut blocks relocationOffset (.cell list) n
      ((parseEventList blocks list relocationOffset n).map fun _ => ()) := by
    intro n
    refine ⟨[], Strings.new blocks, ?_⟩
    unfold parseEventList
    cases eventListLoop relocationOffset n list [] (Strings.new blocks) with
    | ok p => rfl
    | error f => rfl
  rw [(debugOut_follows (.cell list)).returns_iff hout,
    Walk.stops_iff_acyclic (debugPlan_finite _), fails_panic_iff hsmall, not_exists]
  exact and_congr_right fun _ => forall_congr' fun _ => not_and

/-! ## §6. Values from a file. -/

/-- A header that is skipped. -/
def skippedHeader : List UInt8 :=
  [0x84, 0x95, 0xA6, 0xBE, 0, 0, 0, 0, 0, 0, 0, 0, 0, 0, 0, 0, 0, 0, 0, 0]

/-- A node of a map with itself on the left. -/
def mapInItself : MLValueBlocks := ⟨[⟨0, [.block 0, .int 0, .int 0, .int 0, .int 0]⟩], []⟩

/-- A node of a table with itself on the right. -/
def tableInItself : MLValueBlocks :=
  ⟨[⟨0, [.int 0, .block 1, .block 0, .int 1]⟩, ⟨0, [.block 2, .int 0, .int 0]⟩,
    ⟨2, [.string 0]⟩], [.utf8 ""]⟩

/-- A list of an event with itself as the rest. -/
def listInItself : MLValueBlocks :=
  ⟨[⟨0, [.block 1, .block 0]⟩,
    ⟨0, [.int 0, .string 0, .block 2, .int 0, .string 3, .int 0, .int 0, .int 0, .block 5, .int 0,
      .int 0]⟩,
    ⟨0, [.block 3, .block 4, .int 0]⟩, ⟨0, [.string 1, .int 0, .int 0, .int 0]⟩,
    ⟨0, [.string 2, .int 0, .int 0, .int 0]⟩, ⟨0, [.int 0, .int 0, .int 0]⟩],
    [.utf8 "", .utf8 "", .utf8 "", .utf8 ""]⟩

/-- A task that enters itself. -/
theorem not_acyclic_of_enters {ε α : Type} {plan : Walk.Plan ε α} {a : α}
    (h : Walk.Enters plan a a) : ¬ Walk.Acyclic plan a := fun hacyclic =>
  hacyclic a .refl (.single h)

/-- **What a file must not have in it for the traversals to come back**: a value
inside itself where they look, or a position that overflows. -/
theorem traversals_return_iff (input : List UInt8) (out : Output)
    (h : inputValue input = .ok out) (relocationOffset : Nat) :
    (∀ v entries, Walk.Returns (fun n => findRec out.blocks n v entries) ↔
      Walk.Acyclic (symbolPlan out.blocks) v) ∧
    (∀ v (st : Strings out.blocks), Walk.Returns (fun n => parseEnvTable n v st) ↔
      Walk.Acyclic (debugPlan out.blocks relocationOffset) (.table v)) ∧
    (∀ list, Walk.Returns (fun n => parseEventList out.blocks list relocationOffset n) ↔
      Walk.Acyclic (debugPlan out.blocks relocationOffset) (.cell list) ∧
        ∀ event, Relation.ReflTransGen (Walk.Enters (debugPlan out.blocks relocationOffset))
          (.cell list) (.event event) →
            ¬ PositionOverflows out.blocks relocationOffset event) := by
  have hsmall := smallInts_of_inputValue h
  refine ⟨findRec_returns_iff out.blocks, parseEnvTable_returns_iff hsmall, ?_⟩
  exact parseEventList_returns_iff hsmall

/-- A map of two nodes with one name, and a list of an event whose two tables are one. -/
def sharedFile : List UInt8 :=
  skippedHeader ++
    [0xA0, 0xD0, 0x40, 0x92, 0x20, 0x40, 0xD0, 0x40, 0x04, 0x03, 0x41, 0x40, 0x41, 0x42, 0xA0, 0x08,
      0, 0, 0x2C, 0, 0x40, 0x20, 0xB0, 0xC0, 0x20, 0x40, 0x40, 0x40, 0xC0, 0x20, 0x40, 0x40, 0x40,
      0x40, 0x40, 0x20, 0x40, 0x40, 0x40, 0xB0, 0x40, 0xC0, 0x40, 0xB0, 0x92, 0x20, 0x40, 0x40,
      0x40, 0x41, 0x04, 0x04, 0x40, 0x40, 0x40]

/-- What is read from it: the map is block 1, the list block 4 and the table block 10. -/
def sharedBlocks : MLValueBlocks :=
  ⟨[⟨0, [.block 1, .block 4]⟩, ⟨0, [.int 0, .block 2, .int 0, .block 3, .int 2]⟩,
    ⟨2, [.string 0]⟩, ⟨0, [.int 0, .block 2, .int 1, .int 0, .int 1]⟩, ⟨0, [.block 5, .int 0]⟩,
    ⟨0, [.int 0, .string 1, .block 6, .int 0, .string 4, .int 0, .int 0, .int 0, .block 9, .int 0,
      .int 0]⟩,
    ⟨0, [.block 7, .block 8, .int 0]⟩, ⟨0, [.string 2, .int 0, .int 0, .int 0]⟩,
    ⟨0, [.string 3, .int 0, .int 0, .int 0]⟩, ⟨0, [.int 0, .block 10, .block 10]⟩,
    ⟨0, [.int 0, .block 11, .int 0, .int 1]⟩, ⟨0, [.block 12, .int 0, .int 0]⟩,
    ⟨2, [.string 5]⟩],
    [.utf8 "", .utf8 "", .utf8 "", .utf8 "", .utf8 "", .utf8 ""]⟩

/-- All three come back from this file, in which nothing is inside itself. -/
theorem traversals_return_iff_shared :
    inputValue sharedFile = .ok ⟨sharedBlocks, .block 0, []⟩ ∧
      Walk.Returns (fun n => findRec sharedBlocks n (.block 1) fun _ => none) ∧
      Walk.Returns (fun n => parseEnvTable n (.block 10) (Strings.new sharedBlocks)) ∧
      Walk.Returns (fun n => parseEventList sharedBlocks (.block 4) 0 n) := by
  have h : inputValue sharedFile = .ok ⟨sharedBlocks, .block 0, []⟩ := by decide +kernel
  have hmap : Walk.Ordered (symbolPlan sharedBlocks) [.block 1, .block 3, .int 0] := by
    decide +kernel
  have hlist : Walk.Ordered (debugPlan sharedBlocks 0)
      [.cell (.block 4), .cell (.int 0), .event (.block 5), .table (.block 10), .table (.int 0)] := by
    decide +kernel
  obtain ⟨hfind, htable, hevents⟩ := traversals_return_iff _ _ h 0
  refine ⟨h, (hfind _ _).mpr (hmap.acyclic (by decide)),
    (htable _ _).mpr (hlist.acyclic (by decide)),
    (hevents _).mpr ⟨hlist.acyclic (by decide), fun event hreach => ?_⟩⟩
  have hevent : event = .block 5 := by
    have hmem := Walk.mem_of_reach (S := {t | t ∈ ([.cell (.block 4), .cell (.int 0),
      .event (.block 5), .table (.block 10), .table (.int 0)] : List Task)}) (by simp)
      (fun t ht u hu => (hlist.later ht hu).1) hreach
    simpa using hmem
  rintro ⟨items, hitems, hover⟩
  subst hevent
  cases hitems
  exact absurd hover (by decide)

/-- Three files that are accepted and never read to the end. -/
theorem traversals_inItself :
    (inputValue (skippedHeader ++ [0xD0, 0x04, 0x01, 0x40, 0x40, 0x40, 0x40]) =
        .ok ⟨mapInItself, .block 0, []⟩ ∧
      ∀ entries, ¬ Walk.Returns fun n => findRec mapInItself n (.block 0) entries) ∧
    (inputValue (skippedHeader ++
          [0xC0, 0x40, 0xB0, 0x92, 0x20, 0x40, 0x40, 0x04, 0x04, 0x41]) =
        .ok ⟨tableInItself, .block 0, []⟩ ∧
      ∀ st : Strings tableInItself, ¬ Walk.Returns fun n => parseEnvTable n (.block 0) st) ∧
    (inputValue (skippedHeader ++
          [0xA0, 0x08, 0, 0, 0x2C, 0, 0x40, 0x20, 0xB0, 0xC0, 0x20, 0x40, 0x40, 0x40, 0xC0, 0x20,
            0x40, 0x40, 0x40, 0x40, 0x40, 0x20, 0x40, 0x40, 0x40, 0xB0, 0x40, 0x40, 0x40, 0x40,
            0x40, 0x04, 0x0A]) =
        .ok ⟨listInItself, .block 0, []⟩ ∧
      ¬ Walk.Returns fun n => parseEventList listInItself (.block 0) 0 n) := by
  refine ⟨⟨by decide +kernel, ?_⟩, ⟨by decide +kernel, ?_⟩, ⟨by decide +kernel, ?_⟩⟩
  -- the left child of the map is the map
  · intro entries
    rw [findRec_returns_iff]
    exact not_acyclic_of_enters
      ⟨[], [.inr (.error .mapMakeNode), .inl (.int 0)], rfl, by simp⟩
  -- the table is its own child
  · intro st
    have hsmall : SmallInts tableInItself := by
      intro i hi
      have hi : i = 0 ∨ i = 1 ∨ i = 0 := by simpa [itemsOf, tableInItself] using hi
      unfold FitsI32
      omega
    rw [@parseEnvTable_returns_iff tableInItself 0 hsmall]
    exact not_acyclic_of_enters ⟨[], [.inl (.table (.int 0))], rfl, by simp⟩
  -- the rest of the list is the list, after an event that is read
  · have hsmall : SmallInts listInItself := by
      intro i hi
      obtain rfl : i = 0 := by simpa [itemsOf, listInItself] using hi
      unfold FitsI32
      omega
    rw [parseEventList_returns_iff hsmall]
    intro h
    have hleaf : Walk.Clears (debugPlan listInItself 0) (.table (.int 0)) :=
      .intro [] rfl (by simp)
    refine not_acyclic_of_enters ⟨[.event (.block 1)], [], rfl, ?_⟩ h.1
    intro c hc
    rw [List.mem_singleton.mp hc]
    refine .intro [.table (.int 0), .table (.int 0)] rfl fun b hb => ?_
    obtain rfl : b = .table (.int 0) := by simpa using hb
    exact hleaf

end OcamlJit.BytecodeFiles

/-
  OcamlJit.BytecodeFiles.SymbolTable
  ──────────────────────────────────
  **THE SYMBOL TABLE** (`bytecode_files/symbol_table.rs`).

  `find_rec` goes down the tree of a map; the recursion runs on fuel.  A tree
  that was read from a file may contain itself.
-/
import OcamlJit.Marshal.SmallInts
import OcamlJit.Lib.Walk

namespace OcamlJit.BytecodeFiles

open OcamlJit.Lib OcamlJit.Marshal

/-! ## §1. The source. -/

/-- The texts of `bail!`. -/
inductive SymbolTableError where
  /-- "Unexpected symbol table format - Ident". -/
  | ident
  /-- "Unexpected symbol table format - Map.Make Node". -/
  | mapMakeNode
  /-- "Unexpected symbol table format - Map.Make t". -/
  | mapMakeT
  deriving Repr, DecidableEq

/-- `i as usize`. -/
def asUsize (i : Int) : Nat := (i % 2 ^ 64).toNat

/-- `entries`. -/
abbrev SymbolTable := Nat → Option String

/-- The `match v` of `find_rec`: the name of the ident. -/
def identString (blocks : MLValueBlocks) : MLValue → Rust SymbolTableError String
  | .block blockId =>
      match blocks.blocks[blockId]? with
      | some ⟨_, items⟩ =>
          match items.head? with
          | some (.string stringId) =>
              match blocks.strings[stringId]? with
              | some (.utf8 s) => .ok s
              | _ => err .ident
          | _ => err .ident
      | none => err .mapMakeNode
  | _ => err .mapMakeNode

/-- The pattern of a node of the map: left, key, number and right. -/
def mapNode (blocks : MLValueBlocks) (blockId : Nat) :
    Option (MLValue × MLValue × Int × MLValue) :=
  match blocks.blocks[blockId]? with
  | some ⟨_, [l, v, .int index, r, _]⟩ => some (l, v, index, r)
  | _ => none

/-- `find_rec`.  The machine stack is taken as unbounded: out of fuel is a recursion
without an end, not a deep one. -/
def findRec (blocks : MLValueBlocks) :
    Nat → MLValue → SymbolTable → Rust SymbolTableError SymbolTable
  | 0, _, _ => .error .outOfFuel
  | fuel + 1, .block blockId, entries =>
      match mapNode blocks blockId with
      | some (l, v, index, r) => do
          let entries ← findRec blocks fuel l entries
          let s ← identString blocks v
          findRec blocks fuel r (Function.update entries (asUsize index) (some s))
      | none => err .mapMakeT
  | _ + 1, _, entries => .ok entries

/-! ## §2. Its walk. -/

/-- Stop if `x` did. -/
def stopIf {ε α β : Type} : Rust ε β → List (α ⊕ Fault ε)
  | .ok _ => []
  | .error f => [.inr f]

/-- What `find_rec` does on a value. -/
def symbolPlan (blocks : MLValueBlocks) : Walk.Plan SymbolTableError MLValue
  | .block blockId =>
      match mapNode blocks blockId with
      | some (l, v, _, r) => .inl l :: (stopIf (identString blocks v) ++ [.inl r])
      | none => [.inr (.error .mapMakeT)]
  | _ => []

theorem identString_error {blocks : MLValueBlocks} {v : MLValue} {f : Fault SymbolTableError}
    (h : identString blocks v = .error f) : ∃ e, f = .error e := by
  unfold identString err at h
  cases v with
  | block id =>
      dsimp only at h
      split at h
      · split at h
        · split at h
          · cases h
          · cases h
            exact ⟨_, rfl⟩
        · cases h
          exact ⟨_, rfl⟩
      · cases h
        exact ⟨_, rfl⟩
  | _ =>
      cases h
      exact ⟨_, rfl⟩

/-- A task of this walk stops with an `Err` if it stops. -/
theorem symbolPlan_fault {blocks : MLValueBlocks} {v : MLValue} {f : Fault SymbolTableError}
    (h : .inr f ∈ symbolPlan blocks v) : ∃ e, f = .error e := by
  cases v with
  | block id =>
      unfold symbolPlan at h
      dsimp only at h
      cases hnode : mapNode blocks id with
      | none =>
          rw [hnode] at h
          cases List.mem_singleton.mp h
          exact ⟨_, rfl⟩
      | some node =>
          rw [hnode] at h
          simp only [List.mem_cons, List.mem_append, List.not_mem_nil, or_false, reduceCtorEq,
            false_or] at h
          cases hident : identString blocks node.2.1 with
          | ok s =>
              rw [hident] at h
              cases h
          | error g =>
              rw [hident] at h
              cases List.mem_singleton.mp h
              exact identString_error hident
  | _ => cases h

/-- What can come out of `find_rec`. -/
def findRecOut (blocks : MLValueBlocks) (v : MLValue) (n : Nat) (r : Rust SymbolTableError Unit) :
    Prop := ∃ entries, (findRec blocks n v entries).map (fun _ => ()) = r

/-- **`find_rec` does what the walk says.** -/
theorem findRec_runs {blocks : MLValueBlocks} {v : MLValue} {n : Nat}
    {r : Rust SymbolTableError Unit} (h : findRecOut blocks v (n + 1) r) :
    Walk.RunsTo (fun b => findRecOut blocks b n) (symbolPlan blocks v) r := by
  obtain ⟨entries, rfl⟩ := h
  cases v with
  | block id =>
      unfold findRec symbolPlan
      dsimp only
      cases mapNode blocks id with
      | none => exact .fail
      | some node =>
          obtain ⟨l, v, index, r⟩ := node
          dsimp only
          cases hl : findRec blocks n l entries with
          | error f => exact .stop ⟨entries, by rw [hl]; rfl⟩
          | ok entries' =>
              refine .next ⟨entries, by rw [hl]; rfl⟩ ?_
              cases identString blocks v with
              | error f => exact .fail
              | ok s =>
                  dsimp only [ok_bind]
                  show Walk.RunsTo _ [.inl r] _
                  generalize hr : findRec blocks n r _ = x
                  cases x with
                  | error f => exact .stop ⟨_, by rw [hr]; rfl⟩
                  | ok entries'' => exact .next ⟨_, by rw [hr]; rfl⟩ .done
  | _ => exact .done

theorem mapNode_items {blocks : MLValueBlocks} {id : Nat} {l v r : MLValue} {index : Int}
    (h : mapNode blocks id = some (l, v, index, r)) : l ∈ itemsOf blocks ∧ r ∈ itemsOf blocks := by
  unfold mapNode at h
  split at h
  · next hid =>
      cases h
      exact ⟨mem_itemsOf hid (by simp), mem_itemsOf hid (by simp)⟩
  · cases h

theorem symbolPlan_items {blocks : MLValueBlocks} {v w : MLValue}
    (h : .inl w ∈ symbolPlan blocks v) : w ∈ itemsOf blocks := by
  cases v with
  | block id =>
      unfold symbolPlan at h
      dsimp only at h
      cases hnode : mapNode blocks id with
      | none =>
          rw [hnode] at h
          cases List.mem_singleton.mp h
      | some node =>
          obtain ⟨l, v, index, r⟩ := node
          obtain ⟨hl, hr⟩ := mapNode_items hnode
          rw [hnode] at h
          simp only [List.mem_cons, List.mem_append, List.not_mem_nil, or_false,
            Sum.inl.injEq] at h
          rcases h with rfl | h | rfl
          · exact hl
          · cases hident : identString blocks v with
            | ok s =>
                rw [hident] at h
                cases h
            | error f =>
                rw [hident] at h
                cases List.mem_singleton.mp h
          · exact hr
  | _ => cases h

/-- **`find_rec` comes back if and only if no node it gets to is inside itself.** -/
theorem findRec_returns_iff (blocks : MLValueBlocks) (v : MLValue) (entries : SymbolTable) :
    Walk.Returns (fun n => findRec blocks n v entries) ↔ Walk.Acyclic (symbolPlan blocks) v := by
  have hfuel : ∀ a, .inr .outOfFuel ∉ symbolPlan blocks a := by
    intro a h
    obtain ⟨e, he⟩ := symbolPlan_fault h
    cases he
  have hfollows : Walk.Follows (symbolPlan blocks) v (findRecOut blocks v) := by
    refine Walk.follows_of_runs (fun _ => False) hfuel (fun _ h => h.elim) ?_ ?_ v
    · intro a r _ h
      obtain ⟨entries, rfl⟩ := h
      rfl
    · intro a n r _ h
      exact findRec_runs h
  have hpanic : ¬ Walk.Fails (symbolPlan blocks) .panic v := by
    intro h
    obtain ⟨b, -, before, after, hplan, -⟩ := Walk.fails_iff.mp h
    have hmem : .inr .panic ∈ symbolPlan blocks b := by
      rw [hplan]
      exact List.mem_append_right _ List.mem_cons_self
    obtain ⟨e, he⟩ := symbolPlan_fault hmem
    cases he
  have hfin : {b | Relation.ReflTransGen (Walk.Enters (symbolPlan blocks)) v b}.Finite := by
    refine Walk.finite_reach ((itemsOf blocks).finite_toSet.insert v) (Set.mem_insert v _) ?_
    intro b _ c hc
    exact Set.mem_insert_of_mem v (symbolPlan_items hc)
  rw [hfollows.returns_iff (fun n => ⟨entries, rfl⟩), Walk.stops_iff_acyclic hfin]
  exact and_iff_left hpanic

end OcamlJit.BytecodeFiles

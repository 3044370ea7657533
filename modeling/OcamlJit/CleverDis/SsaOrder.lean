/-
  OcamlJit.CleverDis.SsaOrder
  ───────────────────────────
  **THE ORDER OF THE SSA BLOCKS** (`dfs_blocks` in `clever_dis/ssa/mod.rs`).

  One depth-first search orders the blocks and checks the sizes of the stack: it
  looks at each block once and compares sizes along every edge.  That is enough
  for all paths (`dfsBlocks_ok_iff`), and the reverse post-order is what
  `OcamlJit.Lib.DepthFirst` says about any such search (`dfsBlocks_order`).
-/
import OcamlJit.CleverDis.Ssa
import OcamlJit.Lib.DepthFirst
import Mathlib.Data.Finset.Card
import Mathlib.Data.List.Sort

namespace OcamlJit.CleverDis.Ssa

open OcamlJit.Lib

/-! ## §1. The source. -/

/-- The blocks an exit names. -/
def SSAExit.targets : SSAExit → List Nat
  | .stop _ => []
  | .jump target => [target]
  | .jumpIf _ ifTrue ifFalse => [ifTrue, ifFalse]
  | .switch _ ints blocks => ints ++ blocks
  | .tailApply _ _ => []
  | .pushTrap normal trap => [normal, trap]
  | .raise _ _ => []
  | .return_ _ => []

/-- `referenced_blocks`: each block once, in ascending order. -/
def SSAExit.referencedBlocks (e : SSAExit) : List Nat :=
  e.targets.dedup.insertionSort (· ≤ ·)

@[simp] theorem SSAExit.mem_referencedBlocks {e : SSAExit} {w : Nat} :
    w ∈ e.referencedBlocks ↔ w ∈ e.targets := by
  unfold SSAExit.referencedBlocks
  rw [List.mem_insertionSort, List.mem_dedup]

/-- `Stop` and `Return`. -/
def SSAExit.isReturn : SSAExit → Bool
  | .stop _ | .return_ _ => true
  | _ => false

/-- What `dfs_blocks` can return as `Err`. -/
inductive OrderError where
  /-- `ensure!(condition)`. -/
  | conditionFailed (condition : String)
  deriving Repr, DecidableEq

/-- `sizes` and `post_order`. -/
structure DfsState where
  sizes : Nat → Option Nat
  postOrder : List Nat

/-- `sizes.insert(block_num, size)`. -/
def DfsState.setSize (st : DfsState) (blockNum size : Nat) : DfsState :=
  { st with sizes := Function.update st.sizes blockNum (some size) }

theorem DfsState.sizes_setSize (st : DfsState) (v s x : Nat) :
    (st.setSize v s).sizes x = if x = v then some s else st.sizes x := Function.update_apply ..

/-- `post_order.push(block_num)`. -/
def DfsState.finish (st : DfsState) (blockNum : Nat) : DfsState :=
  { st with postOrder := st.postOrder ++ [blockNum] }

/-- The loop over `referenced_blocks`. -/
def visitReferenced (dfs : DfsState → Nat → Nat → Rust OrderError DfsState) (newSize : Nat) :
    DfsState → List Nat → Rust OrderError DfsState
  | st, [] => pure st
  | st, otherBlock :: rest => do
      match st.sizes otherBlock with
      | some existingSize =>
          ensure (newSize = existingSize) (.conditionFailed "new_size == existing_size")
          visitReferenced dfs newSize st rest
      | none =>
          let st ← dfs st otherBlock newSize
          visitReferenced dfs newSize st rest

/-- `dfs`, nested at most `fuel` deep. -/
def dfs (blocks : List SSABlock) : Nat → DfsState → Nat → Nat → Rust OrderError DfsState
  | 0, _, _, _ => .error .outOfFuel
  | fuel + 1, st, blockNum, startSize => do
      let some b := blocks[blockNum]? | panicked
      let st := st.setSize blockNum startSize
      let newSize : Int := startSize + b.finalState.delta
      ensure (0 ≤ newSize) (.conditionFailed "new_size >= 0")
      let newSize := newSize.toNat
      let st ←
        if b.exit.isReturn then do
          ensure (newSize = 0) (.conditionFailed "new_size == 0")
          pure st
        else visitReferenced (dfs blocks fuel) newSize st b.exit.referencedBlocks
      pure (st.finish blockNum)

/-- `for (i, block) in order.iter().enumerate() { block_num_to_order[*block] = i; }`. -/
def setOrders : Nat → List Nat → List Nat → Rust OrderError (List Nat)
  | _, [], blockNumToOrder => pure blockNumToOrder
  | i, block :: order, blockNumToOrder =>
      if block < blockNumToOrder.length then
        setOrders (i + 1) order (blockNumToOrder.set block i)
      else panicked

/-- `dfs_blocks`.  A nested call is for a block not seen before. -/
def dfsBlocks (blocks : List SSABlock) : Rust OrderError (List Nat × List Nat) := do
  let st ← dfs blocks (blocks.length + 1) ⟨fun _ => none, []⟩ 0 0
  ensure (blocks.length = st.postOrder.length)
    (.conditionFailed "blocks.len() == post_order.len()")
  let order := st.postOrder.reverse
  let blockNumToOrder ← setOrders 0 order (List.replicate blocks.length 0)
  pure (order, blockNumToOrder)

/-! ## §2. The invariants of its comment. -/

/-- A path from block 0, started with an empty stack, reaches `b` with `s` words
on the stack. -/
inductive PathSize (blocks : List SSABlock) : Nat → Int → Prop where
  | start : PathSize blocks 0 0
  | step {b w : Nat} {s : Int} {block : SSABlock} (h : PathSize blocks b s)
      (hb : blocks[b]? = some block) (hw : w ∈ block.exit.targets) :
      PathSize blocks w (s + block.finalState.delta)

/-- The invariants, by their numbers in the comment. -/
structure StackInvariants (blocks : List SSABlock) : Prop where
  /-- 1. Every path to the start of a block has the same size. -/
  sameSize : ∀ b s s', PathSize blocks b s → PathSize blocks b s' → s = s'
  /-- 2. A normal return ends with size 0. -/
  returnEmpty : ∀ b s block, PathSize blocks b s → blocks[b]? = some block →
    block.exit.isReturn = true → s + block.finalState.delta = 0
  /-- 3. No block ends below 0. -/
  nonneg : ∀ b s block, PathSize blocks b s → blocks[b]? = some block →
    0 ≤ s + block.finalState.delta
  /-- 4. Every block is reachable. -/
  reachable : ∀ b < blocks.length, ∃ s, PathSize blocks b s

/-- The exits name existing blocks. -/
def ExitsInRange (blocks : List SSABlock) : Prop :=
  ∀ block ∈ blocks, ∀ w ∈ block.exit.targets, w < blocks.length

/-! ## §3. What the search does. -/

/-- The edges of the graph. -/
def successors (blocks : List SSABlock) (b : Nat) : List Nat :=
  (blocks[b]?.map fun block => block.exit.referencedBlocks).getD []

/-- The successors of a block are the blocks of its exit. -/
theorem successors_eq {blocks : List SSABlock} {b : Nat} {block : SSABlock}
    (h : blocks[b]? = some block) : successors blocks b = block.exit.referencedBlocks := by
  rw [successors, h]
  rfl

/-- Block `u` and its edges have been looked at. -/
def Settled (blocks : List SSABlock) (sizes : Nat → Option Nat) (u : Nat) : Prop :=
  ∃ (block : SSABlock) (s : Nat), blocks[u]? = some block ∧ sizes u = some s ∧
    0 ≤ s + block.finalState.delta ∧
    (block.exit.isReturn = true → s + block.finalState.delta = 0) ∧
    ∀ w ∈ block.exit.targets, sizes w = some (s + block.finalState.delta).toNat

/-- The sizes noted are sizes on paths. -/
def SizesSound (blocks : List SSABlock) (st : DfsState) : Prop :=
  ∀ x s, st.sizes x = some s → PathSize blocks x s

/-- The search went on from `st` through `ws` to `st'`. -/
structure Explored (blocks : List SSABlock) (st : DfsState) (ws : List Nat) (st' : DfsState)
    (new : List Nat) : Prop where
  searches : Searches (successors blocks) {x | (st.sizes x).isSome} ws new
  postOrder : st'.postOrder = st.postOrder ++ new
  kept : ∀ x s, st.sizes x = some s → st'.sizes x = some s
  seen : ∀ x, (st'.sizes x).isSome ↔ (st.sizes x).isSome ∨ x ∈ new
  sound : SizesSound blocks st'
  settled : ∀ u ∈ new, Settled blocks st'.sizes u

/-- A result: a state, or the invariants do not hold, or an exit is out of range. -/
def Outcome (blocks : List SSABlock) (Q : DfsState → Prop) : Rust OrderError DfsState → Prop
  | .ok st => Q st
  | .error (.error _) => ¬ StackInvariants blocks
  | .error .panic => ¬ ExitsInRange blocks
  | .error .outOfFuel => False

section Outcome

variable {blocks : List SSABlock} {Q R : DfsState → Prop}

/-- Two parts of the search, one after the other. -/
theorem Outcome.bind {x : Rust OrderError DfsState} {f : DfsState → Rust OrderError DfsState}
    (hx : Outcome blocks Q x) (hf : ∀ st, Q st → Outcome blocks R (f st)) :
    Outcome blocks R (x >>= f) := by
  cases x with
  | ok st => exact hf st hx
  | error e => cases e <;> exact hx

/-- A check that fails breaks an invariant. -/
theorem outcome_ensure {c : Prop} [Decidable c] {e : OrderError} {x : Rust OrderError DfsState}
    (hc : StackInvariants blocks → c) (hx : c → Outcome blocks Q x) :
    Outcome blocks Q (ensure c e >>= fun _ => x) := by
  unfold ensure
  by_cases h : c
  · rw [if_pos h]
    exact hx h
  · rw [if_neg h]
    exact fun hinv => h (hc hinv)

end Outcome

/-! ## §4. One search. -/

/-- The blocks not seen yet. -/
def unseen (blocks : List SSABlock) (st : DfsState) : Finset Nat :=
  (Finset.range blocks.length).filter fun x => st.sizes x = none

section Search

variable {blocks : List SSABlock} {st st' : DfsState} {ws new : List Nat} {v s fuel : Nat}

/-- Seeing more leaves no more to see. -/
theorem unseen_subset (h : ∀ x s, st.sizes x = some s → st'.sizes x = some s) :
    (unseen blocks st').card ≤ (unseen blocks st).card := by
  refine Finset.card_le_card fun x hx => ?_
  simp only [unseen, Finset.mem_filter] at hx ⊢
  refine ⟨hx.1, ?_⟩
  cases hsize : st.sizes x with
  | none => rfl
  | some s =>
      rw [h x s hsize] at hx
      cases hx.2

/-- A block seen for the first time is one less. -/
theorem unseen_setSize (hv : v < blocks.length) (hnew : st.sizes v = none) :
    (unseen blocks (st.setSize v s)).card < (unseen blocks st).card := by
  refine Finset.card_lt_card (Finset.ssubset_iff_of_subset ?_ |>.mpr ⟨v, ?_, ?_⟩)
  · intro x hx
    simp only [unseen, Finset.mem_filter, DfsState.sizes_setSize] at hx ⊢
    refine ⟨hx.1, ?_⟩
    split at hx
    · cases hx.2
    · exact hx.2
  · simp [unseen, hv, hnew]
  · intro hx
    have hnone := (Finset.mem_filter.mp hx).2
    rw [DfsState.sizes_setSize, if_pos rfl] at hnone
    cases hnone

/-- A settled block stays settled. -/
theorem Settled.mono {sizes sizes' : Nat → Option Nat} {u : Nat} (h : Settled blocks sizes u)
    (hkept : ∀ x s, sizes x = some s → sizes' x = some s) : Settled blocks sizes' u := by
  obtain ⟨block, s, hb, hs, hnonneg, hreturn, htargets⟩ := h
  exact ⟨block, s, hb, hkept u s hs, hnonneg, hreturn, fun w hw => hkept w _ (htargets w hw)⟩

theorem Explored.refl (h : SizesSound blocks st) : Explored blocks st [] st [] where
  searches := .nil
  postOrder := (List.append_nil _).symm
  kept _ _ hs := hs
  seen x := by simp
  sound := h
  settled u hu := by cases hu

/-- Two stretches of the search. -/
theorem Explored.append {st₁ st₂ : DfsState} {ws' new' : List Nat}
    (h : Explored blocks st ws st₁ new) (h' : Explored blocks st₁ ws' st₂ new') :
    Explored blocks st (ws ++ ws') st₂ (new ++ new') where
  searches := by
    refine h.searches.append ?_
    have hseen : {x | (st₁.sizes x).isSome = true} = {x | (st.sizes x).isSome = true} ∪ {x | x ∈ new} :=
      Set.ext h.seen
    rw [← hseen]
    exact h'.searches
  postOrder := by rw [h'.postOrder, h.postOrder, List.append_assoc]
  kept x s hs := h'.kept x s (h.kept x s hs)
  seen x := by rw [h'.seen, h.seen, List.mem_append, or_assoc]
  sound := h'.sound
  settled u hu := by
    rcases List.mem_append.mp hu with hu | hu
    · exact (h.settled u hu).mono h'.kept
    · exact h'.settled u hu

/-- What is shown of every call of `dfs`. -/
def VisitsBlock (blocks : List SSABlock) (fuel : Nat)
    (visit : DfsState → Nat → Nat → Rust OrderError DfsState) : Prop :=
  ∀ (st : DfsState) (v s : Nat), SizesSound blocks st → st.sizes v = none →
    (ExitsInRange blocks → v < blocks.length) → PathSize blocks v s →
    (unseen blocks st).card < fuel →
    Outcome blocks (fun st' => st'.sizes v = some s ∧ ∃ new, Explored blocks st [v] st' new)
      (visit st v s)

theorem Outcome.mono {Q R : DfsState → Prop} {x : Rust OrderError DfsState}
    (hx : Outcome blocks Q x) (hQR : ∀ st, Q st → R st) : Outcome blocks R x := by
  cases x with
  | ok st => exact hQR st hx
  | error e => cases e <;> exact hx

/-- The loop sees every target at the same size. -/
theorem visitReferenced_outcome {visit : DfsState → Nat → Nat → Rust OrderError DfsState}
    (hvisit : VisitsBlock blocks fuel visit) {newSize : Nat} :
    ∀ (ws : List Nat) (st : DfsState), SizesSound blocks st → (unseen blocks st).card < fuel →
      (∀ w ∈ ws, ExitsInRange blocks → w < blocks.length) → (∀ w ∈ ws, PathSize blocks w newSize) →
      Outcome blocks (fun st' => (∀ w ∈ ws, st'.sizes w = some newSize) ∧
        ∃ new, Explored blocks st ws st' new) (visitReferenced visit newSize st ws)
  | [], st, hsound, _, _, _ => ⟨fun w hw => (nomatch hw), [], Explored.refl hsound⟩
  | w :: ws, st, hsound, hfuel, hrange, hpath => by
      have hpathw := hpath w (List.mem_cons_self ..)
      have hrest := fun st hs hf => visitReferenced_outcome hvisit ws st hs hf
        (fun w hw => hrange w (List.mem_cons_of_mem _ hw))
        (fun w hw => hpath w (List.mem_cons_of_mem _ hw))
      unfold visitReferenced
      cases hsize : st.sizes w with
      -- a block seen before has to have the same size
      | some existing =>
          refine outcome_ensure (fun hinv => ?_) fun heq => ?_
          · have := hinv.sameSize w _ _ hpathw (hsound w existing hsize)
            omega
          · subst heq
            refine (hrest st hsound hfuel).mono ?_
            rintro st' ⟨hsizes, new, hexp⟩
            refine ⟨fun v hv => ?_, new, ?_⟩
            · rcases List.mem_cons.mp hv with rfl | hv
              · exact hexp.kept v _ hsize
              · exact hsizes v hv
            · exact { hexp with searches := .skip (by simp [hsize]) hexp.searches }
      -- a new one is explored, and the rest after it
      | none =>
          refine Outcome.bind (hvisit st w newSize hsound hsize (hrange w (List.mem_cons_self ..))
            hpathw hfuel) ?_
          rintro st₁ ⟨hw, new₁, hexp₁⟩
          refine (hrest st₁ hexp₁.sound (Nat.lt_of_le_of_lt (unseen_subset hexp₁.kept) hfuel)).mono ?_
          rintro st₂ ⟨hsizes, new₂, hexp₂⟩
          refine ⟨fun v hv => ?_, _, hexp₁.append hexp₂⟩
          rcases List.mem_cons.mp hv with rfl | hv
          · exact hexp₂.kept v _ hw
          · exact hsizes v hv

/-- The block itself, after its successors. -/
theorem Explored.finish {block : SSABlock} (hb : blocks[v]? = some block)
    (hnew : st.sizes v = none) (hnonneg : 0 ≤ (s : Int) + block.finalState.delta)
    (hreturn : block.exit.isReturn = true → (s : Int) + block.finalState.delta = 0)
    (h : Explored blocks (st.setSize v s) block.exit.referencedBlocks st' new)
    (htargets : ∀ w ∈ block.exit.referencedBlocks,
      st'.sizes w = some (s + block.finalState.delta).toNat) :
    (st'.finish v).sizes v = some s ∧ Explored blocks st [v] (st'.finish v) (new ++ [v]) := by
  -- the search of the edges starts with the block itself seen
  have hseen : {x | ((st.setSize v s).sizes x).isSome = true}
      = insert v {x | (st.sizes x).isSome = true} := by
    ext x
    simp only [DfsState.sizes_setSize, Set.mem_ofPred_eq, Set.mem_insert_iff]
    split <;> simp [*]
  have hkept : ∀ x t, st.sizes x = some t → st'.sizes x = some t := by
    intro x t ht
    refine h.kept x t ?_
    have hne : x ≠ v := by
      rintro rfl
      rw [hnew] at ht
      cases ht
    rw [DfsState.sizes_setSize, if_neg hne]
    exact ht
  have hv : st'.sizes v = some s := h.kept v s (Function.update_self ..)
  refine ⟨hv, ?_, ?_, hkept, ?_, h.sound, ?_⟩
  · refine .enter (by simp [hnew]) ?_ .nil
    rw [successors_eq hb, ← hseen]
    exact h.searches
  · show st'.postOrder ++ [v] = _
    rw [h.postOrder, List.append_assoc]
    rfl
  · intro x
    show (st'.sizes x).isSome = true ↔ _
    have hx : ((st.setSize v s).sizes x).isSome = true ↔ x = v ∨ (st.sizes x).isSome = true := by
      show x ∈ {x | ((st.setSize v s).sizes x).isSome = true} ↔ _
      rw [hseen]
      rfl
    rw [h.seen, hx, List.mem_append, List.mem_singleton]
    tauto
  · intro u hu
    rcases List.mem_append.mp hu with hu | hu
    · exact h.settled u hu
    · obtain rfl := List.mem_singleton.mp hu
      exact ⟨block, s, hb, hv, hnonneg, hreturn,
        fun w hw => htargets w (SSAExit.mem_referencedBlocks.mpr hw)⟩

/-- **Every call of `dfs` explores, or the invariants do not hold.** -/
theorem dfs_outcome : ∀ fuel, VisitsBlock blocks fuel (dfs blocks fuel)
  | 0 => by
      intro st v s _ _ _ _ hfuel
      omega
  | fuel + 1 => by
      intro st v s hsound hnew hrange hpath hfuel
      by_cases hv : v < blocks.length
      case neg =>
        unfold dfs
        rw [List.getElem?_eq_none (by omega)]
        exact fun hexits => hv (hrange hexits)
      have hb := List.getElem?_eq_getElem hv
      have hless := unseen_setSize (s := s) hv hnew
      -- the size is recorded on the way in: it is the one of the path here
      have hsound₁ : SizesSound blocks (st.setSize v s) := by
        intro x t ht
        rw [DfsState.sizes_setSize] at ht
        split at ht
        · rename_i hx
          cases ht
          rw [hx]
          exact hpath
        · exact hsound x t ht
      unfold dfs
      rw [hb]
      refine outcome_ensure (fun hinv => hinv.nonneg v s _ hpath hb) fun hnonneg => ?_
      have hcast : (((s : Int) + blocks[v].finalState.delta).toNat : Int)
          = s + blocks[v].finalState.delta := Int.toNat_of_nonneg hnonneg
      -- a return has no successors, and its size has to be 0
      by_cases hreturn : blocks[v].exit.isReturn = true
      · rw [if_pos hreturn]
        have hzero : StackInvariants blocks → (s + blocks[v].finalState.delta).toNat = 0 := by
          intro hinv
          have := hinv.returnEmpty v s _ hpath hb hreturn
          omega
        refine outcome_ensure hzero fun hend => ?_
        have hnone : blocks[v].exit.referencedBlocks = [] := by
          cases hx : blocks[v].exit <;> rw [hx] at hreturn <;> first | rfl | cases hreturn
        have hexp : Explored blocks (st.setSize v s) blocks[v].exit.referencedBlocks
            (st.setSize v s) [] := by
          rw [hnone]
          exact Explored.refl hsound₁
        have hdone := hexp.finish hb hnew hnonneg (fun _ => by omega) fun w hw => by
          rw [hnone] at hw
          cases hw
        exact ⟨hdone.1, _, hdone.2⟩
      · rw [if_neg hreturn]
        have hloop := visitReferenced_outcome (dfs_outcome fuel)
          blocks[v].exit.referencedBlocks (st.setSize v s) hsound₁ (by omega)
          (fun w hw hexits =>
            hexits _ (List.getElem_mem hv) w (SSAExit.mem_referencedBlocks.mp hw))
          (fun w hw => by
            rw [hcast]
            exact hpath.step hb (SSAExit.mem_referencedBlocks.mp hw))
        refine hloop.bind ?_
        rintro st' ⟨htargets, new, hexp⟩
        have hdone := hexp.finish hb hnew hnonneg (fun h => absurd h hreturn) htargets
        exact ⟨hdone.1, _, hdone.2⟩

end Search

/-! ## §5. The whole search. -/

/-- `order` is a reverse post-order of the blocks. -/
structure ReversePostOrder (blocks : List SSABlock) (order : List Nat) : Prop where
  perm : order.Perm (List.range blocks.length)
  first : order.head? = some 0
  /-- Every other block comes after one of its predecessors. -/
  predecessor : ∀ i v : Nat, order[i]? = some v → v ≠ 0 →
    ∃ j u : Nat, j < i ∧ order[j]? = some u ∧ v ∈ successors blocks u
  /-- An edge that does not go forward is on a cycle. -/
  retreating : ∀ i j u v : Nat, order[i]? = some u → order[j]? = some v → v ∈ successors blocks u →
    j ≤ i → Leads (successors blocks) v u

/-- `numbers` is the inverse of `order`. -/
def InverseOf (order numbers : List Nat) : Prop :=
  numbers.length = order.length ∧ ∀ i b : Nat, order[i]? = some b ↔ numbers[b]? = some i

section Whole

variable {blocks : List SSABlock} {st : DfsState} {new order numbers : List Nat}

/-- A path with a size is a path. -/
theorem PathSize.leads {b : Nat} {s : Int} (h : PathSize blocks b s) :
    Leads (successors blocks) 0 b := by
  induction h with
  | start => exact Relation.ReflTransGen.refl
  | step _ hb hw ih =>
      refine ih.tail ?_
      rw [successors_eq hb]
      exact SSAExit.mem_referencedBlocks.mpr hw

/-- On every path the size is the one noted. -/
theorem pathSize_noted (hexp : Explored blocks ⟨fun _ => none, []⟩ [0] st new)
    (hzero : st.sizes 0 = some 0) {b : Nat} {s : Int} (h : PathSize blocks b s) :
    ∃ n : Nat, st.sizes b = some n ∧ s = n ∧ Settled blocks st.sizes b := by
  have hsettled : ∀ {b n : Nat}, st.sizes b = some n → Settled blocks st.sizes b := by
    intro b n hn
    rcases (hexp.seen b).mp (by rw [hn]; rfl) with h | h
    · cases h
    · exact hexp.settled b h
  induction h with
  | start => exact ⟨0, hzero, rfl, hsettled hzero⟩
  | step _ hb hw ih =>
      obtain ⟨n, hn, rfl, block, m, hblock, hm, hnonneg, -, htargets⟩ := ih
      rw [hb] at hblock
      cases hblock
      rw [hn] at hm
      cases hm
      have hsize := htargets _ hw
      exact ⟨_, hsize, (Int.toNat_of_nonneg hnonneg).symm, hsettled hsize⟩

/-- Only blocks that exist are found. -/
theorem new_lt (hexp : Explored blocks ⟨fun _ => none, []⟩ [0] st new) :
    ∀ u ∈ new, u < blocks.length := by
  intro u hu
  obtain ⟨block, _, hb, -⟩ := hexp.settled u hu
  exact (List.getElem?_eq_some_iff.mp hb).1

/-- All blocks are finished, or one is not reachable. -/
theorem length_new_iff (hlt : ∀ u ∈ new, u < blocks.length) (hnodup : new.Nodup) :
    blocks.length = new.length ↔ ∀ b < blocks.length, b ∈ new := by
  have hsub : new.toFinset ⊆ Finset.range blocks.length := by
    intro u hu
    exact Finset.mem_range.mpr (hlt u (List.mem_toFinset.mp hu))
  have hcard : new.toFinset.card = new.length := List.toFinset_card_of_nodup hnodup
  constructor
  · intro hlen b hb
    have heq : new.toFinset = Finset.range blocks.length := by
      refine Finset.eq_of_subset_of_card_le hsub ?_
      rw [hcard, Finset.card_range, hlen]
    rw [← List.mem_toFinset, heq]
    exact Finset.mem_range.mpr hb
  · intro hall
    have heq : new.toFinset = Finset.range blocks.length := by
      refine Finset.Subset.antisymm hsub fun b hb => ?_
      exact List.mem_toFinset.mpr (hall b (Finset.mem_range.mp hb))
    rw [← hcard, heq, Finset.card_range]

/-- The loop that fills the second vector. -/
theorem setOrders_eq_ok : ∀ (order numbers : List Nat) (i : Nat),
    (∀ b ∈ order, b < numbers.length) → order.Nodup →
    ∃ numbers', setOrders i order numbers = .ok numbers' ∧ numbers'.length = numbers.length ∧
      (∀ b, b ∉ order → numbers'[b]? = numbers[b]?) ∧
      ∀ j b, order[j]? = some b → numbers'[b]? = some (i + j)
  | [], numbers, i, _, _ => ⟨numbers, rfl, rfl, fun _ _ => rfl, fun _ _ h => nomatch h⟩
  | b :: order, numbers, i, hlt, hnodup => by
      obtain ⟨hb, hnodup⟩ := List.nodup_cons.mp hnodup
      have hblt := hlt b (List.mem_cons_self ..)
      obtain ⟨numbers', hok, hlen, hother, hset⟩ := setOrders_eq_ok order (numbers.set b i) (i + 1)
        (fun c hc => by
          rw [List.length_set]
          exact hlt c (List.mem_cons_of_mem _ hc)) hnodup
      refine ⟨numbers', ?_, by rw [hlen, List.length_set], fun c hc => ?_, fun j c hj => ?_⟩
      · unfold setOrders
        rw [if_pos hblt]
        exact hok
      · rw [List.mem_cons, not_or] at hc
        rw [hother c hc.2, List.getElem?_set_ne (Ne.symm hc.1)]
      · cases j with
        | zero =>
            cases hj
            rw [hother b hb, List.getElem?_set_self hblt]
            rfl
        | succ j =>
            rw [hset j c hj]
            congr 1
            omega

/-- What lies on the two sides of an entry of the reversed list. -/
theorem split_reverse {i v : Nat} (h : new.reverse[i]? = some v) :
    new = (new.reverse.drop (i + 1)).reverse ++ v :: (new.reverse.take i).reverse := by
  obtain ⟨hi, rfl⟩ := List.getElem?_eq_some_iff.mp h
  have hsplit : new.reverse = new.reverse.take i ++ new.reverse[i] :: new.reverse.drop (i + 1) := by
    rw [← List.drop_eq_getElem_cons hi, List.take_append_drop]
  have hreverse := congrArg List.reverse hsplit
  rw [List.reverse_reverse, List.reverse_append, List.reverse_cons, List.append_assoc] at hreverse
  exact hreverse

/-- The reverse of the post-order. -/
theorem reversePostOrder_of_searches (hlt : ∀ u ∈ new, u < blocks.length)
    (hall : ∀ b < blocks.length, b ∈ new) (h : Searches (successors blocks) ∅ [0] new) :
    ReversePostOrder blocks new.reverse where
  perm := by
    refine (List.reverse_perm new).trans ((List.perm_ext_iff_of_nodup h.nodup List.nodup_range).mpr ?_)
    intro b
    rw [List.mem_range]
    exact ⟨hlt b, hall b⟩
  first := by
    obtain ⟨inner, rfl⟩ := h.root_last
    rw [List.reverse_append]
    rfl
  predecessor i v hv hne := by
    obtain ⟨p, hp, hedge⟩ := h.parent_root (split_reverse hv) hne
    obtain ⟨j, hj⟩ := List.mem_iff_getElem?.mp (List.mem_reverse.mp hp)
    rw [List.getElem?_take] at hj
    split at hj
    · exact ⟨j, p, ‹_›, hj, hedge⟩
    · cases hj
  retreating i j u v hu hv hedge hle := by
    refine h.retreating_root (split_reverse hu) hedge fun hmem => ?_
    obtain ⟨k, hk⟩ := List.mem_iff_getElem?.mp (List.mem_reverse.mp hmem)
    rw [List.getElem?_drop] at hk
    have hsame : j = i + 1 + k := by
      obtain ⟨hj, hvj⟩ := List.getElem?_eq_some_iff.mp hv
      obtain ⟨hk, hvk⟩ := List.getElem?_eq_some_iff.mp hk
      exact (List.nodup_reverse.mpr h.nodup).getElem_inj_iff.mp (hvj.trans hvk.symm)
    omega

/-- What is noted is what the invariants ask for. -/
theorem stackInvariants_of_explored (hexp : Explored blocks ⟨fun _ => none, []⟩ [0] st new)
    (hzero : st.sizes 0 = some 0) (hall : ∀ b < blocks.length, b ∈ new) :
    StackInvariants blocks where
  sameSize b s s' h h' := by
    obtain ⟨n, hn, rfl, -⟩ := pathSize_noted hexp hzero h
    obtain ⟨n', hn', rfl, -⟩ := pathSize_noted hexp hzero h'
    rw [hn] at hn'
    cases hn'
    rfl
  returnEmpty b s block h hb := by
    obtain ⟨n, hn, rfl, block', m, hb', hm, -, hend, -⟩ := pathSize_noted hexp hzero h
    rw [hb] at hb'
    cases hb'
    rw [hn] at hm
    cases hm
    exact hend
  nonneg b s block h hb := by
    obtain ⟨n, hn, rfl, block', m, hb', hm, hnonneg, -⟩ := pathSize_noted hexp hzero h
    rw [hb] at hb'
    cases hb'
    rw [hn] at hm
    cases hm
    exact hnonneg
  reachable b hb := by
    obtain ⟨block, s, -, hs, -⟩ := hexp.settled b (hall b hb)
    exact ⟨s, hexp.sound b s hs⟩

/-- The numbers that are written are the inverse of the order. -/
theorem inverseOf_setOrders (hperm : order.Perm (List.range blocks.length)) :
    ∃ numbers, setOrders 0 order (List.replicate blocks.length 0) = .ok numbers ∧
      InverseOf order numbers := by
  have hmem : ∀ b, b ∈ order ↔ b < blocks.length := fun b => by rw [hperm.mem_iff, List.mem_range]
  obtain ⟨numbers, hok, hlen, -, hset⟩ := setOrders_eq_ok order (List.replicate blocks.length 0) 0
    (fun b hb => by
      rw [List.length_replicate]
      exact (hmem b).mp hb) (hperm.nodup_iff.mpr List.nodup_range)
  rw [List.length_replicate] at hlen
  refine ⟨numbers, hok, ?_, fun i b => ⟨fun hi => ?_, fun hb => ?_⟩⟩
  · rw [hlen, hperm.length_eq, List.length_range]
  · rw [hset i b hi, Nat.zero_add]
  · obtain ⟨hlt, -⟩ := List.getElem?_eq_some_iff.mp hb
    obtain ⟨j, hj⟩ := List.mem_iff_getElem?.mp ((hmem b).mpr (by omega))
    have hsame := hset j b hj
    rw [hb, Nat.zero_add] at hsame
    cases hsame
    exact hj

/-- What `dfs_blocks` finds. -/
structure Found (blocks : List SSABlock) (order numbers : List Nat) : Prop where
  reversePostOrder : ReversePostOrder blocks order
  inverse : InverseOf order numbers

/-- The search from block 0. -/
theorem dfs_start_outcome (hpos : ExitsInRange blocks → 0 < blocks.length) :
    Outcome blocks (fun st' => st'.sizes 0 = some 0 ∧
        ∃ new, Explored blocks ⟨fun _ => none, []⟩ [0] st' new)
      (dfs blocks (blocks.length + 1) ⟨fun _ => none, []⟩ 0 0) := by
  refine dfs_outcome (blocks.length + 1) ⟨fun _ => none, []⟩ 0 0 (fun _ _ h => nomatch h) rfl hpos
    .start ?_
  have hcard := Finset.card_filter_le (Finset.range blocks.length) fun x =>
    (⟨fun _ => none, []⟩ : DfsState).sizes x = none
  rw [Finset.card_range] at hcard
  exact Nat.lt_succ_of_le hcard

/-- The search from the entry is a depth-first search from nothing. -/
theorem Explored.searches_empty (hexp : Explored blocks ⟨fun _ => none, []⟩ [0] st new) :
    Searches (successors blocks) ∅ [0] new := by
  have hempty : {x : Nat | ((⟨fun _ => none, []⟩ : DfsState).sizes x).isSome = true} = ∅ := by
    ext x
    simp
  rw [← hempty]
  exact hexp.searches

/-- The two ways the search ends. -/
theorem dfsBlocks_cases (hne : blocks ≠ []) (hexits : ExitsInRange blocks) :
    (∃ order numbers, dfsBlocks blocks = .ok (order, numbers) ∧ StackInvariants blocks ∧
      Found blocks order numbers) ∨
    ∃ e, dfsBlocks blocks = err e ∧ ¬ StackInvariants blocks := by
  have hpos : 0 < blocks.length := List.length_pos_iff.mpr hne
  have hout := dfs_start_outcome fun _ => hpos
  unfold dfsBlocks
  cases hdfs : dfs blocks (blocks.length + 1) ⟨fun _ => none, []⟩ 0 0 with
  | error e =>
      rw [hdfs] at hout
      cases e with
      | error e => exact .inr ⟨e, rfl, hout⟩
      | panic => exact absurd hexits hout
      | outOfFuel => exact hout.elim
  | ok st =>
      rw [hdfs] at hout
      obtain ⟨hzero, new, hexp⟩ := hout
      have hsearch := hexp.searches_empty
      have hpost : st.postOrder = new := hexp.postOrder
      have hlen := length_new_iff (new_lt hexp) hsearch.nodup
      show (∃ order numbers, (ensure (blocks.length = st.postOrder.length) _ >>= fun _ => _) = _ ∧ _)
        ∨ ∃ e, (ensure (blocks.length = st.postOrder.length) _ >>= fun _ => _) = _ ∧ _
      rw [hpost]
      unfold ensure
      by_cases hall : blocks.length = new.length
      · rw [if_pos hall]
        have hmem := hlen.mp hall
        -- all blocks are found, so the numbers are inverse to the order
        have hrpo := reversePostOrder_of_searches (new_lt hexp) hmem hsearch
        obtain ⟨numbers, hok, hinverse⟩ := inverseOf_setOrders hrpo.perm
        refine .inl ⟨new.reverse, numbers, ?_, stackInvariants_of_explored hexp hzero hmem, hrpo,
          hinverse⟩
        show (setOrders 0 new.reverse (List.replicate blocks.length 0) >>= fun _ => _) = _
        rw [hok]
        rfl
      · -- a block was not found
        rw [if_neg hall]
        refine .inr ⟨_, rfl, fun hinv => hall (hlen.mpr fun b hb => ?_)⟩
        obtain ⟨s, hs⟩ := hinv.reachable b hb
        exact (hsearch.mem_root_iff b).mpr hs.leads

/-- **The search succeeds exactly under the invariants of its comment**, with a
reverse post-order and its inverse, and returns an error otherwise. -/
theorem dfsBlocks_ok_iff (hne : blocks ≠ []) (hexits : ExitsInRange blocks) :
    ((∃ r, dfsBlocks blocks = .ok r) ↔ StackInvariants blocks) ∧
    (¬ StackInvariants blocks → ∃ e, dfsBlocks blocks = err e) ∧
    ∀ order numbers, dfsBlocks blocks = .ok (order, numbers) → Found blocks order numbers := by
  rcases dfsBlocks_cases hne hexits with ⟨order, numbers, hok, hinv, hfound⟩ | ⟨e, herr, hinv⟩
  · refine ⟨⟨fun _ => hinv, fun _ => ⟨_, hok⟩⟩, fun h => absurd hinv h, fun order' numbers' h => ?_⟩
    rw [hok] at h
    cases h
    exact hfound
  · rw [herr]
    exact ⟨⟨fun ⟨_, h⟩ => (nomatch h), fun h => absurd h hinv⟩, fun _ => ⟨e, rfl⟩,
      fun _ _ h => nomatch h⟩

/-- A block that leaves the stack as it is. -/
def plainBlock (exit : SSAExit) : SSABlock := ⟨[], exit, .new⟩

/-- A loop: enter, check, body, and the block after it. -/
def loopBlocks : List SSABlock :=
  [plainBlock (.jump 1), plainBlock (.jumpIf .unit 2 3), plainBlock (.jump 1),
    plainBlock (.return_ .unit)]

/-- A block that branches, two that join in a third, and a jump back. -/
theorem dfsBlocks_ok_iff_loop : StackInvariants loopBlocks ∧
    Found loopBlocks [0, 1, 3, 2] [0, 1, 3, 2] := by
  have hexits : ExitsInRange loopBlocks := by
    unfold ExitsInRange
    decide
  have hspec := dfsBlocks_ok_iff (by decide) hexits
  have hok : dfsBlocks loopBlocks = .ok ([0, 1, 3, 2], [0, 1, 3, 2]) := by decide
  exact ⟨hspec.1.mp ⟨_, hok⟩, hspec.2.2 _ _ hok⟩

end Whole

end OcamlJit.CleverDis.Ssa

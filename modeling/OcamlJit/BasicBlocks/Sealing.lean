/-
  OcamlJit.BasicBlocks.Sealing
  ────────────────────────────
  **WHEN THE BLOCKS OF A CLOSURE CAN BE SEALED.**

  `convert_dfs` puts every block into the `sealed_blocks` of its greatest
  predecessor.  Predecessors are exact and every block but the entry has one
  (`ReversePostOrder`), so the lists together hold every other block once.
-/
import OcamlJit.BasicBlocks.ControlFlow

namespace OcamlJit.BasicBlocks

open OcamlJit.Lib OcamlJit.Instructions

/-- Block `j` has predecessors, and `i` is the greatest. -/
def BasicClosure.GreatestPredecessor (c : BasicClosure) (i j : Nat) : Prop :=
  c.Edge i j ∧ ∀ k, c.Edge k j → k ≤ i

/-- The `sealed_blocks` lists, one after the other. -/
def BasicClosure.sealedBlocks (c : BasicClosure) : List Nat :=
  c.blocks.flatMap BasicBlock.sealedBlocks

/-- The lists are the schedule: every block but the entry once, in the list of
its greatest predecessor. -/
structure ExactSchedule (c : BasicClosure) : Prop where
  once : ∀ j, j < c.blocks.length → j ≠ 0 → c.sealedBlocks.count j = 1
  entry : 0 ∉ c.sealedBlocks
  greatest : ∀ (i : Nat) (b : BasicBlock), c.blocks[i]? = some b → ∀ j,
    j ∈ b.sealedBlocks ↔ c.GreatestPredecessor i j

section Sealing

variable {code : List Word} {entry : Nat} {st : SearchState} {c : BasicClosure}

/-- The lists come from the predecessors of the finished blocks. -/
theorem buildClosure_sealedBlocks {arity : Nat} (h : buildClosure arity st = .ok c) :
    ∀ b ∈ c.blocks, b.sealedBlocks = sealedBlocksOf c.blocks b.blockId := by
  obtain ⟨blocks, -, h⟩ := bind_eq_ok.mp h
  obtain ⟨relocated, -, h⟩ := bind_eq_ok.mp h
  cases h
  -- a list is computed before any is stored
  have hsame : ∀ i, sealedBlocksOf (relocated.map fun b =>
      { b with sealedBlocks := sealedBlocksOf relocated b.blockId }) i
        = sealedBlocksOf relocated i := by
    intro i
    unfold sealedBlocksOf
    rw [List.filter_map, List.map_map]
    rfl
  intro b hb
  obtain ⟨b₀, -, rfl⟩ := List.mem_map.mp hb
  exact (hsame b₀.blockId).symm

theorem mem_sealedBlocksOf (hrpo : ReversePostOrder entry st c) {i j : Nat} :
    j ∈ sealedBlocksOf c.blocks i ↔ c.GreatestPredecessor i j := by
  unfold sealedBlocksOf
  simp only [List.mem_map, List.mem_filter, decide_eq_true_eq, List.max?_eq_some_iff]
  constructor
  · rintro ⟨b, ⟨hb, hi, hmax⟩, rfl⟩
    obtain ⟨j, hj⟩ := List.mem_iff_getElem?.mp hb
    rw [hrpo.ids j b hj]
    exact ⟨(hrpo.preds_iff j b hj i).mp hi, fun k hk => hmax k ((hrpo.preds_iff j b hj k).mpr hk)⟩
  · rintro ⟨hedge, hmax⟩
    have hlt := hrpo.targets_valid i j hedge
    have hj := List.getElem?_eq_getElem hlt
    refine ⟨c.blocks[j], ⟨List.getElem_mem hlt, (hrpo.preds_iff j _ hj i).mpr hedge, ?_⟩,
      hrpo.ids j _ hj⟩
    exact fun k hk => hmax k ((hrpo.preds_iff j _ hj k).mp hk)

theorem map_blockId (hrpo : ReversePostOrder entry st c) :
    c.blocks.map BasicBlock.blockId = List.range c.blocks.length := by
  refine List.ext_getElem (by simp) fun i hi _ => ?_
  rw [List.length_map] at hi
  rw [List.getElem_map, List.getElem_range]
  exact hrpo.ids i _ (List.getElem?_eq_getElem hi)

/-- Every block but the entry has a greatest predecessor. -/
theorem exists_greatestPredecessor (hrpo : ReversePostOrder entry st c) {j : Nat}
    (hj : j < c.blocks.length) (hne : j ≠ 0) : ∃ i, c.GreatestPredecessor i j := by
  have hb := List.getElem?_eq_getElem hj
  obtain ⟨p, hp, -⟩ := hrpo.earlier j _ hb hne
  obtain ⟨i, hi⟩ := Option.isSome_iff_exists.mp (List.isSome_max?_of_mem hp)
  obtain ⟨hmem, hmax⟩ := List.max?_eq_some_iff.mp hi
  exact ⟨i, (hrpo.preds_iff j _ hb i).mp hmem,
    fun k hk => hmax k ((hrpo.preds_iff j _ hb k).mpr hk)⟩

theorem BasicClosure.GreatestPredecessor.unique {i i' j : Nat} (h : c.GreatestPredecessor i j)
    (h' : c.GreatestPredecessor i' j) : i = i' :=
  Nat.le_antisymm (h'.2 i h.1) (h.2 i' h'.1)

/-- **The schedule of a converted closure is exact.** -/
theorem exactSchedule (hrpo : ReversePostOrder entry st c)
    (hsealed : ∀ b ∈ c.blocks, b.sealedBlocks = sealedBlocksOf c.blocks b.blockId) :
    ExactSchedule c := by
  have hgreatest : ∀ (i : Nat) (b : BasicBlock), c.blocks[i]? = some b → ∀ j,
      j ∈ b.sealedBlocks ↔ c.GreatestPredecessor i j := by
    intro i b hb j
    rw [hsealed b (List.mem_of_getElem? hb), hrpo.ids i b hb]
    exact mem_sealedBlocksOf hrpo
  have hids : (c.blocks.map BasicBlock.blockId).Nodup := map_blockId hrpo ▸ List.nodup_range
  have hnodup : c.sealedBlocks.Nodup := by
    refine List.nodup_flatMap.mpr ⟨fun b hb => ?_, ?_⟩
    · rw [hsealed b hb]
      exact hids.sublist (List.filter_sublist.map _)
    · -- a block has one greatest predecessor
      refine (List.pairwise_map.mp hids).imp_of_mem fun {b b'} hb hb' hne j hj hj' => hne ?_
      rw [hsealed _ hb, mem_sealedBlocksOf hrpo] at hj
      rw [hsealed _ hb', mem_sealedBlocksOf hrpo] at hj'
      exact hj.unique hj'
  have hmem : ∀ j, j ∈ c.sealedBlocks ↔ ∃ i, c.GreatestPredecessor i j := by
    intro j
    simp only [BasicClosure.sealedBlocks, List.mem_flatMap]
    constructor
    · rintro ⟨b, hb, hj⟩
      obtain ⟨i, hi⟩ := List.mem_iff_getElem?.mp hb
      exact ⟨i, (hgreatest i b hi j).mp hj⟩
    · rintro ⟨i, hi⟩
      obtain ⟨b, hb, -⟩ := hi.1
      exact ⟨b, List.mem_of_getElem? hb, (hgreatest i b hb j).mpr hi⟩
  constructor
  -- a block other than the entry has a predecessor, hence a greatest one
  case once =>
    intro j hj hne
    exact List.count_eq_one_of_mem hnodup ((hmem j).mpr (exists_greatestPredecessor hrpo hj hne))
  case entry =>
    intro hzero
    obtain ⟨i, hedge, -⟩ := (hmem 0).mp hzero
    obtain ⟨b, hb, hnil⟩ := hrpo.entry_preds
    rw [← hrpo.preds_iff 0 b hb, hnil] at hedge
    cases hedge
  case greatest => exact hgreatest

theorem parseToBasicBlocks_exactSchedule (h : parseToBasicBlocks code entry = .ok c) :
    (∃ st, ReversePostOrder entry st c) ∧ ExactSchedule c := by
  obtain ⟨bs, -, h⟩ := bind_eq_ok.mp h
  obtain ⟨arity, -, h⟩ := bind_eq_ok.mp h
  obtain ⟨st, hst, h⟩ := bind_eq_ok.mp h
  obtain ⟨c', hc', hn⟩ := buildClosure_numbered (visit_searched hst) arity
  rw [h] at hc'
  cases hc'
  have hrpo := hn.reversePostOrder (visit_searched hst)
  exact ⟨⟨st, hrpo⟩, exactSchedule hrpo (buildClosure_sealedBlocks h)⟩

end Sealing

end OcamlJit.BasicBlocks

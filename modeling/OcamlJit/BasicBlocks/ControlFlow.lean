/-
  OcamlJit.BasicBlocks.ControlFlow
  ────────────────────────────────
  **THE BLOCKS OF A CLOSURE ARE A CONTROL FLOW GRAPH IN REVERSE POST-ORDER.**

    • `Searched` — the state the conversion search ends in,
    • `Numbered` — what numbering and relocation make of such a state; the
      `unwrap`s on the way cannot fail (`buildClosure_numbered`),
    • `parseToBasicBlocks_cfg` — ids, predecessors and targets fit, block 0 is
      the entry, and every other block has a predecessor before it.
-/
import OcamlJit.BasicBlocks.Search
import Mathlib.Logic.Relation

namespace OcamlJit.BasicBlocks

open OcamlJit.Lib OcamlJit.Instructions

/-! ## §1. The state the search ends in. -/

/-- What the search from `entry` has established when it is over. -/
structure Searched (code : List Word) (bs : List Nat) (entry size : Nat)
    (st : SearchState) : Prop where
  nodup : (st.finished.map FinishedBlock.offset).Nodup
  seen_iff : ∀ o, (st.seen o).isSome ↔ o ∈ st.finished.map FinishedBlock.offset
  blocks : ∀ f ∈ st.finished, BlockScanned code bs st f
  preds : ∀ o q, q ∈ st.predsOf o ↔ ∃ f ∈ st.finished, f.offset = q ∧ o ∈ f.exit.targets
  preds_nodup : ∀ o, (st.predsOf o).Nodup
  /-- The entry is finished last. -/
  last : ∃ fs f, st.finished = fs ++ [f] ∧ f.offset = entry
  entrySeen : st.SeenAs entry size .first
  normal : ∀ f ∈ st.finished, f.offset ≠ entry → ∃ size, st.SeenAs f.offset size .normal
  /-- Every other block has a predecessor that is finished later. -/
  tree : ∀ l f r, st.finished = l ++ f :: r →
    f.offset = entry ∨ ∃ g ∈ r, f.offset ∈ g.exit.targets
  traps : st.hasTrapHandlers = false →
    ∀ f ∈ st.finished, ∀ normal trap, f.exit ≠ .pushTrap normal trap

/-- The whole search is a call of `visit` at the entry. -/
theorem visit_searched {code : List Word} {bs : List Nat} {fuel entry size : Nat}
    {st : SearchState}
    (h : visit code bs fuel .initial entry none size .first = .ok st) :
    Searched code bs entry size st := by
  obtain ⟨new, hex⟩ := visit_explored code bs fuel _ _ _ _ _ _ h
  have hfin : st.finished = new := hex.finished
  subst hfin
  -- nothing was seen or finished before the call
  have hseen : ∀ o, (st.seen o).isSome ↔ o ∈ st.finished.map FinishedBlock.offset := by
    intro o
    rw [hex.seen_iff]
    simp [SearchState.initial]
  have hentry : st.SeenAs entry size .first :=
    hex.targets ⟨none, entry, size, .first⟩ (List.mem_singleton_self _)
  constructor
  case nodup => exact hex.nodup
  case seen_iff => exact hseen
  case blocks => exact hex.blocks
  case preds =>
    intro o q
    rw [hex.preds]
    simp [SearchState.predsOf, SearchState.initial]
  case preds_nodup =>
    exact hex.preds_nodup fun o => by simp [SearchState.predsOf, SearchState.initial]
  -- the entry is visited first, so it is finished last
  case last =>
    obtain ⟨p, hp, -⟩ := hentry
    have hmem := (hseen entry).mp (by simp [hp])
    rcases List.eq_nil_or_concat st.finished with hnil | ⟨fs, f, hf⟩
    · simp [hnil] at hmem
    · rw [List.concat_eq_append] at hf
      refine ⟨fs, f, hf, ?_⟩
      rcases hex.tree fs f [] hf with ⟨d, hd, ht⟩ | ⟨g, hg, -⟩
      · rw [← ht, List.mem_singleton.mp hd]
      · cases hg
  case entrySeen => exact hentry
  case normal =>
    intro f hf hne
    obtain ⟨size, ty, hs, hty⟩ := hex.types f hf
    rcases hty with rfl | ⟨d, hd, ht, -⟩
    · exact ⟨size, hs⟩
    · rw [List.mem_singleton.mp hd] at ht
      exact absurd ht.symm hne
  case tree =>
    intro l f r hl
    rcases hex.tree l f r hl with ⟨d, hd, ht⟩ | hr
    · rw [List.mem_singleton.mp hd] at ht
      exact .inl ht.symm
    · exact .inr hr
  case traps => exact fun h => (hex.traps h).2

namespace Searched

variable {code : List Word} {bs : List Nat} {entry size : Nat} {st : SearchState}

/-- A jump goes to a block that was finished. -/
theorem target_finished (h : Searched code bs entry size st) {f : FinishedBlock}
    (hf : f ∈ st.finished) {t : Nat} (ht : t ∈ f.exit.targets) :
    t ∈ st.finished.map FinishedBlock.offset := by
  obtain ⟨p, x, -, -, hscan, hexit, -, hedges⟩ := (h.blocks f hf).scanned
  rw [← hexit, hscan.mem_targets] at ht
  obtain ⟨s, hs⟩ := ht
  obtain ⟨p, hp, -⟩ := hedges t s hs
  rw [← h.seen_iff, hp]
  rfl

/-- And comes from one. -/
theorem pred_finished (h : Searched code bs entry size st) {o q : Nat}
    (hq : q ∈ st.predsOf o) : q ∈ st.finished.map FinishedBlock.offset := by
  obtain ⟨f, hf, rfl, -⟩ := (h.preds o q).mp hq
  exact List.mem_map_of_mem hf

/-- Jumps back to the entry fail the block type check, so it has no
predecessors. -/
theorem not_target_entry (h : Searched code bs entry size st) {f : FinishedBlock}
    (hf : f ∈ st.finished) : entry ∉ f.exit.targets := by
  intro ht
  obtain ⟨p, x, -, -, hscan, hexit, -, hedges⟩ := (h.blocks f hf).scanned
  rw [← hexit, hscan.mem_targets] at ht
  obtain ⟨s, hs⟩ := ht
  obtain ⟨p, hp, -, hnormal⟩ := hedges entry s hs
  obtain ⟨p', hp', -, hfirst⟩ := h.entrySeen
  rw [hp] at hp'
  cases hp'
  rw [hnormal] at hfirst
  cases hfirst

end Searched

/-! ## §2. Relocation. -/

/-- A list whose elements all succeed. -/
theorem mapM_eq_ok {ε α β : Type} {f : α → Rust ε β} {g : α → β} :
    ∀ {xs : List α}, (∀ x ∈ xs, f x = .ok (g x)) → xs.mapM f = .ok (xs.map g)
  | [], _ => rfl
  | x :: xs, h => by
      rw [List.mapM_cons, h x (List.mem_cons_self ..), ok_bind,
        mapM_eq_ok fun y hy => h y (List.mem_cons_of_mem _ hy)]
      rfl

/-- An offset that is known has its index. -/
theorem relocateOffset_eq_ok {offsets : List Nat} {o : Nat} (h : o ∈ offsets) :
    relocateOffset offsets o = .ok (offsets.idxOf o) := by
  have hfind : offsetToBlockIdMap offsets o = some (offsets.idxOf o) := by
    unfold offsetToBlockIdMap
    rw [List.findIdx?_eq_some_iff_findIdx_eq]
    exact ⟨List.idxOf_lt_length_iff.mpr h, rfl⟩
  simp only [relocateOffset, hfind]
  rfl

/-- The labels of an exit are renamed when all are known. -/
theorem modifyBlockLabels_eq_ok {ε : Type} {f : Nat → Rust ε Nat} {g : Nat → Nat}
    {x : BasicBlockExit} (h : ∀ t ∈ x.targets, f t = .ok (g t)) :
    x.modifyBlockLabels f = .ok (x.mapLabels g) := by
  cases x
  case switch ints tags =>
    have hints : ints.mapM f = .ok (ints.map g) := mapM_eq_ok
      fun t ht => h t (by simp [BasicBlockExit.targets, ht])
    have htags : tags.mapM f = .ok (tags.map g) := mapM_eq_ok
      fun t ht => h t (by simp [BasicBlockExit.targets, ht])
    simp only [BasicBlockExit.modifyBlockLabels, hints, htags, ok_bind]
    rfl
  all_goals
    simp only [BasicBlockExit.targets, List.mem_cons, List.not_mem_nil, or_false,
      forall_eq_or_imp, forall_eq] at h
    simp only [BasicBlockExit.modifyBlockLabels, h, ok_bind]
    rfl

/-- `seen.remove(&finished_block.offset).unwrap()` succeeds for every finished
block when their offsets are distinct and seen. -/
theorem collectBlocks_eq_ok :
    ∀ (fs : List FinishedBlock) (k : Nat) (seen : Nat → Option PendingBlock),
      (fs.map FinishedBlock.offset).Nodup → (∀ f ∈ fs, (seen f.offset).isSome) →
      ∃ blocks, collectBlocks k seen fs = .ok blocks ∧ blocks.length = fs.length ∧
        ∀ (i : Nat) (b : BasicBlock), blocks[i]? = some b →
          ∃ (f : FinishedBlock) (p : PendingBlock), fs[i]? = some f ∧
          seen f.offset = some p ∧ b = ⟨k + i, p.predecessors, p.blockType, f.instructions, f.exit,
            p.startStackSize, f.endStackSize, []⟩
  | [], k, seen, _, _ => ⟨[], rfl, rfl, fun i b h => by simp at h⟩
  | f :: fs, k, seen, hnodup, hseen => by
      obtain ⟨p, hp⟩ := Option.isSome_iff_exists.mp (hseen f (List.mem_cons_self ..))
      rw [List.map_cons, List.nodup_cons] at hnodup
      -- the entries of the later blocks survive the removal
      have hlater : ∀ g ∈ fs, Function.update seen f.offset none g.offset = seen g.offset := by
        intro g hg
        refine Function.update_of_ne (fun he => hnodup.1 ?_) _ _
        rw [← he]
        exact List.mem_map_of_mem hg
      obtain ⟨blocks, hok, hlen, hblocks⟩ := collectBlocks_eq_ok fs (k + 1)
        (Function.update seen f.offset none) hnodup.2 (by
          intro g hg
          rw [hlater g hg]
          exact hseen g (List.mem_cons_of_mem _ hg))
      refine ⟨⟨k, p.predecessors, p.blockType, f.instructions, f.exit,
        p.startStackSize, f.endStackSize, []⟩ :: blocks, ?_, ?_, ?_⟩
      · simp only [collectBlocks, hp, hok, ok_bind]
        rfl
      · rw [List.length_cons, hlen, List.length_cons]
      · intro i b hb
        cases i with
        | zero =>
            rw [List.getElem?_cons_zero, Option.some.injEq] at hb
            exact ⟨f, p, rfl, hp, hb.symm⟩
        | succ i =>
            rw [List.getElem?_cons_succ] at hb
            obtain ⟨g, q, hg, hq, hb⟩ := hblocks i b hb
            rw [hlater g (List.mem_of_getElem? hg)] at hq
            refine ⟨g, q, hg, hq, ?_⟩
            rw [hb]
            congr 1
            omega

/-! ## §3. The finished closure. -/

namespace SearchState

/-- The offsets of the finished blocks in block order. -/
def offsets (st : SearchState) : List Nat := st.finished.reverse.map FinishedBlock.offset

/-- The id of the block at an offset. -/
def idOf (st : SearchState) (o : Nat) : Nat := st.offsets.idxOf o

end SearchState

/-- Block `i` of the closure is the `i`-th block in reverse post-order, with
its labels relocated. -/
structure Numbered (arity : Nat) (st : SearchState) (c : BasicClosure) : Prop where
  arity : c.arity = arity
  usedClosures : c.usedClosures = st.usedClosures
  maxStackSize : c.maxStackSize = st.maxStackSize
  hasTrapHandlers : c.hasTrapHandlers = st.hasTrapHandlers
  length : c.blocks.length = st.finished.length
  block : ∀ (i : Nat) (b : BasicBlock), c.blocks[i]? = some b →
    ∃ (f : FinishedBlock) (p : PendingBlock), st.finished.reverse[i]? = some f ∧
      st.seen f.offset = some p ∧
      b = ⟨i, p.predecessors.map st.idOf, p.blockType, f.instructions,
        f.exit.mapLabels st.idOf, p.startStackSize, f.endStackSize, b.sealedBlocks⟩

/-- **The relocation never panics**, and numbers the blocks. -/
theorem buildClosure_numbered {code : List Word} {bs : List Nat} {entry size : Nat}
    {st : SearchState} (h : Searched code bs entry size st) (arity : Nat) :
    ∃ c, buildClosure arity st = .ok c ∧ Numbered arity st c := by
  have hnodup : (st.finished.reverse.map FinishedBlock.offset).Nodup := by
    rw [List.map_reverse, List.nodup_reverse]
    exact h.nodup
  have hmem : ∀ {o}, o ∈ st.finished.map FinishedBlock.offset → o ∈ st.offsets := by
    intro o ho
    rw [SearchState.offsets, List.map_reverse, List.mem_reverse]
    exact ho
  obtain ⟨blocks, hblocks, hlen, hget⟩ := collectBlocks_eq_ok st.finished.reverse 0 st.seen
    hnodup (fun f hf => (h.seen_iff _).mpr (List.mem_map_of_mem (List.mem_reverse.mp hf)))
  -- every offset in a block is the offset of a finished block
  have hreloc : ∀ b ∈ blocks, relocateBlock st.offsets b =
      .ok { b with exit := b.exit.mapLabels st.idOf,
                   predecessors := b.predecessors.map st.idOf } := by
    intro b hb
    obtain ⟨i, hi⟩ := List.mem_iff_getElem?.mp hb
    obtain ⟨f, p, hf, hp, rfl⟩ := hget i b hi
    have hf' := List.mem_reverse.mp (List.mem_of_getElem? hf)
    have hexit := modifyBlockLabels_eq_ok (f := relocateOffset st.offsets) (g := st.idOf)
      (x := f.exit) fun t ht => relocateOffset_eq_ok (hmem (h.target_finished hf' ht))
    have hpreds : p.predecessors.mapM (relocateOffset st.offsets)
        = .ok (p.predecessors.map st.idOf) := mapM_eq_ok fun q hq => relocateOffset_eq_ok
        (hmem (h.pred_finished (o := f.offset) (by simpa [SearchState.predsOf, hp] using hq)))
    simp only [relocateBlock, hexit, hpreds, ok_bind]
    rfl
  -- the labels are ids now; the last pass notes the blocks whose last predecessor a block is
  let relocated := blocks.map fun b =>
    { b with exit := b.exit.mapLabels st.idOf,
             predecessors := b.predecessors.map st.idOf }
  have hmapM : blocks.mapM (relocateBlock st.offsets) = .ok relocated := mapM_eq_ok hreloc
  refine ⟨⟨arity, relocated.map fun b =>
    { b with sealedBlocks := sealedBlocksOf relocated b.blockId },
    st.usedClosures, st.maxStackSize, st.hasTrapHandlers⟩, ?_, ?_⟩
  · simp only [buildClosure, hblocks, ok_bind]
    show (blocks.mapM (relocateBlock st.offsets) >>= _) = _
    rw [hmapM]
    rfl
  · constructor
    case length => simp [relocated, hlen]
    case block =>
      intro i b hb
      simp only [relocated, List.getElem?_map, Option.map_eq_some_iff] at hb
      obtain ⟨_, ⟨b₀, hb₀, rfl⟩, rfl⟩ := hb
      obtain ⟨f, p, hf, hp, rfl⟩ := hget i b₀ hb₀
      refine ⟨f, p, hf, hp, ?_⟩
      rw [Nat.zero_add]
    all_goals rfl

namespace Numbered

variable {code : List Word} {bs : List Nat} {entry size arity : Nat} {st : SearchState}
  {c : BasicClosure}

/-- No block is there twice. -/
theorem offsets_nodup (h : Searched code bs entry size st) : st.offsets.Nodup := by
  rw [SearchState.offsets, List.map_reverse, List.nodup_reverse]
  exact h.nodup

/-- The blocks are the offsets that were seen. -/
theorem mem_offsets (h : Searched code bs entry size st) {o : Nat} :
    o ∈ st.offsets ↔ (st.seen o).isSome := by
  rw [SearchState.offsets, List.map_reverse, List.mem_reverse, h.seen_iff]

/-- The number of a block is its place. -/
theorem getElem?_offsets {i : Nat} {f : FinishedBlock}
    (hf : st.finished.reverse[i]? = some f) : st.offsets[i]? = some f.offset := by
  rw [SearchState.offsets, List.getElem?_map, hf]
  rfl

/-- The id of a block is its place in the block order. -/
theorem idOf_eq (h : Searched code bs entry size st) {i o : Nat}
    (ho : st.offsets[i]? = some o) : st.idOf o = i := by
  obtain ⟨hi, rfl⟩ := List.getElem?_eq_some_iff.mp ho
  exact (offsets_nodup h).idxOf_getElem i hi

/-- And no two blocks have one number. -/
theorem idOf_inj {o o' : Nat} (ho : o ∈ st.offsets) (heq : st.idOf o = st.idOf o') :
    o = o' :=
  (List.idxOf_inj ho).mp heq

/-- Every finished block has its place among the blocks. -/
theorem block_of_finished (h : Searched code bs entry size st) (hn : Numbered arity st c)
    {f : FinishedBlock} (hf : f ∈ st.finished) :
    ∃ b, c.blocks[st.idOf f.offset]? = some b ∧
      st.finished.reverse[st.idOf f.offset]? = some f := by
  obtain ⟨i, hi⟩ := List.mem_iff_getElem?.mp (List.mem_reverse.mpr hf)
  have hid := idOf_eq h (getElem?_offsets hi)
  obtain ⟨hlt, -⟩ := List.getElem?_eq_some_iff.mp hi
  rw [List.length_reverse, ← hn.length] at hlt
  rw [hid]
  exact ⟨c.blocks[i], List.getElem?_eq_getElem hlt, hi⟩

end Numbered

/-! ## §4. The graph. -/

/-- An exit of block `i` names block `j`. -/
def BasicClosure.Edge (c : BasicClosure) (i j : Nat) : Prop :=
  ∃ b, c.blocks[i]? = some b ∧ j ∈ b.exit.targets

/-- The search of `parse_to_basic_blocks` from `entry` ends in `st`. -/
def SearchesTo (code : List Word) (entry arity : Nat) (st : SearchState) : Prop :=
  ∃ bs, findBlockStartsDfs code (searchFuel code) [entry] entry = .ok bs ∧
    arityAt code entry = .ok arity ∧
    visit code bs (searchFuel code) .initial entry none (arity % 2 ^ 32) .first = .ok st

/-- The two searches, one after the other. -/
theorem SearchesTo.searched {code : List Word} {entry arity : Nat} {st : SearchState}
    (h : SearchesTo code entry arity st) :
    ∃ bs, Searched code bs entry (arity % 2 ^ 32) st := by
  obtain ⟨bs, -, -, hv⟩ := h
  exact ⟨bs, visit_searched hv⟩

/-- A successful conversion is a search and its numbering. -/
theorem parseToBasicBlocks_eq_ok {code : List Word} {entry : Nat} {c : BasicClosure}
    (h : parseToBasicBlocks code entry = .ok c) :
    ∃ arity st, SearchesTo code entry arity st ∧ Numbered arity st c := by
  obtain ⟨bs, hbs, h⟩ := bind_eq_ok.mp h
  obtain ⟨arity, harity, h⟩ := bind_eq_ok.mp h
  obtain ⟨st, hst, h⟩ := bind_eq_ok.mp h
  obtain ⟨c', hc', hn⟩ := buildClosure_numbered (visit_searched hst) arity
  rw [h] at hc'
  cases hc'
  exact ⟨arity, st, ⟨bs, hbs, harity, hst⟩, hn⟩

/-- `c` is a well-formed control flow graph in reverse post-order, over the
offsets the search `st` visited. -/
structure ReversePostOrder (entry : Nat) (st : SearchState) (c : BasicClosure) : Prop where
  ids : ∀ (i : Nat) (b : BasicBlock), c.blocks[i]? = some b → b.blockId = i
  /-- The blocks are in bijection with the visited offsets. -/
  offsets_nodup : st.offsets.Nodup
  offsets_length : st.offsets.length = c.blocks.length
  visited : ∀ o, o ∈ st.offsets ↔ (st.seen o).isSome
  /-- Block `i` is what the search recorded at the offset of `i`. -/
  recorded : ∀ (i : Nat) (b : BasicBlock), c.blocks[i]? = some b → ∃ f ∈ st.finished,
    st.offsets[i]? = some f.offset ∧ b.instructions = f.instructions ∧
      b.exit = f.exit.mapLabels st.idOf
  entry_first : st.offsets[0]? = some entry
  entry_preds : ∃ b, c.blocks[0]? = some b ∧ b.predecessors = []
  targets_valid : ∀ i j, c.Edge i j → j < c.blocks.length
  preds_nodup : ∀ (i : Nat) (b : BasicBlock), c.blocks[i]? = some b → b.predecessors.Nodup
  preds_iff : ∀ (i : Nat) (b : BasicBlock), c.blocks[i]? = some b → ∀ j, j ∈ b.predecessors ↔ c.Edge j i
  earlier : ∀ (i : Nat) (b : BasicBlock), c.blocks[i]? = some b → i ≠ 0 → ∃ j ∈ b.predecessors, j < i
  reachable : ∀ i, i < c.blocks.length → Relation.ReflTransGen c.Edge 0 i

section Graph

variable {code : List Word} {bs : List Nat} {entry size arity : Nat} {st : SearchState}
  {c : BasicClosure}

/-- Edges between ids are edges between offsets. -/
theorem edge_iff (h : Searched code bs entry size st) (hn : Numbered arity st c)
    {f : FinishedBlock} {j : Nat} :
    c.Edge j (st.idOf f.offset) ↔
      ∃ g, st.finished.reverse[j]? = some g ∧ f.offset ∈ g.exit.targets := by
  constructor
  · rintro ⟨b, hb, hj⟩
    obtain ⟨g, p, hg, -, hbeq⟩ := hn.block j b hb
    refine ⟨g, hg, ?_⟩
    rw [hbeq, BasicBlockExit.targets_mapLabels, List.mem_map] at hj
    obtain ⟨t, ht, hid⟩ := hj
    have hmem := h.target_finished (List.mem_reverse.mp (List.mem_of_getElem? hg)) ht
    rwa [← Numbered.idOf_inj ((Numbered.mem_offsets h).mpr ((h.seen_iff t).mpr hmem)) hid]
  · rintro ⟨g, hg, hmem⟩
    have hg' := List.mem_reverse.mp (List.mem_of_getElem? hg)
    obtain ⟨b, hb, hgj⟩ := hn.block_of_finished h hg'
    rw [Numbered.idOf_eq h (Numbered.getElem?_offsets hg)] at hb
    obtain ⟨g', p, hg'', -, hbeq⟩ := hn.block j b hb
    rw [hg] at hg''
    cases hg''
    refine ⟨b, hb, ?_⟩
    rw [hbeq, BasicBlockExit.targets_mapLabels]
    exact List.mem_map_of_mem hmem

/-- The predecessors of a block are the sources of the edges into it. -/
theorem mem_predecessors_iff (h : Searched code bs entry size st) (hn : Numbered arity st c)
    {i : Nat} {b : BasicBlock} (hb : c.blocks[i]? = some b) (j : Nat) :
    j ∈ b.predecessors ↔ c.Edge j i := by
  obtain ⟨f, p, hf, hp, hbeq⟩ := hn.block i b hb
  have hf' := List.mem_reverse.mp (List.mem_of_getElem? hf)
  have hi := Numbered.idOf_eq h (Numbered.getElem?_offsets hf)
  have hpreds : st.predsOf f.offset = p.predecessors := by simp [SearchState.predsOf, hp]
  rw [← hi, edge_iff h hn, hbeq]
  simp only [List.mem_map, ← hpreds, h.preds]
  constructor
  · rintro ⟨q, ⟨g, hg, rfl, ht⟩, rfl⟩
    obtain ⟨-, -, hg'⟩ := hn.block_of_finished h hg
    exact ⟨g, hg', ht⟩
  · rintro ⟨g, hg, ht⟩
    exact ⟨g.offset, ⟨g, List.mem_reverse.mp (List.mem_of_getElem? hg), rfl, ht⟩,
      Numbered.idOf_eq h (Numbered.getElem?_offsets hg)⟩

/-- A block finished before another one comes after it in block order. -/
theorem earlier_predecessor (h : Searched code bs entry size st) (hn : Numbered arity st c)
    {i : Nat} {b : BasicBlock} (hb : c.blocks[i]? = some b) (hi : i ≠ 0) :
    ∃ j, c.Edge j i ∧ j < i := by
  obtain ⟨f, p, hf, -, -⟩ := hn.block i b hb
  have hf' := List.mem_reverse.mp (List.mem_of_getElem? hf)
  have hid := Numbered.idOf_eq h (Numbered.getElem?_offsets hf)
  obtain ⟨hlt, hget⟩ := List.getElem?_eq_some_iff.mp hf
  -- the blocks before `f` in block order are those finished after it
  have hsplit : st.finished = (st.finished.reverse.drop (i + 1)).reverse ++
      f :: (st.finished.reverse.take i).reverse := by
    have hrev : st.finished.reverse = st.finished.reverse.take i ++
        f :: st.finished.reverse.drop (i + 1) := by
      rw [← hget, ← List.drop_eq_getElem_cons hlt, List.take_append_drop]
    have := congrArg List.reverse hrev
    rwa [List.reverse_reverse, List.reverse_append, List.reverse_cons, List.append_assoc,
      List.singleton_append] at this
  rcases h.tree _ f _ hsplit with hentry | ⟨g, hg, ht⟩
  · -- the entry is block 0
    obtain ⟨fs, e, hfin, he⟩ := h.last
    have hzero : st.offsets[0]? = some entry := by
      simp [SearchState.offsets, hfin, he]
    rw [hentry, Numbered.idOf_eq h hzero] at hid
    exact absurd hid.symm hi
  · rw [List.mem_reverse] at hg
    obtain ⟨j, hj⟩ := List.mem_iff_getElem?.mp hg
    rw [List.getElem?_take] at hj
    split at hj
    · refine ⟨j, ?_, ‹_›⟩
      rw [← hid]
      exact (edge_iff h hn).mpr ⟨g, hj, ht⟩
    · cases hj

/-- Every block is reached from block 0, through blocks in increasing order. -/
theorem reachable_from_entry (h : Searched code bs entry size st) (hn : Numbered arity st c) :
    ∀ i, i < c.blocks.length → Relation.ReflTransGen c.Edge 0 i := by
  intro i
  induction i using Nat.strongRecOn with
  | ind i ih =>
      intro hi
      by_cases hzero : i = 0
      · rw [hzero]
      · obtain ⟨j, hedge, hlt⟩ :=
          earlier_predecessor h hn (List.getElem?_eq_getElem hi) hzero
        exact (ih j hlt (hlt.trans hi)).tail hedge

/-- The numbering of what the search found is such a graph. -/
theorem Numbered.reversePostOrder (h : Searched code bs entry size st)
    (hn : Numbered arity st c) : ReversePostOrder entry st c := by
  obtain ⟨fs, e, hfin, he⟩ := h.last
  have hzero : st.finished.reverse[0]? = some e := by simp [hfin]
  have hentry : st.offsets[0]? = some entry := by
    rw [Numbered.getElem?_offsets hzero, he]
  have hemem : e ∈ st.finished := by simp [hfin]
  constructor
  case ids =>
    intro i b hb
    obtain ⟨f, p, -, -, hbeq⟩ := hn.block i b hb
    rw [hbeq]
  case offsets_nodup => exact Numbered.offsets_nodup h
  case offsets_length => simp [SearchState.offsets, hn.length]
  case visited => exact fun o => Numbered.mem_offsets h
  case recorded =>
    intro i b hb
    obtain ⟨f, p, hf, -, hbeq⟩ := hn.block i b hb
    exact ⟨f, List.mem_reverse.mp (List.mem_of_getElem? hf),
      Numbered.getElem?_offsets hf, by rw [hbeq], by rw [hbeq]⟩
  case entry_first => exact hentry
  -- an edge to the entry would have failed the check of the block types
  case entry_preds =>
    obtain ⟨b, hb, -⟩ := hn.block_of_finished h hemem
    rw [he, Numbered.idOf_eq h hentry] at hb
    refine ⟨b, hb, List.eq_nil_iff_forall_not_mem.mpr fun j hj => ?_⟩
    rw [mem_predecessors_iff h hn hb, ← Numbered.idOf_eq h hentry, ← he,
      edge_iff h hn, he] at hj
    obtain ⟨g, hg, ht⟩ := hj
    exact h.not_target_entry (List.mem_reverse.mp (List.mem_of_getElem? hg)) ht
  -- an edge leads to an offset that was seen, hence finished
  case targets_valid =>
    rintro i j ⟨b, hb, hj⟩
    obtain ⟨f, p, hf, -, hbeq⟩ := hn.block i b hb
    rw [hbeq, BasicBlockExit.targets_mapLabels, List.mem_map] at hj
    obtain ⟨t, ht, rfl⟩ := hj
    have hmem := h.target_finished (List.mem_reverse.mp (List.mem_of_getElem? hf)) ht
    obtain ⟨g, hg, rfl⟩ := List.mem_map.mp hmem
    obtain ⟨b', hb', -⟩ := hn.block_of_finished h hg
    exact (List.getElem?_eq_some_iff.mp hb').1
  case preds_nodup =>
    intro i b hb
    obtain ⟨f, p, -, hp, hbeq⟩ := hn.block i b hb
    have hpreds : st.predsOf f.offset = p.predecessors := by
      simp [SearchState.predsOf, hp]
    rw [hbeq]
    refine (hpreds ▸ h.preds_nodup f.offset).map_on fun q hq q' _ heq => ?_
    exact Numbered.idOf_inj ((Numbered.mem_offsets h).mpr
      ((h.seen_iff q).mpr (h.pred_finished (hpreds ▸ hq)))) heq
  case preds_iff => exact fun i b hb j => mem_predecessors_iff h hn hb j
  case earlier =>
    intro i b hb hi
    obtain ⟨j, hj, hlt⟩ := earlier_predecessor h hn hb hi
    exact ⟨j, (mem_predecessors_iff h hn hb j).mpr hj, hlt⟩
  case reachable => exact reachable_from_entry h hn

end Graph

/-- **Conversion yields a control flow graph in reverse post-order**, and no
`unwrap` of the relocation step fails, whatever state the search ends in. -/
theorem parseToBasicBlocks_cfg (code : List Word) (entry : Nat) :
    (∀ arity st, SearchesTo code entry arity st → ∃ c, buildClosure arity st = .ok c) ∧
    ∀ c, parseToBasicBlocks code entry = .ok c →
      ∃ arity st, SearchesTo code entry arity st ∧ ReversePostOrder entry st c := by
  constructor
  · intro arity st hst
    obtain ⟨bs, h⟩ := hst.searched
    obtain ⟨c, hc, -⟩ := buildClosure_numbered h arity
    exact ⟨c, hc⟩
  · intro c hc
    obtain ⟨arity, st, hst, hn⟩ := parseToBasicBlocks_eq_ok hc
    obtain ⟨bs, h⟩ := hst.searched
    exact ⟨arity, st, hst, hn.reversePostOrder h⟩

/-- The graph of a loop: `ACC0; CHECK_SIGNALS; BRANCHIF` back to the check;
`RETURN 1`. -/
theorem parseToBasicBlocks_cfg_loop :
    ∃ arity st c, SearchesTo [0, 92, 85, -2, 40, 1] 0 arity st ∧
      buildClosure arity st = .ok c ∧
      ∃ c', parseToBasicBlocks [0, 92, 85, -2, 40, 1] 0 = .ok c' ∧
        ReversePostOrder 0 st c' := by
  have hloop : parseToBasicBlocks [0, 92, 85, -2, 40, 1] 0 = .ok
      ⟨1, [⟨0, [], .first, [.acc 0], .branch 1, 1, 1, []⟩,
        ⟨1, [1, 0], .normal, [.checkSignals], .branchIf 1 2, 1, 1, [1, 2]⟩,
        ⟨2, [1], .normal, [], .return_ 1, 1, 0, []⟩], [], 1, false⟩ := by
    decide
  obtain ⟨arity, st, hst, hrpo⟩ := (parseToBasicBlocks_cfg _ _).2 _ hloop
  obtain ⟨c, hc⟩ := (parseToBasicBlocks_cfg _ _).1 arity st hst
  exact ⟨arity, st, c, hst, hc, _, hloop, hrpo⟩

end OcamlJit.BasicBlocks

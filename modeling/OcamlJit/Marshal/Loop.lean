/-
  OcamlJit.Marshal.Loop
  ─────────────────────
  **RUNS OF THE READER.**

  Every turn of the loop brings the bound `Machine.turns` down, so the loop does
  not run dry and a run is its first turn and the rest (`run_eq`).  Whatever the
  input is, blocks only grow (`run_grows`), and a pending block is handed to the
  one below it before that one gets another item (`run_returns`).
-/
import OcamlJit.Marshal.MlData

namespace OcamlJit.Marshal

open OcamlJit.Lib

/-! ## §1. The loop. -/

/-- The loop from `m` on. -/
def Machine.run (m : Machine) : Rust InputError Output := loop m.turns m

/-- What is left is the end of the input. -/
theorem readExact_eq_ok {k : Nat} {input bytes rest : List UInt8}
    (h : readExact k input = .ok (bytes, rest)) : rest <:+ input := by
  unfold readExact err at h
  split at h
  · cases h
    exact List.drop_suffix k input
  · cases h

/-- The same after a number. -/
theorem readU_eq_ok {k n : Nat} {input rest : List UInt8} (h : readU k input = .ok (n, rest)) :
    rest <:+ input := by
  obtain ⟨⟨bytes, rest'⟩, hread, h⟩ := bind_eq_ok.mp h
  cases h
  exact readExact_eq_ok hread

/-- After a signed number. -/
theorem readI_eq_ok {k : Nat} {i : Int} {input rest : List UInt8}
    (h : readI k input = .ok (i, rest)) : rest <:+ input := by
  obtain ⟨⟨n, rest'⟩, hread, h⟩ := bind_eq_ok.mp h
  cases h
  exact readU_eq_ok hread

/-- After a C string. -/
theorem readCString_eq_ok : ∀ {input bytes s rest : List UInt8},
    readCString input bytes = .ok (s, rest) → rest <:+ input
  | [], _, _, _, h => by cases h
  | c :: input, bytes, s, rest, h => by
      unfold readCString at h
      split at h
      · cases h
        exact List.suffix_cons c input
      · exact (readCString_eq_ok h).trans (List.suffix_cons c input)

/-- After a custom block. -/
theorem readCustom_eq_ok {identifier input rest : List UInt8} {v : MLValue}
    (h : readCustom identifier input = .ok (v, rest)) : rest <:+ input := by
  unfold readCustom at h
  split at h
  · obtain ⟨⟨n, rest'⟩, hread, h⟩ := bind_eq_ok.mp h
    cases h
    exact readU_eq_ok hread
  · split at h
    · obtain ⟨⟨n, rest'⟩, hread, h⟩ := bind_eq_ok.mp h
      cases h
      exact readU_eq_ok hread
    · cases h

/-- **What `ReadItem` can do** after the code: it goes on to another state with
what is left of the input, and at most notes a double. -/
structure Reads (m m' : Machine) : Prop where
  state : m'.state ≠ .readItem
  input : m'.input <:+ m.input
  pending : m'.pending = m.pending
  store : m'.store = m.store ∨ ∃ d, m'.store = m.store.newDouble d

/-- An integer is the next item. -/
theorem readInt_reads {k : Nat} {m m' : Machine} (h : (do
    let (i, input) ← readI k m.input
    pure { m with state := .processItem (.int i), input } : Rust InputError Machine) = .ok m') :
    Reads m m' := by
  obtain ⟨⟨i, input⟩, hread, h⟩ := bind_eq_ok.mp h
  cases h
  exact ⟨by simp, readI_eq_ok hread, rfl, .inl rfl⟩

/-- A number that says what comes next. -/
theorem readNat_reads {k : Nat} {m m' : Machine} (state : Nat → State)
    (hstate : ∀ n, state n ≠ .readItem) (h : (do
      let (n, input) ← readU k m.input
      pure { m with state := state n, input } : Rust InputError Machine) = .ok m') :
    Reads m m' := by
  obtain ⟨⟨n, input⟩, hread, h⟩ := bind_eq_ok.mp h
  cases h
  exact ⟨hstate n, readU_eq_ok hread, rfl, .inl rfl⟩

/-- **Every code**: one step of the state, one number or double read. -/
theorem readCode_reads {code : Nat} {m m' : Machine} (h : readCode code m = .ok m') :
    Reads m m' := by
  unfold readCode at h
  dsimp only at h
  split at h
  · cases h
    exact ⟨by simp, List.suffix_rfl, rfl, .inl rfl⟩
  split at h
  · cases h
    exact ⟨by simp, List.suffix_rfl, rfl, .inl rfl⟩
  split at h
  · cases h
    exact ⟨by simp, List.suffix_rfl, rfl, .inl rfl⟩
  split at h
  case h_1 | h_2 | h_3 | h_4 => exact readInt_reads h
  case h_5 | h_6 | h_7 | h_8 => exact readNat_reads (fun n => .readShared n) (by simp) h
  case h_9 | h_10 =>
    exact readNat_reads (fun n => .readBlock (n % 2 ^ 8) (n / 2 ^ 10)) (by simp) h
  case h_11 | h_12 | h_13 => exact readNat_reads (fun n => .readString n) (by simp) h
  case h_14 | h_15 =>
    obtain ⟨⟨n, input⟩, hread, h⟩ := bind_eq_ok.mp h
    cases h
    exact ⟨by simp, readU_eq_ok hread, rfl, .inr ⟨_, rfl⟩⟩
  case h_24 | h_25 | h_26 =>
    obtain ⟨⟨identifier, input⟩, hid, h⟩ := bind_eq_ok.mp h
    obtain ⟨⟨v, input'⟩, hread, h⟩ := bind_eq_ok.mp h
    cases h
    exact ⟨by simp, (readCustom_eq_ok hread).trans (readCString_eq_ok hid), rfl, .inl rfl⟩
  all_goals cases h

/-- Each turn brings the bound down. -/
theorem step_turns {m m' : Machine} (h : step m = .ok (.running m')) : m'.turns < m.turns := by
  obtain ⟨state, input, store, pending⟩ := m
  cases state with
  | readItem =>
      cases input with
      | nil => cases h
      | cons code input =>
          obtain ⟨m₁, hread, h⟩ := bind_eq_ok.mp h
          cases h
          have hreads := readCode_reads hread
          have hlen := hreads.input.length_le
          have hstate := hreads.state
          unfold Machine.turns
          rw [hreads.pending]
          dsimp only at *
          rw [List.length_cons]
          split <;> omega
  -- a field less to come, or a pending block less
  | processItem v =>
      cases pending with
      | nil => cases h
      | cons p pending =>
          simp only [step] at h
          split at h <;> cases h <;> simp only [Machine.turns, List.length_cons] <;> omega
  | readBlock tag size =>
      simp only [step] at h
      split at h <;> cases h <;> simp only [Machine.turns, List.length_cons] <;> omega
  | readString length =>
      obtain ⟨⟨buf, rest⟩, hread, h⟩ := bind_eq_ok.mp h
      cases h
      have hlen : rest.length ≤ input.length := (readExact_eq_ok hread).length_le
      simp only [Machine.turns]
      omega
  | readShared offset =>
      obtain ⟨_, -, h⟩ := bind_eq_ok.mp h
      obtain ⟨_, -, h⟩ := bind_eq_ok.mp h
      split at h
      · cases h
      · cases h
        simp [Machine.turns]

/-- A machine that is not done has a turn left. -/
theorem turns_pos (m : Machine) : 0 < m.turns := by
  unfold Machine.turns
  split <;> omega

/-- More fuel than the bound makes no difference. -/
theorem loop_congr : ∀ (n k : Nat) (m : Machine), m.turns ≤ n → m.turns ≤ k → loop n m = loop k m
  | 0, _, m, hn, _ => absurd (turns_pos m) (Nat.not_lt.mpr hn)
  | _, 0, m, _, hk => absurd (turns_pos m) (Nat.not_lt.mpr hk)
  | n + 1, k + 1, m, hn, hk => by
      unfold loop
      cases h : step m with
      | error e => rfl
      | ok p =>
          cases p with
          | done r => rfl
          | running m' =>
              have hlt := step_turns h
              exact loop_congr n k m' (by omega) (by omega)

/-- A run is a turn and the rest. -/
theorem run_eq (m : Machine) : m.run = step m >>= fun p => match p with
    | .running m' => m'.run
    | .done r => pure r := by
  unfold Machine.run
  obtain ⟨n, hn⟩ := Nat.exists_eq_add_one_of_ne_zero (Nat.ne_of_gt (turns_pos m))
  rw [hn, loop]
  cases h : step m with
  | error e => rfl
  | ok p =>
      cases p with
      | done r => rfl
      | running m' =>
          have hlt := step_turns h
          exact loop_congr n m'.turns m' (by omega) (Nat.le_refl _)

/-- A run goes on where its first turn ends. -/
theorem run_of_step {m m' : Machine} (h : step m = .ok (.running m')) : m.run = m'.run := by
  rw [run_eq, h]
  rfl

/-- What the run of `m` returns has `P m`, if it has whenever it has after the
next turn. -/
theorem run_induction {out : Output} {P : Machine → Prop}
    (hdone : ∀ m, step m = .ok (.done out) → P m)
    (hrunning : ∀ m m', step m = .ok (.running m') → m'.run = .ok out → P m' → P m) (m : Machine)
    (h : m.run = .ok out) : P m := by
  induction hn : m.turns using Nat.strongRecOn generalizing m with
  | ind n ih =>
      have hrun := h
      rw [run_eq] at h
      obtain ⟨p, hp, h⟩ := bind_eq_ok.mp h
      cases p with
      | done r =>
          cases h
          exact hdone m hp
      | running m' =>
          exact hrunning m m' hp h (ih _ (hn ▸ step_turns hp) m' h rfl)

/-! ## §2. Stores only grow. -/

/-- What is returned of a store. -/
def Store.toBlocks (s : Store) : MLValueBlocks := ⟨s.blocks, s.strings⟩

/-- Blocks get more items, and there are more blocks and strings. -/
structure Grows (b b' : MLValueBlocks) : Prop where
  blocks : ∀ (id : Nat) (block : MLValueBlock), b.blocks[id]? = some block →
    ∃ more, b'.blocks[id]? = some ⟨block.tag, block.items ++ more⟩
  strings : ∀ (id : Nat) (x : MLValueString), b.strings[id]? = some x → b'.strings[id]? = some x

/-- Blocks are as they are. -/
theorem Grows.refl (b : MLValueBlocks) : Grows b b :=
  ⟨fun _ _ h => ⟨[], by rw [List.append_nil, h]⟩, fun _ _ h => h⟩

/-- Blocks that grow twice. -/
theorem Grows.trans {b b₁ b₂ : MLValueBlocks} (h : Grows b b₁) (h' : Grows b₁ b₂) :
    Grows b b₂ := by
  refine ⟨fun id block hid => ?_, fun id x hx => h'.strings id x (h.strings id x hx)⟩
  obtain ⟨more, hmore⟩ := h.blocks id block hid
  obtain ⟨more', hmore'⟩ := h'.blocks id _ hmore
  exact ⟨more ++ more', by rw [hmore', List.append_assoc]⟩

/-- A new block comes behind the others. -/
theorem Store.grows_newBlock (s : Store) (tag : Nat) :
    Grows s.toBlocks (s.newBlock tag).toBlocks := by
  refine ⟨fun id block h => ⟨[], ?_⟩, fun _ _ h => h⟩
  rw [List.append_nil]
  exact (List.getElem?_append_left (List.getElem?_eq_some_iff.mp h).1).trans h

/-- A new string comes behind the others. -/
theorem Store.grows_newString (s : Store) (buf : List UInt8) :
    Grows s.toBlocks (s.newString buf).toBlocks :=
  ⟨(Grows.refl _).blocks, fun _ _ h =>
    (List.getElem?_append_left (List.getElem?_eq_some_iff.mp h).1).trans h⟩

/-- Only one block gets the item. -/
theorem Store.getElem?_pushItem (s : Store) (id j : Nat) (v : MLValue) :
    (s.pushItem id v).blocks[j]? = if id = j
      then s.blocks[j]?.map fun b => { b with items := b.items ++ [v] } else s.blocks[j]? := by
  unfold Store.pushItem
  rw [List.getElem?_modify]
  split <;> simp [*]

/-- The item comes behind those the block has. -/
theorem Store.grows_pushItem (s : Store) (id : Nat) (v : MLValue) :
    Grows s.toBlocks (s.pushItem id v).toBlocks := by
  refine ⟨fun j block h => ?_, fun _ _ h => h⟩
  have hj : s.blocks[j]? = some block := h
  by_cases hid : id = j
  · refine ⟨[v], (s.getElem?_pushItem id j v).trans ?_⟩
    rw [if_pos hid, hj]
    rfl
  · refine ⟨[], (s.getElem?_pushItem id j v).trans ?_⟩
    rw [if_neg hid, hj, List.append_nil]

/-- **Every turn makes the blocks grow.** -/
theorem step_grows {m m' : Machine} (h : step m = .ok (.running m')) :
    Grows m.store.toBlocks m'.store.toBlocks := by
  obtain ⟨state, input, store, pending⟩ := m
  cases state with
  | readItem =>
      cases input with
      | nil => cases h
      | cons code input =>
          obtain ⟨m₁, hread, h⟩ := bind_eq_ok.mp h
          cases h
          rcases (readCode_reads hread).store with hs | ⟨d, hs⟩ <;> rw [hs] <;> exact Grows.refl _
  | processItem v =>
      cases pending with
      | nil => cases h
      | cons p pending =>
          simp only [step] at h
          split at h <;> cases h <;> exact store.grows_pushItem _ _
  | readBlock tag size =>
      simp only [step] at h
      split at h <;> cases h <;> exact store.grows_newBlock _
  | readString length =>
      obtain ⟨⟨buf, rest⟩, -, h⟩ := bind_eq_ok.mp h
      cases h
      exact store.grows_newString buf
  | readShared offset =>
      obtain ⟨_, -, h⟩ := bind_eq_ok.mp h
      obtain ⟨_, -, h⟩ := bind_eq_ok.mp h
      split at h
      · cases h
      · cases h
        exact Grows.refl _

/-- The last turn. -/
theorem step_done {m : Machine} {out : Output} (h : step m = .ok (.done out)) :
    ∃ v, m = ⟨.processItem v, out.rest, m.store, []⟩ ∧ out = ⟨m.store.toBlocks, v, out.rest⟩ := by
  obtain ⟨state, input, store, pending⟩ := m
  cases state with
  | processItem v =>
      cases pending with
      | nil =>
          cases h
          exact ⟨v, rfl, rfl⟩
      | cons p pending =>
          simp only [step] at h
          split at h <;> cases h
  | readItem =>
      cases input with
      | nil => cases h
      | cons code input =>
          obtain ⟨_, -, h⟩ := bind_eq_ok.mp h
          cases h
  | readBlock tag size =>
      simp only [step] at h
      split at h <;> cases h
  | readString length =>
      obtain ⟨_, -, h⟩ := bind_eq_ok.mp h
      cases h
  | readShared offset =>
      obtain ⟨_, -, h⟩ := bind_eq_ok.mp h
      obtain ⟨_, -, h⟩ := bind_eq_ok.mp h
      split at h <;> cases h

/-- What is in the store stays to the end. -/
theorem run_grows {m : Machine} {out : Output} (h : m.run = .ok out) :
    Grows m.store.toBlocks out.blocks := by
  refine run_induction (P := fun m => Grows m.store.toBlocks out.blocks) (fun m hdone => ?_)
    (fun m m' hstep _ ih => (step_grows hstep).trans ih) m h
  obtain ⟨v, -, hout⟩ := step_done hdone
  rw [hout]
  exact Grows.refl _

/-! ## §3. Pending blocks. -/

/-- The pending blocks are different ones, and there. -/
structure PendingOk (pending : List PendingBlock) (s : Store) : Prop where
  nodup : (pending.map PendingBlock.blockId).Nodup
  there : ∀ p ∈ pending, p.blockId < s.blocks.length

/-- The blocks of `pending` are the same in both stores. -/
def SamePending (pending : List PendingBlock) (s s' : Store) : Prop :=
  ∀ p ∈ pending, s'.blocks[p.blockId]? = s.blocks[p.blockId]?

/-- The blocks that were there stay. -/
theorem Store.newBlock_blocks (s : Store) (tag : Nat) {id : Nat} (h : id < s.blocks.length) :
    (s.newBlock tag).blocks[id]? = s.blocks[id]? := List.getElem?_append_left h

/-- The other blocks stay. -/
theorem Store.pushItem_blocks (s : Store) (v : MLValue) {id j : Nat} (h : id ≠ j) :
    (s.pushItem id v).blocks[j]? = s.blocks[j]? := by
  rw [s.getElem?_pushItem, if_neg h]

@[simp] theorem Store.length_pushItem (s : Store) (id : Nat) (v : MLValue) :
    (s.pushItem id v).blocks.length = s.blocks.length := List.length_modify ..

@[simp] theorem Store.length_newBlock (s : Store) (tag : Nat) :
    (s.newBlock tag).blocks.length = s.blocks.length + 1 := by
  simp [Store.newBlock]

section Pending

variable {pending below : List PendingBlock} {p : PendingBlock} {s s' s'' : Store}

/-- The same blocks, and the same again. -/
theorem SamePending.trans (h : SamePending pending s s') (h' : SamePending pending s' s'') :
    SamePending pending s s'' := fun p hp => (h' p hp).trans (h p hp)

/-- Blocks are never taken away, so the pending ones stay there. -/
theorem PendingOk.mono (h : PendingOk pending s) (hle : s.blocks.length ≤ s'.blocks.length) :
    PendingOk pending s' :=
  ⟨h.nodup, fun p hp => Nat.lt_of_lt_of_le (h.there p hp) hle⟩

/-- The blocks below the one on top. -/
theorem PendingOk.tail (h : PendingOk (p :: pending) s) : PendingOk pending s :=
  ⟨(List.nodup_cons.mp h.nodup).2, fun q hq => h.there q (List.mem_cons_of_mem p hq)⟩

/-- The fields a block still waits for do not matter. -/
theorem PendingOk.recount (h : PendingOk (p :: pending) s) (n : Nat) :
    PendingOk ({ p with additionalFields := n } :: pending) s := by
  refine ⟨h.nodup, fun q hq => ?_⟩
  rcases List.mem_cons.mp hq with rfl | hq
  · exact h.there p List.mem_cons_self
  · exact h.there q (List.mem_cons_of_mem p hq)

/-- A new block is none of those that wait already. -/
theorem PendingOk.opened (h : PendingOk pending s) (tag n : Nat) :
    PendingOk (⟨s.blocks.length, n⟩ :: pending) (s.newBlock tag) := by
  constructor
  · rw [List.map_cons, List.nodup_cons]
    refine ⟨fun hmem => ?_, h.nodup⟩
    obtain ⟨q, hq, heq⟩ := List.mem_map.mp hmem
    exact Nat.ne_of_lt (h.there q hq) heq
  · intro q hq
    rw [Store.length_newBlock]
    rcases List.mem_cons.mp hq with rfl | hq
    · exact Nat.lt_succ_self _
    · exact Nat.lt_succ_of_lt (h.there q hq)

/-- A new block leaves those that wait as they are. -/
theorem PendingOk.same_newBlock (h : PendingOk pending s) (tag : Nat)
    (hsub : ∀ q ∈ below, q ∈ pending) : SamePending below s (s.newBlock tag) :=
  fun q hq => s.newBlock_blocks tag (h.there q (hsub q hq))

/-- An item for the block on top leaves the others as they are. -/
theorem PendingOk.same_pushItem (h : PendingOk (p :: pending) s) (v : MLValue)
    (hsub : ∀ q ∈ below, q ∈ pending) : SamePending below s (s.pushItem p.blockId v) := by
  intro q hq
  refine s.pushItem_blocks v fun heq => ?_
  have hfresh : p.blockId ∉ pending.map PendingBlock.blockId := (List.nodup_cons.mp h.nodup).1
  exact hfresh (heq ▸ List.mem_map_of_mem (hsub q hq))

end Pending

/-- **What a turn does to the pending blocks**: it leaves them alone, makes a
block that waits for nothing or one that waits, or hands an item to the block on
top, which waits for more or is finished. -/
inductive PendingTurn (m m' : Machine) : Prop
  | stays (hpending : m'.pending = m.pending) (hblocks : m'.store.blocks = m.store.blocks)
  | makes (tag : Nat) (hpending : m'.pending = m.pending) (hstore : m'.store = m.store.newBlock tag)
  | opens (tag n : Nat) (hpending : m'.pending = ⟨m.store.blocks.length, n⟩ :: m.pending)
      (hstore : m'.store = m.store.newBlock tag)
  | fills (p : PendingBlock) (pending : List PendingBlock) (n : Nat) (v : MLValue)
      (htop : m.pending = p :: pending)
      (hpending : m'.pending = { p with additionalFields := n } :: pending)
      (hstore : m'.store = m.store.pushItem p.blockId v)
  | closes (p : PendingBlock) (pending : List PendingBlock) (v : MLValue)
      (htop : m.pending = p :: pending) (hpending : m'.pending = pending)
      (hstore : m'.store = m.store.pushItem p.blockId v)
      (hstate : m'.state = .processItem (.block p.blockId))

/-- Every turn is one of these. -/
theorem step_pendingTurn {m m' : Machine} (h : step m = .ok (.running m')) : PendingTurn m m' := by
  obtain ⟨state, input, store, pending⟩ := m
  cases state with
  | readItem =>
      cases input with
      | nil => cases h
      | cons code input =>
          obtain ⟨m₁, hread, h⟩ := bind_eq_ok.mp h
          cases h
          have hreads := readCode_reads hread
          refine .stays hreads.pending ?_
          rcases hreads.store with hs | ⟨d, hs⟩
          · rw [hs]
          · rw [hs]
            rfl
  | readString length =>
      obtain ⟨⟨buf, rest⟩, -, h⟩ := bind_eq_ok.mp h
      cases h
      exact .stays rfl rfl
  | readShared offset =>
      obtain ⟨_, -, h⟩ := bind_eq_ok.mp h
      obtain ⟨_, -, h⟩ := bind_eq_ok.mp h
      split at h
      · cases h
      · cases h
        exact .stays rfl rfl
  -- a block without fields is done at once
  | readBlock tag size =>
      simp only [step] at h
      split at h
      · cases h
        exact .makes tag rfl rfl
      · cases h
        exact .opens tag (size - 1) rfl rfl
  | processItem v =>
      cases pending with
      | nil => cases h
      | cons p pending =>
          simp only [step] at h
          split at h
          · cases h
            exact .fills p pending _ v rfl rfl rfl
          · cases h
            exact .closes p pending v rfl rfl rfl rfl

/-- The run comes to handing block `id` to `below`, which has got nothing since `m`. -/
def Returns (out : Output) (m : Machine) (id : Nat) (below : List PendingBlock) : Prop :=
  ∃ input store, (⟨.processItem (.block id), input, store, below⟩ : Machine).run = .ok out ∧
    SamePending below m.store store

/-- What leaves the blocks below alone can come before it. -/
theorem Returns.of_same {out : Output} {m m' : Machine} {id : Nat} {below : List PendingBlock}
    (h : Returns out m' id below) (hsame : SamePending below m.store m'.store) :
    Returns out m id below := by
  obtain ⟨input, store, hrun, hs⟩ := h
  exact ⟨input, store, hrun, hsame.trans hs⟩

/-- **A pending block is finished before the ones below it go on**: the run
comes to handing it to them, and they have got nothing in between. -/
theorem run_returns {m : Machine} {out : Output} (h : m.run = .ok out) :
    ∀ above p below, m.pending = above ++ p :: below → PendingOk m.pending m.store →
      ∃ input store, (⟨.processItem (.block p.blockId), input, store, below⟩ : Machine).run
          = .ok out ∧ SamePending below m.store store := by
  refine run_induction (P := fun m => ∀ above p below, m.pending = above ++ p :: below →
    PendingOk m.pending m.store → Returns out m p.blockId below)
    (fun m hdone above p below hpending => ?_)
    (fun m m' hstep hrun ih above p below hpending hok => ?_) m h
  · obtain ⟨v, hm, -⟩ := step_done hdone
    rw [hm] at hpending
    simp at hpending
  rw [hpending] at hok
  have hbelow : ∀ q ∈ below, q ∈ above ++ p :: below := fun q hq => by simp [hq]
  -- what a turn does to the pending blocks
  cases step_pendingTurn hstep with
  | stays hp hs =>
      have hok' : PendingOk m'.pending m'.store := by
        rw [hp, hpending]
        exact hok.mono (Nat.le_of_eq (by rw [hs]))
      exact (ih above p below (hp.trans hpending) hok').of_same fun q _ => by rw [hs]
  | makes tag hp hs =>
      have hok' : PendingOk m'.pending m'.store := by
        rw [hp, hs, hpending]
        exact hok.mono (by simp)
      refine (ih above p below (hp.trans hpending) hok').of_same ?_
      rw [hs]
      exact hok.same_newBlock tag hbelow
  -- the new block is finished first, and then this one
  | opens tag n hp hs =>
      rw [hpending] at hp
      refine (ih (_ :: above) p below hp (by rw [hp, hs]; exact hok.opened tag n)).of_same ?_
      rw [hs]
      exact hok.same_newBlock tag hbelow
  | fills q pending n v htop hp hs =>
      have hok' : PendingOk m'.pending m'.store := by
        rw [hp, hs]
        exact ((htop ▸ hpending ▸ hok).recount n).mono (by simp)
      rw [hpending] at htop
      cases above with
      | nil =>
          obtain ⟨rfl, rfl⟩ := List.cons.inj htop
          refine (ih [] _ below hp hok').of_same ?_
          rw [hs]
          exact hok.same_pushItem v fun _ hq => hq
      | cons q' above =>
          obtain ⟨rfl, rfl⟩ := List.cons.inj htop
          refine (ih (_ :: above) p below hp hok').of_same ?_
          rw [hs]
          exact hok.same_pushItem v fun q hq => by simp [hq]
  | closes q pending v htop hp hs hstate =>
      rw [hpending] at htop
      cases above with
      | nil =>
          -- the block on top is the one the run comes back from
          obtain ⟨rfl, rfl⟩ := List.cons.inj htop
          obtain ⟨state', input', store', pending'⟩ := m'
          cases hstate
          cases hp
          cases hs
          exact ⟨input', _, hrun, hok.same_pushItem v fun _ hq => hq⟩
      | cons q' above =>
          obtain ⟨rfl, rfl⟩ := List.cons.inj htop
          have hok' : PendingOk m'.pending m'.store := by
            rw [hp, hs]
            exact PendingOk.mono (PendingOk.tail hok) (by simp)
          refine (ih above p below hp hok').of_same ?_
          rw [hs]
          exact hok.same_pushItem v fun q hq => by simp [hq]

end OcamlJit.Marshal

/-
  OcamlJit.Marshal.SmallInts
  ──────────────────────────
  **INTEGERS THAT ARE READ ARE SMALL.**

  The reader takes at most four bytes for an integer, whatever was written
  (`readCode_fitsI32`), and every integer in the blocks has been at hand before, so
  what comes out has no others (`smallInts_of_inputValue`).
-/
import OcamlJit.Marshal.Loop

namespace OcamlJit.Marshal

open OcamlJit.Lib

/-! ## §1. One turn. -/

/-- An integer of 32 bits. -/
def FitsI32 (i : Int) : Prop := -2 ^ 31 ≤ i ∧ i < 2 ^ 31

/-- The values inside blocks. -/
def itemsOf (blocks : MLValueBlocks) : List MLValue := blocks.blocks.flatMap MLValueBlock.items

theorem mem_itemsOf {blocks : MLValueBlocks} {id : Nat} {block : MLValueBlock} {v : MLValue}
    (h : blocks.blocks[id]? = some block) (hv : v ∈ block.items) : v ∈ itemsOf blocks :=
  List.mem_flatMap.mpr ⟨block, List.mem_of_getElem? h, hv⟩

/-- The integers in the blocks are small. -/
def SmallInts (blocks : MLValueBlocks) : Prop := ∀ i, .int i ∈ itemsOf blocks → FitsI32 i

/-- The integers in the blocks are small, and the one at hand. -/
structure SmallMachine (m : Machine) : Prop where
  store : ∀ (id : Nat) (block : MLValueBlock), m.store.blocks[id]? = some block →
    ∀ i, .int i ∈ block.items → FitsI32 i
  state : ∀ i, m.state = .processItem (.int i) → FitsI32 i

theorem fitsI32_readI {k : Nat} {i : Int} {input rest : List UInt8} (hk : k ≤ 4)
    (h : readI k input = .ok (i, rest)) : FitsI32 i := by
  obtain ⟨⟨n, rest'⟩, hread, h⟩ := bind_eq_ok.mp h
  cases h
  obtain ⟨⟨bytes, rest'⟩, hread, h⟩ := bind_eq_ok.mp hread
  cases h
  unfold readExact at hread
  split at hread
  · next hlen =>
      cases hread
      have hlt := beNat_lt (input.take k)
      rw [List.length_take, Nat.min_eq_left hlen] at hlt
      have hpow : 256 ^ k ≤ 256 ^ 4 := Nat.pow_le_pow_right (by omega) hk
      have hcast : ((256 ^ k : Nat) : Int) = 256 ^ k := by push_cast; rfl
      unfold FitsI32 toSigned
      split <;> omega
  · cases hread

/-- An integer that is read and handed on. -/
theorem fitsI32_of_readInt {k : Nat} {m m' : Machine} (hk : k ≤ 4) (h : (do
    let (i, input) ← readI k m.input
    pure { m with state := .processItem (.int i), input } : Rust InputError Machine) = .ok m') :
    ∀ i, m'.state = .processItem (.int i) → FitsI32 i := by
  intro i hi
  obtain ⟨⟨j, input⟩, hread, h⟩ := bind_eq_ok.mp h
  cases h
  cases hi
  exact fitsI32_readI hk hread

/-- A number that says what comes next. -/
theorem fitsI32_of_readNat {k : Nat} {m m' : Machine} (state : Nat → State)
    (hstate : ∀ n i, state n ≠ .processItem (.int i)) (h : (do
      let (n, input) ← readU k m.input
      pure { m with state := state n, input } : Rust InputError Machine) = .ok m') :
    ∀ i, m'.state = .processItem (.int i) → FitsI32 i := by
  intro i hi
  obtain ⟨⟨n, input⟩, -, h⟩ := bind_eq_ok.mp h
  cases h
  exact absurd hi (hstate n i)

theorem readCode_fitsI32 {code : Nat} {m m' : Machine} (h : readCode code m = .ok m') :
    ∀ i, m'.state = .processItem (.int i) → FitsI32 i := by
  intro i hi
  unfold readCode at h
  dsimp only at h
  split at h
  · cases h
    cases hi
  split at h
  · cases h
    cases hi
    unfold FitsI32
    omega
  split at h
  · cases h
    cases hi
  split at h
  case h_1 | h_2 | h_3 | h_4 => exact fitsI32_of_readInt (by omega) h i hi
  case h_5 | h_6 | h_7 | h_8 => exact fitsI32_of_readNat (fun n => .readShared n) (by simp) h i hi
  case h_9 | h_10 =>
    exact fitsI32_of_readNat (fun n => .readBlock (n % 2 ^ 8) (n / 2 ^ 10)) (by simp) h i hi
  case h_11 | h_12 | h_13 =>
    exact fitsI32_of_readNat (fun n => .readString n) (by simp) h i hi
  case h_14 | h_15 =>
    obtain ⟨⟨n, input⟩, -, h⟩ := bind_eq_ok.mp h
    cases h
    cases hi
  -- a custom block is not an integer
  case h_24 | h_25 | h_26 =>
    obtain ⟨⟨identifier, input⟩, -, h⟩ := bind_eq_ok.mp h
    obtain ⟨⟨v, input'⟩, hread, h⟩ := bind_eq_ok.mp h
    cases h
    obtain rfl : v = .int i := State.processItem.inj hi
    unfold readCustom at hread
    split at hread
    · obtain ⟨_, -, hread⟩ := bind_eq_ok.mp hread
      cases hread
    · split at hread
      · obtain ⟨_, -, hread⟩ := bind_eq_ok.mp hread
        cases hread
      · cases hread
  all_goals cases h

theorem SmallMachine.step {m m' : Machine} (h : SmallMachine m)
    (hstep : step m = .ok (.running m')) : SmallMachine m' := by
  obtain ⟨state, input, store, pending⟩ := m
  cases state with
  | readItem =>
      cases input with
      | nil => cases hstep
      | cons code input =>
          obtain ⟨m₁, hread, hstep⟩ := bind_eq_ok.mp hstep
          cases hstep
          -- at most a double is noted
          have hblocks : m'.store.blocks = store.blocks := by
            rcases (readCode_reads hread).store with hs | ⟨d, hs⟩
            · rw [hs]
            · rw [hs]
              rfl
          refine ⟨fun id block hid => ?_, readCode_fitsI32 hread⟩
          rw [hblocks] at hid
          exact h.store id block hid
  | processItem v =>
      have hpush : ∀ {id}, ∀ (j : Nat) (block : MLValueBlock),
          (store.pushItem id v).blocks[j]? = some block → ∀ i, .int i ∈ block.items → FitsI32 i := by
        intro id j block hj i hi
        rw [store.getElem?_pushItem] at hj
        split at hj
        -- the block gets the value at hand
        · obtain ⟨old, hold, rfl⟩ := Option.map_eq_some_iff.mp hj
          rcases List.mem_append.mp hi with hi | hi
          · exact h.store j old hold i hi
          · exact h.state i (by rw [List.mem_singleton.mp hi])
        · exact h.store j block hj i hi
      cases pending with
      | nil => cases hstep
      | cons p pending =>
          simp only [Marshal.step] at hstep
          split at hstep
          · cases hstep
            exact ⟨hpush, fun i hi => (by cases hi)⟩
          · cases hstep
            exact ⟨hpush, fun i hi => (by cases hi)⟩
  -- the new block has no items
  | readBlock tag size =>
      have hnew : ∀ (j : Nat) (block : MLValueBlock),
          (store.newBlock tag).blocks[j]? = some block → ∀ i, .int i ∈ block.items → FitsI32 i := by
        intro j block hj i hi
        rcases List.mem_append.mp (List.mem_of_getElem? hj) with hold | hnew
        · obtain ⟨k, hk⟩ := List.mem_iff_getElem?.mp hold
          exact h.store k block hk i hi
        · rw [List.mem_singleton.mp hnew] at hi
          cases hi
      simp only [Marshal.step] at hstep
      split at hstep
      · cases hstep
        exact ⟨hnew, fun i hi => (by cases hi)⟩
      · cases hstep
        exact ⟨hnew, fun i hi => (by cases hi)⟩
  -- a string is handed on, which is no integer
  | readString length =>
      obtain ⟨⟨buf, rest⟩, -, hstep⟩ := bind_eq_ok.mp hstep
      cases hstep
      exact ⟨h.store, fun i hi => (by cases hi)⟩
  | readShared offset =>
      obtain ⟨_, -, hstep⟩ := bind_eq_ok.mp hstep
      obtain ⟨_, -, hstep⟩ := bind_eq_ok.mp hstep
      split at hstep
      · cases hstep
      · next o _ =>
          cases hstep
          -- integers are not shared
          refine ⟨h.store, fun i hi => ?_⟩
          cases o with
          | block id => cases hi
          | string id => cases hi
          | double d => cases hi

/-! ## §2. A run. -/

/-- **`input_value` only reads small integers.** -/
theorem smallInts_of_inputValue {input : List UInt8} {out : Output}
    (h : inputValue input = .ok out) : SmallInts out.blocks := by
  obtain ⟨⟨_, rest⟩, -, h⟩ := bind_eq_ok.mp h
  have hsmall : SmallMachine ⟨.readItem, rest, ⟨[], [], []⟩, []⟩ :=
    ⟨fun id block hid => (by cases hid), fun i hi => (by cases hi)⟩
  refine run_induction (P := fun m => SmallMachine m → SmallInts out.blocks)
    (fun m hdone hm => ?_) (fun m m' hstep _ ih hm => ih (hm.step hstep)) _ h hsmall
  obtain ⟨v, -, hout⟩ := step_done hdone
  intro i hi
  obtain ⟨block, hblock, hi⟩ := List.mem_flatMap.mp hi
  obtain ⟨id, hid⟩ := List.mem_iff_getElem?.mp hblock
  rw [hout] at hid
  exact hm.store id block hid i hi

end OcamlJit.Marshal

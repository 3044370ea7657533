/-
  OcamlJit.Marshal.Recursive
  ──────────────────────────
  **THE READER IS THE RECURSION IT WAS DERIVED FROM.**

  `decodeItem` is "the initial obvious recursive algorithm" of the comment in
  `read_value`: a code is read, and after the header of a block each of its
  fields, in order.  The machine keeps the blocks that are not complete on a
  stack instead.

    • `run_readItem_eq_decodeItem`  the machine on any stack of pending blocks
                                    does what the recursion does, and hands the
                                    item to the stack;
    • `run_fills`                   a block ends with as many more items as the
                                    stack says;
    • `readValue_eq_decodeRecursively`  both decoders come out the same way on
                                    every input, the machine stops, and every
                                    block it reaches is filled.
-/
import OcamlJit.Marshal.Items
import Mathlib.Logic.Relation

namespace OcamlJit.Marshal

open OcamlJit.Lib

/-! ## §1. The recursion. -/

/-- An item, and the input and the tables after it. -/
structure Decoded where
  value : MLValue
  input : List UInt8
  store : Store

/-- The fields of a block in order, each of them an `item`. -/
def decodeFields (item : List UInt8 → Store → Rust InputError Decoded) (id : Nat) :
    Nat → List UInt8 → Store → Rust InputError Decoded
  | 0, input, store => .ok ⟨.block id, input, store⟩
  | size + 1, input, store => do
      let d ← item input store
      decodeFields item id size d.input (d.store.pushItem id d.value)

/-- An item.  The bound is on the nesting of blocks. -/
def decodeItem : Nat → List UInt8 → Store → Rust InputError Decoded
  | 0, _, _ => .error .outOfFuel
  | _ + 1, [], _ => err .couldNotReadNextCode
  | depth + 1, code :: input, store => do
      let m ← readCode code.toNat ⟨.readItem, input, store, []⟩
      match m.state with
      | .processItem v => pure ⟨v, m.input, m.store⟩
      | .readBlock tag size =>
          decodeFields (decodeItem depth) m.store.blocks.length size m.input
            (m.store.newBlock tag)
      | .readString length => do
          let (buf, input) ← readExact length m.input
          pure ⟨.string m.store.strings.length, input, m.store.newString buf⟩
      | .readShared offset => do
          ensure (0 < offset) .conditionFailed
          ensure (offset ≤ m.store.prevObjects.length) .conditionFailed
          match m.store.prevObjects[m.store.prevObjects.length - offset]? with
          | none => panicked
          | some o => pure ⟨o.value, m.input, m.store⟩
      -- no code leads back here
      | .readItem => panicked

/-- The recursion from the start.  A block takes a byte of the input, so they
are not nested deeper than the input is long. -/
def decodeRecursively (input : List UInt8) : Rust InputError Output := do
  let d ← decodeItem (input.length + 1) input ⟨[], [], []⟩
  pure ⟨d.store.toBlocks, d.value, d.input⟩

/-! ## §2. What the recursion leaves of the input. -/

/-- Fields take from the input. -/
theorem decodeFields_input {item : List UInt8 → Store → Rust InputError Decoded}
    (hitem : ∀ input store d, item input store = .ok d → d.input.length ≤ input.length)
    (id : Nat) : ∀ (size : Nat) (input : List UInt8) (store : Store) (d : Decoded),
    decodeFields item id size input store = .ok d → d.input.length ≤ input.length := by
  intro size
  induction size with
  | zero =>
      intro input store d h
      cases h
      exact Nat.le_refl _
  | succ size ih =>
      intro input store d h
      obtain ⟨d', hd', h⟩ := bind_eq_ok.mp h
      exact (ih _ _ d h).trans (hitem input store d' hd')

/-- An item takes a byte at least. -/
theorem decodeItem_input : ∀ (depth : Nat) (input : List UInt8) (store : Store) (d : Decoded),
    decodeItem depth input store = .ok d → d.input.length < input.length := by
  intro depth
  induction depth with
  | zero =>
      intro input store d h
      cases h
  | succ depth ih =>
      intro input store d h
      cases input with
      | nil => cases h
      | cons code input =>
          obtain ⟨m, hread, h⟩ := bind_eq_ok.mp h
          have hm : m.input.length ≤ input.length := (readCode_reads hread).input.length_le
          have hle : d.input.length ≤ m.input.length := by
            cases hs : m.state with
            | readItem => exact absurd hs (readCode_reads hread).state
            | processItem v =>
                rw [hs] at h
                cases h
                exact Nat.le_refl _
            -- the fields take a byte each
            | readBlock tag size =>
                rw [hs] at h
                exact decodeFields_input
                  (fun input store d hd => Nat.le_of_lt (ih input store d hd)) _ _ _ _ d h
            | readString length =>
                rw [hs] at h
                obtain ⟨⟨buf, rest⟩, hbuf, h⟩ := bind_eq_ok.mp h
                cases h
                exact (readExact_eq_ok hbuf).length_le
            | readShared offset =>
                rw [hs] at h
                obtain ⟨_, -, h⟩ := bind_eq_ok.mp h
                obtain ⟨_, -, h⟩ := bind_eq_ok.mp h
                split at h
                · cases h
                · cases h
                  exact Nat.le_refl _
          rw [List.length_cons]
          omega

/-! ## §3. The machine does what the recursion does. -/

/-- What follows a code does not depend on the pending blocks. -/
theorem readCode_pending (code : Nat) (input : List UInt8) (store : Store)
    (pending : List PendingBlock) :
    readCode code (.on .readItem input store pending) =
      readCode code (.on .readItem input store []) >>= fun m => .ok { m with pending } := by
  unfold readCode
  dsimp only
  split
  · rfl
  split
  · rfl
  split
  · rfl
  split
  case h_1 | h_2 | h_3 | h_4 =>
    unfold readI
    cases readU _ input <;> rfl
  case h_24 | h_25 | h_26 =>
    cases readCString input [] with
    | error e => rfl
    | ok p =>
        dsimp only [ok_bind]
        cases readCustom p.1 p.2 <;> rfl
  case h_16 | h_17 | h_18 | h_19 | h_20 | h_21 | h_22 | h_23 | h_27 => rfl
  all_goals cases readU _ input <;> rfl

/-- An item, and then the pending blocks. -/
def Decoded.handTo (pending : List PendingBlock) (d : Decoded) : Rust InputError Output :=
  (Machine.on (.processItem d.value) d.input d.store pending).run

/-- **The fields of the block on top of the stack.** -/
theorem run_fields {depth id : Nat} {pending : List PendingBlock}
    (ih : ∀ input store pending, input.length < depth →
      (Machine.on .readItem input store pending).run =
        decodeItem depth input store >>= Decoded.handTo pending) :
    ∀ (n : Nat) (input : List UInt8) (store : Store), input.length < depth →
      (Machine.on .readItem input store (⟨id, n⟩ :: pending)).run =
        decodeFields (decodeItem depth) id (n + 1) input store >>= Decoded.handTo pending := by
  intro n
  induction n with
  | zero =>
      intro input store hlen
      rw [ih input store _ hlen]
      unfold decodeFields
      cases h : decodeItem depth input store with
      | error e => rfl
      | ok d => exact run_of_step rfl
  | succ n ihn =>
      intro input store hlen
      rw [ih input store _ hlen]
      unfold decodeFields
      cases h : decodeItem depth input store with
      | error e => rfl
      | ok d =>
          have hlt := decodeItem_input depth input store d h
          exact (run_of_step rfl).trans (ihn _ _ (by omega))

/-- **The machine reads an item as the recursion does**, and hands it to the
pending blocks. -/
theorem run_readItem_eq_decodeItem : ∀ (depth : Nat) (input : List UInt8) (store : Store)
    (pending : List PendingBlock), input.length < depth →
    (Machine.on .readItem input store pending).run =
      decodeItem depth input store >>= Decoded.handTo pending := by
  intro depth
  induction depth with
  | zero =>
      intro input store pending hlen
      omega
  | succ depth ih =>
      intro input store pending hlen
      cases input with
      | nil =>
          rw [run_eq]
          rfl
      | cons code input =>
          rw [run_readItem, readCode_pending]
          unfold decodeItem
          cases hread : readCode code.toNat (.on .readItem input store []) with
          | error e => rfl
          | ok m =>
              have hm : m.input.length ≤ input.length := (readCode_reads hread).input.length_le
              obtain ⟨state, rest, store', p⟩ := m
              rw [ok_bind, ok_bind, ok_bind]
              -- what the code leads to
              cases state with
              | readItem => exact absurd rfl (readCode_reads hread).state
              | processItem v => rfl
              -- a block calls the recursion for each of its fields
              | readBlock tag size =>
                  cases size with
                  | zero => exact run_of_step rfl
                  | succ n =>
                      rw [List.length_cons] at hlen
                      refine (run_of_step rfl).trans (run_fields ih n _ _ ?_)
                      exact Nat.lt_of_le_of_lt hm (by omega)
              | readString length =>
                  rw [run_eq]
                  dsimp only [step]
                  cases readExact length rest with
                  | error e => rfl
                  | ok p => rfl
              | readShared offset =>
                  rw [run_eq]
                  dsimp only [step]
                  cases ensure (0 < offset) InputError.conditionFailed with
                  | error e => rfl
                  | ok u =>
                      cases ensure (offset ≤ store'.prevObjects.length)
                        InputError.conditionFailed with
                      | error e => rfl
                      | ok u =>
                          dsimp only [ok_bind]
                          cases store'.prevObjects[store'.prevObjects.length - offset]? with
                          | none => rfl
                          | some o => rfl

/-- **Both decoders come out the same way**: the same value, blocks, strings and
rest of the input, or the same failure. -/
theorem readValue_eq (input : List UInt8) : readValue input = decodeRecursively input := by
  show (Machine.on .readItem input ⟨[], [], []⟩ []).run = _
  rw [run_readItem_eq_decodeItem (input.length + 1) input _ [] (Nat.lt_succ_self _)]
  unfold decodeRecursively
  cases decodeItem (input.length + 1) input ⟨[], [], []⟩ with
  | error e => rfl
  | ok d => exact run_eq _

/-! ## §4. The machine stops. -/

/-- Bytes are there or missing. -/
theorem ends_readExact (k : Nat) (input : List UInt8) : Ends (readExact k input) := by
  unfold readExact
  split
  · exact ends_ok _
  · exact ends_err _

/-- A number is read or missing. -/
theorem ends_readU (k : Nat) (input : List UInt8) : Ends (readU k input) :=
  (ends_readExact k input).bind fun _ _ => ends_ok _

/-- A signed number is read or missing. -/
theorem ends_readI (k : Nat) (input : List UInt8) : Ends (readI k input) :=
  (ends_readU k input).bind fun _ _ => ends_ok _

/-- A string ends or is cut off. -/
theorem ends_readCString (input : List UInt8) : ∀ bytes, Ends (readCString input bytes) := by
  induction input with
  | nil =>
      intro bytes
      exact ends_err _
  | cons c input ih =>
      intro bytes
      unfold readCString
      split
      · exact ends_ok _
      · exact ih _

/-- A custom block is known or refused. -/
theorem ends_readCustom (identifier input : List UInt8) : Ends (readCustom identifier input) := by
  unfold readCustom
  split
  · exact (ends_readU 4 input).bind fun _ _ => ends_ok _
  split
  · exact (ends_readU 8 input).bind fun _ _ => ends_ok _
  · exact ends_err _

/-- Every code is read or refused. -/
theorem ends_readCode (code : Nat) (m : Machine) : Ends (readCode code m) := by
  unfold readCode
  dsimp only
  split
  · exact ends_ok _
  split
  · exact ends_ok _
  split
  · exact ends_ok _
  split
  case h_1 | h_2 | h_3 | h_4 => exact (ends_readI _ _).bind fun _ _ => ends_ok _
  case h_16 | h_17 | h_18 | h_19 | h_20 | h_21 | h_22 | h_23 | h_27 => exact ends_err _
  case h_24 | h_25 | h_26 =>
    exact (ends_readCString _ _).bind fun _ _ => (ends_readCustom _ _).bind fun _ _ => ends_ok _
  all_goals exact (ends_readU _ _).bind fun _ _ => ends_ok _

/-- So no turn runs out of fuel. -/
theorem ends_step (m : Machine) : Ends (step m) := by
  obtain ⟨state, input, store, pending⟩ := m
  cases state with
  | readItem =>
      cases input with
      | nil => exact ends_err _
      | cons code input => exact (ends_readCode _ _).bind fun _ _ => ends_ok _
  | processItem v =>
      cases pending with
      | nil => exact ends_ok _
      | cons p pending =>
          dsimp only [step]
          split
          · exact ends_ok _
          · exact ends_ok _
  | readBlock tag size =>
      dsimp only [step]
      split
      · exact ends_ok _
      · exact ends_ok _
  | readString length => exact (ends_readExact _ _).bind fun _ _ => ends_ok _
  | readShared offset =>
      refine (ends_ensure _ _).bind fun _ _ => (ends_ensure _ _).bind fun _ _ => ?_
      dsimp only
      split
      · exact ends_panicked
      · exact ends_ok _

/-- The turns of the bound are enough for every machine. -/
theorem ends_loop : ∀ (n : Nat) (m : Machine), m.turns ≤ n → Ends (loop n m) := by
  intro n
  induction n with
  | zero =>
      intro m hn
      have hpos := turns_pos m
      omega
  | succ n ih =>
      intro m hn
      refine (ends_step m).bind fun p hp => ?_
      cases p with
      | done r => exact ends_ok r
      | running m' =>
          have hlt := step_turns hp
          exact ih m' (by omega)

/-! ## §5. Every block is filled. -/

/-- A turn that is not the last one. -/
def Turn (m m' : Machine) : Prop := step m = .ok (.running m')

/-- The reader comes to `m`. -/
def Reaches (input : List UInt8) (m : Machine) : Prop :=
  Relation.ReflTransGen Turn ⟨.readItem, input, ⟨[], [], []⟩, []⟩ m

/-- How many items a block is waiting for. -/
def missing (pending : List PendingBlock) (id : Nat) : Nat :=
  (pending.map fun p => if p.blockId = id then p.additionalFields + 1 else 0).sum

/-- The block on top waits for its fields and one more. -/
theorem missing_cons (p : PendingBlock) (pending : List PendingBlock) (id : Nat) :
    missing (p :: pending) id =
      (if p.blockId = id then p.additionalFields + 1 else 0) + missing pending id := rfl

/-- A new block waits for nothing. -/
theorem missing_eq_zero {pending : List PendingBlock} {id : Nat}
    (h : ∀ p ∈ pending, p.blockId < id) : missing pending id = 0 := by
  induction pending with
  | nil => rfl
  | cons p pending ih =>
      have hp := h p List.mem_cons_self
      rw [missing_cons, if_neg (by omega), ih fun q hq => h q (List.mem_cons_of_mem _ hq)]

/-- The block ends with as many more items as it is waiting for. -/
def Fills (out : Output) (m : Machine) : Prop :=
  ∀ (id : Nat) (block : MLValueBlock), m.store.blocks[id]? = some block →
    ∃ more, out.blocks.blocks[id]? = some ⟨block.tag, block.items ++ more⟩ ∧
      more.length = missing m.pending id

/-- An item for the block on top: `below` is what the stack is after it. -/
theorem fills_pushItem {out : Output} {v : MLValue} {input input' : List UInt8} {state : State}
    {store : Store} {p : PendingBlock} {pending below : List PendingBlock}
    (hmissing : ∀ id, missing (p :: pending) id =
      (if p.blockId = id then 1 else 0) + missing below id)
    (h : Fills out ⟨state, input', store.pushItem p.blockId v, below⟩) :
    Fills out (.on (.processItem v) input store (p :: pending)) := by
  intro id block hid
  have hpush := store.getElem?_pushItem p.blockId id v
  have hcount := hmissing id
  by_cases hp : p.blockId = id
  · rw [if_pos hp, show store.blocks[id]? = some block from hid] at hpush
    rw [if_pos hp] at hcount
    obtain ⟨more, hout, hlen⟩ := h id _ hpush
    have hmore : more.length = missing below id := hlen
    refine ⟨v :: more, ?_, ?_⟩
    · rw [hout, List.append_assoc]
      rfl
    · show (v :: more).length = missing (p :: pending) id
      rw [List.length_cons]
      omega
  · rw [if_neg hp] at hpush hcount
    obtain ⟨more, hout, hlen⟩ := h id block (hpush.trans hid)
    have hmore : more.length = missing below id := hlen
    refine ⟨more, hout, ?_⟩
    show more.length = missing (p :: pending) id
    omega

/-- A turn: what is there after it is filled, so it is before. -/
theorem step_fills {out : Output} {m m' : Machine} (hstep : step m = .ok (.running m'))
    (h : Fills out m') : Fills out m := by
  obtain ⟨state, input, store, pending⟩ := m
  -- the same blocks under the same pending ones
  have hsame : m'.pending = pending → m'.store.blocks = store.blocks →
      Fills out ⟨state, input, store, pending⟩ := by
    intro hp hs id block hid
    obtain ⟨more, hout, hlen⟩ := h id block (by rw [hs]; exact hid)
    exact ⟨more, hout, by rw [hlen, hp]⟩
  cases state with
  | readItem =>
      cases input with
      | nil => cases hstep
      | cons code input =>
          obtain ⟨m₁, hread, hstep⟩ := bind_eq_ok.mp hstep
          cases hstep
          have hreads := readCode_reads hread
          rcases hreads.store with hs | ⟨d, hs⟩
          · exact hsame hreads.pending (by rw [hs])
          · exact hsame hreads.pending (by rw [hs]; rfl)
  | readString length =>
      obtain ⟨p, -, hstep⟩ := bind_eq_ok.mp hstep
      cases hstep
      exact hsame rfl rfl
  | readShared offset =>
      obtain ⟨_, -, hstep⟩ := bind_eq_ok.mp hstep
      obtain ⟨_, -, hstep⟩ := bind_eq_ok.mp hstep
      split at hstep
      · cases hstep
      · cases hstep
        exact hsame rfl rfl
  | readBlock tag size =>
      -- the blocks so far are none of them the new one
      have hold : ∀ id block, store.blocks[id]? = some block →
          id < store.blocks.length ∧ (store.newBlock tag).blocks[id]? = some block := by
        intro id block hid
        have hlt := (List.getElem?_eq_some_iff.mp hid).1
        exact ⟨hlt, (store.newBlock_blocks tag hlt).trans hid⟩
      simp only [step] at hstep
      split at hstep
      · cases hstep
        intro id block hid
        exact h id block (hold id block hid).2
      · cases hstep
        intro id block hid
        obtain ⟨hlt, hnew⟩ := hold id block hid
        obtain ⟨more, hout, hlen⟩ := h id block hnew
        refine ⟨more, hout, ?_⟩
        rw [hlen, missing_cons, if_neg (Nat.ne_of_gt hlt), Nat.zero_add]
  -- the value goes to the block on top, which misses one field less
  | processItem v =>
      cases pending with
      | nil => cases hstep
      | cons p pending =>
          simp only [step] at hstep
          split at hstep
          · next hpos =>
              cases hstep
              refine fills_pushItem (fun id => ?_) h
              rw [missing_cons, missing_cons]
              dsimp only
              split <;> omega
          · next hpos =>
              cases hstep
              refine fills_pushItem (fun id => ?_) h
              rw [missing_cons]
              split <;> omega

/-- **The blocks of a run are filled.** -/
theorem run_fills {m : Machine} {out : Output} (h : m.run = .ok out) : Fills out m := by
  refine run_induction (fun m hdone => ?_) (fun m m' hstep _ ih => step_fills hstep ih) m h
  obtain ⟨v, hm, hout⟩ := step_done hdone
  intro id block hid
  refine ⟨[], ?_, ?_⟩
  · rw [hout, List.append_nil]
    exact hid
  · rw [hm]
    rfl

/-- A turn leaves no block pending that is not there. -/
theorem step_there {m m' : Machine} (hstep : Turn m m')
    (h : ∀ p ∈ m.pending, p.blockId < m.store.blocks.length) :
    ∀ p ∈ m'.pending, p.blockId < m'.store.blocks.length := by
  unfold Turn at hstep
  obtain ⟨state, input, store, pending⟩ := m
  cases state with
  | readItem =>
      cases input with
      | nil => cases hstep
      | cons code input =>
          obtain ⟨m₁, hread, hstep⟩ := bind_eq_ok.mp hstep
          cases hstep
          have hreads := readCode_reads hread
          rw [hreads.pending]
          rcases hreads.store with hs | ⟨d, hs⟩
          · rw [hs]
            exact h
          · rw [hs]
            exact h
  | readString length =>
      obtain ⟨p, -, hstep⟩ := bind_eq_ok.mp hstep
      cases hstep
      exact h
  | readShared offset =>
      obtain ⟨_, -, hstep⟩ := bind_eq_ok.mp hstep
      obtain ⟨_, -, hstep⟩ := bind_eq_ok.mp hstep
      split at hstep
      · cases hstep
      · cases hstep
        exact h
  -- the new block is there before it is pending
  | readBlock tag size =>
      have hold : ∀ p ∈ pending, p.blockId < (store.newBlock tag).blocks.length := by
        intro p hp
        have hlt : p.blockId < store.blocks.length := h p hp
        simp only [Store.newBlock, List.length_append]
        omega
      simp only [step] at hstep
      split at hstep
      · cases hstep
        exact hold
      · cases hstep
        intro p hp
        rcases List.mem_cons.mp hp with rfl | hp
        · simp [Store.newBlock]
        · exact hold p hp
  | processItem v =>
      cases pending with
      | nil => cases hstep
      | cons p pending =>
          simp only [step] at hstep
          split at hstep
          · cases hstep
            intro q hq
            rw [Store.length_pushItem]
            rcases List.mem_cons.mp hq with rfl | hq
            · exact h p List.mem_cons_self
            · exact h q (List.mem_cons_of_mem _ hq)
          · cases hstep
            intro q hq
            rw [Store.length_pushItem]
            exact h q (List.mem_cons_of_mem _ hq)

/-- The rest of a run, from any machine it comes to. -/
theorem Reaches.run {input : List UInt8} {m : Machine} (h : Reaches input m) :
    m.run = readValue input ∧ ∀ p ∈ m.pending, p.blockId < m.store.blocks.length := by
  induction h with
  | refl => exact ⟨rfl, fun p hp => absurd hp List.not_mem_nil⟩
  | tail _ hturn ih => exact ⟨(run_of_step hturn).symm.trans ih.1, step_there hturn ih.2⟩

/-- A block the reader comes to has its items in the end. -/
theorem Reaches.filled {input : List UInt8} {out : Output} {m : Machine} {tag size : Nat}
    (hreach : Reaches input m) (hstate : m.state = .readBlock tag size) (hsize : 0 < size)
    (hout : readValue input = .ok out) :
    ∃ items, out.blocks.blocks[m.store.blocks.length]? = some ⟨tag, items⟩ ∧
      items.length = size := by
  obtain ⟨hrun, hthere⟩ := hreach.run
  obtain ⟨state, rest, store, pending⟩ := m
  cases hstate
  have hstep : step ⟨.readBlock tag size, rest, store, pending⟩ =
      .ok (.running ⟨.readItem, rest, store.newBlock tag,
        ⟨store.blocks.length, size - 1⟩ :: pending⟩) := by
    dsimp only [step]
    rw [if_neg (Nat.ne_of_gt hsize)]
  have hfills := run_fills (((run_of_step hstep).symm.trans hrun).trans hout)
  obtain ⟨items, hid, hlen⟩ := hfills store.blocks.length ⟨tag, []⟩ List.getElem?_concat_length
  refine ⟨items, hid, ?_⟩
  rw [missing_cons, if_pos rfl, missing_eq_zero hthere] at hlen
  dsimp only at hlen
  omega

/-- **The machine is the recursion.**  On every input they come out the same
way, with the same value, blocks, strings and rest of the input if they do; the
machine stops; and whenever it has come to a block of some size and returns, the
block ends with its tag and that many items. -/
theorem readValue_eq_decodeRecursively (input : List UInt8) :
    readValue input = decodeRecursively input ∧
      (Ends (readValue input) ∧ ∀ n, (⟨.readItem, input, ⟨[], [], []⟩, []⟩ : Machine).turns ≤ n →
        loop n ⟨.readItem, input, ⟨[], [], []⟩, []⟩ = readValue input) ∧
      ∀ out m tag size, readValue input = .ok out → Reaches input m →
        m.state = .readBlock tag size → 0 < size →
          ∃ items, out.blocks.blocks[m.store.blocks.length]? = some ⟨tag, items⟩ ∧
            items.length = size := by
  refine ⟨readValue_eq input, ⟨ends_loop _ _ (Nat.le_refl _), ?_⟩, ?_⟩
  · intro n hn
    exact loop_congr n _ _ hn (Nat.le_refl _)
  · intro out m tag size hout hreach hstate hsize
    exact hreach.filled hstate hsize hout

/-- A block of size 1 that refers to itself. -/
theorem readValue_eq_decodeRecursively_cyclic :
    readValue [0x90, 0x04, 0x01] = .ok ⟨⟨[⟨0, [.block 0]⟩], []⟩, .block 0, []⟩ ∧
      ∃ items, [(⟨0, [.block 0]⟩ : MLValueBlock)][0]? = some ⟨0, items⟩ ∧ items.length = 1 := by
  have hout : readValue [0x90, 0x04, 0x01] =
      .ok ⟨⟨[⟨0, [.block 0]⟩], []⟩, .block 0, []⟩ := by decide +kernel
  have hreach : Reaches [0x90, 0x04, 0x01] ⟨.readBlock 0 1, [0x04, 0x01], ⟨[], [], []⟩, []⟩ :=
    Relation.ReflTransGen.single (by unfold Turn; rfl)
  exact ⟨hout, (readValue_eq_decodeRecursively [0x90, 0x04, 0x01]).2.2 _ _ 0 1 hout hreach rfl
    (by decide)⟩

end OcamlJit.Marshal

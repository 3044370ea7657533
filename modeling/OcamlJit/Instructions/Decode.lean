/-
  OcamlJit.Instructions.Decode
  ────────────────────────────
  **THE DECODER, OPCODE BY OPCODE.**

  The iterator threads words, a position, a queue and an error flag.  Seen from
  an offset of the array all of that is one function: `decodeAt code off` reads
  the opcode at `off` and gives its instructions and the offset after it.  The
  main facts:

    • `decodeAt_bounds` — an opcode takes at least one word and stays inside
      the array,
    • `instructionsFrom_eq` — the iterator started at `off` yields the
      `labelDef` of `off`, the instructions of its opcode, and then what the
      iterator started at the next offset yields,
    • `decodeAll_eq_ok` — an array decodes without a fault exactly when its
      words split into opcodes (`Decodes`).
-/
import OcamlJit.Instructions.Parse

namespace OcamlJit.Instructions

open OcamlJit.Lib

/-! ## §1. How many words a reader takes. -/

/-- A successful run of `r` takes exactly the first `n` words. -/
def ReadsN {α : Type} (n : Nat) (r : Reader α) : Prop :=
  ∀ c a c', r c = .ok (a, c') →
    n ≤ c.iter.length ∧ c' = ⟨c.iter.drop n, c.position + n⟩

/-- A successful run of `r` takes some prefix of the words. -/
def Advances {α : Type} (r : Reader α) : Prop :=
  ∀ c a c', r c = .ok (a, c') →
    ∃ n, n ≤ c.iter.length ∧ c' = ⟨c.iter.drop n, c.position + n⟩

/-- A reader that succeeds has read its first part, and then its second. -/
theorem reader_bind_ok {α β : Type} {x : Reader α} {f : α → Reader β}
    {c c'' : Cursor} {b : β} :
    (x >>= f) c = .ok (b, c'') ↔ ∃ a c', x c = .ok (a, c') ∧ f a c' = .ok (b, c'') :=
  stateT_bind_eq_ok

/-- Nothing is read. -/
theorem reader_pure_ok {α : Type} {a b : α} {c c' : Cursor} :
    (pure a : Reader α) c = .ok (b, c') ↔ a = b ∧ c = c' :=
  stateT_pure_eq_ok

/-- No word is read. -/
theorem readsN_pure {α : Type} (a : α) : ReadsN 0 (pure a : Reader α) := by
  intro c b c' h
  obtain ⟨-, rfl⟩ := reader_pure_ok.mp h
  simp

/-- The words of the first part and those of the second. -/
theorem ReadsN.bind {α β : Type} {n m : Nat} {x : Reader α} {f : α → Reader β}
    (hx : ReadsN n x) (hf : ∀ a, ReadsN m (f a)) : ReadsN (m + n) (x >>= f) := by
  intro c b c'' h
  obtain ⟨a, c', h1, h2⟩ := reader_bind_ok.mp h
  obtain ⟨hle1, rfl⟩ := hx c a c' h1
  obtain ⟨hle2, rfl⟩ := hf a _ b c'' h2
  simp only [List.length_drop] at hle2
  refine ⟨by omega, ?_⟩
  simp only [List.drop_drop, Cursor.mk.injEq]
  exact ⟨by congr 1; omega, by omega⟩

/-- The shape of most cases: one operand word, then the rest. -/
theorem ReadsN.bind_one {α β : Type} {m : Nat} {x : Reader α} {f : α → Reader β}
    (hx : ReadsN 1 x) (hf : ∀ a, ReadsN m (f a)) : ReadsN (m + 1) (x >>= f) :=
  hx.bind hf

/-- Reading words only moves on. -/
theorem ReadsN.advances {α : Type} {n : Nat} {r : Reader α} (h : ReadsN n r) :
    Advances r :=
  fun c a c' hr => ⟨n, h c a c' hr⟩

/-- Not reading does not move back. -/
theorem advances_pure {α : Type} (a : α) : Advances (pure a : Reader α) :=
  (readsN_pure a).advances

/-- Two readers that move on, one after the other. -/
theorem Advances.bind {α β : Type} {x : Reader α} {f : α → Reader β}
    (hx : Advances x) (hf : ∀ a, Advances (f a)) : Advances (x >>= f) := by
  intro c b c'' h
  obtain ⟨a, c', h1, h2⟩ := reader_bind_ok.mp h
  obtain ⟨n, hle1, rfl⟩ := hx c a c' h1
  obtain ⟨m, hle2, rfl⟩ := hf a _ b c'' h2
  simp only [List.length_drop] at hle2
  refine ⟨n + m, by omega, ?_⟩
  simp only [List.drop_drop, Nat.add_assoc]

/-- Every value `r` can give satisfies `P`. -/
def Yields {α : Type} (P : α → Prop) (r : Reader α) : Prop :=
  ∀ c a c', r c = .ok (a, c') → P a

/-- What a reader yields has the property. -/
theorem Yields.elim {α : Type} {P : α → Prop} {r : Reader α} (h : Yields P r)
    {c c' : Cursor} {a : α} (hr : r c = .ok (a, c')) : P a :=
  h c a c' hr

/-- A value with the property is yielded. -/
theorem yields_pure {α : Type} {P : α → Prop} {a : α} (h : P a) :
    Yields P (pure a : Reader α) := by
  intro c b c' hr
  obtain ⟨rfl, -⟩ := reader_pure_ok.mp hr
  exact h

/-- Only the last part yields. -/
theorem yields_bind {α β : Type} {P : β → Prop} {x : Reader α} {f : α → Reader β}
    (hf : ∀ a, Yields P (f a)) : Yields P (x >>= f) := by
  intro c b c'' h
  obtain ⟨a, c', -, h2⟩ := reader_bind_ok.mp h
  exact hf a c' b c'' h2

namespace Reader

/-- `i32` reads one word. -/
theorem i32_readsN : ReadsN 1 i32 := by
  intro c v c' h
  unfold i32 err at h
  cases hc : c.iter with
  | nil =>
      rw [hc] at h
      exact absurd h (by simp)
  | cons w rest =>
      rw [hc] at h
      simp only [Except.ok.injEq, Prod.mk.injEq] at h
      obtain ⟨-, rfl⟩ := h
      simp

/-- `u32` reads one word. -/
theorem u32_readsN : ReadsN 1 u32 := i32_readsN.bind fun _ => readsN_pure _

/-- `u8` reads one word. -/
theorem u8_readsN : ReadsN 1 u8 := i32_readsN.bind fun _ => readsN_pure _

/-- A signed operand is one word. -/
theorem sint_readsN : ReadsN 1 sint := i32_readsN.bind fun _ => readsN_pure _

/-- An opcode is one word. -/
theorem opcode_readsN : ReadsN 1 opcode := by
  refine ReadsN.bind (m := 0) i32_readsN fun v => ?_
  cases hv : Opcode.fromI32 v with
  | some op => exact readsN_pure op
  | none =>
      intro c a c' h
      exact absurd h (by simp [err])

/-- The position is known without reading. -/
theorem currentPosition_readsN : ReadsN 0 currentPosition := by
  intro c a c' h
  simp only [currentPosition, Except.ok.injEq, Prod.mk.injEq] at h
  obtain ⟨-, rfl⟩ := h
  simp

/-- A label is one word, whatever it is relative to. -/
theorem labelAt_readsN (position : Nat) : ReadsN 1 (labelAt position) := by
  refine ReadsN.bind (m := 0) i32_readsN fun rel => ?_
  intro c a c' h
  cases hl : resolveLabel position rel with
  | error e =>
      rw [hl] at h
      exact absurd h (by simp [Except.map])
  | ok l =>
      rw [hl] at h
      simp only [Except.map, Except.ok.injEq, Prod.mk.injEq] at h
      obtain ⟨-, rfl⟩ := h
      simp

/-- A label is one word. -/
theorem label_readsN : ReadsN 1 label :=
  ReadsN.bind (n := 0) (m := 1) currentPosition_readsN labelAt_readsN

/-- A table of labels is as many words. -/
theorem getLabelList_readsN :
    ∀ count position, ReadsN count (getLabelList count position)
  | 0, _ => readsN_pure _
  | count + 1, position => by
      refine (labelAt_readsN position).bind_one fun l => ?_
      have hrest := (getLabelList_readsN count position).bind
        fun ls => readsN_pure (l :: ls)
      rwa [Nat.zero_add] at hrest

end Reader

/-! ## §2. The words of one opcode. -/

/-- A property of readers that the steps of the decoder have, and that goes on
from step to step. -/
structure Compositional (P : (α : Type) → Reader α → Prop) : Prop where
  pure : ∀ (α : Type) (a : α), P α (Pure.pure a)
  bind : ∀ (α β : Type) (x : Reader α) (f : α → Reader β), P α x → (∀ a, P β (f a)) →
    P β (x >>= f)
  word : P Word Reader.i32
  position : P Nat Reader.currentPosition
  labelAt : ∀ position, P Nat (Reader.labelAt position)

/-- What holds of readers and their compositions holds of a table of labels. -/
theorem Compositional.getLabelList {P : (α : Type) → Reader α → Prop} (h : Compositional P)
    (position : Nat) : ∀ count, P (List Nat) (Reader.getLabelList count position)
  | 0 => h.pure _ _
  | count + 1 =>
      h.bind _ _ _ _ (h.labelAt position) fun _ =>
        h.bind _ _ _ _ (h.getLabelList position count) fun _ => h.pure _ _

open Reader in
/-- **Whatever the opcode, reading its operands has the property.** -/
theorem Compositional.readOperands {P : (α : Type) → Reader α → Prop} (h : Compositional P)
    (op : Opcode) : P _ (readOperands op) := by
  have hu32 : P _ u32 := h.bind _ _ _ _ h.word fun _ => h.pure _ _
  have hu8 : P _ u8 := h.bind _ _ _ _ h.word fun _ => h.pure _ _
  have hsint : P _ sint := h.bind _ _ _ _ h.word fun _ => h.pure _ _
  have hlabel : P _ label := h.bind _ _ _ _ h.position h.labelAt
  have hpos := h.position
  cases op <;> simp only [Instructions.readOperands] <;>
    repeat' (first
      | exact h.pure _ _
      | assumption
      | exact h.getLabelList _ _
      | refine h.bind _ _ _ _ ?_ fun _ => ?_)

/-- Moving on is such a property. -/
theorem compositional_advances : Compositional fun _ r => Advances r where
  pure _ := advances_pure
  bind _ _ _ _ := Advances.bind
  word := Reader.i32_readsN.advances
  position := Reader.currentPosition_readsN.advances
  labelAt position := (Reader.labelAt_readsN position).advances

/-- Whatever the opcode, its operands are a prefix of the words. -/
theorem readOperands_advances (op : Opcode) : Advances (readOperands op) :=
  compositional_advances.readOperands op

/-- An opcode stands for at least one and at most three instructions. -/
theorem readOperands_length {op : Opcode} {c c' : Cursor} {is : List (Instruction Nat)}
    (h : readOperands op c = .ok (is, c')) : 1 ≤ is.length ∧ is.length ≤ 3 := by
  refine Yields.elim (P := fun is => 1 ≤ is.length ∧ is.length ≤ 3) ?_ h
  cases op <;> simp only [readOperands] <;>
    repeat' (first
      | exact yields_pure (by simp)
      | refine yields_bind fun _ => ?_)

/-- **One call of the decoder** gives one to three instructions and takes at least
one word. -/
theorem readInstrs_spec {c c' : Cursor} {is : List (Instruction Nat)}
    (h : readInstrs c = .ok (is, c')) :
    1 ≤ is.length ∧ is.length ≤ 3 ∧
      ∃ n, 1 ≤ n ∧ n ≤ c.iter.length ∧ c' = ⟨c.iter.drop n, c.position + n⟩ := by
  obtain ⟨op, c1, hop, hr⟩ := reader_bind_ok.mp h
  obtain ⟨hle, rfl⟩ := Reader.opcode_readsN c op c1 hop
  obtain ⟨n, hn, rfl⟩ := readOperands_advances op _ is c' hr
  obtain ⟨h1, h3⟩ := readOperands_length hr
  simp only [List.length_drop] at hn
  refine ⟨h1, h3, n + 1, by omega, by omega, ?_⟩
  simp only [List.drop_drop, Cursor.mk.injEq]
  exact ⟨by congr 1; omega, by omega⟩

/-! ## §3. Decoding at an offset. -/

/-- The instructions of the opcode at `off` and the offset after its words. -/
def decodeAt (code : List Word) (off : Nat) :
    Rust InstructionParseError (List (Instruction Nat) × Nat) := do
  let (is, c) ← readInstrs ⟨code.drop off, off⟩
  pure (is, c.position)

/-- The cursor after decoding at an offset is the one at the next offset. -/
theorem decodeAt_cursor {code : List Word} {off off' : Nat}
    {is : List (Instruction Nat)} (h : decodeAt code off = .ok (is, off')) :
    readInstrs ⟨code.drop off, off⟩ = .ok (is, ⟨code.drop off', off'⟩) := by
  obtain ⟨⟨is', c⟩, hr, hp⟩ := bind_eq_ok.mp h
  simp only [pure, Except.pure, Except.ok.injEq, Prod.mk.injEq] at hp
  obtain ⟨rfl, rfl⟩ := hp
  obtain ⟨-, -, n, -, -, rfl⟩ := readInstrs_spec hr
  simpa only [List.drop_drop] using hr

/-- The next offset is further on, and inside the code. -/
theorem decodeAt_bounds {code : List Word} {off off' : Nat}
    {is : List (Instruction Nat)} (h : decodeAt code off = .ok (is, off')) :
    off < off' ∧ off' ≤ code.length ∧ 1 ≤ is.length ∧ is.length ≤ 3 := by
  obtain ⟨h1, h3, n, hn1, hn, hc⟩ := readInstrs_spec (decodeAt_cursor h)
  simp only [List.length_drop] at hn
  simp only [Cursor.mk.injEq] at hc
  omega

/-- What the instructions of one opcode look like: no labels among them, a
control transfer only at the end, and no list longer than its `u32` count. -/
def QueueOk : List (Instruction Nat) → Prop
  | [] => True
  | i :: q => (∀ l, i ≠ .labelDef l) ∧ (i.isControl = true → q = []) ∧
      (∀ ls n, i = .closureRec ls n → ls.length < 2 ^ 32) ∧ QueueOk q

/-- As many labels as were asked for. -/
theorem getLabelList_length {position : Nat} :
    ∀ {count : Nat} {c c' : Cursor} {ls : List Nat},
      Reader.getLabelList count position c = .ok (ls, c') → ls.length = count
  | 0, c, c', ls, h => by
      obtain ⟨rfl, -⟩ := reader_pure_ok.mp h
      rfl
  | count + 1, c, c', ls, h => by
      obtain ⟨l, c1, -, h⟩ := reader_bind_ok.mp h
      obtain ⟨ls', c2, hls, h⟩ := reader_bind_ok.mp h
      obtain ⟨rfl, -⟩ := reader_pure_ok.mp h
      rw [List.length_cons, getLabelList_length hls]

/-- What is decoded has no label definitions in it. -/
theorem decodeAt_queueOk {code : List Word} {off off' : Nat} {is : List (Instruction Nat)}
    (h : decodeAt code off = .ok (is, off')) : QueueOk is := by
  obtain ⟨op, c1, -, hr⟩ := reader_bind_ok.mp (decodeAt_cursor h)
  by_cases hop : op = .closureRec
  · subst hop
    obtain ⟨length, c2, hlen, hr⟩ := reader_bind_ok.mp hr
    obtain ⟨n, c3, -, hr⟩ := reader_bind_ok.mp hr
    obtain ⟨pos, c4, -, hr⟩ := reader_bind_ok.mp hr
    obtain ⟨ls, c5, hls, hr⟩ := reader_bind_ok.mp hr
    obtain ⟨rfl, -⟩ := reader_pure_ok.mp hr
    obtain ⟨w, c6, -, hw⟩ := reader_bind_ok.mp hlen
    obtain ⟨rfl, -⟩ := reader_pure_ok.mp hw
    have hlt : ls.length < 2 ^ 32 := by
      rw [getLabelList_length hls]
      exact w.isLt
    simp only [QueueOk, Instruction.isControl, ne_eq, reduceCtorEq, not_false_eq_true,
      implies_true, and_true, true_and, Instruction.closureRec.injEq]
    rintro ls' n' ⟨rfl, rfl⟩
    exact hlt
  · refine Yields.elim (P := QueueOk) ?_ hr
    cases op <;> first | exact absurd rfl hop | skip
    all_goals
      simp only [readOperands]
      repeat' (first
        | exact yields_pure (by simp [QueueOk, Instruction.isControl])
        | refine yields_bind fun _ => ?_)

/-- So no label definition waits in the queue. -/
theorem QueueOk.not_mem_labelDef {l : Nat} :
    ∀ {is : List (Instruction Nat)}, QueueOk is → .labelDef l ∉ is
  | [], _ => List.not_mem_nil
  | i :: q, h => by
      intro hmem
      rcases List.mem_cons.mp hmem with rfl | hmem
      · exact h.1 l rfl
      · exact QueueOk.not_mem_labelDef h.2.2.2 hmem

/-! ## §4. The iterator from an offset. -/

namespace InstructionIterator

/-- Calls of `next` that can still yield something. -/
def fuelNeeded (it : InstructionIterator) : Nat :=
  if it.error then 0 else 4 * it.iter.length + it.nextQueued.length + 1

/-- A call that yields uses up some of `fuelNeeded`. -/
theorem next_fuelNeeded {it it' : InstructionIterator}
    {r : Rust InstructionParseError (Instruction Nat)}
    (h : it.next = (some r, it')) : it'.fuelNeeded < it.fuelNeeded := by
  obtain ⟨iter, position, nextQueued, error⟩ := it
  cases error with
  | true => simp [next] at h
  | false =>
      cases nextQueued with
      | cons i queued =>
          simp only [next, getNextInstr, Bool.false_eq_true, if_false,
            Prod.mk.injEq] at h
          obtain ⟨-, rfl⟩ := h
          simp [fuelNeeded]
      | nil =>
          cases iter with
          | nil => simp [next, getNextInstr] at h
          | cons w ws =>
              simp only [next, getNextInstr, Bool.false_eq_true, if_false,
                List.isEmpty_cons] at h
              cases hr : readInstrs ⟨w :: ws, position⟩ with
              | error e =>
                  simp only [hr, error_bind, Prod.mk.injEq] at h
                  obtain ⟨-, rfl⟩ := h
                  simp [fuelNeeded]
              | ok p =>
                  obtain ⟨is, c⟩ := p
                  obtain ⟨-, h3, n, hn1, hn, rfl⟩ := readInstrs_spec hr
                  simp only [hr, ok_bind, pure, Except.pure, Prod.mk.injEq] at h
                  obtain ⟨-, rfl⟩ := h
                  simp only [List.length_cons] at hn
                  simp [fuelNeeded]
                  omega

/-- More fuel than `fuelNeeded` never changes what is collected. -/
theorem collect_eq_collect :
    ∀ (n m : Nat) (it : InstructionIterator), it.fuelNeeded < n → it.fuelNeeded < m →
      collect n it = collect m it
  | 0, _, _, hn, _ => absurd hn (Nat.not_lt_zero _)
  | _, 0, _, _, hm => absurd hm (Nat.not_lt_zero _)
  | n + 1, m + 1, it, hn, hm => by
      simp only [collect]
      cases hnext : it.next with
      | mk r it' =>
          cases r with
          | none => rfl
          | some r =>
              have hlt := next_fuelNeeded hnext
              simp only
              rw [collect_eq_collect n m it' (by omega) (by omega)]

/-- The fuel in `items` is enough. -/
theorem collect_eq_items {n : Nat} {it : InstructionIterator} (hn : it.fuelNeeded < n) :
    collect n it = it.items := by
  refine collect_eq_collect n _ it hn ?_
  unfold fuelNeeded
  split <;> omega

/-- The items of an iterator are the first one and those of what is left. -/
theorem items_eq (it : InstructionIterator) :
    it.items = match it.next with
      | (none, _) => []
      | (some r, it') => (r, it'.position) :: it'.items := by
  rw [← collect_eq_items (n := it.fuelNeeded + 1) (by omega)]
  simp only [collect]
  cases hnext : it.next with
  | mk r it' =>
      cases r with
      | none => rfl
      | some r =>
          simp only
          rw [collect_eq_items (next_fuelNeeded hnext)]

/-- The queue is yielded first, in order. -/
theorem items_queued (iter : List Word) (position : Nat) :
    ∀ queued : List (Instruction Nat),
      (⟨iter, position, queued, false⟩ : InstructionIterator).items
        = queued.map (fun i => (.ok i, position))
          ++ (newFromOffset iter position).items
  | [] => rfl
  | i :: queued => by
      rw [items_eq]
      show (_, _) :: items ⟨iter, position, queued, false⟩ = _
      rw [items_queued iter position queued]
      rfl

end InstructionIterator

/-- **What the iterator yields from an offset**: nothing at the end of the
array, the fault if the opcode there does not decode, and otherwise the opcode's
instructions followed by what the next offset yields. -/
theorem instructionsFrom_eq (code : List Word) (off : Nat) :
    instructionsFrom code off =
      if code.length ≤ off then []
      else match decodeAt code off with
        | .error e => [(.error e, off)]
        | .ok (is, off') =>
            (.ok (.labelDef off), off') :: is.map (fun i => (.ok i, off'))
              ++ instructionsFrom code off' := by
  unfold instructionsFrom
  rw [InstructionIterator.items_eq]
  by_cases hlen : code.length ≤ off
  · rw [List.drop_eq_nil_of_le hlen, if_pos hlen]
    rfl
  · rw [if_neg hlen]
    have hne : (code.drop off).isEmpty = false := by
      rw [List.isEmpty_eq_false_iff, ne_eq, List.drop_eq_nil_iff]
      exact hlen
    simp only [InstructionIterator.newFromOffset, InstructionIterator.next,
      InstructionIterator.getNextInstr, hne, Bool.false_eq_true, if_false]
    cases hd : decodeAt code off with
    | error e =>
        have hr : readInstrs ⟨code.drop off, off⟩ = .error e := by
          cases hr : readInstrs ⟨code.drop off, off⟩ with
          | error e' =>
              simp only [decodeAt, hr, error_bind, Except.error.injEq] at hd
              rw [hd]
          | ok p => simp [decodeAt, hr, pure, Except.pure] at hd
        simp only [hr, error_bind]
        rw [InstructionIterator.items_eq]
        rfl
    | ok p =>
        obtain ⟨is, off'⟩ := p
        simp only [decodeAt_cursor hd, ok_bind, pure, Except.pure]
        rw [InstructionIterator.items_queued]
        rfl

/-- The items of an iterator with `queue` waiting and `pos` the next offset. -/
def itemsAt (code : List Word) (queue : List (Instruction Nat)) (pos : Nat) :
    List (Rust InstructionParseError (Instruction Nat) × Nat) :=
  queue.map (fun i => (.ok i, pos)) ++ instructionsFrom code pos

/-- The first item after an empty queue, when it is an instruction, is the label
of the opcode that is read. -/
theorem itemsAt_nil_eq_cons {code : List Word} {pos p : Nat} {instr : Instruction Nat}
    {items : List (Rust InstructionParseError (Instruction Nat) × Nat)}
    (h : itemsAt code [] pos = (.ok instr, p) :: items) :
    ∃ is pos', decodeAt code pos = .ok (is, pos') ∧ instr = .labelDef pos ∧
      items = itemsAt code is pos' := by
  rw [itemsAt, List.map_nil, List.nil_append, instructionsFrom_eq] at h
  split at h
  · cases h
  · cases hd : decodeAt code pos with
    | error e =>
        rw [hd] at h
        simp at h
    | ok r =>
        obtain ⟨is, pos'⟩ := r
        rw [hd] at h
        simp only [List.cons_append, List.cons.injEq, Prod.mk.injEq, Except.ok.injEq] at h
        exact ⟨is, pos', rfl, h.1.1.symm, h.2.symm⟩

/-- With nothing waiting the iterator is the one started at the next offset. -/
theorem itemsAt_nil (code : List Word) (pos : Nat) :
    itemsAt code [] pos =
      if code.length ≤ pos then []
      else match decodeAt code pos with
        | .error f => [(.error f, pos)]
        | .ok (q, pos') => (.ok (.labelDef pos), pos') :: itemsAt code q pos' := by
  rw [itemsAt, List.map_nil, List.nil_append, instructionsFrom_eq]
  rfl

/-- **Induction over the items of an iterator.**  It is at the end of the array, at
an opcode that does not decode, at one that does, or inside an opcode. -/
theorem itemsAt_induct (code : List Word)
    {motive : List (Instruction Nat) → Nat →
      List (Rust InstructionParseError (Instruction Nat) × Nat) → Prop}
    (ending : ∀ pos, code.length ≤ pos → motive [] pos [])
    (fault : ∀ pos f, pos < code.length → decodeAt code pos = .error f →
      motive [] pos [(.error f, pos)])
    (fetch : ∀ q pos pos', pos < code.length → decodeAt code pos = .ok (q, pos') →
      motive q pos' (itemsAt code q pos') →
      motive [] pos ((.ok (.labelDef pos), pos') :: itemsAt code q pos'))
    (next : ∀ i q pos, motive q pos (itemsAt code q pos) →
      motive (i :: q) pos ((.ok i, pos) :: itemsAt code q pos))
    (q : List (Instruction Nat)) (pos : Nat) : motive q pos (itemsAt code q pos) := by
  -- on the words left, and for each offset on the instructions that wait
  induction hn : code.length - pos using Nat.strong_induction_on generalizing q pos with
  | _ n ih =>
      induction q with
      | cons i q ihq => exact next i q pos ihq
      | nil =>
          rw [itemsAt_nil]
          by_cases hend : code.length ≤ pos
          · rw [if_pos hend]
            exact ending pos hend
          · rw [if_neg hend]
            have hlt : pos < code.length := Nat.lt_of_not_le hend
            cases hd : decodeAt code pos with
            | error f => exact fault pos f hlt hd
            | ok r =>
                obtain ⟨q, pos'⟩ := r
                obtain ⟨hless, -⟩ := decodeAt_bounds hd
                exact fetch q pos pos' hlt hd (ih _ (by omega) q pos' rfl)

/-! ## §5. Whole arrays. -/

/-- The words from `off` on split into opcodes; the instructions of the split. -/
inductive Decodes (code : List Word) : Nat → List (Instruction Nat) → Prop where
  | done : Decodes code code.length []
  | step {off off' : Nat} {is rest : List (Instruction Nat)}
      (hd : decodeAt code off = .ok (is, off')) (hrest : Decodes code off' rest) :
      Decodes code off (.labelDef off :: is ++ rest)

/-- A list is mapped when both of its parts are. -/
theorem mapM_ok_append {ε α β : Type} (f : α → Rust ε β) (xs ys : List α) (zs : List β) :
    (xs ++ ys).mapM f = .ok zs ↔
      ∃ as bs, xs.mapM f = .ok as ∧ ys.mapM f = .ok bs ∧ zs = as ++ bs := by
  rw [List.mapM_append, bind_eq_ok]
  constructor
  · rintro ⟨as, has, h⟩
    obtain ⟨bs, hbs, h⟩ := bind_eq_ok.mp h
    simp only [pure, Except.pure, Except.ok.injEq] at h
    exact ⟨as, bs, has, hbs, h.symm⟩
  · rintro ⟨as, bs, has, hbs, rfl⟩
    exact ⟨as, has, bind_eq_ok.mpr ⟨bs, hbs, rfl⟩⟩

/-- Instructions that have been decoded are all there. -/
theorem mapM_fst_ok (pos : Nat) :
    ∀ is : List (Instruction Nat),
      (is.map (fun i => ((.ok i : Rust InstructionParseError _), pos))).mapM Prod.fst
        = .ok is
  | [] => rfl
  | i :: is => by
      rw [List.map_cons, List.mapM_cons, mapM_fst_ok pos is]
      rfl

/-- At the end of the code nothing is decoded. -/
theorem decodes_end_iff {code : List Word} {off : Nat} {is : List (Instruction Nat)}
    (hend : code.length ≤ off) : Decodes code off is ↔ off = code.length ∧ is = [] := by
  constructor
  · intro h
    cases h with
    | done => exact ⟨rfl, rfl⟩
    | step hd _ =>
        have := decodeAt_bounds hd
        omega
  · rintro ⟨rfl, rfl⟩
    exact .done

/-- Where an opcode stands, a split of the words is the opcode's instructions
and a split of the words after it. -/
theorem decodes_step_iff {code : List Word} {off off' : Nat}
    {js is : List (Instruction Nat)} (hd : decodeAt code off = .ok (js, off')) :
    Decodes code off is ↔
      ∃ rest, Decodes code off' rest ∧ is = .labelDef off :: js ++ rest := by
  constructor
  · intro h
    cases h with
    | done =>
        have := decodeAt_bounds hd
        omega
    | step hd' hrest =>
        rw [hd] at hd'
        cases hd'
        exact ⟨_, hrest, rfl⟩
  · rintro ⟨rest, hrest, rfl⟩
    exact .step hd hrest

/-- The iterator from `off` runs to its end without a fault exactly when the
words from `off` on split into opcodes. -/
theorem instructionsFrom_mapM_ok {code : List Word} (off : Nat)
    (is : List (Instruction Nat)) (hoff : off ≤ code.length) :
    (instructionsFrom code off).mapM Prod.fst = .ok is ↔ Decodes code off is := by
  rw [instructionsFrom_eq]
  by_cases hend : code.length ≤ off
  · rw [if_pos hend, decodes_end_iff hend]
    show (Except.ok [] : Rust _ _) = .ok is ↔ _
    rw [Except.ok.injEq, eq_comm]
    exact ⟨fun h => ⟨by omega, h⟩, fun h => h.2⟩
  · rw [if_neg hend]
    cases hd : decodeAt code off with
    | error e =>
        constructor
        · intro h
          exact absurd h (by simp [List.mapM_cons])
        · intro h
          cases h with
          | done => exact absurd (Nat.le_refl _) hend
          | step hd' _ =>
              rw [hd] at hd'
              cases hd'
    | ok p =>
        obtain ⟨js, off'⟩ := p
        obtain ⟨hlt, hle, -, -⟩ := decodeAt_bounds hd
        simp only
        rw [mapM_ok_append, decodes_step_iff hd,
            ← List.map_cons (f := fun i => ((.ok i : Rust InstructionParseError _), off')),
            mapM_fst_ok]
        constructor
        -- one opcode and the rest, on both sides
        · rintro ⟨as, bs, has, hbs, rfl⟩
          cases has
          exact ⟨bs, (instructionsFrom_mapM_ok off' bs hle).mp hbs, rfl⟩
        · rintro ⟨rest, hrest, rfl⟩
          exact ⟨_, rest, rfl, (instructionsFrom_mapM_ok off' rest hle).mpr hrest, rfl⟩
termination_by code.length - off

/-- **An array decodes to its end without a fault exactly when its words split
into opcodes.** -/
theorem decodeAll_eq_ok {code : List Word} {is : List (Instruction Nat)} :
    decodeAll code = .ok is ↔ Decodes code 0 is := by
  rw [← instructionsFrom_mapM_ok 0 is (Nat.zero_le _)]
  rfl

end OcamlJit.Instructions

/-
  OcamlJit.Bytecomp.Emitted
  ─────────────────────────
  **THE EMITTER IS A ONE-PASS ASSEMBLER.**

  Every step of `Emitcode` puts out some items (`Performs`), in the buffer of
  bytes, in the table of labels and in the relocation information, as the one-pass
  assembler of `Lib.Backpatch` does; so what is in the buffer at the end is what
  two passes would put there.

    • `Output.performs`   one pattern of `emit`;
    • `emit_performs`     `emit`, for the outputs its patterns choose.
-/
import OcamlJit.Bytecomp.Emitcode
import OcamlJit.Lib.Backpatch

namespace OcamlJit.Bytecomp

open OcamlJit.Instructions (Word RaiseKind Opcode)
open OcamlJit.Typing (Ident)
open OcamlJit.Lib.Backpatch

variable {Ev : Type}

/-! ## §1. Words and bytes. -/

/-- The word of four bytes, the least significant first. -/
def wordOf (b1 b2 b3 b4 : UInt8) : Word :=
  .ofNat 32 (b1.toNat + 2 ^ 8 * b2.toNat + 2 ^ 16 * b3.toNat + 2 ^ 24 * b4.toNat)

/-- The bytes of a word, the least significant first. -/
def wordBytes (w : Word) : List UInt8 :=
  [.ofNat w.toNat, .ofNat (w.toNat / 2 ^ 8), .ofNat (w.toNat / 2 ^ 16),
    .ofNat (w.toNat / 2 ^ 24)]

/-- The bytes of code. -/
def codeBytes (ws : List Word) : List UInt8 := ws.flatMap wordBytes

/-- The bytes of a word made of four bytes. -/
theorem wordBytes_wordOf (b1 b2 b3 b4 : UInt8) :
    wordBytes (wordOf b1 b2 b3 b4) = [b1, b2, b3, b4] := by
  have h1 := b1.toNat_lt
  have h2 := b2.toNat_lt
  have h3 := b3.toNat_lt
  have h4 := b4.toNat_lt
  unfold wordBytes wordOf
  rw [BitVec.toNat_ofNat]
  simp only [List.cons.injEq, and_true, ← UInt8.toNat_inj, UInt8.toNat_ofNat']
  omega

/-- Four bytes a word. -/
theorem length_codeBytes (ws : List Word) : (codeBytes ws).length = 4 * ws.length := by
  induction ws with
  | nil => rfl
  | cons w ws ih =>
      rw [codeBytes, List.flatMap_cons, List.length_append, ← codeBytes, ih, List.length_cons,
        wordBytes]
      simp only [List.length_cons, List.length_nil]
      omega

/-- `Char.unsafe_chr`, as the code uses it, takes the lowest byte. -/
theorem toNat_unsafeChr (n : Int) : ((unsafeChr n).toNat : Int) = n % 256 := by
  unfold unsafeChr
  rw [UInt8.toNat_ofNat']
  omega

/-- The word of an integer. -/
def wordOfInt (n : Int) : Word := .ofInt 32 n

/-- The four bytes of an integer make its word. -/
theorem wordOf_unsafeChr (n : Int) :
    wordOf (unsafeChr n) (unsafeChr (n >>> (8 : Nat))) (unsafeChr (n >>> (16 : Nat)))
        (unsafeChr (n >>> (24 : Nat))) =
      wordOfInt n := by
  have h0 := toNat_unsafeChr n
  have h1 : ((unsafeChr (n >>> (8 : Nat))).toNat : Int) = n / 2 ^ 8 % 256 := by
    rw [toNat_unsafeChr, Int.shiftRight_eq_div_pow]
    rfl
  have h2 : ((unsafeChr (n >>> (16 : Nat))).toNat : Int) = n / 2 ^ 16 % 256 := by
    rw [toNat_unsafeChr, Int.shiftRight_eq_div_pow]
    rfl
  have h3 : ((unsafeChr (n >>> (24 : Nat))).toNat : Int) = n / 2 ^ 24 % 256 := by
    rw [toNat_unsafeChr, Int.shiftRight_eq_div_pow]
    rfl
  unfold wordOf wordOfInt
  apply BitVec.eq_of_toNat_eq
  rw [BitVec.toNat_ofNat, BitVec.toNat_ofInt]
  omega

/-! ## §2. The buffer. -/

/-- Four bytes at `p`. -/
def setFour (buffer : List UInt8) (p : Nat) (c1 c2 c3 c4 : UInt8) : List UInt8 :=
  (((buffer.set p c1).set (p + 1) c2).set (p + 2) c3).set (p + 3) c4

/-- Four bytes are written where they are meant to be. -/
theorem setFour_append (before after : List UInt8) (x1 x2 x3 x4 c1 c2 c3 c4 : UInt8) :
    setFour (before ++ ([x1, x2, x3, x4] ++ after)) before.length c1 c2 c3 c4 =
      before ++ ([c1, c2, c3, c4] ++ after) := by
  unfold setFour
  rw [List.set_append_right _ _ (Nat.le_refl _), List.set_append_right _ _ (by omega),
    List.set_append_right _ _ (by omega), List.set_append_right _ _ (by omega)]
  simp

/-- Writing bytes does not change the length. -/
theorem length_setFour (buffer : List UInt8) (p : Nat) (c1 c2 c3 c4 : UInt8) :
    (setFour buffer p c1 c2 c3 c4).length = buffer.length := by
  simp only [setFour, List.length_set]

/-- A buffer around four of its bytes. -/
theorem exists_around {buffer : List UInt8} {p : Nat} (h : p + 4 ≤ buffer.length) :
    ∃ x1 x2 x3 x4, buffer = buffer.take p ++ ([x1, x2, x3, x4] ++ buffer.drop (p + 4)) := by
  have hdrop : (buffer.drop p).length = buffer.length - p := List.length_drop
  match hx : buffer.drop p with
  | x1 :: x2 :: x3 :: x4 :: rest =>
      refine ⟨x1, x2, x3, x4, ?_⟩
      have hrest : buffer.drop (p + 4) = rest := by
        rw [← List.drop_drop, hx]
        rfl
      rw [hrest, List.cons_append, List.cons_append, List.cons_append, List.cons_append,
        List.nil_append, ← hx, List.take_append_drop]
  | [] | [_] | [_, _] | [_, _, _] =>
      rw [hx] at hdrop
      simp only [List.length_cons, List.length_nil] at hdrop
      omega

/-- A word at the end of the code. -/
theorem take_setFour {buffer : List UInt8} {p : Nat} (h : p + 4 ≤ buffer.length)
    (c1 c2 c3 c4 : UInt8) :
    (setFour buffer p c1 c2 c3 c4).take (p + 4) = buffer.take p ++ [c1, c2, c3, c4] := by
  obtain ⟨x1, x2, x3, x4, hbuffer⟩ := exists_around h
  have hlen : (buffer.take p).length = p := by
    rw [List.length_take]
    omega
  have hset := setFour_append (buffer.take p) (buffer.drop (p + 4)) x1 x2 x3 x4 c1 c2 c3 c4
  rw [← hbuffer, hlen] at hset
  rw [hset, ← List.append_assoc, List.take_append_of_le_length (by simp [hlen]),
    List.take_of_length_le (by simp [hlen])]

/-- A word inside the code. -/
theorem setFour_codeBytes {ws : List Word} {i : Nat} (h : i < ws.length) (c1 c2 c3 c4 : UInt8)
    (rest : List UInt8) :
    setFour (codeBytes ws ++ rest) (4 * i) c1 c2 c3 c4 =
      codeBytes (ws.set i (wordOf c1 c2 c3 c4)) ++ rest := by
  have hws : ws = ws.take i ++ ws[i] :: ws.drop (i + 1) := by
    rw [List.getElem_cons_drop, List.take_append_drop]
  have hlen : (codeBytes (ws.take i)).length = 4 * i := by
    rw [length_codeBytes, List.length_take]
    omega
  have hset : ws.set i (wordOf c1 c2 c3 c4) =
      ws.take i ++ wordOf c1 c2 c3 c4 :: ws.drop (i + 1) := List.set_eq_take_append_cons_drop ..
    |>.trans (if_pos h)
  rw [hset]
  conv_lhs => rw [hws]
  unfold codeBytes at hlen ⊢
  rw [List.flatMap_append, List.flatMap_cons, List.flatMap_append, List.flatMap_cons,
    wordBytes_wordOf, List.append_assoc, List.append_assoc, wordBytes, List.append_assoc, ← hlen,
    setFour_append, List.append_assoc]

section Steps

variable {st : EmitState Ev}

/-- A byte is written inside the buffer. -/
theorem setByte_eq {pos : Nat} (h : pos < st.outBuffer.length) (c : UInt8) :
    setByte pos c st = .ok ((), { st with outBuffer := st.outBuffer.set pos c }) := by
  show (if pos < st.outBuffer.length then _ else _ : Emit Ev Unit) st = _
  rw [if_pos h]
  rfl

/-- And so are four of them. -/
theorem setWord_eq {p : Nat} (h : p + 4 ≤ st.outBuffer.length) (b1 b2 b3 b4 : Int) :
    setWord p b1 b2 b3 b4 st = .ok ((),
      { st with
        outBuffer := setFour st.outBuffer p (unsafeChr b1) (unsafeChr b2) (unsafeChr b3)
          (unsafeChr b4) }) := by
  show (setByte p (unsafeChr b1) st >>= _) = _
  rw [setByte_eq (by omega)]
  show (setByte (p + 1) (unsafeChr b2) _ >>= _) = _
  rw [setByte_eq (by rw [List.length_set]; omega)]
  show (setByte (p + 2) (unsafeChr b3) _ >>= _) = _
  rw [setByte_eq (by rw [List.length_set, List.length_set]; omega)]
  exact setByte_eq (by rw [List.length_set, List.length_set, List.length_set]; omega) _

end Steps

/-! ## §3. The assembler in the state of the emitter. -/

/-- The items of the emitter. -/
abbrev EmitItem (Ev : Type) := Item Label Word Ev RelocInfo

/-- The distance from `orig` to `here`, in words. -/
def displ (here orig : Nat) : Word := wordOfInt ((here : Int) - orig)

/-- `0` where nothing is known yet. -/
def blank : Word := wordOfInt 0

/-- A position in bytes. -/
def scale {α : Type} (p : α × Nat) : α × Nat := (p.1, 4 * p.2)

/-- An entry of the table, in bytes. -/
def scaled : Entry → LabelDefinition
  | .defined here => .labelDefined (4 * here)
  | .undefined ps => .labelUndefined (ps.map fun p => (4 * p.1, 4 * p.2))

/-- The state of the emitter has that of the assembler. -/
structure Holds (st : EmitState Ev) (a : Asm Label Word Ev RelocInfo) : Prop where
  position : st.outPosition = 4 * a.words.length
  code : st.outBuffer.take st.outPosition = codeBytes a.words
  room : st.outPosition ≤ st.outBuffer.length
  aligned : 4 ∣ st.outBuffer.length
  nonempty : 0 < st.outBuffer.length
  table : ∀ lbl, st.labelTable[lbl]?.getD (.labelUndefined []) = scaled (a.table lbl)
  tableNonempty : 0 < st.labelTable.length
  relocs : st.relocInfo = a.relocs.map scale
  events : st.events = a.marks.map scale

/-- The state of the emitter after some items. -/
def Reached (st : EmitState Ev) (is : List (EmitItem Ev)) : Prop :=
  ∃ a : Asm Label Word Ev RelocInfo, a.Reflects displ blank is ∧ Holds st a

/-- No label is defined twice. -/
def Unique (is : List (EmitItem Ev)) : Prop := ((definitions 0 is).map Prod.fst).Nodup

/-- A step that puts out some items, or stops because of a label. -/
def Performs (m : Emit Ev Unit) (is : List (EmitItem Ev)) : Prop :=
  ∀ st js, Reached st js →
    (∃ st', m st = .ok ((), st') ∧ Reached st' (js ++ is)) ∨
      ((∃ e, m st = .error e) ∧ ¬ Unique (js ++ is))

/-- Labels that are defined once are defined once in the first part. -/
theorem Unique.of_append {is js : List (EmitItem Ev)} (h : Unique (is ++ js)) : Unique is := by
  unfold Unique at *
  rw [definitions_append, List.map_append] at h
  exact (List.nodup_append.mp h).1

/-- One step after the other. -/
theorem Performs.bind {m n : Emit Ev Unit} {is js : List (EmitItem Ev)} (hm : Performs m is)
    (hn : Performs n js) : Performs (m >>= fun _ => n) (is ++ js) := by
  intro st before h
  rw [← List.append_assoc]
  rcases hm st before h with ⟨st', hst', h'⟩ | ⟨⟨e, he⟩, hunique⟩
  · have hbind : (m >>= fun _ => n) st = n st' := by
      show (m st >>= _) = _
      rw [hst']
      rfl
    rw [hbind]
    exact hn st' _ h'
  · refine .inr ⟨⟨e, ?_⟩, fun h => hunique h.of_append⟩
    show (m st >>= _) = _
    rw [he]
    rfl

section Steps

variable {st : EmitState Ev} {js : List (EmitItem Ev)}

/-- The buffer with room for a word. -/
def grown (st : EmitState Ev) : List UInt8 :=
  if st.outBuffer.length ≤ st.outPosition then doubled st.outBuffer else st.outBuffer

/-- `out_word` writes at the end of the buffer, which has grown when it had to. -/
theorem outWord_eq (h : st.outPosition + 4 ≤ (grown st).length) (b1 b2 b3 b4 : Int) :
    outWord b1 b2 b3 b4 st = .ok ((),
      { st with
        outBuffer := setFour (grown st) st.outPosition (unsafeChr b1) (unsafeChr b2)
          (unsafeChr b3) (unsafeChr b4)
        outPosition := st.outPosition + 4 }) := by
  have hset : outWord b1 b2 b3 b4 st =
      (setWord st.outPosition b1 b2 b3 b4 >>= fun _ => modify fun s =>
        { s with outPosition := st.outPosition + 4 }) { st with outBuffer := grown st } := by
    unfold outWord grown
    by_cases hfull : st.outBuffer.length ≤ st.outPosition
    · rw [if_pos hfull]
      show (if st.outBuffer.length ≤ st.outPosition then _ else _ : Emit Ev Unit) st = _
      rw [if_pos hfull]
      rfl
    · rw [if_neg hfull]
      show (if st.outBuffer.length ≤ st.outPosition then _ else _ : Emit Ev Unit) st = _
      rw [if_neg hfull]
  rw [hset]
  show (setWord st.outPosition b1 b2 b3 b4 _ >>= _) = _
  rw [setWord_eq h]
  rfl

/-- Four bytes at the end of the code. -/
theorem Holds.outWord {a : Asm Label Word Ev RelocInfo} (h : Holds st a) (b1 b2 b3 b4 : Int) :
    ∃ buffer, outWord b1 b2 b3 b4 st =
        .ok ((), { st with outBuffer := buffer, outPosition := st.outPosition + 4 }) ∧
      Holds { st with outBuffer := buffer, outPosition := st.outPosition + 4 }
        { a with
          words := a.words ++ [wordOf (unsafeChr b1) (unsafeChr b2) (unsafeChr b3)
            (unsafeChr b4)] } := by
  obtain ⟨k, hk⟩ := h.aligned
  have hpos := h.position
  have hroom := h.room
  have hnonempty := h.nonempty
  -- a full buffer is doubled
  have hlen : (grown st).length =
      if st.outBuffer.length ≤ st.outPosition then 2 * st.outBuffer.length
      else st.outBuffer.length := by
    unfold grown doubled
    split
    · rw [List.length_append, List.length_replicate]
      omega
    · rfl
  have hfits : st.outPosition + 4 ≤ (grown st).length := by
    rw [hlen]
    split <;> omega
  -- and keeps what is in it
  have htake : (grown st).take st.outPosition = st.outBuffer.take st.outPosition := by
    unfold grown doubled
    split
    · exact List.take_append_of_le_length hroom
    · rfl
  refine ⟨_, outWord_eq hfits b1 b2 b3 b4, ?_⟩
  constructor
  · simp only [List.length_append, List.length_singleton]
    omega
  · dsimp only
    rw [take_setFour hfits, htake, h.code, codeBytes, codeBytes, List.flatMap_append,
      List.flatMap_singleton, wordBytes_wordOf]
  · rw [length_setFour]
    exact hfits
  · rw [length_setFour, hlen]
    split
    · exact ⟨2 * k, by omega⟩
    · exact ⟨k, hk⟩
  · rw [length_setFour, hlen]
    split <;> omega
  · exact h.table
  · exact h.tableNonempty
  · exact h.relocs
  · exact h.events

/-- A word at the end of the code. -/
theorem Holds.outInt {a : Asm Label Word Ev RelocInfo} (h : Holds st a) (n : Int) :
    ∃ buffer, outInt n st =
        .ok ((), { st with outBuffer := buffer, outPosition := st.outPosition + 4 }) ∧
      Holds { st with outBuffer := buffer, outPosition := st.outPosition + 4 }
        { a with words := a.words ++ [wordOfInt n] } := by
  rw [← wordOf_unsafeChr]
  exact h.outWord _ _ _ _

/-- The doubled table is as large as it has to be. -/
theorem newSize_spec (needed : Nat) {size : Nat} (h : 0 < size) :
    size ≤ newSize needed size ∧ needed < newSize needed size := by
  induction size using newSize.induct needed with
  | case1 size hsize ih =>
      rw [newSize, if_pos hsize]
      obtain ⟨hle, hlt⟩ := ih (by omega)
      exact ⟨by omega, hlt⟩
  | case2 size hsize =>
      rw [newSize, if_neg hsize]
      omega

/-- The table with room for a label. -/
def grownTable (st : EmitState Ev) (lbl : Label) : List LabelDefinition :=
  if st.labelTable.length ≤ lbl then
    st.labelTable ++ List.replicate (newSize lbl st.labelTable.length - st.labelTable.length)
      (.labelUndefined [])
  else st.labelTable

/-- There is room for the label in the grown table. -/
theorem lt_length_grownTable (h : 0 < st.labelTable.length) (lbl : Nat) :
    lbl < (grownTable st lbl).length := by
  unfold grownTable
  split
  · obtain ⟨hle, hlt⟩ := newSize_spec lbl h
    rw [List.length_append, List.length_replicate]
    omega
  · omega

/-- And the entries are as they were. -/
theorem getD_grownTable (lbl l : Label) :
    (grownTable st lbl)[l]?.getD (.labelUndefined []) =
      st.labelTable[l]?.getD (.labelUndefined []) := by
  unfold grownTable
  split
  · rw [List.getElem?_append]
    split
    · rfl
    next hge =>
      rw [List.getElem?_eq_none (Nat.le_of_not_lt hge), List.getElem?_replicate]
      split <;> rfl
  · rfl

/-- Reading an entry of the table. -/
theorem labelAt_eq {lbl : Nat} {entry : LabelDefinition} (h : st.labelTable[lbl]? = some entry) :
    labelAt lbl st = .ok (entry, st) := by
  simp only [labelAt, h, bind, StateT.bind, get, getThe, MonadStateOf.get, StateT.get, pure,
    Except.bind, Except.pure]
  rfl

/-- Reading an entry of the table, which has grown when it had to. -/
theorem labelEntry_eq (h : 0 < st.labelTable.length) (lbl : Label) :
    labelEntry lbl st = .ok (st.labelTable[lbl]?.getD (.labelUndefined []),
      { st with labelTable := grownTable st lbl }) := by
  have hget : labelEntry lbl st = labelAt lbl { st with labelTable := grownTable st lbl } := by
    unfold labelEntry grownTable
    by_cases hfull : st.labelTable.length ≤ lbl
    · rw [if_pos hfull]
      show (if st.labelTable.length ≤ lbl then _ else _ : Emit Ev LabelDefinition) st = _
      rw [if_pos hfull]
      rfl
    · rw [if_neg hfull]
      show (if st.labelTable.length ≤ lbl then _ else _ : Emit Ev LabelDefinition) st = _
      rw [if_neg hfull]
  have hat := List.getElem?_eq_getElem (lt_length_grownTable h lbl)
  rw [hget, ← getD_grownTable lbl lbl, hat]
  exact labelAt_eq hat

/-- The entry of a label, and room for it. -/
theorem Holds.labelEntry {a : Asm Label Word Ev RelocInfo} (h : Holds st a) (lbl : Label) :
    ∃ table, labelEntry lbl st = .ok (scaled (a.table lbl), { st with labelTable := table }) ∧
      lbl < table.length ∧ Holds { st with labelTable := table } a := by
  have hlt := lt_length_grownTable h.tableNonempty lbl
  refine ⟨_, h.table lbl ▸ labelEntry_eq h.tableNonempty lbl, hlt, ?_⟩
  exact { h with
    table := fun l => (getD_grownTable lbl l).trans (h.table l)
    tableNonempty := Nat.zero_lt_of_lt hlt }

/-- A new entry for a label. -/
theorem Holds.setLabelEntry {a : Asm Label Word Ev RelocInfo} (h : Holds st a) {lbl : Label}
    (hlt : lbl < st.labelTable.length) (e : Entry) :
    Holds { st with labelTable := st.labelTable.set lbl (scaled e) }
      { a with table := Function.update a.table lbl e } := by
  refine { h with table := fun l => ?_, tableNonempty := ?_ }
  · dsimp only
    by_cases hl : l = lbl
    · subst hl
      rw [List.getElem?_set_self hlt, Function.update_self]
      rfl
    · rw [List.getElem?_set_ne (Ne.symm hl), Function.update_of_ne hl]
      exact h.table l
  · rw [List.length_set]
    exact h.tableNonempty

/-- A word inside the code. -/
theorem Holds.setFour {a : Asm Label Word Ev RelocInfo} (h : Holds st a) {i : Nat}
    (hi : i < a.words.length) (c1 c2 c3 c4 : UInt8) :
    Holds { st with outBuffer := setFour st.outBuffer (4 * i) c1 c2 c3 c4 }
      { a with words := a.words.set i (wordOf c1 c2 c3 c4) } := by
  have hbuffer : Bytecomp.setFour st.outBuffer (4 * i) c1 c2 c3 c4 =
      codeBytes (a.words.set i (wordOf c1 c2 c3 c4)) ++ st.outBuffer.drop st.outPosition := by
    rw [← setFour_codeBytes hi, ← h.code, List.take_append_drop]
  have hlen : (Bytecomp.setFour st.outBuffer (4 * i) c1 c2 c3 c4).length =
      st.outBuffer.length := length_setFour ..
  refine { h with
    position := ?_, code := ?_, room := hlen ▸ h.room, aligned := hlen ▸ h.aligned,
    nonempty := hlen ▸ h.nonempty }
  · dsimp only
    rw [List.length_set]
    exact h.position
  · dsimp only
    rw [hbuffer]
    refine List.take_left' ?_
    rw [length_codeBytes, List.length_set, h.position]

/-- The displacement of the source is the distance in words. -/
theorem displacement_scaled (here orig : Nat) :
    displacement (4 * here) (4 * orig) = (here : Int) - orig := by
  unfold displacement
  rw [Int.shiftRight_eq_div_pow]
  omega

/-- A patch writes the displacement over the word that waited for it. -/
theorem Holds.backpatch {a : Asm Label Word Ev RelocInfo} (h : Holds st a) {patch : Nat × Nat}
    (hi : patch.1 < a.words.length) :
    ∃ buffer, backpatch (4 * patch.1, 4 * patch.2) st =
        .ok ((), { st with outBuffer := buffer }) ∧
      Holds { st with outBuffer := buffer }
        { a with words := a.words.set patch.1 (displ a.words.length patch.2) } := by
  have hfits : 4 * patch.1 + 4 ≤ st.outBuffer.length := by
    have hpos := h.position
    have hroom := h.room
    omega
  refine ⟨_, setWord_eq hfits _ _ _ _, ?_⟩
  rw [displ, ← displacement_scaled, ← wordOf_unsafeChr, ← h.position]
  exact h.setFour hi _ _ _ _

/-- All the patches of a label, one after the other. -/
theorem forM_backpatch {here : Nat} :
    ∀ (ps : List (Nat × Nat)) {st : EmitState Ev} {a : Asm Label Word Ev RelocInfo},
      Holds st a → a.words.length = here → (∀ p ∈ ps, p.1 < here) →
      ∃ buffer, (ps.map fun p => (4 * p.1, 4 * p.2)).forM backpatch st =
          .ok ((), { st with outBuffer := buffer }) ∧
        Holds { st with outBuffer := buffer }
          { a with words := writeAll (patches displ here ps) a.words }
  | [], st, a, h, _, _ => ⟨st.outBuffer, rfl, h⟩
  | p :: ps, st, a, h, hhere, hps => by
      obtain ⟨buffer, hbuffer, h'⟩ := h.backpatch (hhere ▸ hps p List.mem_cons_self)
      obtain ⟨buffer', hbuffer', h''⟩ := forM_backpatch ps h'
        (by rw [List.length_set, hhere]) fun q hq => hps q (List.mem_cons_of_mem _ hq)
      refine ⟨buffer', ?_, ?_⟩
      · rw [List.map_cons]
        show (backpatch (4 * p.1, 4 * p.2) st >>= _) = _
        rw [hbuffer]
        exact hbuffer'
      · rw [← hhere]
        rw [← hhere] at h''
        exact h''

end Steps

/-! ## §4. The steps. -/

/-- A step that does what the assembler does for an item. -/
theorem performs_item {m : Emit Ev Unit} {i : EmitItem Ev}
    (hok : ∀ st a a' is, a.Reflects displ blank is → Holds st a →
      a.step displ blank i = some a' → ∃ st', m st = .ok ((), st') ∧ Holds st' a')
    (hstop : ∀ st a, Holds st a → a.step displ blank i = none → ∃ e, m st = .error e) :
    Performs m [i] := by
  rintro st js ⟨a, hreflects, hholds⟩
  rcases hreflects.step i with ⟨a', hstep, h'⟩ | ⟨hstep, l, rfl, hl⟩
  · obtain ⟨st', hst', hholds'⟩ := hok st a a' js hreflects hholds hstep
    exact .inl ⟨st', hst', a', h', hholds'⟩
  · refine .inr ⟨hstop st a hholds hstep, fun hunique => ?_⟩
    unfold Unique at hunique
    rw [definitions_append, List.map_append] at hunique
    exact (List.nodup_append.mp hunique).2.2 l hl l List.mem_cons_self rfl

/-- `out_word` emits a word. -/
theorem performs_outWord (b1 b2 b3 b4 : Int) :
    Performs (outWord b1 b2 b3 b4 : Emit Ev Unit)
      [.word (wordOf (unsafeChr b1) (unsafeChr b2) (unsafeChr b3) (unsafeChr b4))] := by
  refine performs_item (fun st a a' is _ h hstep => ?_) fun st a _ hstep => by cases hstep
  cases hstep
  obtain ⟨buffer, hst', h'⟩ := h.outWord b1 b2 b3 b4
  exact ⟨_, hst', h'⟩

/-- The word of an opcode: `out` keeps the low byte of its number. -/
def opcodeItem (n : Int) : EmitItem Ev := .word (wordOf (unsafeChr n) 0 0 0)

/-- The word of an operand. -/
def intItem (n : Int) : EmitItem Ev := .word (wordOfInt n)

/-- `out` emits an opcode. -/
theorem performs_out (n : Int) : Performs (out n : Emit Ev Unit) [opcodeItem n] :=
  performs_outWord n 0 0 0

/-- `out_int` emits an integer. -/
theorem performs_outInt (n : Int) : Performs (outInt n : Emit Ev Unit) [intItem n] := by
  rw [intItem, ← wordOf_unsafeChr]
  exact performs_outWord _ _ _ _

/-- `slot_for_*` leave a hole and note what goes there. -/
theorem performs_slotFor (info : RelocInfo) :
    Performs (slotFor info : Emit Ev Unit) [.hole info] := by
  refine performs_item (fun st a a' is _ h hstep => ?_) fun st a _ hstep => by cases hstep
  cases hstep
  have h' : Holds { st with relocInfo := (info, st.outPosition) :: st.relocInfo }
      { a with relocs := (info, a.words.length) :: a.relocs } :=
    { h with relocs := by rw [List.map_cons, ← h.relocs, scale, ← h.position] }
  obtain ⟨buffer, hst', h''⟩ := h'.outInt 0
  exact ⟨_, hst', h''⟩

/-- `record_event` takes no room. -/
theorem performs_recordEvent (ev : Ev) : Performs (recordEvent ev) [.mark ev] := by
  refine performs_item (fun st a a' is _ h hstep => ?_) fun st a _ hstep => by cases hstep
  cases hstep
  exact ⟨_, rfl, { h with events := by rw [List.map_cons, ← h.events, scale, ← h.position] }⟩

/-- `define_label`: patches what waits for the label. -/
theorem performs_defineLabel (lbl : Label) :
    Performs (defineLabel lbl : Emit Ev Unit) [.define lbl] := by
  refine performs_item (fun st a a' is hreflects h hstep => ?_) fun st a h hstep => ?_
  · obtain ⟨table, hentry, hlt, h'⟩ := h.labelEntry lbl
    rw [Asm.step] at hstep
    cases hl : a.table lbl with
    | defined here =>
        rw [hl] at hstep
        cases hstep
    | undefined ps =>
        rw [hl] at hstep hentry
        cases hstep
        have hundefined : EntryOk _ _ lbl (.undefined ps) := hl ▸ hreflects.table lbl
        obtain ⟨-, hmem⟩ := hundefined.of_undefined
        have hps : ∀ p ∈ ps, p.1 < a.words.length := by
          intro p hp
          have hslot := (hmem p.1 p.2).mp hp
          have hlen := (List.getElem?_eq_some_iff.mp hslot).1
          rwa [length_layout, ← hreflects.length_words] at hlen
        -- every word that waits for the label is patched
        obtain ⟨buffer, hpatch, h''⟩ := forM_backpatch ps h' rfl hps
        have hset := h''.setLabelEntry hlt (.defined a.words.length)
        refine ⟨_, ?_, hset⟩
        show (labelEntry lbl st >>= _) = _
        rw [hentry]
        show ((ps.map fun p => (4 * p.1, 4 * p.2)).forM backpatch _ >>= _) = _
        rw [hpatch]
        show Except.ok ((), _) = _
        rw [scaled, ← h.position]
  · obtain ⟨table, hentry, hlt, h'⟩ := h.labelEntry lbl
    rw [Asm.step] at hstep
    cases hl : a.table lbl with
    | defined here =>
        rw [hl] at hentry
        -- the label is defined already
        refine ⟨.fatalError "Emitcode.define_label", ?_⟩
        show (labelEntry lbl st >>= _) = _
        rw [hentry]
        rfl
    | undefined ps =>
        rw [hl] at hstep
        cases hstep

/-- A reference, from `back` words before. -/
theorem Reached.outLabelWithOrig {st : EmitState Ev} {js : List (EmitItem Ev)}
    (h : Reached st js) {orig back : Nat} (lbl : Label) (horig : orig = 4 * (wordCount js - back)) :
    ∃ st', outLabelWithOrig orig lbl st = .ok ((), st') ∧ Reached st' (js ++ [.ref lbl back]) := by
  obtain ⟨a, hreflects, hholds⟩ := h
  rw [← hreflects.length_words] at horig
  obtain ⟨table, hentry, hlt, h'⟩ := hholds.labelEntry lbl
  rcases hreflects.step (.ref lbl back) with ⟨a', hstep, hreflects'⟩ | ⟨-, l, hl, -⟩
  case inr => cases hl
  rw [Asm.step] at hstep
  cases hl : a.table lbl with
  | defined here =>
      rw [hl] at hstep hentry
      cases hstep
      obtain ⟨buffer, hst', h''⟩ := h'.outInt (displacement (4 * here) orig)
      rw [horig, displacement_scaled] at h''
      refine ⟨_, ?_, _, hreflects', h''⟩
      show (labelEntry lbl st >>= _) = _
      rw [hentry]
      exact hst'
  | undefined ps =>
      rw [hl] at hstep hentry
      cases hstep
      have hset := h'.setLabelEntry hlt
        (.undefined ((a.words.length, a.words.length - back) :: ps))
      obtain ⟨buffer, hst', h''⟩ := hset.outInt 0
      refine ⟨_, ?_, _, hreflects', h''⟩
      show (labelEntry lbl st >>= _) = _
      rw [hentry, horig]
      refine Eq.trans ?_ hst'
      show outInt 0 { st with labelTable := table.set lbl (.labelUndefined
        ((st.outPosition, 4 * (a.words.length - back)) :: ps.map fun p => (4 * p.1, 4 * p.2))) } =
        _
      rw [hholds.position]
      rfl

/-- `out_label` emits a displacement, now or when the label is defined. -/
theorem performs_outLabel (lbl : Label) :
    Performs (outLabel lbl : Emit Ev Unit) [.ref lbl 0] := by
  intro st js h
  have hpos : st.outPosition = 4 * (wordCount js - 0) := by
    obtain ⟨a, hreflects, hholds⟩ := h
    rw [hholds.position, hreflects.length_words, Nat.sub_zero]
  exact .inl (h.outLabelWithOrig lbl hpos)

/-- The entries of a table of labels, from the `k`-th on. -/
def refs (k : Nat) : List Label → List (EmitItem Ev)
  | [] => []
  | l :: ls => .ref l k :: refs (k + 1) ls

/-- The labels of a table have one origin. -/
theorem forM_outLabelWithOrig {orig : Nat} :
    ∀ (ls : List Label) {k : Nat} {st : EmitState Ev} {js : List (EmitItem Ev)},
      Reached st js → orig = 4 * (wordCount js - k) → k ≤ wordCount js →
      ∃ st', ls.forM (outLabelWithOrig orig) st = .ok ((), st') ∧
        Reached st' (js ++ refs k ls)
  | [], k, st, js, h, _, _ => ⟨st, rfl, by rwa [refs, List.append_nil]⟩
  | l :: ls, k, st, js, h, horig, hk => by
      obtain ⟨st', hst', h'⟩ := h.outLabelWithOrig l horig
      have hcount : wordCount (js ++ [Item.ref l k]) = wordCount js + 1 := wordCount_append js _
      have horig' : orig = 4 * (wordCount (js ++ [Item.ref l k]) - (k + 1)) := by omega
      obtain ⟨st'', hst'', h''⟩ := forM_outLabelWithOrig ls h' horig' (by omega)
      refine ⟨st'', ?_, by rwa [refs, List.append_cons]⟩
      show (outLabelWithOrig orig l st >>= _) = _
      rw [hst']
      exact hst''

/-- A table of labels. -/
theorem performs_table (ls : List Label) :
    Performs (do
      let org := (← get).outPosition
      ls.forM (outLabelWithOrig org) : Emit Ev Unit) (refs 0 ls) := by
  intro st js h
  have hpos : st.outPosition = 4 * (wordCount js - 0) := by
    obtain ⟨a, hreflects, hholds⟩ := h
    rw [hholds.position, hreflects.length_words, Nat.sub_zero]
  exact .inl (forM_outLabelWithOrig ls h hpos (Nat.zero_le _))

theorem forM_append {α : Type} (f : α → Emit Ev Unit) (as bs : List α) :
    (as ++ bs).forM f = (do as.forM f; bs.forM f) := List.forM_append

/-- Two tables that count from the same place. -/
theorem performs_tables (ls ls' : List Label) :
    Performs (do
      let org := (← get).outPosition
      ls.forM (outLabelWithOrig org)
      ls'.forM (outLabelWithOrig org) : Emit Ev Unit) (refs 0 (ls ++ ls')) := by
  have htable : Performs (_ : Emit Ev Unit) _ := performs_table (ls ++ ls')
  simpa only [forM_append] using htable

/-! ## §5. The items of an instruction. -/

def withItems (o : Opcode) (n : Int) : List (EmitItem Ev) := [opcodeItem (op o), intItem n]

def jumpItems (o : Opcode) (lbl : Label) : List (EmitItem Ev) := [opcodeItem (op o), .ref lbl 0]

def holeItems (o : Opcode) (info : RelocInfo) : List (EmitItem Ev) :=
  [opcodeItem (op o), .hole info]

def smallItems (bound : Int) (short long : Opcode) (n : Int) : List (EmitItem Ev) :=
  if n < bound then [opcodeItem (op short + n)] else withItems long n

def constIntItems (short long : Opcode) (i : Int) : List (EmitItem Ev) :=
  if 0 ≤ i ∧ i ≤ 3 then [opcodeItem (op short + i)] else withItems long i

def atomItems (short long : Opcode) (t : Int) : List (EmitItem Ev) :=
  if t = 0 then [opcodeItem (op short)] else withItems long t

def offsetclosureItems (short long : Opcode) (ofs : Int) : List (EmitItem Ev) :=
  if ofs = -2 ∨ ofs = 0 ∨ ofs = 2 then [opcodeItem (op short + ofs.tdiv 2)]
  else withItems long ofs

def constItems (shortInt longInt shortAtom longAtom global : Opcode) (sc : StructuredConstant) :
    List (EmitItem Ev) :=
  match sc with
  | .constBase (.constInt i) =>
      if isImmed i then constIntItems shortInt longInt i else holeItems global (.relocLiteral sc)
  | .constBase (.constChar c) => withItems longInt c.toNat
  | .constPointer i => constIntItems shortInt longInt i
  | .constBlock t [] => atomItems shortAtom longAtom t
  | _ => holeItems global (.relocLiteral sc)

/-- The opcode of `emit_comp`. -/
def compOpcode : IntegerComparison → Opcode
  | .ceq => .eq
  | .cne => .neq
  | .clt => .ltInt
  | .cle => .leInt
  | .cgt => .gtInt
  | .cge => .geInt

/-- The opcode of `emit_branch_comp`. -/
def branchCompOpcode : IntegerComparison → Opcode
  | .ceq => .bEq
  | .cne => .bNeq
  | .clt => .bLtInt
  | .cle => .bLeInt
  | .cgt => .bGtInt
  | .cge => .bGeInt

/-- What `emit_instr` puts out. -/
def Kinstruction.items : Kinstruction Ev → List (EmitItem Ev)
  | .klabel lbl => [.define lbl]
  | .kacc n => smallItems 8 .acc0 .acc n
  | .kenvacc n =>
      if 1 ≤ n ∧ n ≤ 4 then [opcodeItem (op .envAcc1 + n - 1)] else withItems .envAcc n
  | .kpush => [opcodeItem (op .push)]
  | .kpop n => withItems .pop n
  | .kassign n => withItems .assign n
  | .kpushRetaddr lbl => jumpItems .pushRetAddr lbl
  | .kapply n => if n < 4 then [opcodeItem (op .apply1 + n - 1)] else withItems .apply n
  | .kappterm n sz =>
      if n < 4 then [opcodeItem (op .appTerm1 + n - 1), intItem sz]
      else [opcodeItem (op .appTerm), intItem n, intItem sz]
  | .kreturn n => withItems .return_ n
  | .krestart => [opcodeItem (op .restart)]
  | .kgrab n => withItems .grab n
  | .kclosure lbl n => [opcodeItem (op .closure), intItem n, .ref lbl 0]
  | .kclosurerec lbls n =>
      [opcodeItem (op .closureRec), intItem lbls.length, intItem n] ++ refs 0 lbls
  | .koffsetclosure ofs => offsetclosureItems .offsetClosure0 .offsetClosure ofs
  | .kgetglobal q => holeItems .getGlobal (.relocGetglobal q)
  | .ksetglobal q => holeItems .setGlobal (.relocSetglobal q)
  | .kconst sc => constItems .const0 .constInt .atom0 .atom .getGlobal sc
  | .kmakeblock n t =>
      if n = 0 then atomItems .atom0 .atom t
      else if n < 4 then [opcodeItem (op .makeBlock1 + n - 1), intItem t]
      else [opcodeItem (op .makeBlock), intItem n, intItem t]
  | .kgetfield n => smallItems 4 .getField0 .getField n
  | .ksetfield n => smallItems 4 .setField0 .setField n
  | .kmakefloatblock n =>
      if n = 0 then [opcodeItem (op .atom0)] else withItems .makeFloatBlock n
  | .kgetfloatfield n => withItems .getFloatField n
  | .ksetfloatfield n => withItems .setFloatField n
  | .kvectlength => [opcodeItem (op .vecTLength)]
  | .kgetvectitem => [opcodeItem (op .getVecTItem)]
  | .ksetvectitem => [opcodeItem (op .setVecTItem)]
  | .kgetstringchar => [opcodeItem (op .getStringChar)]
  | .kgetbyteschar => [opcodeItem (op .getBytesChar)]
  | .ksetbyteschar => [opcodeItem (op .setBytesChar)]
  | .kbranch lbl => jumpItems .branch lbl
  | .kbranchif lbl | .kstrictbranchif lbl => jumpItems .branchIf lbl
  | .kbranchifnot lbl | .kstrictbranchifnot lbl => jumpItems .branchIfNot lbl
  | .kswitch tblConst tblBlock =>
      [opcodeItem (op .switch), intItem (tblConst.length + (tblBlock.length <<< 16 : Nat))] ++
        refs 0 (tblConst ++ tblBlock)
  | .kboolnot => [opcodeItem (op .boolNot)]
  | .kpushtrap lbl => jumpItems .pushTrap lbl
  | .kpoptrap => [opcodeItem (op .popTrap)]
  | .kraise .regular => [opcodeItem (op .raise)]
  | .kraise .reRaise => [opcodeItem (op .reRaise)]
  | .kraise .noTrace => [opcodeItem (op .raiseNoTrace)]
  | .kcheckSignals => [opcodeItem (op .checkSignals)]
  | .kccall name n =>
      if n ≤ 5 then [opcodeItem (op .cCall1 + n - 1), .hole (.relocPrimitive name)]
      else [opcodeItem (op .cCallN), intItem n, .hole (.relocPrimitive name)]
  | .knegint => [opcodeItem (op .negInt)]
  | .kaddint => [opcodeItem (op .addInt)]
  | .ksubint => [opcodeItem (op .subInt)]
  | .kmulint => [opcodeItem (op .mulInt)]
  | .kdivint => [opcodeItem (op .divInt)]
  | .kmodint => [opcodeItem (op .modInt)]
  | .kandint => [opcodeItem (op .andInt)]
  | .korint => [opcodeItem (op .orInt)]
  | .kxorint => [opcodeItem (op .xorInt)]
  | .klslint => [opcodeItem (op .lslInt)]
  | .klsrint => [opcodeItem (op .lsrInt)]
  | .kasrint => [opcodeItem (op .asrInt)]
  | .kintcomp c => [opcodeItem (op (compOpcode c))]
  | .koffsetint n => withItems .offsetInt n
  | .koffsetref n => withItems .offsetRef n
  | .kisint => [opcodeItem (op .isInt)]
  | .kisout => [opcodeItem (op .uLtInt)]
  | .kgetmethod => [opcodeItem (op .getMethod)]
  | .kgetpubmet tag => [opcodeItem (op .getPubMet), intItem tag, intItem 0]
  | .kgetdynmet => [opcodeItem (op .getDynMet)]
  | .kevent ev => [.mark ev]
  | .kstop => [opcodeItem (op .stop)]

/-- A fused comparison; its constant is an integer. -/
def branchItems (o : Opcode) (k : StructuredConstant) (lbl : Label) : List (EmitItem Ev) :=
  [opcodeItem (op o), intItem ((constAsInt k).getD 0), .ref lbl 0]

/-- What `emit` puts out for a pattern. -/
def Output.items : Output Ev → List (EmitItem Ev)
  | .instr i => i.items
  | .branchComp c k lbl => branchItems (branchCompOpcode c) k lbl
  | .branchUltint k lbl => branchItems .bULtInt k lbl
  | .branchUgeint k lbl => branchItems .bUGeInt k lbl
  | .pushAcc n => smallItems 8 .pushAcc0 .pushAcc n
  | .pushEnvacc n =>
      if 1 ≤ n ∧ n < 4 then [opcodeItem (op .pushEnvAcc1 + n - 1)] else withItems .pushEnvAcc n
  | .pushOffsetclosure ofs => offsetclosureItems .pushOffsetClosure0 .pushOffsetClosure ofs
  | .pushGetglobalField id n => holeItems .pushGetGlobalField (.relocGetglobal id) ++ [intItem n]
  | .pushGetglobal id => holeItems .pushGetGlobal (.relocGetglobal id)
  | .pushConst sc => constItems .pushConst0 .pushConstInt .pushAtom0 .pushAtom .pushGetGlobal sc
  | .getglobalField id n => holeItems .getGlobalField (.relocGetglobal id) ++ [intItem n]

/-- An opcode and an operand. -/
theorem performs_emitWith (o : Opcode) (n : Int) :
    Performs (emitWith o n : Emit Ev Unit) (withItems o n) :=
  (performs_out _).bind (performs_outInt n)

/-- An opcode and a label. -/
theorem performs_emitJump (o : Opcode) (lbl : Label) :
    Performs (emitJump o lbl : Emit Ev Unit) (jumpItems o lbl) :=
  (performs_out _).bind (performs_outLabel lbl)

/-- An opcode and a hole. -/
theorem performs_emitHole (o : Opcode) (info : RelocInfo) :
    Performs (do out (op o); slotFor info : Emit Ev Unit) (holeItems o info) :=
  (performs_out _).bind (performs_slotFor info)

/-- Each branch emits its own items. -/
theorem performs_ite {c : Prop} [Decidable c] {m n : Emit Ev Unit} {is js : List (EmitItem Ev)}
    (hm : Performs m is) (hn : Performs n js) :
    Performs (if c then m else n) (if c then is else js) := by
  split
  · exact hm
  · exact hn

/-- An opcode of its own for a small operand. -/
theorem performs_emitSmall (bound : Int) (short long : Opcode) (n : Int) :
    Performs (emitSmall bound short long n : Emit Ev Unit) (smallItems bound short long n) :=
  performs_ite (performs_out _) (performs_emitWith _ _)

/-- An integer constant. -/
theorem performs_emitConstInt (short long : Opcode) (i : Int) :
    Performs (emitConstInt short long i : Emit Ev Unit) (constIntItems short long i) :=
  performs_ite (performs_out _) (performs_emitWith _ _)

/-- An atom. -/
theorem performs_emitAtom (short long : Opcode) (t : Int) :
    Performs (emitAtom short long t : Emit Ev Unit) (atomItems short long t) :=
  performs_ite (performs_out _) (performs_emitWith _ _)

/-- An offset of a closure. -/
theorem performs_emitOffsetclosure (short long : Opcode) (ofs : Int) :
    Performs (emitOffsetclosure short long ofs : Emit Ev Unit)
      (offsetclosureItems short long ofs) :=
  performs_ite (performs_out _) (performs_emitWith _ _)

/-- A constant: an integer, an atom or a global. -/
theorem performs_emitConst (shortInt longInt shortAtom longAtom global : Opcode)
    (sc : StructuredConstant) :
    Performs (emitConst shortInt longInt shortAtom longAtom global sc : Emit Ev Unit)
      (constItems shortInt longInt shortAtom longAtom global sc) := by
  cases sc with
  | constBase c =>
      cases c with
      | constInt i => exact performs_ite (performs_emitConstInt _ _ _) (performs_emitHole _ _)
      | constChar c => exact performs_emitWith _ _
      | _ => exact performs_emitHole _ _
  | constPointer i => exact performs_emitConstInt _ _ _
  | constBlock t fields =>
      cases fields with
      | nil => exact performs_emitAtom _ _ _
      | cons f fs => exact performs_emitHole _ _
  | _ => exact performs_emitHole _ _

/-- A comparison. -/
theorem performs_emitComp (c : IntegerComparison) :
    Performs (emitComp c : Emit Ev Unit) [opcodeItem (op (compOpcode c))] := by
  cases c <;> exact performs_out _

/-- A comparison with a branch. -/
theorem performs_emitBranchComp (c : IntegerComparison) :
    Performs (emitBranchComp c : Emit Ev Unit) [opcodeItem (op (branchCompOpcode c))] := by
  cases c <;> exact performs_out _

/-- An opcode, two operands. -/
theorem performs_two (o m n : Int) :
    Performs (do out o; outInt m; outInt n : Emit Ev Unit)
      [opcodeItem o, intItem m, intItem n] :=
  (performs_out o).bind ((performs_outInt m).bind (performs_outInt n))

/-- **One instruction.** -/
theorem Kinstruction.performs (i : Kinstruction Ev) : Performs (emitInstr i) i.items := by
  cases i with
  | klabel lbl => exact performs_defineLabel lbl
  | kevent ev => exact performs_recordEvent ev
  -- a small operand has an opcode of its own
  | kacc n => exact performs_emitSmall _ _ _ _
  | kgetfield n => exact performs_emitSmall _ _ _ _
  | ksetfield n => exact performs_emitSmall _ _ _ _
  | kenvacc n => exact performs_ite (performs_out _) (performs_emitWith _ _)
  | kapply n => exact performs_ite (performs_out _) (performs_emitWith _ _)
  | kmakefloatblock n => exact performs_ite (performs_out _) (performs_emitWith _ _)
  | kappterm n sz =>
      exact performs_ite ((performs_out _).bind (performs_outInt sz)) (performs_two _ n sz)
  | kclosure lbl n =>
      exact (performs_out _).bind ((performs_outInt n).bind (performs_outLabel lbl))
  | kclosurerec lbls n =>
      exact (performs_out _).bind
        ((performs_outInt _).bind ((performs_outInt n).bind (performs_table lbls)))
  | koffsetclosure ofs => exact performs_emitOffsetclosure _ _ _
  | kgetglobal q => exact performs_emitHole _ _
  | ksetglobal q => exact performs_emitHole _ _
  | kconst sc => exact performs_emitConst _ _ _ _ _ sc
  | kmakeblock n t =>
      exact performs_ite (performs_emitAtom _ _ t)
        (performs_ite ((performs_out _).bind (performs_outInt t)) (performs_two _ n t))
  | kswitch tblConst tblBlock =>
      exact (performs_out _).bind ((performs_outInt _).bind (performs_tables tblConst tblBlock))
  | kraise k => cases k <;> exact performs_out _
  | kccall name n =>
      exact performs_ite ((performs_out _).bind (performs_slotFor _))
        ((performs_out _).bind ((performs_outInt n).bind (performs_slotFor _)))
  | kintcomp c => exact performs_emitComp c
  | kgetpubmet tag => exact performs_two _ tag 0
  -- one operand
  | kpop n => exact performs_emitWith _ n
  | kassign n => exact performs_emitWith _ n
  | kreturn n => exact performs_emitWith _ n
  | kgrab n => exact performs_emitWith _ n
  | kgetfloatfield n => exact performs_emitWith _ n
  | ksetfloatfield n => exact performs_emitWith _ n
  | koffsetint n => exact performs_emitWith _ n
  | koffsetref n => exact performs_emitWith _ n
  -- a jump
  | kpushRetaddr lbl => exact performs_emitJump _ lbl
  | kbranch lbl => exact performs_emitJump _ lbl
  | kbranchif lbl => exact performs_emitJump _ lbl
  | kbranchifnot lbl => exact performs_emitJump _ lbl
  | kstrictbranchif lbl => exact performs_emitJump _ lbl
  | kstrictbranchifnot lbl => exact performs_emitJump _ lbl
  | kpushtrap lbl => exact performs_emitJump _ lbl
  | _ => exact performs_out _

/-- An immediate constant is emitted as its integer. -/
theorem outConst_eq {k : StructuredConstant} (hk : isImmedConst k = true) :
    (outConst k : Emit Ev Unit) = outInt ((constAsInt k).getD 0) := by
  unfold isImmedConst at hk
  unfold outConst
  split at hk
  next i hi => rw [hi]; rfl
  · cases hk

/-- A comparison with a constant, and the jump. -/
theorem performs_branch (m : Emit Ev Unit) {o : Opcode} (hm : Performs m [opcodeItem (op o)])
    {k : StructuredConstant} (hk : isImmedConst k = true) (lbl : Label) :
    Performs (do m; outConst k; outLabel lbl) (branchItems o k lbl) := by
  rw [outConst_eq hk]
  exact hm.bind ((performs_outInt _).bind (performs_outLabel lbl))

/-- A hole, and an operand after it. -/
theorem performs_hole_int (o : Opcode) (info : RelocInfo) (n : Int) :
    Performs (do out (op o); slotFor info; outInt n : Emit Ev Unit)
      (holeItems o info ++ [intItem n]) :=
  (performs_out _).bind ((performs_slotFor info).bind (performs_outInt n))

/-- **One pattern of `emit`.** -/
theorem Output.performs {front : List (Kinstruction Ev)} {o : Output Ev} (h : Covers front o) :
    Performs o.emit o.items := by
  cases h with
  | instr i => exact i.performs
  | branchif hk c lbl => exact performs_branch _ (performs_emitBranchComp c) hk lbl
  | branchifnot hk c lbl => exact performs_branch _ (performs_emitBranchComp _) hk lbl
  | rangeif hk lbl => exact performs_branch _ (performs_out _) hk lbl
  | rangeifnot hk lbl => exact performs_branch _ (performs_out _) hk lbl
  | pushAcc n => exact performs_emitSmall _ _ _ _
  | pushEnvacc n => exact performs_ite (performs_out _) (performs_emitWith _ _)
  | pushOffsetclosure ofs => exact performs_emitOffsetclosure _ _ _
  | pushGetglobalField id n => exact performs_hole_int _ _ n
  | pushGetglobal id => exact performs_emitHole _ _
  | pushConst sc => exact performs_emitConst _ _ _ _ _ sc
  | getglobalField id n => exact performs_hole_int _ _ n

/-! ## §6. Lists of instructions. -/

/-- The items of outputs. -/
def itemsOf (os : List (Output Ev)) : List (EmitItem Ev) := os.flatMap Output.items

section Lists

variable {evs : EventOps Ev} {ks ks' rest : List (Kinstruction Ev)}

/-- The outputs that the patterns choose. -/
inductive Chooses (evs : EventOps Ev) : List (Kinstruction Ev) → List (Output Ev) → Prop where
  | nothing {ks : List (Kinstruction Ev)} (h : peephole evs ks = .ok .nothing) :
      Chooses evs ks []
  | again {ks ks' : List (Kinstruction Ev)} {os : List (Output Ev)}
      (h : peephole evs ks = .ok (.again ks')) (hks' : Chooses evs ks' os) : Chooses evs ks os
  | output {ks rest : List (Kinstruction Ev)} {o : Output Ev} {os : List (Output Ev)}
      (h : peephole evs ks = .ok (.output o rest)) (hrest : Chooses evs rest os) :
      Chooses evs ks (o :: os)

/-- The first pattern decides. -/
theorem Chooses.inv {os : List (Output Ev)} {e : Except EmitError (Emission Ev)}
    (h : Chooses evs ks os) (he : peephole evs ks = e) :
    (e = .ok .nothing ∧ os = []) ∨ (∃ ks', e = .ok (.again ks') ∧ Chooses evs ks' os) ∨
      ∃ o rest os', e = .ok (.output o rest) ∧ os = o :: os' ∧ Chooses evs rest os' := by
  subst he
  cases h with
  | nothing h => exact .inl ⟨h, rfl⟩
  | again h hks' => exact .inr (.inl ⟨_, h, hks'⟩)
  | output h hrest => exact .inr (.inr ⟨_, _, _, h, rfl, hrest⟩)

/-- Where the optimiser fails, `emit` does. -/
theorem emit_of_error {e : EmitError} (h : peephole evs ks = .error e) :
    emit evs ks = throw e := by
  rw [emit]
  split <;> simp_all

/-- Where no instruction is left, `emit` ends. -/
theorem emit_of_nothing (h : peephole evs ks = .ok .nothing) : emit evs ks = pure () := by
  rw [emit]
  split <;> simp_all

/-- Where the instructions are rewritten, `emit` goes on with the new ones. -/
theorem emit_of_again (h : peephole evs ks = .ok (.again ks')) :
    emit evs ks = emit evs ks' := by
  rw [emit]
  split <;> simp_all

/-- Where an instruction comes out, its code is emitted, and then the rest. -/
theorem emit_of_output {o : Output Ev} (h : peephole evs ks = .ok (.output o rest)) :
    emit evs ks = (do o.emit; emit evs rest) := by
  rw [emit]
  split <;> simp_all

/-- **`emit` puts out what its patterns choose**, or it stops: because events do not
merge, or because a label is defined twice. -/
theorem emit_performs (ks : List (Kinstruction Ev)) :
    ∀ (st : EmitState Ev) (js : List (EmitItem Ev)), Reached st js →
      (∃ os st', Chooses evs ks os ∧ emit evs ks st = .ok ((), st') ∧
        Reached st' (js ++ itemsOf os)) ∨
      ((∃ e, emit evs ks st = .error e) ∧
        ∀ os, Chooses evs ks os → ¬ Unique (js ++ itemsOf os)) := by
  induction ks using emit.induct evs with
  -- the patterns stop: two events do not merge
  | case1 ks e he =>
      intro st js _
      refine .inr ⟨⟨e, ?_⟩, fun os hos => ?_⟩
      · rw [emit_of_error he]
        rfl
      · rcases hos.inv he with ⟨h, -⟩ | ⟨_, h, _⟩ | ⟨_, _, _, h, _⟩
        · cases h
        · cases h
        · cases h
  -- there is nothing left
  | case2 ks he =>
      intro st js h
      refine .inl ⟨[], st, .nothing he, ?_, by rwa [itemsOf, List.flatMap_nil, List.append_nil]⟩
      rw [emit_of_nothing he]
      rfl
  -- a pattern puts an event in another place and starts again
  | case3 ks ks' he ih =>
      intro st js h
      rw [emit_of_again he]
      rcases ih st js h with ⟨os, st', hos, hst', h'⟩ | ⟨herr, hnot⟩
      · exact .inl ⟨os, st', .again he hos, hst', h'⟩
      · refine .inr ⟨herr, fun os hos => hnot os ?_⟩
        rcases hos.inv he with ⟨h, -⟩ | ⟨ks'', h, hos⟩ | ⟨_, _, _, h, _⟩
        · cases h
        · cases h
          exact hos
        · cases h
  -- a pattern puts something out
  | case4 ks o rest he ih =>
      intro st js h
      obtain ⟨front, -, hcovers⟩ := follows_peephole he
      rw [emit_of_output he]
      rcases Output.performs hcovers st js h with ⟨st', hst', h'⟩ | ⟨⟨e, herr⟩, hnot⟩
      · have hrun : (do o.emit; emit evs rest) st = emit evs rest st' := by
          show (o.emit st >>= _) = _
          rw [hst']
          rfl
        rw [hrun]
        rcases ih st' (js ++ o.items) h' with ⟨os, st'', hos, hst'', h''⟩ | ⟨herr, hnot⟩
        · refine .inl ⟨o :: os, st'', .output he hos, hst'', ?_⟩
          rwa [itemsOf, List.flatMap_cons, ← List.append_assoc]
        · refine .inr ⟨herr, fun os hos => ?_⟩
          rcases hos.inv he with ⟨h, -⟩ | ⟨_, h, _⟩ | ⟨o', rest', os', h, rfl, hos⟩
          · cases h
          · cases h
          · cases h
            rw [itemsOf, List.flatMap_cons, ← List.append_assoc]
            exact hnot os' hos
      · refine .inr ⟨⟨e, ?_⟩, fun os hos => ?_⟩
        · show (o.emit st >>= _) = _
          rw [herr]
          rfl
        · rcases hos.inv he with ⟨h, -⟩ | ⟨_, h, _⟩ | ⟨o', rest', os', h, rfl, hos⟩
          · cases h
          · cases h
          · cases h
            rw [itemsOf, List.flatMap_cons, ← List.append_assoc]
            exact fun h => hnot h.of_append

end Lists

end OcamlJit.Bytecomp

/-
  OcamlJit.Bytecode.CodeLayout
  ────────────────────────────
  **HOW CODE SPLITS INTO OPCODES.**

  `nextOpcode` is the walk of `caml_thread_code` (`runtime/fix_code.c`): it
  knows how many operands an opcode has, and the sizes of the two tables.
  `labelOperands` lists the relative labels of an opcode with the `pc` they are
  added to in `caml_interprete`.

    • `exists_decodeAt` — the decoder reads an opcode exactly when the opcode is
      known, its operands are there and no label is negative,
    • `exists_decodes_iff` — it reaches the end of the words exactly when they
      split completely.
-/
import OcamlJit.Instructions.Decode

namespace OcamlJit.Bytecode

open OcamlJit.Lib OcamlJit.Instructions

/-! ## §1. Operands and labels. -/

/-- `caml_init_opcode_nargs`. -/
def opcodeNargs : Opcode → Nat
  -- Instructions with one operand
  | .pushAcc | .acc | .pop | .assign | .pushEnvAcc | .envAcc | .pushRetAddr | .apply
  | .appTerm1 | .appTerm2 | .appTerm3 | .return_ | .grab | .pushGetGlobal | .getGlobal
  | .setGlobal | .pushAtom | .atom | .makeBlock1 | .makeBlock2 | .makeBlock3
  | .makeFloatBlock | .getField | .getFloatField | .setField | .setFloatField | .branch
  | .branchIf | .branchIfNot | .pushTrap | .cCall1 | .cCall2 | .cCall3 | .cCall4
  | .cCall5 | .constInt | .pushConstInt | .offsetInt | .offsetRef | .offsetClosure
  | .pushOffsetClosure => 1
  -- Instructions with two operands
  | .appTerm | .closure | .pushGetGlobalField | .getGlobalField | .makeBlock | .cCallN
  | .bEq | .bNeq | .bLtInt | .bLeInt | .bGtInt | .bGeInt | .bULtInt | .bUGeInt
  | .getPubMet => 2
  | _ => 0

/-- The opcode at an offset. -/
def opcodeAt (code : List Word) (off : Nat) : Option Opcode := code[off]? >>= Opcode.fromI32

/-- The offset after the operands of an opcode at `off`. -/
def afterOperands (code : List Word) (off : Nat) : Opcode → Option Nat
  | .switch => do
      let sizes ← code[off + 1]?
      some (off + 2 + u32OfWord sizes % 2 ^ 16 + u32OfWord sizes / 2 ^ 16)
  | .closureRec => do
      let nfuncs ← code[off + 1]?
      some (off + 3 + u32OfWord nfuncs)
  | op => some (off + 1 + opcodeNargs op)

/-- Where the opcode after the one at `off` is fetched. -/
def nextOpcode (code : List Word) (off : Nat) : Option Nat := do
  let op ← opcodeAt code off
  afterOperands code off op

/-- `n` relative words from `base` on, each of them added to `base`. -/
def labelTable (code : List Word) (base n : Nat) : List (Nat × Word) :=
  ((code.drop base).take n).map (base, ·)

/-- The labels of an opcode at `off`: the `pc` each of them is added to, and
the word. -/
def labelOperandsOf (code : List Word) (off : Nat) : Opcode → List (Nat × Word)
  | .pushRetAddr | .branch | .branchIf | .branchIfNot | .pushTrap =>
      labelTable code (off + 1) 1
  | .closure | .bEq | .bNeq | .bLtInt | .bLeInt | .bGtInt | .bGeInt | .bULtInt
  | .bUGeInt => labelTable code (off + 2) 1
  | .switch =>
      match code[off + 1]? with
      | some sizes =>
          labelTable code (off + 2) (u32OfWord sizes % 2 ^ 16 + u32OfWord sizes / 2 ^ 16)
      | none => []
  | .closureRec =>
      match code[off + 1]? with
      | some nfuncs => labelTable code (off + 3) (u32OfWord nfuncs)
      | none => []
  | _ => []

@[inherit_doc labelOperandsOf]
def labelOperands (code : List Word) (off : Nat) : List (Nat × Word) :=
  match opcodeAt code off with
  | some op => labelOperandsOf code off op
  | none => []

/-- The offset a label stands for. -/
def labelTarget (p : Nat × Word) : Int := p.1 + p.2.toInt

/-- `position as i32 + rel` is the sum. -/
def SumFits (p : Nat × Word) : Prop :=
  p.1 < 2 ^ 31 ∧ -2 ^ 31 ≤ labelTarget p ∧ labelTarget p < 2 ^ 31

instance (p : Nat × Word) : Decidable (SumFits p) :=
  inferInstanceAs (Decidable (_ ∧ _ ∧ _))

/-- The tag operand of an opcode at `off`. -/
def tagOperandOf (code : List Word) (off : Nat) : Opcode → Option Word
  | .atom | .pushAtom | .makeBlock1 | .makeBlock2 | .makeBlock3 => code[off + 1]?
  | .makeBlock => code[off + 2]?
  | _ => none

/-- The offsets at which opcodes are fetched when control falls through from
`start`. -/
inductive Reaches (code : List Word) (start : Nat) : Nat → Prop where
  | start : Reaches code start start
  | next {off off' : Nat} (h : Reaches code start off) (hn : nextOpcode code off = some off') :
      Reaches code start off'

/-- Label sums are within `i32` and block tags below 256. -/
def OperandsFit (code : List Word) (start : Nat) : Prop :=
  ∀ off, Reaches code start off →
    (∀ p ∈ labelOperands code off, SumFits p) ∧
      ∀ op tag, opcodeAt code off = some op → tagOperandOf code off op = some tag →
        usizeOfWord tag < 256

/-- The words from an offset on split into known opcodes with all their operands
and labels that are not negative. -/
inductive Splits (code : List Word) : Nat → Prop where
  | done : Splits code code.length
  | step {off off' : Nat} (hn : nextOpcode code off = some off') (hle : off' ≤ code.length)
      (hlabels : ∀ p ∈ labelOperands code off, 0 ≤ labelTarget p)
      (hrest : Splits code off') : Splits code off

/-! ## §2. Readers over an array. -/

/-- From offset `p` the reader gives `a` and stops at `q`. -/
def ReadsTo {α : Type} (code : List Word) (r : Reader α) (p : Nat) (a : α) (q : Nat) : Prop :=
  r ⟨code.drop p, p⟩ = .ok (a, ⟨code.drop q, q⟩)

section Readers

variable {α : Type} {code : List Word} {p q : Nat} {b : α}

theorem readsTo_pure {a : α} : ReadsTo code (pure a) p b q ↔ a = b ∧ p = q := by
  unfold ReadsTo
  rw [reader_pure_ok]
  constructor
  · rintro ⟨rfl, h⟩
    exact ⟨rfl, congrArg Cursor.position h⟩
  · rintro ⟨rfl, rfl⟩
    exact ⟨rfl, rfl⟩

/-- A word is read, and the rest after it. -/
theorem readsTo_i32_bind {f : Word → Reader α} :
    ReadsTo code (Reader.i32 >>= f) p b q ↔
      ∃ w, code[p]? = some w ∧ ReadsTo code (f w) (p + 1) b q := by
  unfold ReadsTo
  rw [reader_bind_ok]
  cases hp : code[p]? with
  | none =>
      rw [List.getElem?_eq_none_iff] at hp
      rw [List.drop_eq_nil_of_le hp]
      simp [Reader.i32, err]
  | some w =>
      obtain ⟨hlt, hw⟩ := List.getElem?_eq_some_iff.mp hp
      rw [List.drop_eq_getElem_cons hlt, hw]
      simp [Reader.i32]

/-- A reader that converts the word it reads. -/
theorem readsTo_map_bind {β : Type} {g : Word → β} {f : β → Reader α} :
    ReadsTo code ((Reader.i32 >>= fun w => pure (g w)) >>= f) p b q ↔
      ∃ w, code[p]? = some w ∧ ReadsTo code (f (g w)) (p + 1) b q := by
  rw [bind_assoc]
  simp only [pure_bind]
  exact readsTo_i32_bind

/-- The same for a word taken as a `u32`. -/
theorem readsTo_u32_bind {f : Nat → Reader α} :
    ReadsTo code (Reader.u32 >>= f) p b q ↔
      ∃ w, code[p]? = some w ∧ ReadsTo code (f (u32OfWord w)) (p + 1) b q :=
  readsTo_map_bind

/-- For a word cut to a `u8`. -/
theorem readsTo_u8_bind {f : Nat → Reader α} :
    ReadsTo code (Reader.u8 >>= f) p b q ↔
      ∃ w, code[p]? = some w ∧ ReadsTo code (f (u8OfWord w)) (p + 1) b q :=
  readsTo_map_bind

/-- For a word taken as an `i32`. -/
theorem readsTo_sint_bind {f : Int → Reader α} :
    ReadsTo code (Reader.sint >>= f) p b q ↔
      ∃ w, code[p]? = some w ∧ ReadsTo code (f w.toInt) (p + 1) b q :=
  readsTo_map_bind

/-- For a word that is a label relative to `base`. -/
theorem readsTo_labelAt_bind {base : Nat} {f : Nat → Reader α} :
    ReadsTo code (Reader.labelAt base >>= f) p b q ↔
      ∃ w, code[p]? = some w ∧ ∃ l, Reader.resolveLabel base w = .ok l ∧
        ReadsTo code (f l) (p + 1) b q := by
  unfold Reader.labelAt
  rw [bind_assoc, readsTo_i32_bind]
  refine exists_congr fun w => and_congr_right fun _ => ?_
  unfold ReadsTo
  rw [reader_bind_ok]
  cases hl : Reader.resolveLabel base w with
  | error e => simp [Except.map]
  | ok l => simp [Except.map]

/-- The position is read without reading a word. -/
theorem readsTo_position_bind {f : Nat → Reader α} :
    ReadsTo code (Reader.currentPosition >>= f) p b q ↔ ReadsTo code (f p) p b q :=
  Iff.rfl

/-- A label is relative to the word it is read from. -/
theorem readsTo_label_bind {f : Nat → Reader α} :
    ReadsTo code (Reader.label >>= f) p b q ↔
      ∃ w, code[p]? = some w ∧ ∃ l, Reader.resolveLabel p w = .ok l ∧
        ReadsTo code (f l) (p + 1) b q := by
  unfold Reader.label
  rw [bind_assoc, readsTo_position_bind, readsTo_labelAt_bind]

/-- A table of labels with one base. -/
theorem readsTo_labelList_bind {base : Nat} :
    ∀ {n p : Nat} {f : List Nat → Reader α},
      ReadsTo code (Reader.getLabelList n base >>= f) p b q ↔
        n ≤ code.length - p ∧ ∃ ls,
          ((code.drop p).take n).mapM (Reader.resolveLabel base) = .ok ls ∧
            ReadsTo code (f ls) (p + n) b q
  | 0, p, f => by
      show ReadsTo code (pure [] >>= f) p b q ↔ _
      rw [pure_bind]
      simp [pure, Except.pure]
  | n + 1, p, f => by
      simp only [Reader.getLabelList, bind_assoc, pure_bind]
      rw [readsTo_labelAt_bind]
      simp only [readsTo_labelList_bind (n := n)]
      cases hp : code[p]? with
      | none =>
          rw [List.getElem?_eq_none_iff] at hp
          simp only [reduceCtorEq, false_and, exists_false, false_iff, not_and]
          intro hn
          omega
      | some w =>
          obtain ⟨hlt, rfl⟩ := List.getElem?_eq_some_iff.mp hp
          rw [List.drop_eq_getElem_cons hlt, List.take_succ_cons, List.mapM_cons]
          have hpn : p + (n + 1) = p + 1 + n := by omega
          rw [hpn]
          constructor
          · rintro ⟨_, hw, l, hl, hn, ls, hls, hr⟩
            cases hw
            refine ⟨by omega, l :: ls, ?_, hr⟩
            rw [hl, ok_bind, hls, ok_bind]
            rfl
          · rintro ⟨hn, ls, hls, hr⟩
            obtain ⟨l, hl, hls⟩ := bind_eq_ok.mp hls
            obtain ⟨ls', hls', hls⟩ := bind_eq_ok.mp hls
            cases hls
            exact ⟨_, rfl, l, hl, by omega, ls', hls', hr⟩

end Readers

/-! ## §3. Labels. -/

/-- A sum that fits is what the decoder computes, and an error if negative. -/
theorem resolveLabel_eq_ok {base l : Nat} {w : Word} (h : SumFits (base, w)) :
    Reader.resolveLabel base w = .ok l ↔ labelTarget (base, w) = l := by
  obtain ⟨hbase, hlo, hhi⟩ := h
  have hcast : (BitVec.ofNat 32 base).toInt = base := by
    rw [BitVec.toInt_eq_toNat_cond, BitVec.toNat_ofNat]
    simp only at hbase
    split <;> omega
  unfold labelTarget at *
  unfold Reader.resolveLabel
  simp only [hcast] at *
  rw [if_neg (by omega)]
  split
  · simp only [err, reduceCtorEq, false_iff]
    omega
  · rw [Except.ok.injEq]
    omega

/-- Where no sum overflows the decoder reads exactly the tables whose targets are
not negative. -/
theorem mapM_resolveLabel_eq_ok {base : Nat} :
    ∀ {ws : List Word} {ls : List Nat}, (∀ w ∈ ws, SumFits (base, w)) →
      (ws.mapM (Reader.resolveLabel base) = .ok ls ↔
        ws.map (fun w => labelTarget (base, w)) = ls.map Int.ofNat)
  | [], ls, _ => by
      cases ls <;> simp [pure, Except.pure]
  | w :: ws, ls, h => by
      rw [List.mapM_cons, bind_eq_ok, List.map_cons]
      constructor
      · rintro ⟨l, hl, hls⟩
        obtain ⟨ls', hls', hls⟩ := bind_eq_ok.mp hls
        cases hls
        rw [(resolveLabel_eq_ok (h w List.mem_cons_self)).mp hl,
          (mapM_resolveLabel_eq_ok fun v hv => h v (List.mem_cons_of_mem _ hv)).mp hls']
        rfl
      · intro hmap
        cases ls with
        | nil => cases hmap
        | cons l ls =>
            rw [List.map_cons, List.cons.injEq] at hmap
            refine ⟨l, (resolveLabel_eq_ok (h w List.mem_cons_self)).mpr hmap.1, ?_⟩
            rw [(mapM_resolveLabel_eq_ok fun v hv => h v (List.mem_cons_of_mem _ hv)).mpr hmap.2]
            rfl

/-- As many labels as words. -/
theorem length_of_mapM_resolveLabel {base : Nat} :
    ∀ {ws : List Word} {ls : List Nat}, ws.mapM (Reader.resolveLabel base) = .ok ls →
      ls.length = ws.length
  | [], ls, h => by
      cases h
      rfl
  | w :: ws, ls, h => by
      rw [List.mapM_cons] at h
      obtain ⟨l, -, h⟩ := bind_eq_ok.mp h
      obtain ⟨ls', hls, h⟩ := bind_eq_ok.mp h
      cases h
      rw [List.length_cons, List.length_cons, length_of_mapM_resolveLabel hls]

/-- The targets of a table. -/
theorem map_labelTarget_labelTable (code : List Word) (base n : Nat) :
    (labelTable code base n).map labelTarget =
      ((code.drop base).take n).map fun w => labelTarget (base, w) := by
  rw [labelTable, List.map_map]
  rfl

/-- Labels that fit resolve exactly when none of them is negative. -/
theorem exists_mapM_resolveLabel {base : Nat} {ws : List Word}
    (h : ∀ w ∈ ws, SumFits (base, w)) :
    (∃ ls, ws.mapM (Reader.resolveLabel base) = .ok ls) ↔
      ∀ w ∈ ws, 0 ≤ labelTarget (base, w) := by
  simp only [mapM_resolveLabel_eq_ok h]
  constructor
  · rintro ⟨ls, hls⟩ w hw
    have hmem : labelTarget (base, w) ∈ ls.map Int.ofNat := hls ▸ List.mem_map_of_mem hw
    obtain ⟨l, -, hl⟩ := List.mem_map.mp hmem
    rw [← hl]
    exact Int.natCast_nonneg l
  · intro hnonneg
    refine ⟨ws.map fun w => (labelTarget (base, w)).toNat, ?_⟩
    rw [List.map_map]
    refine List.map_congr_left fun w hw => ?_
    exact (Int.toNat_of_nonneg (hnonneg w hw)).symm

/-- What holds of all entries of a table holds of its words. -/
theorem forall_mem_labelTable {code : List Word} {base n : Nat} {P : Nat × Word → Prop} :
    (∀ e ∈ labelTable code base n, P e) ↔
      ∀ w ∈ (code.drop base).take n, P (base, w) :=
  List.forall_mem_map

/-- A stretch of code is its first part and its second. -/
theorem take_drop_add (code : List Word) (p a b : Nat) :
    (code.drop p).take (a + b) = (code.drop p).take a ++ (code.drop (p + a)).take b := by
  rw [List.take_add, List.drop_drop]

/-- A stretch of one word. -/
theorem take_one_drop {code : List Word} {p : Nat} {w : Word} (h : code[p]? = some w) :
    (code.drop p).take 1 = [w] := by
  obtain ⟨hlt, rfl⟩ := List.getElem?_eq_some_iff.mp h
  rw [List.drop_eq_getElem_cons hlt]
  rfl

/-! ## §4. One opcode. -/

section Opcodes

variable {code : List Word} {off off' p q : Nat} {op : Opcode}

/-- The reader takes `k` words and succeeds when they are there. -/
def Takes (code : List Word) (k : Nat) (r : Reader (List (Instruction Nat))) : Prop :=
  ∀ p q, p ≤ code.length →
    ((∃ is, ReadsTo code r p is q) ↔ p + k = q ∧ q ≤ code.length)

/-- No operand. -/
theorem takes_pure (is : List (Instruction Nat)) : Takes code 0 (pure is) := by
  intro p q hp
  simp only [readsTo_pure]
  constructor
  · rintro ⟨_, -, rfl⟩
    exact ⟨rfl, hp⟩
  · rintro ⟨rfl, -⟩
    exact ⟨is, rfl, rfl⟩

/-- One word, converted by `g`, and then `k` more. -/
theorem takes_bind {β : Type} {g : Word → β} {f : β → Reader (List (Instruction Nat))}
    {k : Nat} (h : ∀ b, Takes code k (f b)) :
    Takes code (k + 1) ((Reader.i32 >>= fun w => pure (g w)) >>= f) := by
  intro p q hp
  simp only [readsTo_map_bind]
  constructor
  · rintro ⟨is, w, hw, hr⟩
    have hlt := (List.getElem?_eq_some_iff.mp hw).1
    have := (h (g w) (p + 1) q (by omega)).mp ⟨is, hr⟩
    omega
  · rintro ⟨hq, hle⟩
    have hlt : p < code.length := by omega
    obtain ⟨is, hr⟩ := (h (g code[p]) (p + 1) q (by omega)).mpr (by omega)
    exact ⟨is, code[p], List.getElem?_eq_getElem hlt, hr⟩

/-- One unsigned operand more. -/
theorem takes_u32_bind {f : Nat → Reader (List (Instruction Nat))} {k : Nat}
    (h : ∀ b, Takes code k (f b)) : Takes code (k + 1) (Reader.u32 >>= f) :=
  takes_bind h

/-- One tag more. -/
theorem takes_u8_bind {f : Nat → Reader (List (Instruction Nat))} {k : Nat}
    (h : ∀ b, Takes code k (f b)) : Takes code (k + 1) (Reader.u8 >>= f) :=
  takes_bind h

/-- One signed operand more. -/
theorem takes_sint_bind {f : Int → Reader (List (Instruction Nat))} {k : Nat}
    (h : ∀ b, Takes code k (f b)) : Takes code (k + 1) (Reader.sint >>= f) :=
  takes_bind h

/-- An opcode without labels. -/
theorem exists_of_takes (hoff : off < code.length)
    (h : Takes code (opcodeNargs op) (readOperands op))
    (hlabels : labelOperandsOf code off op = [])
    (hafter : afterOperands code off op = some (off + 1 + opcodeNargs op)) :
    (∃ is, ReadsTo code (readOperands op) (off + 1) is off') ↔
      afterOperands code off op = some off' ∧ off' ≤ code.length ∧
        ∀ e ∈ labelOperandsOf code off op, 0 ≤ labelTarget e := by
  rw [h _ _ hoff, hlabels, hafter]
  simp

/-- A label at the end of the operands. -/
theorem exists_label {g : Nat → List (Instruction Nat)}
    (hfit : ∀ e ∈ labelTable code p 1, SumFits e) :
    (∃ is, ReadsTo code (Reader.label >>= fun l => pure (g l)) p is q) ↔
      some (p + 1) = some q ∧ q ≤ code.length ∧
        ∀ e ∈ labelTable code p 1, 0 ≤ labelTarget e := by
  simp only [readsTo_label_bind, readsTo_pure, Option.some.injEq]
  rw [forall_mem_labelTable] at *
  constructor
  · rintro ⟨_, w, hw, l, hl, -, rfl⟩
    have hlt := (List.getElem?_eq_some_iff.mp hw).1
    rw [take_one_drop hw] at *
    rw [resolveLabel_eq_ok (hfit w List.mem_cons_self)] at hl
    refine ⟨rfl, hlt, ?_⟩
    simp only [List.mem_singleton, forall_eq]
    omega
  · rintro ⟨rfl, hle, hnonneg⟩
    have hw : code[p]? = some code[p] := List.getElem?_eq_getElem hle
    rw [take_one_drop hw] at *
    have h0 := hnonneg _ List.mem_cons_self
    have hl := (resolveLabel_eq_ok (hfit _ List.mem_cons_self)).mpr
      (Int.toNat_of_nonneg h0).symm
    exact ⟨_, _, hw, _, hl, rfl, rfl⟩

/-- A label after one operand. -/
theorem exists_label_bind {β : Type} {g : Word → β} {f : β → Nat → List (Instruction Nat)}
    (hfit : ∀ e ∈ labelTable code (off + 2) 1, SumFits e) :
    (∃ is, ReadsTo code ((Reader.i32 >>= fun w => pure (g w)) >>= fun b =>
        Reader.label >>= fun l => pure (f b l)) (off + 1) is off') ↔
      some (off + 3) = some off' ∧ off' ≤ code.length ∧
        ∀ e ∈ labelTable code (off + 2) 1, 0 ≤ labelTarget e := by
  simp only [readsTo_map_bind]
  constructor
  · rintro ⟨is, w, hw, hr⟩
    exact (exists_label hfit).mp ⟨is, hr⟩
  · intro h
    have hoff' : off + 3 = off' := Option.some.inj h.1
    have hlt : off + 1 < code.length := by omega
    obtain ⟨is, hr⟩ := (exists_label (g := f (g code[off + 1])) hfit).mpr h
    exact ⟨is, _, List.getElem?_eq_getElem hlt, hr⟩

/-- `SWITCH` is read exactly when its table is inside the code and has no negative
target. -/
theorem exists_switch (hfit : ∀ e ∈ labelOperandsOf code off .switch, SumFits e) :
    (∃ is, ReadsTo code (readOperands .switch) (off + 1) is off') ↔
      afterOperands code off .switch = some off' ∧ off' ≤ code.length ∧
        ∀ e ∈ labelOperandsOf code off .switch, 0 ≤ labelTarget e := by
  simp only [readOperands, readsTo_u32_bind, readsTo_position_bind,
    readsTo_labelList_bind, readsTo_pure, afterOperands, labelOperandsOf] at *
  cases hn : code[off + 1]? with
  | none => simp
  | some n =>
      have hlt := (List.getElem?_eq_some_iff.mp hn).1
      simp only [hn, forall_mem_labelTable, take_drop_add, List.mem_append] at hfit ⊢
      have hints := exists_mapM_resolveLabel fun w hw => hfit w (.inl hw)
      have htags := exists_mapM_resolveLabel fun w hw => hfit w (.inr hw)
      simp only [or_imp, forall_and, ← hints, ← htags]
      constructor
      · rintro ⟨_, w, hw, ha, ints, hi, hb, tags, ht, -, rfl⟩
        cases hw
        refine ⟨?_, ?_, ⟨ints, hi⟩, tags, ht⟩
        · rfl
        · omega
      · rintro ⟨hoff', hle, ⟨ints, hi⟩, tags, ht⟩
        have : off + 2 + u32OfWord n % 2 ^ 16 + u32OfWord n / 2 ^ 16 = off' :=
          Option.some.inj hoff'
        exact ⟨_, n, rfl, by omega, ints, hi, by omega, tags, ht, rfl, by omega⟩

/-- And so is `CLOSUREREC`. -/
theorem exists_closureRec (hfit : ∀ e ∈ labelOperandsOf code off .closureRec, SumFits e) :
    (∃ is, ReadsTo code (readOperands .closureRec) (off + 1) is off') ↔
      afterOperands code off .closureRec = some off' ∧ off' ≤ code.length ∧
        ∀ e ∈ labelOperandsOf code off .closureRec, 0 ≤ labelTarget e := by
  simp only [readOperands, readsTo_u32_bind, readsTo_position_bind,
    readsTo_labelList_bind, readsTo_pure, afterOperands, labelOperandsOf] at *
  cases hn : code[off + 1]? with
  | none => simp
  | some n =>
      simp only [hn, forall_mem_labelTable] at hfit ⊢
      simp only [← exists_mapM_resolveLabel hfit]
      constructor
      · rintro ⟨_, w, hw, v, hv, hle, ls, hls, -, rfl⟩
        cases hw
        have hlt := (List.getElem?_eq_some_iff.mp hv).1
        exact ⟨rfl, by omega, ls, hls⟩
      · rintro ⟨hoff', hle, ls, hls⟩
        have hoff : off + 3 + u32OfWord n = off' := Option.some.inj hoff'
        have hlt : off + 2 < code.length := by omega
        exact ⟨_, n, rfl, _, List.getElem?_eq_getElem hlt, by omega, ls, hls, rfl, by omega⟩

/-- **An opcode is read exactly when its operands are there and no label is
negative.** -/
theorem exists_readOperands (hoff : off < code.length)
    (hfit : ∀ e ∈ labelOperandsOf code off op, SumFits e) :
    (∃ is, ReadsTo code (readOperands op) (off + 1) is off') ↔
      afterOperands code off op = some off' ∧ off' ≤ code.length ∧
        ∀ e ∈ labelOperandsOf code off op, 0 ≤ labelTarget e := by
  cases op
  case switch => exact exists_switch hfit
  case closureRec => exact exists_closureRec hfit
  case pushRetAddr => exact exists_label hfit
  case branch => exact exists_label hfit
  case branchIf => exact exists_label hfit
  case branchIfNot => exact exists_label hfit
  case pushTrap => exact exists_label hfit
  case closure => exact exists_label_bind hfit
  case bEq => exact exists_label_bind hfit
  case bNeq => exact exists_label_bind hfit
  case bLtInt => exact exists_label_bind hfit
  case bLeInt => exact exists_label_bind hfit
  case bGtInt => exact exists_label_bind hfit
  case bGeInt => exact exists_label_bind hfit
  case bULtInt => exact exists_label_bind hfit
  case bUGeInt => exact exists_label_bind hfit
  all_goals
    refine exists_of_takes hoff ?_ rfl rfl
    simp only [readOperands, opcodeNargs]
    repeat' (first
      | exact takes_pure _
      | refine takes_u32_bind fun _ => ?_
      | refine takes_u8_bind fun _ => ?_
      | refine takes_sint_bind fun _ => ?_)

/-- The labels of decoded instructions, in order. -/
def labelsOf (is : List (Instruction Nat)) : List Nat := is.flatMap Instruction.visitLabels

/-- The label of an opcode with one label. -/
theorem labels_label {g : Nat → List (Instruction Nat)} {is : List (Instruction Nat)}
    (hfit : ∀ e ∈ labelTable code p 1, SumFits e) (hg : ∀ l, labelsOf (g l) = [l])
    (h : ReadsTo code (Reader.label >>= fun l => pure (g l)) p is q) :
    (labelTable code p 1).map labelTarget = (labelsOf is).map Int.ofNat := by
  obtain ⟨w, hw, l, hl, h⟩ := readsTo_label_bind.mp h
  obtain ⟨rfl, -⟩ := readsTo_pure.mp h
  rw [labelTable, take_one_drop hw] at *
  rw [resolveLabel_eq_ok (hfit _ List.mem_cons_self)] at hl
  rw [hg, List.map_singleton, List.map_singleton, hl]
  rfl

/-- The label of an opcode with an operand before it. -/
theorem labels_label_bind {β : Type} {g : Word → β} {f : β → Nat → List (Instruction Nat)}
    {is : List (Instruction Nat)}
    (hfit : ∀ e ∈ labelTable code (off + 2) 1, SumFits e)
    (hf : ∀ b l, labelsOf (f b l) = [l])
    (h : ReadsTo code ((Reader.i32 >>= fun w => pure (g w)) >>= fun b =>
        Reader.label >>= fun l => pure (f b l)) (off + 1) is off') :
    (labelTable code (off + 2) 1).map labelTarget = (labelsOf is).map Int.ofNat := by
  obtain ⟨w, -, h⟩ := readsTo_map_bind.mp h
  exact labels_label hfit (hf _) h

/-- The labels of `SWITCH`. -/
theorem labels_switch {is : List (Instruction Nat)}
    (hfit : ∀ e ∈ labelOperandsOf code off .switch, SumFits e)
    (h : ReadsTo code (readOperands .switch) (off + 1) is off') :
    (labelOperandsOf code off .switch).map labelTarget = (labelsOf is).map Int.ofNat := by
  simp only [readOperands, readsTo_u32_bind, readsTo_position_bind,
    readsTo_labelList_bind, readsTo_pure, labelOperandsOf] at *
  obtain ⟨n, hn, -, ints, hi, -, tags, ht, rfl, -⟩ := h
  simp only [hn, forall_mem_labelTable, take_drop_add, List.mem_append] at hfit ⊢
  rw [mapM_resolveLabel_eq_ok fun w hw => hfit w (.inl hw)] at hi
  rw [mapM_resolveLabel_eq_ok fun w hw => hfit w (.inr hw)] at ht
  rw [map_labelTarget_labelTable, take_drop_add, List.map_append, hi, ht, ← List.map_append]
  rw [labelsOf, List.flatMap_singleton]
  rfl

/-- The labels of `CLOSUREREC`. -/
theorem labels_closureRec {is : List (Instruction Nat)}
    (hfit : ∀ e ∈ labelOperandsOf code off .closureRec, SumFits e)
    (h : ReadsTo code (readOperands .closureRec) (off + 1) is off') :
    (labelOperandsOf code off .closureRec).map labelTarget =
      (labelsOf is).map Int.ofNat := by
  simp only [readOperands, readsTo_u32_bind, readsTo_position_bind,
    readsTo_labelList_bind, readsTo_pure, labelOperandsOf] at *
  obtain ⟨n, hn, v, -, -, ls, hls, rfl, -⟩ := h
  simp only [hn, forall_mem_labelTable] at hfit ⊢
  rw [mapM_resolveLabel_eq_ok hfit] at hls
  rw [map_labelTarget_labelTable, hls, labelsOf, List.flatMap_singleton]
  rfl

/-- **The labels of the decoded instructions are the sums of the interpreter.** -/
theorem labels_readOperands {is : List (Instruction Nat)}
    (hfit : ∀ e ∈ labelOperandsOf code off op, SumFits e)
    (h : ReadsTo code (readOperands op) (off + 1) is off') :
    (labelOperandsOf code off op).map labelTarget = (labelsOf is).map Int.ofNat := by
  cases op
  case switch => exact labels_switch hfit h
  case closureRec => exact labels_closureRec hfit h
  case pushRetAddr => exact labels_label hfit (fun _ => rfl) h
  case branch => exact labels_label hfit (fun _ => rfl) h
  case branchIf => exact labels_label hfit (fun _ => rfl) h
  case branchIfNot => exact labels_label hfit (fun _ => rfl) h
  case pushTrap => exact labels_label hfit (fun _ => rfl) h
  case closure => exact labels_label_bind hfit (fun _ _ => rfl) h
  case bEq => exact labels_label_bind hfit (fun _ _ => rfl) h
  case bNeq => exact labels_label_bind hfit (fun _ _ => rfl) h
  case bLtInt => exact labels_label_bind hfit (fun _ _ => rfl) h
  case bLeInt => exact labels_label_bind hfit (fun _ _ => rfl) h
  case bGtInt => exact labels_label_bind hfit (fun _ _ => rfl) h
  case bGeInt => exact labels_label_bind hfit (fun _ _ => rfl) h
  case bULtInt => exact labels_label_bind hfit (fun _ _ => rfl) h
  case bUGeInt => exact labels_label_bind hfit (fun _ _ => rfl) h
  all_goals
    have hnone : labelsOf is = [] := by
      refine Yields.elim (P := fun is => labelsOf is = []) ?_ h
      simp only [readOperands]
      repeat' (first
        | exact yields_pure rfl
        | refine yields_bind fun _ => ?_)
    rw [hnone]
    rfl

end Opcodes

/-! ## §5. Whole arrays. -/

section Arrays

variable {code : List Word} {off off' start : Nat} {is : List (Instruction Nat)}

/-- To decode is to read an opcode and its operands. -/
theorem decodeAt_eq_ok :
    decodeAt code off = .ok (is, off') ↔
      ∃ op, opcodeAt code off = some op ∧ ReadsTo code (readOperands op) (off + 1) is off' := by
  have hreads : decodeAt code off = .ok (is, off') ↔ ReadsTo code readInstrs off is off' := by
    refine ⟨decodeAt_cursor, fun h => ?_⟩
    unfold ReadsTo at h
    rw [decodeAt, h]
    rfl
  rw [hreads, readInstrs, Reader.opcode, bind_assoc, readsTo_i32_bind, opcodeAt]
  constructor
  · rintro ⟨w, hw, h⟩
    rw [hw]
    cases hop : Opcode.fromI32 w with
    | none =>
        rw [hop] at h
        exact absurd h (by simp [ReadsTo, err, reader_bind_ok])
    | some op =>
        rw [hop] at h
        exact ⟨op, hop, h⟩
  · rintro ⟨op, hop, h⟩
    obtain ⟨w, hw, hop⟩ := Option.bind_eq_some_iff.mp hop
    refine ⟨w, hw, ?_⟩
    rw [hop]
    exact h

/-- Where an opcode is, there is a word. -/
theorem lt_of_opcodeAt {op : Opcode} (h : opcodeAt code off = some op) : off < code.length := by
  obtain ⟨w, hw, -⟩ := Option.bind_eq_some_iff.mp h
  exact (List.getElem?_eq_some_iff.mp hw).1

/-- The next opcode is after the operands of this one. -/
theorem nextOpcode_eq_some :
    nextOpcode code off = some off' ↔
      ∃ op, opcodeAt code off = some op ∧ afterOperands code off op = some off' := by
  unfold nextOpcode
  exact Option.bind_eq_some_iff

/-- The label operands of the opcode that is there. -/
theorem labelOperands_eq {op : Opcode} (h : opcodeAt code off = some op) :
    labelOperands code off = labelOperandsOf code off op := by
  rw [labelOperands, h]

/-- **An opcode decodes exactly when it is known, its operands are there and no
label is negative**, and then the next opcode is where the code walk has it. -/
theorem exists_decodeAt (hfit : ∀ e ∈ labelOperands code off, SumFits e) :
    (∃ is, decodeAt code off = .ok (is, off')) ↔
      nextOpcode code off = some off' ∧ off' ≤ code.length ∧
        ∀ e ∈ labelOperands code off, 0 ≤ labelTarget e := by
  simp only [decodeAt_eq_ok, nextOpcode_eq_some]
  constructor
  · rintro ⟨is, op, hop, h⟩
    rw [labelOperands_eq hop] at *
    have := (exists_readOperands (lt_of_opcodeAt hop) hfit).mp ⟨is, h⟩
    exact ⟨⟨op, hop, this.1⟩, this.2⟩
  · rintro ⟨⟨op, hop, hafter⟩, hle, hnonneg⟩
    rw [labelOperands_eq hop] at *
    obtain ⟨is, h⟩ := (exists_readOperands (lt_of_opcodeAt hop) hfit).mpr ⟨hafter, hle, hnonneg⟩
    exact ⟨is, op, hop, h⟩

/-- **The labels that come out of the decoder** are the targets of the label operands. -/
theorem labels_decodeAt (hfit : ∀ e ∈ labelOperands code off, SumFits e)
    (h : decodeAt code off = .ok (is, off')) :
    (labelOperands code off).map labelTarget = (labelsOf is).map Int.ofNat := by
  obtain ⟨op, hop, h⟩ := decodeAt_eq_ok.mp h
  rw [labelOperands_eq hop] at *
  exact labels_readOperands hfit h

theorem Reaches.trans {off'' : Nat} (h : Reaches code off off') (h' : Reaches code off' off'') :
    Reaches code off off'' := by
  induction h' with
  | start => exact h
  | next _ hn ih => exact ih.next hn

/-- What fits from an opcode on fits from the next one on. -/
theorem OperandsFit.next (h : OperandsFit code off) (hn : nextOpcode code off = some off') :
    OperandsFit code off' :=
  fun x hx => h x ((Reaches.start.next hn).trans hx)

/-! ### Labels that have been resolved. -/

/-- A label resolves only if its sum fits. -/
theorem sumFits_of_resolveLabel {base l : Nat} {w : Word} (hbase : base < 2 ^ 31)
    (h : Reader.resolveLabel base w = .ok l) : SumFits (base, w) := by
  have hcast : (BitVec.ofNat 32 base).toInt = base := by
    rw [BitVec.toInt_eq_toNat_cond, BitVec.toNat_ofNat]
    split <;> omega
  unfold Reader.resolveLabel at h
  simp only [hcast] at h
  split at h
  · cases h
  · unfold SumFits labelTarget
    dsimp only
    omega

/-- Below `2 ^ 31` no sum overflows that the decoder resolves. -/
theorem sumFits_of_mapM {base : Nat} (hbase : base < 2 ^ 31) :
    ∀ {ws : List Word} {ls : List Nat}, ws.mapM (Reader.resolveLabel base) = .ok ls →
      ∀ w ∈ ws, SumFits (base, w)
  | w :: ws, ls, h, v, hv => by
      rw [List.mapM_cons] at h
      obtain ⟨l, hl, h⟩ := bind_eq_ok.mp h
      obtain ⟨ls', hls, -⟩ := bind_eq_ok.mp h
      rcases List.mem_cons.mp hv with rfl | hv
      · exact sumFits_of_resolveLabel hbase hl
      · exact sumFits_of_mapM hbase hls v hv

/-- One label. -/
theorem sumFits_label {p q : Nat} {f : Nat → Reader (List (Instruction Nat))}
    (hlen : code.length < 2 ^ 31) (h : ReadsTo code (Reader.label >>= f) p is q) :
    ∀ e ∈ labelTable code p 1, SumFits e := by
  obtain ⟨w, hw, l, hl, -⟩ := readsTo_label_bind.mp h
  have hlt := (List.getElem?_eq_some_iff.mp hw).1
  rw [forall_mem_labelTable, take_one_drop hw]
  intro v hv
  rw [List.mem_singleton.mp hv]
  exact sumFits_of_resolveLabel (by omega) hl

/-- One label, with an operand before it. -/
theorem sumFits_label_bind {β : Type} {g : Word → β}
    {f : β → Nat → Reader (List (Instruction Nat))} (hlen : code.length < 2 ^ 31)
    (h : ReadsTo code ((Reader.i32 >>= fun w => pure (g w)) >>= fun b => Reader.label >>= f b)
      (off + 1) is off') : ∀ e ∈ labelTable code (off + 2) 1, SumFits e := by
  obtain ⟨w, -, h⟩ := readsTo_map_bind.mp h
  exact sumFits_label hlen h

/-- **Labels of an opcode that was decoded fit.** -/
theorem sumFits_of_decodeAt (hlen : code.length < 2 ^ 31) (h : decodeAt code off = .ok (is, off')) :
    ∀ e ∈ labelOperands code off, SumFits e := by
  obtain ⟨op, hop, h⟩ := decodeAt_eq_ok.mp h
  rw [labelOperands_eq hop]
  cases op
  -- the labels of both tables have the word after the sizes as their base
  case switch =>
    simp only [readOperands, readsTo_u32_bind, readsTo_position_bind,
      readsTo_labelList_bind, readsTo_pure, labelOperandsOf] at *
    obtain ⟨n, hn, -, ints, hi, -, tags, ht, -⟩ := h
    have hlt := (List.getElem?_eq_some_iff.mp hn).1
    have hbase : off + 1 + 1 < 2 ^ 31 := by omega
    simp only [hn, forall_mem_labelTable, take_drop_add, List.mem_append]
    intro w hw
    exact hw.elim (sumFits_of_mapM hbase hi w) (sumFits_of_mapM hbase ht w)
  case closureRec =>
    simp only [readOperands, readsTo_u32_bind, readsTo_position_bind,
      readsTo_labelList_bind, readsTo_pure, labelOperandsOf] at *
    obtain ⟨n, hn, v, hv, -, ls, hls, -⟩ := h
    have hlt := (List.getElem?_eq_some_iff.mp hv).1
    have hbase : off + 1 + 1 + 1 < 2 ^ 31 := by omega
    simp only [hn, forall_mem_labelTable]
    exact sumFits_of_mapM hbase hls
  case pushRetAddr => exact sumFits_label hlen h
  case branch => exact sumFits_label hlen h
  case branchIf => exact sumFits_label hlen h
  case branchIfNot => exact sumFits_label hlen h
  case pushTrap => exact sumFits_label hlen h
  case closure => exact sumFits_label_bind hlen h
  case bEq => exact sumFits_label_bind hlen h
  case bNeq => exact sumFits_label_bind hlen h
  case bLtInt => exact sumFits_label_bind hlen h
  case bLeInt => exact sumFits_label_bind hlen h
  case bGtInt => exact sumFits_label_bind hlen h
  case bGeInt => exact sumFits_label_bind hlen h
  case bULtInt => exact sumFits_label_bind hlen h
  case bUGeInt => exact sumFits_label_bind hlen h
  all_goals exact fun e he => absurd he List.not_mem_nil

/-- What is reached from an offset is the offset, or is reached from the next opcode. -/
theorem Reaches.eq_or_next {x : Nat} (h : Reaches code off x) (hn : nextOpcode code off = some off') :
    x = off ∨ Reaches code off' x := by
  induction h with
  | start => exact .inl rfl
  | @next y z _ hz ih =>
      rcases ih with rfl | hy
      · rw [hn] at hz
        cases hz
        exact .inr .start
      · exact .inr (hy.next hz)

/-- One opcode, and those after it. -/
theorem OperandsFit.step (hlabels : ∀ e ∈ labelOperands code off, SumFits e)
    (htags : ∀ op tag, opcodeAt code off = some op → tagOperandOf code off op = some tag →
      usizeOfWord tag < 256)
    (hn : nextOpcode code off = some off') (h : OperandsFit code off') : OperandsFit code off := by
  intro x hx
  rcases hx.eq_or_next hn with rfl | hlater
  · exact ⟨hlabels, htags⟩
  · exact h x hlater

/-- Operands that fit at every offset fit at those that are reached. -/
theorem operandsFit_of_all
    (h : ∀ off < code.length, (∀ e ∈ labelOperands code off, SumFits e) ∧
      ∀ op ∈ opcodeAt code off, ∀ tag ∈ tagOperandOf code off op, usizeOfWord tag < 256) :
    OperandsFit code start := by
  intro off _
  by_cases hoff : off < code.length
  · exact ⟨(h off hoff).1, fun op tag hop htag => (h off hoff).2 op hop tag htag⟩
  · have hnone : opcodeAt code off = none := by
      rw [opcodeAt, List.getElem?_eq_none (Nat.le_of_not_lt hoff)]
      rfl
    rw [labelOperands, hnone]
    exact ⟨fun e he => absurd he List.not_mem_nil, fun op tag hop => by cases hop⟩

/-- **The decoder reaches the end exactly when the words split completely.** -/
theorem exists_decodes_iff (hfit : OperandsFit code off) :
    (∃ is, Decodes code off is) ↔ Splits code off := by
  constructor
  · rintro ⟨is, h⟩
    induction h with
    | done => exact .done
    | step hd _ ih =>
        obtain ⟨hn, hle, hlabels⟩ := (exists_decodeAt (hfit _ .start).1).mp ⟨_, hd⟩
        exact .step hn hle hlabels (ih (hfit.next hn))
  · intro h
    induction h with
    | done => exact ⟨[], .done⟩
    | step hn hle hlabels _ ih =>
        obtain ⟨rest, hrest⟩ := ih (hfit.next hn)
        obtain ⟨is, hd⟩ := (exists_decodeAt (hfit _ .start).1).mpr ⟨hn, hle, hlabels⟩
        exact ⟨_, .step hd hrest⟩

end Arrays

end OcamlJit.Bytecode

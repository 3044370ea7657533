/-
  OcamlJit.Bytecomp.Operands
  ──────────────────────────
  **THE OPERANDS OF EMITTED CODE FIT.**

  The interpreter adds labels on 64 bits and the decoder on 32, and the decoder keeps
  one byte of a tag.  In the code of a linked program neither makes a difference.

    • `Placed.tagsFit`          the tag of one output;
    • `operandsFit_program`     the code of a program.
-/
import OcamlJit.Bytecomp.Program

namespace OcamlJit.Bytecomp

open OcamlJit.Instructions OcamlJit.Bytecode
open OcamlJit.Lib.Backpatch
open OcamlJit.Bytecomp.Bytelink

variable {Ev : Type}

/-! ## §1. Tags. -/

section Tags

variable {code : List Word} {value : Nat → Int} {defs : List (Label × Nat)} {p q : Nat}
  {is : List (EmitItem Ev)}

/-- The tag of the opcode at `p` is below 256. -/
def TagsFit (code : List Word) (p : Nat) : Prop :=
  ∀ op tag, opcodeAt code p = some op → tagOperandOf code p op = some tag →
    usizeOfWord tag < 256

/-- A tag is below 256 as a word. -/
theorem usizeOfWord_wordOfInt {t : Int} (h : FitsTag t) : usizeOfWord (wordOfInt t) < 256 := by
  obtain ⟨h0, hlt⟩ := h
  have hword : (wordOfInt t).toInt = t := toInt_wordOfInt ⟨by omega, by omega⟩
  unfold usizeOfWord
  rw [BitVec.signExtend, hword, BitVec.toNat_ofInt]
  omega

/-- An opcode without a tag. -/
theorem tagsFit_of_none {o : Opcode} (ho : opcodeAt code p = some o)
    (h : tagOperandOf code p o = none) : TagsFit code p := by
  intro op tag hop htag
  rw [ho] at hop
  cases hop
  rw [h] at htag
  cases htag

/-- An opcode with one. -/
theorem tagsFit_of_some {o : Opcode} {t : Int} (ho : opcodeAt code p = some o)
    (h : tagOperandOf code p o = some (wordOfInt t)) (ht : FitsTag t) : TagsFit code p := by
  intro op tag hop htag
  rw [ho] at hop
  cases hop
  rw [h] at htag
  cases htag
  exact usizeOfWord_wordOfInt ht

/-- A tag is read, whatever it is. -/
theorem readsTo_u8_pure {rs : List (Instruction Nat)} {f : Nat → List (Instruction Nat)}
    (h : ReadsTo code (Reader.u8 >>= fun t => pure (f t)) p rs q) : ∃ t, rs = f t := by
  obtain ⟨w, -, h⟩ := readsTo_u8_bind.mp h
  obtain ⟨rfl, -⟩ := readsTo_pure.mp h
  exact ⟨_, rfl⟩

/-- An opcode that makes no block has no tag. -/
theorem tagsFit_of_decodeAt {rs : List (Instruction Nat)} (h : decodeAt code p = .ok (rs, q))
    (hrs : ∀ n t, .makeBlock n t ∉ rs) : TagsFit code p := by
  obtain ⟨op, hop, h⟩ := decodeAt_eq_ok.mp h
  have hmade {n t : Nat} {rest : List (Instruction Nat)} (heq : rs = .makeBlock n t :: rest) :
      False := hrs n t (heq ▸ List.mem_cons_self)
  refine tagsFit_of_none hop ?_
  cases op
  case atom =>
    obtain ⟨t, heq⟩ := readsTo_u8_pure h
    exact (hmade heq).elim
  case pushAtom =>
    obtain ⟨t, heq⟩ := readsTo_u8_pure h
    exact absurd (List.mem_cons_of_mem _ List.mem_cons_self) (heq ▸ hrs 0 t)
  case makeBlock =>
    obtain ⟨n, -, h⟩ := readsTo_u32_bind.mp h
    obtain ⟨t, heq⟩ := readsTo_u8_pure h
    exact (hmade heq).elim
  case makeBlock1 =>
    obtain ⟨t, heq⟩ := readsTo_u8_pure h
    exact (hmade heq).elim
  case makeBlock2 =>
    obtain ⟨t, heq⟩ := readsTo_u8_pure h
    exact (hmade heq).elim
  case makeBlock3 =>
    obtain ⟨t, heq⟩ := readsTo_u8_pure h
    exact (hmade heq).elim
  all_goals rfl

/-- The tag of an atom. -/
theorem Placed.tagsFit_atom {short long : Opcode} {t : Int}
    (h : Placed code value defs p (atomItems short long t : List (EmitItem Ev))) (ht : FitsTag t)
    (hshort : tagOperandOf code p short = none)
    (hlong : tagOperandOf code p long = code[p + 1]?) : TagsFit code p := by
  unfold atomItems at h
  split at h
  · exact tagsFit_of_none (h.opcode rfl).1 hshort
  · obtain ⟨ho, h⟩ := h.opcode rfl
    exact tagsFit_of_some ho (hlong.trans h.int.1) ht

/-- The tag of a block. -/
theorem Placed.tagsFit_makeblock {n t : Int}
    (h : Placed code value defs p (Kinstruction.kmakeblock n t : Kinstruction Ev).items)
    (hn : FitsU32 n) (ht : FitsTag t) : TagsFit code p := by
  have h0 := hn.1
  simp only [Kinstruction.items] at h
  by_cases hzero : n = 0
  · rw [if_pos hzero] at h
    exact h.tagsFit_atom ht rfl rfl
  · rw [if_neg hzero] at h
    by_cases hlt : n < 4
    · rw [if_pos hlt] at h
      have hopcode : ∃ o, op .makeBlock1 + n - 1 = op o ∧ tagOperandOf code p o = code[p + 1]? := by
        interval_cases n
        · exact absurd rfl hzero
        · exact ⟨.makeBlock1, rfl, rfl⟩
        · exact ⟨.makeBlock2, rfl, rfl⟩
        · exact ⟨.makeBlock3, rfl, rfl⟩
      obtain ⟨o, heq, htag⟩ := hopcode
      obtain ⟨ho, h⟩ := h.opcode heq
      exact tagsFit_of_some ho (htag.trans h.int.1) ht
    · rw [if_neg hlt] at h
      obtain ⟨ho, h⟩ := h.opcode (o := .makeBlock) rfl
      exact tagsFit_of_some ho h.int.2.int.1 ht

/-- A constant that is no atom allocates nothing. -/
theorem makeBlock_notMem_constInstrs {slot : Nat} {sc : StructuredConstant}
    (h : ∀ t, sc ≠ .constBlock t []) (n t : Nat) : .makeBlock n t ∉ constInstrs slot sc := by
  unfold constInstrs
  split
  · split <;> simp
  · simp
  · simp
  · exact absurd rfl (h _)
  · simp

/-- **The tag of an output fits.** -/
theorem Placed.tagsFit {o : Output Ev} (h : Placed code value defs p o.items)
    (hready : Ready value defs p o) (hcount : 0 < wordCount o.items) : TagsFit code p := by
  have hdecode := h.decodeAt hready hcount
  have hfits := hready.fits
  cases o with
  | instr i =>
      cases i with
      | kmakeblock n t => exact h.tagsFit_makeblock hfits.1 hfits.2
      | kmakefloatblock n =>
          by_cases hzero : n = 0
          · subst hzero
            exact tagsFit_of_none (h.opcode (o := .atom0) rfl).1 rfl
          · refine tagsFit_of_decodeAt hdecode ?_
            simp [Output.decoded, Output.instrs, Kinstruction.instrs, hzero]
      | kconst sc =>
          -- only an atom has a tag in the code
          by_cases hsc : ∃ t, sc = .constBlock t []
          · obtain ⟨t, rfl⟩ := hsc
            exact h.tagsFit_atom hfits rfl rfl
          · exact tagsFit_of_decodeAt hdecode
              (makeBlock_notMem_constInstrs fun t ht => hsc ⟨t, ht⟩)
      | kapply n =>
          refine tagsFit_of_decodeAt hdecode ?_
          simp only [Output.decoded, Output.instrs, Kinstruction.instrs, applyInstr]
          split <;> simp
      | kccall name n =>
          refine tagsFit_of_decodeAt hdecode ?_
          simp only [Output.decoded, Output.instrs, Kinstruction.instrs, ccallInstr]
          split <;> simp
      | _ =>
          refine tagsFit_of_decodeAt hdecode ?_
          simp [Output.decoded, Output.instrs, Kinstruction.instrs]
  | pushConst sc =>
      by_cases hsc : ∃ t, sc = .constBlock t []
      · obtain ⟨t, rfl⟩ := hsc
        exact h.tagsFit_atom hfits rfl rfl
      · refine tagsFit_of_decodeAt hdecode fun n t hmem => ?_
        rcases List.mem_cons.mp hmem with hmem | hmem
        · cases hmem
        · exact makeBlock_notMem_constInstrs (fun t ht => hsc ⟨t, ht⟩) n t hmem
  | _ =>
      refine tagsFit_of_decodeAt hdecode ?_
      simp [Output.decoded, Output.instrs]

end Tags

/-! ## §2. Code. -/

section Code

variable {code : List Word} {value : Nat → Int} {defs : List (Label × Nat)}

/-- One output, and what follows it. -/
theorem Placed.operandsFit {p : Nat} {o : Output Ev} (h : Placed code value defs p o.items)
    (hready : Ready value defs p o) (hlen : code.length < 2 ^ 31)
    (hcount : 0 < wordCount o.items) (hrest : OperandsFit code (p + wordCount o.items)) :
    OperandsFit code p := by
  have hdecode := h.decodeAt hready hcount
  have hlabels := sumFits_of_decodeAt hlen hdecode
  have hnext := ((exists_decodeAt hlabels).mp ⟨_, hdecode⟩).1
  exact .step hlabels (h.tagsFit hready hcount) hnext hrest

/-- **The operands of all code that comes out fit.** -/
theorem operandsFit_items (hlen : code.length < 2 ^ 31) :
    ∀ {os : List (Output Ev)} {p : Nat}, Placed code value defs p (itemsOf os) →
      Decodable value defs p os → OperandsFit code (p + wordCount (itemsOf os)) →
      OperandsFit code p
  | [], _, _, _, hrest => hrest
  | o :: os, p, h, hready, hrest => by
      rw [itemsOf_cons] at h hrest
      rw [wordCount_append, ← Nat.add_assoc] at hrest
      obtain ⟨ho, hos⟩ := h.append
      have hlater := operandsFit_items hlen hos hready.tail hrest
      by_cases hcount : wordCount o.items = 0
      · rwa [hcount, Nat.add_zero] at hlater
      · exact ho.operandsFit hready.head hlen (Nat.pos_of_ne_zero hcount) hlater

/-- Nothing is fetched at the end. -/
theorem operandsFit_end : OperandsFit code code.length := by
  have hnone : opcodeAt code code.length = none := by
    rw [opcodeAt, List.getElem?_eq_none (Nat.le_refl _)]
    rfl
  have hnext : nextOpcode code code.length = none := by
    rw [nextOpcode, hnone]
    rfl
  intro off hoff
  have hend : off = code.length := by
    induction hoff with
    | start => rfl
    | next _ hn ih =>
        rw [ih, hnext] at hn
        cases hn
  rw [hend, labelOperands, hnone]
  exact ⟨fun e he => absurd he List.not_mem_nil, fun op tag hop => by cases hop⟩

/-- **In the code of a program** all operands fit. -/
theorem operandsFit_program {value : Nat → Nat} :
    ∀ {oss : List (List (Output Ev))} (front : List Word), (∀ os ∈ oss, UnitOk os) →
      front.length + programLength oss + 1 < 2 ^ 31 →
      (∀ r ∈ relocsFrom front.length oss, value r.2 < 2 ^ 32) →
      OperandsFit (front ++ (wordsFrom value front.length oss ++ [wordOfInt (op .stop)]))
        front.length
  | [], front, _, _, _ => by
      have hstop : opcodeAt (front ++ [wordOfInt (op .stop)]) front.length = some .stop := by
        rw [opcodeAt, List.getElem?_concat_length]
        rfl
      have hnext : nextOpcode (front ++ [wordOfInt (op .stop)]) front.length =
          some (front ++ [wordOfInt (op .stop)]).length := by
        rw [nextOpcode, hstop, List.length_append]
        rfl
      have hlabels : labelOperands (front ++ [wordOfInt (op .stop)]) front.length = [] :=
        labelOperands_eq hstop
      refine .step (fun e he => ?_) (tagsFit_of_none hstop rfl) hnext operandsFit_end
      exact absurd (hlabels ▸ he) List.not_mem_nil
  | os :: oss, front, hok, hroom, hvalue => by
      obtain ⟨hwords, hlen, hplaced⟩ := placed_program value front os oss
      rw [programLength] at hroom
      have hrest := operandsFit_program
        (front ++ wordsOf (fun p => (value (front.length + p) : Int)) (itemsOf os))
        (fun os' hos' => hok os' (List.mem_cons_of_mem _ hos'))
        (by rw [hlen]; omega)
        (by rw [hlen]; exact fun r hr => hvalue r (List.mem_append_right _ hr))
      rw [hlen, ← hwords] at hrest
      refine operandsFit_items ?_ hplaced ((hok os List.mem_cons_self).decodable ?_ ?_) hrest
      · rw [List.length_append, List.length_append, length_wordsFrom, programLength]
        show front.length + (wordCount (itemsOf os) + programLength oss + 1) < _
        omega
      · omega
      · exact fun r hr => hvalue r (List.mem_append_left _ hr)

end Code

end OcamlJit.Bytecomp

/-
  OcamlJit.Bytecomp.Decoded
  ─────────────────────────
  **FROM THE COMPILER TO THE DECODER AND BACK.**

  `ocaml/bytecomp/emitcode.ml` and `instructions/parse.rs` were written apart.  The
  decoder reads from linked object code the instructions that were emitted, with
  the slots of the linker and the places of the labels in them.

    • `Placed.decodeAt`    one output of the emitter is one opcode of the decoder;
    • `decodes_streamOf`   outputs one after the other.
-/
import OcamlJit.Bytecomp.Objects
import OcamlJit.Bytecode.CodeLayout
import Mathlib.Tactic.IntervalCases

namespace OcamlJit.Bytecomp

open OcamlJit.Instructions OcamlJit.Bytecode
open OcamlJit.Typing (Ident)
open OcamlJit.Lib.Backpatch

variable {Ev : Type}

/-! ## §1. What instructions are decoded to. -/

/-- The comparison of the interpreter. -/
def IntegerComparison.comp : IntegerComparison → Comp
  | .ceq => .eq
  | .cne => .ne
  | .clt => .lt
  | .cgt => .gt
  | .cle => .le
  | .cge => .ge

/-- A constant: what has no immediate form is in the slot of a global. -/
def constInstrs (slot : Nat) (sc : StructuredConstant) : List (Instruction Nat) :=
  match sc with
  | .constBase (.constInt i) => if isImmed i then [.const i] else [.getGlobal slot]
  | .constBase (.constChar c) => [.const c.toNat]
  | .constPointer i => [.const i]
  | .constBlock t [] => [.makeBlock 0 t.toNat]
  | _ => [.getGlobal slot]

/-- `C_CALL1` to `C_CALLN`. -/
def ccallInstr (slot : Nat) (n : Int) : Instruction Nat :=
  match n with
  | 1 => .cCall1 slot
  | 2 => .cCall2 slot
  | 3 => .cCall3 slot
  | 4 => .cCall4 slot
  | 5 => .cCall5 slot
  | n => .cCallN n.toNat slot

/-- `APPLY1` to `APPLY`. -/
def applyInstr (n : Int) : Instruction Nat :=
  match n with
  | 1 => .apply1
  | 2 => .apply2
  | 3 => .apply3
  | n => .apply n.toNat

/-- An instruction of the compiler, for the slot it refers to and the places of the
labels. -/
def Kinstruction.instrs (slot : Nat) (loc : Label → Nat) :
    Kinstruction Ev → List (Instruction Nat)
  | .klabel _ | .kevent _ => []
  | .kacc n => [.acc n.toNat]
  | .kenvacc n => [.envAcc n.toNat]
  | .kpush => [.push]
  | .kpop n => [.pop n.toNat]
  | .kassign n => [.assign n.toNat]
  | .kpushRetaddr lbl => [.pushRetAddr (loc lbl)]
  | .kapply n => [applyInstr n]
  | .kappterm n sz => [.applyTerm n.toNat sz.toNat]
  | .kreturn n => [.return_ n.toNat]
  | .krestart => [.restart]
  | .kgrab n => [.grab n.toNat]
  | .kclosure lbl n => [.closure (loc lbl) n.toNat]
  | .kclosurerec lbls n => [.closureRec (lbls.map loc) n.toNat]
  | .koffsetclosure ofs => [.offsetClosure ofs]
  | .kgetglobal _ => [.getGlobal slot]
  | .ksetglobal _ => [.setGlobal slot]
  | .kconst sc => constInstrs slot sc
  | .kmakeblock n t => [.makeBlock n.toNat t.toNat]
  | .kmakefloatblock n => if n = 0 then [.makeBlock 0 0] else [.makeFloatBlock n.toNat]
  | .kgetfield n => [.getField n.toNat]
  | .ksetfield n => [.setField n.toNat]
  | .kgetfloatfield n => [.getFloatField n.toNat]
  | .ksetfloatfield n => [.setFloatField n.toNat]
  | .kvectlength => [.vecTLength]
  | .kgetvectitem => [.getVecTItem]
  | .ksetvectitem => [.setVecTItem]
  | .kgetstringchar | .kgetbyteschar => [.getBytesChar]
  | .ksetbyteschar => [.setBytesChar]
  | .kbranch lbl => [.branch (loc lbl)]
  | .kbranchif lbl | .kstrictbranchif lbl => [.branchIf (loc lbl)]
  | .kbranchifnot lbl | .kstrictbranchifnot lbl => [.branchIfNot (loc lbl)]
  | .kswitch tblConst tblBlock => [.switch (tblConst.map loc) (tblBlock.map loc)]
  | .kboolnot => [.boolNot]
  | .kpushtrap lbl => [.pushTrap (loc lbl)]
  | .kpoptrap => [.popTrap]
  | .kraise k => [.raise k]
  | .kcheckSignals => [.checkSignals]
  | .kccall _ n => [ccallInstr slot n]
  | .knegint => [.negInt]
  | .kaddint => [.arithInt .add]
  | .ksubint => [.arithInt .sub]
  | .kmulint => [.arithInt .mul]
  | .kdivint => [.arithInt .div]
  | .kmodint => [.arithInt .mod]
  | .kandint => [.arithInt .and]
  | .korint => [.arithInt .or]
  | .kxorint => [.arithInt .xor]
  | .klslint => [.arithInt .lsl]
  | .klsrint => [.arithInt .lsr]
  | .kasrint => [.arithInt .asr]
  | .kintcomp c => [.intCmp c.comp]
  | .koffsetint n => [.offsetInt n]
  | .koffsetref n => [.offsetRef n]
  | .kisint => [.isInt]
  | .kisout => [.intCmp .uLt]
  | .kgetmethod => [.getMethod]
  | .kgetpubmet tag => [.setupForPubMet tag, .getDynMet]
  | .kgetdynmet => [.getDynMet]
  | .kstop => [.stop]

/-- What is decoded where a pattern has put something out. -/
def Output.instrs (slot : Nat) (loc : Label → Nat) : Output Ev → List (Instruction Nat)
  | .instr i => i.instrs slot loc
  | .branchComp c k lbl => [.branchCmp c.comp ((constAsInt k).getD 0) (loc lbl)]
  | .branchUltint k lbl => [.branchCmp .uLt ((constAsInt k).getD 0) (loc lbl)]
  | .branchUgeint k lbl => [.branchCmp .uGe ((constAsInt k).getD 0) (loc lbl)]
  | .pushAcc n => [.push, .acc n.toNat]
  | .pushEnvacc n => [.push, .envAcc n.toNat]
  | .pushOffsetclosure ofs => [.push, .offsetClosure ofs]
  | .pushGetglobalField _ n => [.push, .getGlobal slot, .getField n.toNat]
  | .pushGetglobal _ => [.push, .getGlobal slot]
  | .pushConst sc => .push :: constInstrs slot sc
  | .getglobalField _ n => [.getGlobal slot, .getField n.toNat]

/-! ## §2. Operands that fit. -/

/-- An unsigned operand. -/
def FitsU32 (n : Int) : Prop := 0 ≤ n ∧ n < 2 ^ 32

/-- A signed operand. -/
def FitsI32 (n : Int) : Prop := -2 ^ 31 ≤ n ∧ n < 2 ^ 31

/-- A block tag. -/
def FitsTag (t : Int) : Prop := 0 ≤ t ∧ t < 256

def StructuredConstant.Fits : StructuredConstant → Prop
  | .constPointer i => FitsI32 i
  | .constBlock t [] => FitsTag t
  | _ => True

/-- The operands of an instruction. -/
def Kinstruction.Fits : Kinstruction Ev → Prop
  | .kacc n | .kenvacc n | .kpop n | .kassign n | .kreturn n | .kgrab n | .kclosure _ n
  | .kmakefloatblock n | .kgetfield n | .ksetfield n | .kgetfloatfield n
  | .ksetfloatfield n => FitsU32 n
  | .kapply n | .kccall _ n => 1 ≤ n ∧ n < 2 ^ 32
  | .kappterm n sz => (1 ≤ n ∧ n < 2 ^ 32) ∧ FitsU32 sz
  | .kclosurerec lbls n => lbls.length < 2 ^ 32 ∧ FitsU32 n
  | .koffsetclosure n | .koffsetint n | .koffsetref n | .kgetpubmet n => FitsI32 n
  | .kconst sc => sc.Fits
  | .kmakeblock n t => FitsU32 n ∧ FitsTag t
  | .kswitch tblConst tblBlock => tblConst.length < 2 ^ 16 ∧ tblBlock.length < 2 ^ 16
  | _ => True

/-- The operands of an output. -/
def Output.Fits : Output Ev → Prop
  | .instr i => i.Fits
  | .pushAcc n | .pushEnvacc n | .pushGetglobalField _ n | .getglobalField _ n => FitsU32 n
  | .pushOffsetclosure ofs => FitsI32 ofs
  | .pushConst sc => sc.Fits
  | .branchComp _ k _ | .branchUltint k _ | .branchUgeint k _ => isImmedConst k = true
  | .pushGetglobal _ => True

/-- The labels an output refers to. -/
def Output.labels : Output Ev → List Label
  | .instr (.kpushRetaddr lbl) | .instr (.kclosure lbl _) | .instr (.kbranch lbl)
  | .instr (.kbranchif lbl) | .instr (.kbranchifnot lbl) | .instr (.kstrictbranchif lbl)
  | .instr (.kstrictbranchifnot lbl) | .instr (.kpushtrap lbl) => [lbl]
  | .instr (.kclosurerec lbls _) => lbls
  | .instr (.kswitch tblConst tblBlock) => tblConst ++ tblBlock
  | .branchComp _ _ lbl | .branchUltint _ lbl | .branchUgeint _ lbl => [lbl]
  | _ => []

/-! ## §3. Items in code. -/

/-- Where the labels are defined. -/
def locOf (defs : List (Label × Nat)) (l : Label) : Nat := (defs.lookup l).getD 0

section Placed

variable {code : List Word} {value : Nat → Int} {defs : List (Label × Nat)} {p : Nat}
  {is : List (EmitItem Ev)}

/-- From `p` on the code has the words of some items. -/
def Placed (code : List Word) (value : Nat → Int) (defs : List (Label × Nat)) (p : Nat)
    (is : List (EmitItem Ev)) : Prop :=
  ∀ i s, (layout p is)[i]? = some s →
    code[p + i]? = some (fill displ blank (fun p => wordOfInt (value p)) defs s)

/-- A displacement does not change when everything is moved. -/
theorem displ_shift (b here orig : Nat) : displ (b + here) (b + orig) = displ here orig := by
  unfold displ
  congr 1
  omega

/-- One word for every item that takes room. -/
theorem length_wordsOf (value : Nat → Int) (is : List (EmitItem Ev)) :
    (wordsOf value is).length = wordCount is := by
  rw [wordsOf, List.length_map, length_layout]

/-- The words of items, with other code before and after them. -/
theorem placed_wordsOf (front back : List Word) (his : Anchored 0 is) :
    Placed (front ++ wordsOf (fun p => value (front.length + p)) is ++ back) value
      (definitions front.length is) front.length is := by
  intro i s hs
  have hlayout := layout_shift front.length his
  have hdefs := definitions_shift front.length 0 is
  rw [Nat.add_zero] at hlayout hdefs
  rw [hlayout, List.getElem?_map, Option.map_eq_some_iff] at hs
  obtain ⟨t, ht, rfl⟩ := hs
  have hlt := (List.getElem?_eq_some_iff.mp ht).1
  rw [length_layout] at hlt
  rw [hdefs, fill_shift displ blank (displ_shift _), List.append_assoc,
    List.getElem?_append_right (Nat.le_add_right _ _), Nat.add_sub_cancel_left,
    List.getElem?_append_left (by rwa [length_wordsOf]), wordsOf, List.getElem?_map, ht]
  rfl

/-- The first slot is the word at the position, and the rest comes after it. -/
theorem Placed.cons {item : EmitItem Ev} {s : Slot Label Word}
    (h : Placed code value defs p (item :: is))
    (hlayout : layout p (item :: is) = s :: layout (p + 1) is) :
    code[p]? = some (fill displ blank (fun p => wordOfInt (value p)) defs s) ∧
      Placed code value defs (p + 1) is := by
  constructor
  · exact h 0 s (by rw [hlayout]; rfl)
  · intro i t ht
    have hi := h (i + 1) t (by rw [hlayout]; exact ht)
    rwa [Nat.add_assoc, Nat.add_comm 1 i]

/-- A word is in the code as it is. -/
theorem Placed.word {w : Word} (h : Placed code value defs p (.word w :: is)) :
    code[p]? = some w ∧ Placed code value defs (p + 1) is :=
  h.cons rfl

/-- So is an integer. -/
theorem Placed.int {n : Int} (h : Placed code value defs p (intItem n :: is)) :
    code[p]? = some (wordOfInt n) ∧ Placed code value defs (p + 1) is :=
  h.cons rfl

/-- A hole holds what the linker writes there. -/
theorem Placed.hole {info : RelocInfo} (h : Placed code value defs p (.hole info :: is)) :
    code[p]? = some (wordOfInt (value p)) ∧ Placed code value defs (p + 1) is :=
  h.cons rfl

/-- The number of an opcode is read back as it. -/
theorem fromI32_opcode (o : Opcode) :
    Opcode.fromI32 (wordOf (unsafeChr (op o)) 0 0 0) = some o := by
  cases o <;> rfl

/-- An opcode in the code is read back. -/
theorem Placed.opcode {o : Opcode} {n : Int} (h : Placed code value defs p (opcodeItem n :: is))
    (hn : n = op o) : opcodeAt code p = some o ∧ Placed code value defs (p + 1) is := by
  obtain ⟨hw, hrest⟩ := h.word
  refine ⟨?_, hrest⟩
  rw [opcodeAt, hw, hn]
  exact fromI32_opcode o

/-! ## §4. One opcode. -/

/-- An unsigned operand is read back. -/
theorem u32OfWord_wordOfInt {n : Int} (h : FitsU32 n) : u32OfWord (wordOfInt n) = n.toNat := by
  unfold FitsU32 at h
  unfold u32OfWord wordOfInt
  rw [BitVec.toNat_ofInt]
  omega

/-- A signed operand is read back. -/
theorem toInt_wordOfInt {n : Int} (h : FitsI32 n) : (wordOfInt n).toInt = n := by
  unfold FitsI32 at h
  unfold wordOfInt
  rw [BitVec.toInt_ofInt, Int.bmod_def]
  omega

/-- A tag is read back. -/
theorem u8OfWord_wordOfInt {t : Int} (h : FitsTag t) : u8OfWord (wordOfInt t) = t.toNat := by
  unfold FitsTag at h
  unfold u8OfWord wordOfInt
  rw [BitVec.toNat_ofInt]
  omega

/-- The labels are defined, and the code is not too long for them. -/
def Resolves (defs : List (Label × Nat)) (ls : List Label) : Prop :=
  ∀ l ∈ ls, ∃ here, defs.lookup l = some here ∧ here < 2 ^ 31

/-- **A label is read back**: the displacement leads to where it was defined. -/
theorem resolveLabel_fill {base : Nat} (hbase : base < 2 ^ 31) {l : Label} {v : Nat → Word}
    (h : Resolves defs [l]) :
    Reader.resolveLabel base (fill displ blank v defs (.ref l base)) = .ok (locOf defs l) := by
  obtain ⟨here, hl, hhere⟩ := h l List.mem_cons_self
  have hfits : FitsI32 ((here : Int) - base) := ⟨by omega, by omega⟩
  have htarget : labelTarget (base, fill displ blank v defs (.ref l base)) = here := by
    rw [labelTarget, fill, hl]
    dsimp only
    rw [displ, toInt_wordOfInt hfits]
    omega
  have hloc : locOf defs l = here := by rw [locOf, hl]; rfl
  refine (resolveLabel_eq_ok ?_).mpr (by rw [htarget, hloc])
  refine ⟨hbase, ?_, ?_⟩
  · rw [htarget]
    omega
  · rw [htarget]
    omega

variable {o : Opcode} {q : Nat} {rs : List (Instruction Nat)}

/-- The opcode is known, and its operands are read. -/
theorem decodeAt_of_reads (ho : opcodeAt code p = some o)
    (h : ReadsTo code (readOperands o) (p + 1) rs q) : decodeAt code p = .ok (rs, q) :=
  decodeAt_eq_ok.mpr ⟨o, ho, h⟩

/-- An opcode without operands. -/
theorem Placed.plain {n : Int} (h : Placed code value defs p (opcodeItem n :: is)) (hn : n = op o)
    (hread : readOperands o = pure rs) : decodeAt code p = .ok (rs, p + 1) := by
  refine decodeAt_of_reads (h.opcode hn).1 ?_
  rw [hread, readsTo_pure]
  exact ⟨rfl, rfl⟩

section Operands

variable {f : Nat → Reader (List (Instruction Nat))}

/-- The next operand is an unsigned one. -/
theorem Placed.readsU32 {n : Int} (h : Placed code value defs p (intItem n :: is))
    (hn : FitsU32 n) (hf : ReadsTo code (f n.toNat) (p + 1) rs q) :
    ReadsTo code (Reader.u32 >>= f) p rs q := by
  rw [readsTo_u32_bind]
  refine ⟨_, h.int.1, ?_⟩
  rwa [u32OfWord_wordOfInt hn]

/-- The next operand is a signed one. -/
theorem Placed.readsI32 {n : Int} {f : Int → Reader (List (Instruction Nat))}
    (h : Placed code value defs p (intItem n :: is)) (hn : FitsI32 n)
    (hf : ReadsTo code (f n) (p + 1) rs q) : ReadsTo code (Reader.sint >>= f) p rs q := by
  rw [readsTo_sint_bind]
  refine ⟨_, h.int.1, ?_⟩
  rwa [toInt_wordOfInt hn]

/-- The next operand is a tag. -/
theorem Placed.readsTag {t : Int} (h : Placed code value defs p (intItem t :: is))
    (ht : FitsTag t) (hf : ReadsTo code (f t.toNat) (p + 1) rs q) :
    ReadsTo code (Reader.u8 >>= f) p rs q := by
  rw [readsTo_u8_bind]
  refine ⟨_, h.int.1, ?_⟩
  rwa [u8OfWord_wordOfInt ht]

/-- The slot of the linker. -/
theorem Placed.readsSlot {info : RelocInfo} (h : Placed code value defs p (.hole info :: is))
    (hvalue : FitsU32 (value p)) (hf : ReadsTo code (f (value p).toNat) (p + 1) rs q) :
    ReadsTo code (Reader.u32 >>= f) p rs q := by
  rw [readsTo_u32_bind]
  refine ⟨_, h.hole.1, ?_⟩
  rwa [u32OfWord_wordOfInt hvalue]

/-- A label relative to itself. -/
theorem Placed.readsLabel {l : Label} (h : Placed code value defs p (.ref l 0 :: is))
    (hp : p < 2 ^ 31) (hl : Resolves defs [l])
    (hf : ReadsTo code (f (locOf defs l)) (p + 1) rs q) :
    ReadsTo code (Reader.label >>= f) p rs q := by
  obtain ⟨hw, -⟩ := h.cons rfl
  rw [Nat.sub_zero] at hw
  exact readsTo_label_bind.mpr ⟨_, hw, _, resolveLabel_fill hp hl, hf⟩

end Operands

/-- A `u32` operand. -/
theorem Placed.u32 {k n : Int} (h : Placed code value defs p (opcodeItem k :: intItem n :: is))
    (hk : k = op o) {f : Nat → List (Instruction Nat)}
    (hread : readOperands o = Reader.u32 >>= fun m => pure (f m)) (hn : FitsU32 n) :
    decodeAt code p = .ok (f n.toNat, p + 2) := by
  obtain ⟨ho, h⟩ := h.opcode hk
  refine decodeAt_of_reads ho ?_
  rw [hread]
  exact h.readsU32 hn (readsTo_pure.mpr ⟨rfl, rfl⟩)

/-- An `i32` operand. -/
theorem Placed.i32 {k n : Int} (h : Placed code value defs p (opcodeItem k :: intItem n :: is))
    (hk : k = op o) {f : Int → List (Instruction Nat)}
    (hread : readOperands o = Reader.sint >>= fun m => pure (f m)) (hn : FitsI32 n) :
    decodeAt code p = .ok (f n, p + 2) := by
  obtain ⟨ho, h⟩ := h.opcode hk
  refine decodeAt_of_reads ho ?_
  rw [hread]
  exact h.readsI32 hn (readsTo_pure.mpr ⟨rfl, rfl⟩)

/-- A tag. -/
theorem Placed.tag {k t : Int} (h : Placed code value defs p (opcodeItem k :: intItem t :: is))
    (hk : k = op o) {f : Nat → List (Instruction Nat)}
    (hread : readOperands o = Reader.u8 >>= fun m => pure (f m)) (ht : FitsTag t) :
    decodeAt code p = .ok (f t.toNat, p + 2) := by
  obtain ⟨ho, h⟩ := h.opcode hk
  refine decodeAt_of_reads ho ?_
  rw [hread]
  exact h.readsTag ht (readsTo_pure.mpr ⟨rfl, rfl⟩)

/-- A slot. -/
theorem Placed.slot {k : Int} {info : RelocInfo}
    (h : Placed code value defs p (opcodeItem k :: .hole info :: is)) (hk : k = op o)
    {f : Nat → List (Instruction Nat)}
    (hread : readOperands o = Reader.u32 >>= fun m => pure (f m))
    (hvalue : FitsU32 (value (p + 1))) :
    decodeAt code p = .ok (f (value (p + 1)).toNat, p + 2) := by
  obtain ⟨ho, h⟩ := h.opcode hk
  refine decodeAt_of_reads ho ?_
  rw [hread]
  exact h.readsSlot hvalue (readsTo_pure.mpr ⟨rfl, rfl⟩)

/-- A jump. -/
theorem Placed.jump {l : Label} (h : Placed code value defs p (opcodeItem (op o) :: .ref l 0 :: is))
    (hp : p + 1 < 2 ^ 31) (hl : Resolves defs [l]) {f : Nat → List (Instruction Nat)}
    (hread : readOperands o = Reader.label >>= fun m => pure (f m)) :
    decodeAt code p = .ok (f (locOf defs l), p + 2) := by
  obtain ⟨ho, h⟩ := h.opcode rfl
  refine decodeAt_of_reads ho ?_
  rw [hread]
  exact h.readsLabel hp hl (readsTo_pure.mpr ⟨rfl, rfl⟩)

/-- A table of labels. -/
theorem Placed.table :
    ∀ {ls : List Label} {k p : Nat}, Placed code value defs p (refs k ls ++ is) →
      k ≤ p → p + ls.length < 2 ^ 31 → Resolves defs ls →
      ls.length ≤ code.length - p ∧
        ((code.drop p).take ls.length).mapM (Reader.resolveLabel (p - k)) =
          .ok (ls.map (locOf defs)) ∧
        Placed code value defs (p + ls.length) is
  | [], k, p, h, _, _, _ => ⟨Nat.zero_le _, rfl, h⟩
  | l :: ls, k, p, h, hk, hp, hl => by
      have hp' : p + (ls.length + 1) < 2 ^ 31 := hp
      obtain ⟨hw, hrest⟩ := h.cons rfl
      obtain ⟨hlt, hw⟩ := List.getElem?_eq_some_iff.mp hw
      obtain ⟨hlen, hmap, hafter⟩ := hrest.table (by omega) (by omega) fun m hm =>
        hl m (List.mem_cons_of_mem _ hm)
      have hfirst : Resolves defs [l] := fun m hm =>
        hl m (List.mem_singleton.mp hm ▸ List.mem_cons_self)
      refine ⟨?_, ?_, ?_⟩
      · rw [List.length_cons]
        omega
      · rw [List.drop_eq_getElem_cons hlt, List.length_cons, List.take_succ_cons,
          List.mapM_cons, hw, resolveLabel_fill (by omega) hfirst, Lib.ok_bind]
        have hbase : p + 1 - (k + 1) = p - k := by omega
        rw [hbase] at hmap
        rw [hmap]
        rfl
      · have hp : p + (l :: ls).length = p + 1 + ls.length := by
          rw [List.length_cons]
          omega
        rwa [hp]

/-! ## §5. One output. -/

/-- How far behind its opcode the slot of an output is. -/
def Output.slotAfter : Output Ev → Nat
  | .instr (.kccall _ n) => if n ≤ 5 then 1 else 2
  | _ => 1

/-- Everything that an output at `p` needs to be decoded. -/
structure Ready (value : Nat → Int) (defs : List (Label × Nat)) (p : Nat) (o : Output Ev) :
    Prop where
  fits : o.Fits
  labels : Resolves defs o.labels
  slot : ∀ r ∈ relocs p o.items, FitsU32 (value r.2)
  room : p + wordCount o.items < 2 ^ 31

/-- What is decoded at `p`. -/
def Output.decoded (value : Nat → Int) (defs : List (Label × Nat)) (p : Nat) (o : Output Ev) :
    List (Instruction Nat) :=
  o.instrs (value (p + o.slotAfter)).toNat (locOf defs)

/-- Short opcodes for the small operands, and a long one for the others. -/
theorem Placed.small {bound : Int} {short long : Opcode} {n : Int}
    {f : Nat → List (Instruction Nat)}
    (h : Placed code value defs p (smallItems bound short long n : List (EmitItem Ev)))
    (hn : FitsU32 n) (hlong : readOperands long = Reader.u32 >>= fun m => pure (f m))
    (hshort : n < bound → ∃ o, op short + n = op o ∧ readOperands o = pure (f n.toNat)) :
    decodeAt code p =
      .ok (f n.toNat, p + wordCount (smallItems bound short long n : List (EmitItem Ev))) := by
  unfold smallItems at *
  split at h
  next hlt =>
    obtain ⟨o, ho, hread⟩ := hshort hlt
    rw [if_pos hlt]
    exact h.plain ho hread
  next hge =>
    rw [if_neg hge]
    exact h.u32 rfl hlong hn

/-- `CONST0` to `CONST3`, and `CONSTINT`. -/
theorem Placed.constInt {short long : Opcode} {n : Int} {f : Int → List (Instruction Nat)}
    (h : Placed code value defs p (constIntItems short long n : List (EmitItem Ev)))
    (hn : FitsI32 n) (hlong : readOperands long = Reader.sint >>= fun m => pure (f m))
    (hshort : 0 ≤ n → n ≤ 3 → ∃ o, op short + n = op o ∧ readOperands o = pure (f n)) :
    decodeAt code p =
      .ok (f n, p + wordCount (constIntItems short long n : List (EmitItem Ev))) := by
  unfold constIntItems at *
  split at h
  next hlt =>
    obtain ⟨o, ho, hread⟩ := hshort hlt.1 hlt.2
    rw [if_pos hlt]
    exact h.plain ho hread
  next hge =>
    rw [if_neg hge]
    exact h.i32 rfl hlong hn

/-- `ATOM0`, and `ATOM`. -/
theorem Placed.atom {short long : Opcode} {t : Int} {f : Nat → List (Instruction Nat)}
    (h : Placed code value defs p (atomItems short long t : List (EmitItem Ev)))
    (ht : FitsTag t) (hlong : readOperands long = Reader.u8 >>= fun m => pure (f m))
    (hshort : readOperands short = pure (f 0)) :
    decodeAt code p =
      .ok (f t.toNat, p + wordCount (atomItems short long t : List (EmitItem Ev))) := by
  unfold atomItems at *
  split at h
  next hzero =>
    subst hzero
    rw [if_pos rfl]
    exact h.plain rfl hshort
  next hne =>
    rw [if_neg hne]
    exact h.tag rfl hlong ht

/-- `OFFSETCLOSUREM2`, `OFFSETCLOSURE0`, `OFFSETCLOSURE2`, and `OFFSETCLOSURE`. -/
theorem Placed.offsetclosure {short long : Opcode} {n : Int} {f : Int → List (Instruction Nat)}
    (h : Placed code value defs p (offsetclosureItems short long n : List (EmitItem Ev)))
    (hn : FitsI32 n) (hlong : readOperands long = Reader.sint >>= fun m => pure (f m))
    (hshort : n = -2 ∨ n = 0 ∨ n = 2 →
      ∃ o, op short + n.tdiv 2 = op o ∧ readOperands o = pure (f n)) :
    decodeAt code p =
      .ok (f n, p + wordCount (offsetclosureItems short long n : List (EmitItem Ev))) := by
  unfold offsetclosureItems at *
  split at h
  next hlt =>
    obtain ⟨o, ho, hread⟩ := hshort hlt
    rw [if_pos hlt]
    exact h.plain ho hread
  next hge =>
    rw [if_neg hge]
    exact h.i32 rfl hlong hn

/-- The immediate operands of a comparison fit. -/
theorem fitsI32_of_isImmed {i : Int} (h : isImmed i = true) : FitsI32 i := by
  unfold isImmed immedMin immedMax at h
  simp only [Bool.and_eq_true, decide_eq_true_eq] at h
  exact ⟨by omega, by omega⟩

/-- A constant, pushed or not. -/
theorem Placed.const {shortInt longInt shortAtom longAtom global : Opcode}
    {sc : StructuredConstant} {t : List (Instruction Nat)}
    (h : Placed code value defs p
      (constItems shortInt longInt shortAtom longAtom global sc : List (EmitItem Ev)))
    (hsc : sc.Fits)
    (hslot : ∀ r ∈ relocs p (constItems shortInt longInt shortAtom longAtom global sc :
      List (EmitItem Ev)), FitsU32 (value r.2))
    (hint : readOperands longInt = Reader.sint >>= fun m => pure (t ++ [.const m]))
    (hatom : readOperands longAtom = Reader.u8 >>= fun m => pure (t ++ [.makeBlock 0 m]))
    (hatom0 : readOperands shortAtom = pure (t ++ [.makeBlock 0 0]))
    (hglobal : readOperands global = Reader.u32 >>= fun m => pure (t ++ [.getGlobal m]))
    (hshort : ∀ n : Int, 0 ≤ n → n ≤ 3 →
      ∃ o, op shortInt + n = op o ∧ readOperands o = pure (t ++ [.const n])) :
    decodeAt code p = .ok (t ++ constInstrs (value (p + 1)).toNat sc,
      p + wordCount (constItems shortInt longInt shortAtom longAtom global sc :
        List (EmitItem Ev))) := by
  have hhole (h : Placed code value defs p
      (holeItems global (.relocLiteral sc) : List (EmitItem Ev)))
      (hslot : ∀ r ∈ relocs p (holeItems global (.relocLiteral sc) : List (EmitItem Ev)),
        FitsU32 (value r.2)) :
      decodeAt code p = .ok (t ++ [.getGlobal (value (p + 1)).toNat], p + 2) :=
    h.slot rfl hglobal (hslot _ List.mem_cons_self)
  cases sc with
  | constBase c =>
      cases c with
      -- an immediate is in the code, other numbers are in a slot
      | constInt i =>
          unfold constItems constInstrs at *
          by_cases hi : isImmed i = true
          · simp only [hi, if_true] at h ⊢
            exact h.constInt (fitsI32_of_isImmed hi) hint (hshort i)
          · simp only [hi] at h hslot ⊢
            exact hhole h hslot
      | constChar c =>
          have hc : FitsI32 c.toNat := by
            have := c.toNat_lt
            exact ⟨by omega, by omega⟩
          exact h.i32 rfl hint hc
      | _ => exact hhole h hslot
  | constPointer i => exact h.constInt hsc hint (hshort i)
  -- an empty block is an atom
  | constBlock tag fields =>
      cases fields with
      | nil => exact h.atom hsc hatom hatom0
      | cons f fs => exact hhole h hslot
  | _ => exact hhole h hslot

/-- The opcodes of an operand below eight. -/
theorem exists_accOpcode {n : Int} (hn : FitsU32 n) (h : n < 8) :
    (∃ o, op .acc0 + n = op o ∧ readOperands o = pure [.acc n.toNat]) ∧
      ∃ o, op .pushAcc0 + n = op o ∧ readOperands o = pure [.push, .acc n.toNat] := by
  obtain ⟨h0, -⟩ := hn
  interval_cases n
  · exact ⟨⟨.acc0, rfl, rfl⟩, .pushAcc0, rfl, rfl⟩
  · exact ⟨⟨.acc1, rfl, rfl⟩, .pushAcc1, rfl, rfl⟩
  · exact ⟨⟨.acc2, rfl, rfl⟩, .pushAcc2, rfl, rfl⟩
  · exact ⟨⟨.acc3, rfl, rfl⟩, .pushAcc3, rfl, rfl⟩
  · exact ⟨⟨.acc4, rfl, rfl⟩, .pushAcc4, rfl, rfl⟩
  · exact ⟨⟨.acc5, rfl, rfl⟩, .pushAcc5, rfl, rfl⟩
  · exact ⟨⟨.acc6, rfl, rfl⟩, .pushAcc6, rfl, rfl⟩
  · exact ⟨⟨.acc7, rfl, rfl⟩, .pushAcc7, rfl, rfl⟩

/-- `GETFIELD0` to `GETFIELD3`, `SETFIELD0` to `SETFIELD3`. -/
theorem exists_fieldOpcode {n : Int} (hn : FitsU32 n) (h : n < 4) :
    (∃ o, op .getField0 + n = op o ∧ readOperands o = pure [.getField n.toNat]) ∧
      ∃ o, op .setField0 + n = op o ∧ readOperands o = pure [.setField n.toNat] := by
  obtain ⟨h0, -⟩ := hn
  interval_cases n
  · exact ⟨⟨.getField0, rfl, rfl⟩, .setField0, rfl, rfl⟩
  · exact ⟨⟨.getField1, rfl, rfl⟩, .setField1, rfl, rfl⟩
  · exact ⟨⟨.getField2, rfl, rfl⟩, .setField2, rfl, rfl⟩
  · exact ⟨⟨.getField3, rfl, rfl⟩, .setField3, rfl, rfl⟩

/-- The constants 0 to 3 have opcodes of their own. -/
theorem exists_constOpcode {n : Int} (h0 : 0 ≤ n) (h : n ≤ 3) :
    (∃ o, op .const0 + n = op o ∧ readOperands o = pure [.const n]) ∧
      ∃ o, op .pushConst0 + n = op o ∧ readOperands o = pure [.push, .const n] := by
  interval_cases n
  · exact ⟨⟨.const0, rfl, rfl⟩, .pushConst0, rfl, rfl⟩
  · exact ⟨⟨.const1, rfl, rfl⟩, .pushConst1, rfl, rfl⟩
  · exact ⟨⟨.const2, rfl, rfl⟩, .pushConst2, rfl, rfl⟩
  · exact ⟨⟨.const3, rfl, rfl⟩, .pushConst3, rfl, rfl⟩

/-- So have the offsets -2, 0 and 2. -/
theorem exists_offsetclosureOpcode {n : Int} (h : n = -2 ∨ n = 0 ∨ n = 2) :
    (∃ o, op .offsetClosure0 + n.tdiv 2 = op o ∧ readOperands o = pure [.offsetClosure n]) ∧
      ∃ o, op .pushOffsetClosure0 + n.tdiv 2 = op o ∧
        readOperands o = pure [.push, .offsetClosure n] := by
  rcases h with rfl | rfl | rfl
  · exact ⟨⟨.offsetClosureM2, rfl, rfl⟩, .pushOffsetClosureM2, rfl, rfl⟩
  · exact ⟨⟨.offsetClosure0, rfl, rfl⟩, .pushOffsetClosure0, rfl, rfl⟩
  · exact ⟨⟨.offsetClosure2, rfl, rfl⟩, .pushOffsetClosure2, rfl, rfl⟩

/-- `ENVACC1` to `ENVACC4`. -/
theorem exists_envaccOpcode {n : Int} (h : 1 ≤ n ∧ n ≤ 4) :
    (∃ o, op .envAcc1 + n - 1 = op o ∧ readOperands o = pure [.envAcc n.toNat]) ∧
      ∃ o, op .pushEnvAcc1 + n - 1 = op o ∧ readOperands o = pure [.push, .envAcc n.toNat] := by
  obtain ⟨h0, h⟩ := h
  interval_cases n
  · exact ⟨⟨.envAcc1, rfl, rfl⟩, .pushEnvAcc1, rfl, rfl⟩
  · exact ⟨⟨.envAcc2, rfl, rfl⟩, .pushEnvAcc2, rfl, rfl⟩
  · exact ⟨⟨.envAcc3, rfl, rfl⟩, .pushEnvAcc3, rfl, rfl⟩
  · exact ⟨⟨.envAcc4, rfl, rfl⟩, .pushEnvAcc4, rfl, rfl⟩

/-- `APPLY1` to `APPLY3`. -/
theorem exists_applyOpcode {n : Int} (h0 : 1 ≤ n) (h : n < 4) :
    ∃ o, op .apply1 + n - 1 = op o ∧ readOperands o = pure [applyInstr n] := by
  interval_cases n
  · exact ⟨.apply1, rfl, rfl⟩
  · exact ⟨.apply2, rfl, rfl⟩
  · exact ⟨.apply3, rfl, rfl⟩

/-- `APPTERM1` to `APPTERM3`. -/
theorem exists_apptermOpcode {n : Int} (h0 : 1 ≤ n) (h : n < 4) :
    ∃ o, op .appTerm1 + n - 1 = op o ∧
      readOperands o = Reader.u32 >>= fun m => pure [.applyTerm n.toNat m] := by
  interval_cases n
  · exact ⟨.appTerm1, rfl, rfl⟩
  · exact ⟨.appTerm2, rfl, rfl⟩
  · exact ⟨.appTerm3, rfl, rfl⟩

/-- `MAKEBLOCK1` to `MAKEBLOCK3`. -/
theorem exists_makeblockOpcode {n : Int} (h0 : 1 ≤ n) (h : n < 4) :
    ∃ o, op .makeBlock1 + n - 1 = op o ∧
      readOperands o = Reader.u8 >>= fun t => pure [.makeBlock n.toNat t] := by
  interval_cases n
  · exact ⟨.makeBlock1, rfl, rfl⟩
  · exact ⟨.makeBlock2, rfl, rfl⟩
  · exact ⟨.makeBlock3, rfl, rfl⟩

/-- `C_CALL1` to `C_CALL5`. -/
theorem exists_ccallOpcode {n : Int} (h0 : 1 ≤ n) (h : n ≤ 5) :
    ∃ o, op .cCall1 + n - 1 = op o ∧
      readOperands o = Reader.u32 >>= fun id => pure [ccallInstr id n] := by
  interval_cases n
  · exact ⟨.cCall1, rfl, rfl⟩
  · exact ⟨.cCall2, rfl, rfl⟩
  · exact ⟨.cCall3, rfl, rfl⟩
  · exact ⟨.cCall4, rfl, rfl⟩
  · exact ⟨.cCall5, rfl, rfl⟩

/-- Every comparison has its opcode, alone and with a branch. -/
theorem exists_compOpcode (c : IntegerComparison) :
    readOperands (compOpcode c) = pure [.intCmp c.comp] ∧
      readOperands (branchCompOpcode c) = Reader.sint >>= fun n => Reader.label >>= fun l =>
        pure [.branchCmp c.comp n l] := by
  cases c <;> exact ⟨rfl, rfl⟩

/-- `ENVACC1` to `ENVACC4`, and `ENVACC`. -/
theorem Placed.envacc {c : Prop} [Decidable c] {short long : Opcode} {n : Int}
    {f : Nat → List (Instruction Nat)}
    (h : Placed code value defs p (if c then [opcodeItem (op short + n - 1)]
      else withItems long n : List (EmitItem Ev)))
    (hn : FitsU32 n) (hlong : readOperands long = Reader.u32 >>= fun m => pure (f m))
    (hshort : c → ∃ o, op short + n - 1 = op o ∧ readOperands o = pure (f n.toNat)) :
    decodeAt code p = .ok (f n.toNat,
      p + wordCount (if c then [opcodeItem (op short + n - 1)]
        else withItems long n : List (EmitItem Ev))) := by
  split at h
  next hlt =>
    obtain ⟨o, ho, hread⟩ := hshort hlt
    rw [if_pos hlt]
    exact h.plain ho hread
  next hge =>
    rw [if_neg hge]
    exact h.u32 rfl hlong hn

/-- An immediate constant fits an operand. -/
theorem fitsI32_of_isImmedConst {k : StructuredConstant} (h : isImmedConst k = true) :
    FitsI32 ((constAsInt k).getD 0) := by
  unfold isImmedConst at h
  split at h
  next i hi =>
    rw [hi]
    exact fitsI32_of_isImmed h
  · cases h

/-- One word for every label. -/
theorem wordCount_refs (k : Nat) (ls : List Label) :
    wordCount (refs k ls : List (EmitItem Ev)) = ls.length := by
  induction ls generalizing k with
  | nil => rfl
  | cons l ls ih => rw [refs, wordCount, ih, List.length_cons]

/-- More than three arguments: `APPLY`. -/
theorem applyInstr_of_le {n : Int} (h : 4 ≤ n) : applyInstr n = .apply n.toNat := by
  unfold applyInstr
  split
  · omega
  · omega
  · omega
  · rfl

/-- More than five arguments: `C_CALLN`. -/
theorem ccallInstr_of_lt {n : Int} (h : 5 < n) (slot : Nat) :
    ccallInstr slot n = .cCallN n.toNat slot := by
  unfold ccallInstr
  split
  · omega
  · omega
  · omega
  · omega
  · omega
  · rfl

/-- `Kapply` is read back. -/
theorem Placed.kapply {n : Int}
    (h : Placed code value defs p (Kinstruction.kapply n : Kinstruction Ev).items)
    (hn : 1 ≤ n ∧ n < 2 ^ 32) :
    decodeAt code p = .ok ([applyInstr n],
      p + wordCount (Kinstruction.kapply n : Kinstruction Ev).items) := by
  simp only [Kinstruction.items] at h ⊢
  by_cases hlt : n < 4
  · rw [if_pos hlt] at h ⊢
    obtain ⟨o, ho, hread⟩ := exists_applyOpcode hn.1 hlt
    exact h.plain ho hread
  · rw [if_neg hlt] at h ⊢
    rw [applyInstr_of_le (by omega)]
    exact h.u32 rfl (f := fun n => [.apply n]) rfl ⟨by omega, hn.2⟩

/-- `Kappterm` is read back. -/
theorem Placed.kappterm {n sz : Int}
    (h : Placed code value defs p (Kinstruction.kappterm n sz : Kinstruction Ev).items)
    (hn : 1 ≤ n ∧ n < 2 ^ 32) (hsz : FitsU32 sz) :
    decodeAt code p = .ok ([.applyTerm n.toNat sz.toNat],
      p + wordCount (Kinstruction.kappterm n sz : Kinstruction Ev).items) := by
  simp only [Kinstruction.items] at h ⊢
  by_cases hlt : n < 4
  · rw [if_pos hlt] at h ⊢
    obtain ⟨o, ho, hread⟩ := exists_apptermOpcode hn.1 hlt
    exact h.u32 ho (f := fun m => [.applyTerm n.toNat m]) hread hsz
  · rw [if_neg hlt] at h ⊢
    obtain ⟨ho, h⟩ := h.opcode rfl
    refine decodeAt_of_reads ho ?_
    exact h.readsU32 ⟨by omega, hn.2⟩ (h.int.2.readsU32 hsz (readsTo_pure.mpr ⟨rfl, rfl⟩))

/-- `Kmakeblock` is read back. -/
theorem Placed.kmakeblock {n t : Int}
    (h : Placed code value defs p (Kinstruction.kmakeblock n t : Kinstruction Ev).items)
    (hn : FitsU32 n) (ht : FitsTag t) :
    decodeAt code p = .ok ([.makeBlock n.toNat t.toNat],
      p + wordCount (Kinstruction.kmakeblock n t : Kinstruction Ev).items) := by
  simp only [Kinstruction.items] at h ⊢
  have h0 := hn.1
  by_cases hzero : n = 0
  · subst hzero
    rw [if_pos rfl] at h ⊢
    exact h.atom (f := fun t => [.makeBlock 0 t]) ht rfl rfl
  · rw [if_neg hzero] at h ⊢
    by_cases hlt : n < 4
    · rw [if_pos hlt] at h ⊢
      obtain ⟨o, ho, hread⟩ := exists_makeblockOpcode (by omega) hlt
      exact h.tag ho (f := fun t => [.makeBlock n.toNat t]) hread ht
    · rw [if_neg hlt] at h ⊢
      obtain ⟨ho, h⟩ := h.opcode rfl
      refine decodeAt_of_reads ho ?_
      exact h.readsU32 hn (h.int.2.readsTag ht (readsTo_pure.mpr ⟨rfl, rfl⟩))

/-- `Kccall` is read back with the slot the linker gave its primitive. -/
theorem Placed.kccall {name : List UInt8} {n : Int}
    (h : Placed code value defs p (Kinstruction.kccall name n : Kinstruction Ev).items)
    (hn : 1 ≤ n ∧ n < 2 ^ 32)
    (hslot : FitsU32 (value (p + (Output.instr (.kccall name n) : Output Ev).slotAfter))) :
    decodeAt code p = .ok
      ([ccallInstr (value (p + (Output.instr (.kccall name n) : Output Ev).slotAfter)).toNat n],
        p + wordCount (Kinstruction.kccall name n : Kinstruction Ev).items) := by
  simp only [Kinstruction.items, Output.slotAfter] at h hslot ⊢
  by_cases hle : n ≤ 5
  · simp only [if_pos hle] at h hslot ⊢
    obtain ⟨o, ho, hread⟩ := exists_ccallOpcode hn.1 hle
    exact h.slot ho (f := fun id => [ccallInstr id n]) hread hslot
  · simp only [if_neg hle] at h hslot ⊢
    rw [ccallInstr_of_lt (by omega)]
    obtain ⟨ho, h⟩ := h.opcode rfl
    refine decodeAt_of_reads ho ?_
    exact h.readsU32 ⟨by omega, hn.2⟩ (h.int.2.readsSlot hslot (readsTo_pure.mpr ⟨rfl, rfl⟩))

/-- `Kclosurerec` is read back: its labels are relative to the first of them. -/
theorem Placed.kclosurerec {lbls : List Label} {n : Int}
    (h : Placed code value defs p (Kinstruction.kclosurerec lbls n : Kinstruction Ev).items)
    (hlen : lbls.length < 2 ^ 32) (hn : FitsU32 n) (hl : Resolves defs lbls)
    (hroom : p + 3 + lbls.length < 2 ^ 31) :
    decodeAt code p = .ok ([.closureRec (lbls.map (locOf defs)) n.toNat],
      p + 3 + lbls.length) := by
  obtain ⟨ho, h⟩ := h.opcode (o := .closureRec) rfl
  have htable : Placed code value defs (p + 1 + 1 + 1)
      (refs 0 lbls ++ ([] : List (EmitItem Ev))) := by
    rw [List.append_nil]
    exact h.int.2.int.2
  obtain ⟨hlast, hmap, -⟩ := htable.table (Nat.zero_le _) (by omega) hl
  refine decodeAt_of_reads ho ?_
  refine h.readsU32 ⟨by omega, by omega⟩ (h.int.2.readsU32 hn ?_)
  rw [Int.toNat_natCast]
  exact readsTo_position_bind.mpr (readsTo_labelList_bind.mpr
    ⟨hlast, _, hmap, readsTo_pure.mpr ⟨rfl, rfl⟩⟩)

/-- `Kswitch` is read back: its labels are relative to the first of them. -/
theorem Placed.kswitch {tblConst tblBlock : List Label}
    (h : Placed code value defs p
      (Kinstruction.kswitch tblConst tblBlock : Kinstruction Ev).items)
    (hconst : tblConst.length < 2 ^ 16) (hblock : tblBlock.length < 2 ^ 16)
    (hl : Resolves defs (tblConst ++ tblBlock))
    (hroom : p + 2 + (tblConst ++ tblBlock).length < 2 ^ 31) :
    decodeAt code p = .ok
      ([.switch (tblConst.map (locOf defs)) (tblBlock.map (locOf defs))],
        p + 2 + (tblConst ++ tblBlock).length) := by
  obtain ⟨ho, h⟩ := h.opcode (o := .switch) rfl
  have htables : Placed code value defs (p + 1 + 1)
      (refs 0 (tblConst ++ tblBlock) ++ ([] : List (EmitItem Ev))) := by
    rw [List.append_nil]
    exact h.int.2
  obtain ⟨hlast, hmap, -⟩ := htables.table (Nat.zero_le _) (by omega) hl
  rw [List.length_append] at hroom hlast hmap ⊢
  rw [take_drop_add, List.map_append, mapM_ok_append] at hmap
  -- the table is resolved as a whole and cut where the integers end
  obtain ⟨cs, bs, hcs, hbs, hsplit⟩ := hmap
  have hlen : (tblConst.map (locOf defs)).length = cs.length := by
    rw [length_of_mapM_resolveLabel hcs, List.length_map, List.length_take, List.length_drop]
    omega
  obtain ⟨rfl, rfl⟩ := List.append_inj hsplit hlen
  have hshift : tblBlock.length <<< 16 = tblBlock.length * 2 ^ 16 := Nat.shiftLeft_eq _ _
  refine decodeAt_of_reads ho ?_
  refine h.readsU32 ⟨by omega, by omega⟩ (readsTo_position_bind.mpr ?_)
  -- both sizes are in one word
  have hsizes : ((tblConst.length : Int) + (tblBlock.length <<< 16 : Nat)).toNat =
      tblConst.length + tblBlock.length * 2 ^ 16 := by omega
  have hconsts : (tblConst.length + tblBlock.length * 2 ^ 16) % 2 ^ 16 = tblConst.length := by
    omega
  have hblocks : (tblConst.length + tblBlock.length * 2 ^ 16) / 2 ^ 16 = tblBlock.length := by
    omega
  rw [hsizes, hconsts, hblocks]
  refine readsTo_labelList_bind.mpr ⟨by omega, _, hcs, ?_⟩
  refine readsTo_labelList_bind.mpr ⟨by omega, _, hbs, readsTo_pure.mpr ⟨rfl, ?_⟩⟩
  omega

/-- **One instruction of the compiler**, if it is not a label or an event. -/
theorem Placed.decodeAt_instr {i : Kinstruction Ev} (h : Placed code value defs p i.items)
    (hready : Ready value defs p (.instr i)) (hcount : 0 < wordCount i.items) :
    decodeAt code p =
      .ok (Output.decoded value defs p (.instr i), p + wordCount i.items) := by
  obtain ⟨hfits, hlabels, hslot, hroom⟩ := hready
  have hjump : p + 1 < 2 ^ 31 := Nat.lt_of_le_of_lt (Nat.add_le_add_left hcount p) hroom
  cases i with
  | klabel lbl => exact absurd hcount (Nat.lt_irrefl 0)
  | kevent ev => exact absurd hcount (Nat.lt_irrefl 0)
  -- a short form for the small operands
  | kacc n => exact h.small hfits rfl fun hn => (exists_accOpcode hfits hn).1
  | kgetfield n => exact h.small hfits rfl fun hn => (exists_fieldOpcode hfits hn).1
  | ksetfield n => exact h.small hfits rfl fun hn => (exists_fieldOpcode hfits hn).2
  | kenvacc n => exact h.envacc hfits rfl fun hn => (exists_envaccOpcode hn).1
  -- one operand
  | kpop n => exact h.u32 rfl (f := fun n => [.pop n]) rfl hfits
  | kassign n => exact h.u32 rfl (f := fun n => [.assign n]) rfl hfits
  | kreturn n => exact h.u32 rfl (f := fun n => [.return_ n]) rfl hfits
  | kgrab n => exact h.u32 rfl (f := fun n => [.grab n]) rfl hfits
  | kgetfloatfield n => exact h.u32 rfl (f := fun n => [.getFloatField n]) rfl hfits
  | ksetfloatfield n => exact h.u32 rfl (f := fun n => [.setFloatField n]) rfl hfits
  | koffsetint n => exact h.i32 rfl (f := fun n => [.offsetInt n]) rfl hfits
  | koffsetref n => exact h.i32 rfl (f := fun n => [.offsetRef n]) rfl hfits
  | koffsetclosure ofs =>
      exact h.offsetclosure hfits rfl fun hn => (exists_offsetclosureOpcode hn).1
  -- a jump
  | kpushRetaddr lbl => exact h.jump hjump hlabels (f := fun l => [.pushRetAddr l]) rfl
  | kbranch lbl => exact h.jump hjump hlabels (f := fun l => [.branch l]) rfl
  | kbranchif lbl => exact h.jump hjump hlabels (f := fun l => [.branchIf l]) rfl
  | kbranchifnot lbl => exact h.jump hjump hlabels (f := fun l => [.branchIfNot l]) rfl
  | kstrictbranchif lbl => exact h.jump hjump hlabels (f := fun l => [.branchIf l]) rfl
  | kstrictbranchifnot lbl => exact h.jump hjump hlabels (f := fun l => [.branchIfNot l]) rfl
  | kpushtrap lbl => exact h.jump hjump hlabels (f := fun l => [.pushTrap l]) rfl
  -- a place that the linker fills
  | kgetglobal q => exact h.slot rfl (f := fun n => [.getGlobal n]) rfl (hslot _ List.mem_cons_self)
  | ksetglobal q => exact h.slot rfl (f := fun n => [.setGlobal n]) rfl (hslot _ List.mem_cons_self)
  | kconst sc =>
      exact h.const (t := []) hfits hslot rfl rfl rfl rfl fun n h0 hn =>
        (exists_constOpcode h0 hn).1
  | kapply n => exact h.kapply hfits
  | kappterm n sz => exact h.kappterm hfits.1 hfits.2
  | kmakeblock n t => exact h.kmakeblock hfits.1 hfits.2
  | kclosure lbl n =>
      obtain ⟨ho, h⟩ := h.opcode (o := .closure) rfl
      have hroom : p + 3 < 2 ^ 31 := hroom
      exact decodeAt_of_reads ho (h.readsU32 hfits
        (h.int.2.readsLabel (by omega) hlabels (readsTo_pure.mpr ⟨rfl, rfl⟩)))
  | kclosurerec lbls n =>
      have hcount : p + wordCount (Kinstruction.kclosurerec lbls n : Kinstruction Ev).items =
          p + 3 + lbls.length := by
        show p + (wordCount (refs 0 lbls : List (EmitItem Ev)) + 1 + 1 + 1) = _
        rw [wordCount_refs]
        omega
      rw [Output.items, hcount] at hroom
      rw [hcount]
      exact h.kclosurerec hfits.1 hfits.2 hlabels hroom
  -- an empty block of floats is the atom
  | kmakefloatblock n =>
      simp only [Output.decoded, Output.instrs, Kinstruction.items, Kinstruction.instrs] at h ⊢
      by_cases hzero : n = 0
      · rw [if_pos hzero] at h ⊢
        rw [if_pos hzero]
        exact h.plain rfl rfl
      · rw [if_neg hzero] at h ⊢
        rw [if_neg hzero]
        exact h.u32 rfl (f := fun n => [.makeFloatBlock n]) rfl hfits
  | kswitch tblConst tblBlock =>
      have hcount : p + wordCount
          (Kinstruction.kswitch tblConst tblBlock : Kinstruction Ev).items =
          p + 2 + (tblConst ++ tblBlock).length := by
        show p + (wordCount (refs 0 (tblConst ++ tblBlock) : List (EmitItem Ev)) + 1 + 1) = _
        rw [wordCount_refs]
        omega
      rw [Output.items, hcount] at hroom
      rw [hcount]
      exact h.kswitch hfits.1 hfits.2 hlabels hroom
  | kraise k => cases k <;> exact h.plain rfl rfl
  -- the number of the primitive is the last word of either form
  | kccall name n =>
      refine h.kccall hfits ?_
      simp only [Output.items, Kinstruction.items] at hslot
      simp only [Output.slotAfter]
      by_cases hle : n ≤ 5
      · rw [if_pos hle] at hslot ⊢
        exact hslot _ List.mem_cons_self
      · rw [if_neg hle] at hslot ⊢
        exact hslot _ List.mem_cons_self
  | kintcomp c => exact h.plain rfl (exists_compOpcode c).1
  | kgetpubmet tag =>
      obtain ⟨ho, h⟩ := h.opcode (o := .getPubMet) rfl
      exact decodeAt_of_reads ho (h.readsI32 hfits
        (h.int.2.readsU32 ⟨by omega, by omega⟩ (readsTo_pure.mpr ⟨rfl, rfl⟩)))
  | _ => exact h.plain rfl rfl

/-- **One output**, if it puts out a word. -/
theorem Placed.decodeAt {o : Output Ev} (h : Placed code value defs p o.items)
    (hready : Ready value defs p o) (hcount : 0 < wordCount o.items) :
    decodeAt code p = .ok (o.decoded value defs p, p + wordCount o.items) := by
  obtain ⟨hfits, hlabels, hslot, hroom⟩ := hready
  cases o with
  | instr i => exact h.decodeAt_instr ⟨hfits, hlabels, hslot, hroom⟩ hcount
  -- a comparison with a constant: the constant, then the label
  | branchComp c k lbl =>
      have hroom : p + 3 < 2 ^ 31 := hroom
      obtain ⟨ho, h⟩ := h.opcode rfl
      refine decodeAt_of_reads ho ?_
      rw [(exists_compOpcode c).2]
      exact h.readsI32 (fitsI32_of_isImmedConst hfits)
        (h.int.2.readsLabel (by omega) hlabels (readsTo_pure.mpr ⟨rfl, rfl⟩))
  | branchUltint k lbl =>
      have hroom : p + 3 < 2 ^ 31 := hroom
      obtain ⟨ho, h⟩ := h.opcode (o := .bULtInt) rfl
      exact decodeAt_of_reads ho (h.readsI32 (fitsI32_of_isImmedConst hfits)
        (h.int.2.readsLabel (by omega) hlabels (readsTo_pure.mpr ⟨rfl, rfl⟩)))
  | branchUgeint k lbl =>
      have hroom : p + 3 < 2 ^ 31 := hroom
      obtain ⟨ho, h⟩ := h.opcode (o := .bUGeInt) rfl
      exact decodeAt_of_reads ho (h.readsI32 (fitsI32_of_isImmedConst hfits)
        (h.int.2.readsLabel (by omega) hlabels (readsTo_pure.mpr ⟨rfl, rfl⟩)))
  -- the fused pushes: the short forms once more
  | pushAcc n =>
      exact h.small (f := fun n => [.push, .acc n]) hfits rfl fun hn =>
        (exists_accOpcode hfits hn).2
  | pushEnvacc n =>
      exact h.envacc (f := fun n => [.push, .envAcc n]) hfits rfl fun hn =>
        (exists_envaccOpcode ⟨hn.1, Int.le_of_lt hn.2⟩).2
  | pushOffsetclosure ofs =>
      exact h.offsetclosure (f := fun ofs => [.push, .offsetClosure ofs]) hfits rfl fun hn =>
        (exists_offsetclosureOpcode hn).2
  | pushGetglobalField id n =>
      obtain ⟨ho, h⟩ := h.opcode (o := .pushGetGlobalField) rfl
      exact decodeAt_of_reads ho (h.readsSlot (hslot _ List.mem_cons_self)
        (h.hole.2.readsU32 hfits (readsTo_pure.mpr ⟨rfl, rfl⟩)))
  | pushGetglobal id =>
      exact h.slot rfl (f := fun n => [.push, .getGlobal n]) rfl (hslot _ List.mem_cons_self)
  | pushConst sc =>
      exact h.const (t := [.push]) hfits hslot rfl rfl rfl rfl fun n h0 hn =>
        (exists_constOpcode h0 hn).2
  | getglobalField id n =>
      obtain ⟨ho, h⟩ := h.opcode (o := .getGlobalField) rfl
      exact decodeAt_of_reads ho (h.readsSlot (hslot _ List.mem_cons_self)
        (h.hole.2.readsU32 hfits (readsTo_pure.mpr ⟨rfl, rfl⟩)))

/-! ## §6. Lists of outputs. -/

/-- What is decoded from `p` on: each output that has words begins with its label. -/
def streamOf (value : Nat → Int) (defs : List (Label × Nat)) :
    Nat → List (Output Ev) → List (Instruction Nat)
  | _, [] => []
  | p, o :: os =>
      if wordCount o.items = 0 then streamOf value defs p os
      else .labelDef p :: o.decoded value defs p ++
        streamOf value defs (p + wordCount o.items) os

/-- Everything that outputs from `p` on need to be decoded. -/
structure Decodable (value : Nat → Int) (defs : List (Label × Nat)) (p : Nat)
    (os : List (Output Ev)) : Prop where
  fits : ∀ o ∈ os, o.Fits
  labels : ∀ o ∈ os, Resolves defs o.labels
  slots : ∀ r ∈ relocs p (itemsOf os), FitsU32 (value r.2)
  room : p + wordCount (itemsOf os) < 2 ^ 31

theorem itemsOf_cons (o : Output Ev) (os : List (Output Ev)) :
    itemsOf (o :: os) = o.items ++ itemsOf os := List.flatMap_cons

/-- The first output can be read back. -/
theorem Decodable.head {o : Output Ev} {os : List (Output Ev)}
    (h : Decodable value defs p (o :: os)) : Ready value defs p o := by
  have hslots := h.slots
  have hroom := h.room
  rw [itemsOf_cons, relocs_append] at hslots
  rw [itemsOf_cons, wordCount_append] at hroom
  exact
    { fits := h.fits o List.mem_cons_self
      labels := h.labels o List.mem_cons_self
      slot := fun r hr => hslots r (List.mem_append_left _ hr)
      room := by omega }

/-- And so can the rest, after its words. -/
theorem Decodable.tail {o : Output Ev} {os : List (Output Ev)}
    (h : Decodable value defs p (o :: os)) :
    Decodable value defs (p + wordCount o.items) os := by
  have hslots := h.slots
  have hroom := h.room
  rw [itemsOf_cons, relocs_append] at hslots
  rw [itemsOf_cons, wordCount_append] at hroom
  exact
    { fits := fun o ho => h.fits o (List.mem_cons_of_mem _ ho)
      labels := fun o ho => h.labels o (List.mem_cons_of_mem _ ho)
      slots := fun r hr => hslots r (List.mem_append_right _ hr)
      room := by omega }

/-- What comes first is placed first. -/
theorem Placed.append {is js : List (EmitItem Ev)}
    (h : Placed code value defs p (is ++ js)) :
    Placed code value defs p is ∧ Placed code value defs (p + wordCount is) js := by
  unfold Placed at *
  rw [layout_append] at h
  constructor
  · intro i s hs
    have hlt := (List.getElem?_eq_some_iff.mp hs).1
    exact h i s (by rw [List.getElem?_append_left hlt, hs])
  · intro i s hs
    rw [Nat.add_assoc]
    refine h (wordCount is + i) s ?_
    rw [List.getElem?_append_right (by rw [length_layout]; omega), length_layout,
      Nat.add_sub_cancel_left, hs]

/-- **Outputs are decoded one after the other**, before whatever follows them. -/
theorem decodes_streamOf {rest : List (Instruction Nat)} :
    ∀ {os : List (Output Ev)} {p : Nat}, Placed code value defs p (itemsOf os) →
      Decodable value defs p os → Decodes code (p + wordCount (itemsOf os)) rest →
      Decodes code p (streamOf value defs p os ++ rest)
  | [], p, _, _, hrest => hrest
  | o :: os, p, h, hready, hrest => by
      rw [itemsOf_cons] at h hrest
      rw [wordCount_append, ← Nat.add_assoc] at hrest
      obtain ⟨ho, hos⟩ := h.append
      have hlater := decodes_streamOf hos hready.tail hrest
      rw [streamOf]
      by_cases hcount : wordCount o.items = 0
      · rw [hcount, Nat.add_zero] at hlater
        rwa [if_pos hcount]
      · rw [if_neg hcount, List.append_assoc]
        exact .step (ho.decodeAt hready.head (Nat.pos_of_ne_zero hcount)) hlater

end Placed

end OcamlJit.Bytecomp

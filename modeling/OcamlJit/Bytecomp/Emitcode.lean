/-
  OcamlJit.Bytecomp.Emitcode
  ──────────────────────────
  **EMISSION OF BYTECODE** (`ocaml/bytecomp/emitcode.ml`).

  The buffer is a long string of bytes that doubles when it is full; the table of
  labels doubles too.  Of `emit` the patterns are in `peephole`, in the order of
  the source, and what each of them puts out in `Output.emit`.
-/
import OcamlJit.Bytecomp.Instruct
import OcamlJit.Instructions.Opcode

namespace OcamlJit.Bytecomp

open OcamlJit.Instructions (RaiseKind Opcode)
open OcamlJit.Typing (Ident)

/-! ## §1. Buffering of bytecode. -/

/-- How emission stops. -/
inductive EmitError where
  | fatalError (msg : String)
  /-- `Invalid_argument "index out of bounds"`. -/
  | indexOutOfBounds
  deriving Repr, DecidableEq

/-- `label_definition`; a patch is the place and where to count from, in bytes. -/
inductive LabelDefinition where
  | labelDefined (pos : Nat)
  | labelUndefined (patchlist : List (Nat × Nat))
  deriving Repr, DecidableEq

/-- `Cmo_format.reloc_info`. -/
inductive RelocInfo where
  | relocLiteral (sc : StructuredConstant)
  | relocGetglobal (id : Ident)
  | relocSetglobal (id : Ident)
  | relocPrimitive (name : List UInt8)

/-- The variables of the module; of an event the state has the position that
`record_event` puts in it. -/
structure EmitState (Ev : Type) where
  outBuffer : List UInt8
  outPosition : Nat
  labelTable : List LabelDefinition
  relocInfo : List (RelocInfo × Nat)
  events : List (Ev × Nat)

/-- Steps of the emitter. -/
abbrev Emit (Ev : Type) := StateT (EmitState Ev) (Except EmitError)

variable {Ev : Type}

/-- `fatal_error`. -/
def fatalError {α : Type} (msg : String) : Emit Ev α := throw (.fatalError msg)

/-- `Char.unsafe_chr`, of which the buffer keeps the low byte. -/
def unsafeChr (n : Int) : UInt8 := .ofNat (n % 256).toNat

/-- `LongString.set !out_buffer`. -/
def setByte (pos : Nat) (c : UInt8) : Emit Ev Unit := do
  let s ← get
  if pos < s.outBuffer.length then set { s with outBuffer := s.outBuffer.set pos c }
  else throw .indexOutOfBounds

/-- A buffer of `2 * len` bytes that begins with the old one. -/
def doubled (buffer : List UInt8) : List UInt8 := buffer ++ List.replicate buffer.length 0

/-- The four `LongString.set`s at `p`. -/
def setWord (p : Nat) (b1 b2 b3 b4 : Int) : Emit Ev Unit := do
  setByte p (unsafeChr b1)
  setByte (p + 1) (unsafeChr b2)
  setByte (p + 2) (unsafeChr b3)
  setByte (p + 3) (unsafeChr b4)

/-- `out_word`. -/
def outWord (b1 b2 b3 b4 : Int) : Emit Ev Unit := do
  let p := (← get).outPosition
  if (← get).outBuffer.length ≤ p then
    modify fun s => { s with outBuffer := doubled s.outBuffer }
  setWord p b1 b2 b3 b4
  modify fun s => { s with outPosition := p + 4 }

/-- `out`. -/
def out (opcode : Int) : Emit Ev Unit := outWord opcode 0 0 0

/-- `const_as_int`; `none` is `AsInt`. -/
def constAsInt : StructuredConstant → Option Int
  | .constBase (.constInt i) => some i
  | .constBase (.constChar c) => some c.toNat
  | .constPointer i => some i
  | _ => none

/-- `is_immed`. -/
def isImmed (i : Int) : Bool := immedMin ≤ i && i ≤ immedMax

/-- `is_immed_const`. -/
def isImmedConst (k : StructuredConstant) : Bool :=
  match constAsInt k with
  | some i => isImmed i
  | none => false

/-- `out_int`. -/
def outInt (n : Int) : Emit Ev Unit :=
  outWord n (n >>> (8 : Nat)) (n >>> (16 : Nat)) (n >>> (24 : Nat))

/-- `out_const`. -/
def outConst (c : StructuredConstant) : Emit Ev Unit :=
  match constAsInt c with
  | some i => outInt i
  | none => fatalError "Emitcode.const_as_int"

/-! ## §2. Local labels and backpatching. -/

/-- The `while` of `extend_label_table`, which does not end from an empty table. -/
def newSize (needed size : Nat) : Nat :=
  if 0 < size ∧ size ≤ needed then newSize needed (2 * size) else size
termination_by needed + 1 - size

/-- `extend_label_table`. -/
def extendLabelTable (needed : Nat) : Emit Ev Unit :=
  modify fun s =>
    let size := newSize needed s.labelTable.length
    { s with labelTable :=
        s.labelTable ++ List.replicate (size - s.labelTable.length) (.labelUndefined []) }

/-- `(!label_table).(lbl)`. -/
def labelAt (lbl : Label) : Emit Ev LabelDefinition := do
  match (← get).labelTable[lbl]? with
  | some entry => pure entry
  | none => throw .indexOutOfBounds

/-- The same, after `extend_label_table` if there is need. -/
def labelEntry (lbl : Label) : Emit Ev LabelDefinition := do
  if (← get).labelTable.length ≤ lbl then extendLabelTable lbl
  labelAt lbl

/-- `(!label_table).(lbl) <- entry`. -/
def setLabelEntry (lbl : Label) (entry : LabelDefinition) : Emit Ev Unit :=
  modify fun s => { s with labelTable := s.labelTable.set lbl entry }

/-- `(here - orig) asr 2`. -/
def displacement (here orig : Nat) : Int := ((here : Int) - orig) >>> (2 : Nat)

/-- `backpatch`. -/
def backpatch (patch : Nat × Nat) : Emit Ev Unit := do
  let displ := displacement (← get).outPosition patch.2
  setWord patch.1 displ (displ >>> (8 : Nat)) (displ >>> (16 : Nat)) (displ >>> (24 : Nat))

/-- `define_label`. -/
def defineLabel (lbl : Label) : Emit Ev Unit := do
  match ← labelEntry lbl with
  | .labelDefined _ => fatalError "Emitcode.define_label"
  | .labelUndefined patchlist => do
      patchlist.forM backpatch
      setLabelEntry lbl (.labelDefined (← get).outPosition)

/-- `out_label_with_orig`. -/
def outLabelWithOrig (orig : Nat) (lbl : Label) : Emit Ev Unit := do
  match ← labelEntry lbl with
  | .labelDefined pos => outInt (displacement pos orig)
  | .labelUndefined patchlist => do
      setLabelEntry lbl (.labelUndefined (((← get).outPosition, orig) :: patchlist))
      outInt 0

/-- `out_label`. -/
def outLabel (l : Label) : Emit Ev Unit := do
  outLabelWithOrig (← get).outPosition l

/-! ## §3. Relocation information and events. -/

/-- `enter info; out_int 0`. -/
def slotFor (info : RelocInfo) : Emit Ev Unit := do
  modify fun s => { s with relocInfo := (info, s.outPosition) :: s.relocInfo }
  outInt 0

/-- `slot_for_literal`. -/
def slotForLiteral (sc : StructuredConstant) : Emit Ev Unit := slotFor (.relocLiteral sc)

/-- `slot_for_getglobal`. -/
def slotForGetglobal (id : Ident) : Emit Ev Unit := slotFor (.relocGetglobal id)

/-- `slot_for_setglobal`. -/
def slotForSetglobal (id : Ident) : Emit Ev Unit := slotFor (.relocSetglobal id)

/-- `slot_for_c_prim`. -/
def slotForCPrim (name : List UInt8) : Emit Ev Unit := slotFor (.relocPrimitive name)

/-- `record_event`. -/
def recordEvent (ev : Ev) : Emit Ev Unit :=
  modify fun s => { s with events := (ev, s.outPosition) :: s.events }

/-- `init`: the buffer stays. -/
def init : Emit Ev Unit :=
  modify fun s =>
    { s with
      outPosition := 0
      labelTable := List.replicate 16 (.labelUndefined [])
      relocInfo := []
      events := [] }

/-! ## §4. One instruction. -/

/-- The number of an opcode, as in `Opcodes`. -/
def op (o : Opcode) : Int := o.ctorIdx

/-- `emit_comp`. -/
def emitComp : IntegerComparison → Emit Ev Unit
  | .ceq => out (op .eq)
  | .cne => out (op .neq)
  | .clt => out (op .ltInt)
  | .cle => out (op .leInt)
  | .cgt => out (op .gtInt)
  | .cge => out (op .geInt)

/-- `emit_branch_comp`. -/
def emitBranchComp : IntegerComparison → Emit Ev Unit
  | .ceq => out (op .bEq)
  | .cne => out (op .bNeq)
  | .clt => out (op .bLtInt)
  | .cle => out (op .bLeInt)
  | .cgt => out (op .bGtInt)
  | .cge => out (op .bGeInt)

/-- An integer constant, with a short form for 0 to 3. -/
def emitConstInt (short long : Opcode) (i : Int) : Emit Ev Unit :=
  if 0 ≤ i ∧ i ≤ 3 then out (op short + i)
  else do
    out (op long)
    outInt i

/-- `ATOM0` or `ATOM`, and the forms that push. -/
def emitAtom (short long : Opcode) (t : Int) : Emit Ev Unit :=
  if t = 0 then out (op short)
  else do
    out (op long)
    outInt t

/-- An operand, with a short form below `bound`. -/
def emitSmall (bound : Int) (short long : Opcode) (n : Int) : Emit Ev Unit :=
  if n < bound then out (op short + n)
  else do
    out (op long)
    outInt n

/-- `OFFSETCLOSURE` and `PUSHOFFSETCLOSURE`. -/
def emitOffsetclosure (short long : Opcode) (ofs : Int) : Emit Ev Unit :=
  if ofs = -2 ∨ ofs = 0 ∨ ofs = 2 then out (op short + ofs.tdiv 2)
  else do
    out (op long)
    outInt ofs

/-- The constants of `Kconst`, which come again after `Kpush`. -/
def emitConst (shortInt longInt shortAtom longAtom global : Opcode) (sc : StructuredConstant) :
    Emit Ev Unit :=
  match sc with
  | .constBase (.constInt i) =>
      if isImmed i then emitConstInt shortInt longInt i
      else do
        out (op global)
        slotForLiteral sc
  | .constBase (.constChar c) => do
      out (op longInt)
      outInt c.toNat
  | .constPointer i => emitConstInt shortInt longInt i
  | .constBlock t [] => emitAtom shortAtom longAtom t
  | _ => do
      out (op global)
      slotForLiteral sc

/-- An opcode and a label. -/
def emitJump (o : Opcode) (lbl : Label) : Emit Ev Unit := do
  out (op o)
  outLabel lbl

/-- An opcode and an operand. -/
def emitWith (o : Opcode) (n : Int) : Emit Ev Unit := do
  out (op o)
  outInt n

/-- `emit_instr`. -/
def emitInstr : Kinstruction Ev → Emit Ev Unit
  | .klabel lbl => defineLabel lbl
  | .kacc n => emitSmall 8 .acc0 .acc n
  | .kenvacc n =>
      if 1 ≤ n ∧ n ≤ 4 then out (op .envAcc1 + n - 1) else emitWith .envAcc n
  | .kpush => out (op .push)
  | .kpop n => emitWith .pop n
  | .kassign n => emitWith .assign n
  | .kpushRetaddr lbl => emitJump .pushRetAddr lbl
  | .kapply n => if n < 4 then out (op .apply1 + n - 1) else emitWith .apply n
  | .kappterm n sz =>
      if n < 4 then do
        out (op .appTerm1 + n - 1)
        outInt sz
      else do
        out (op .appTerm)
        outInt n
        outInt sz
  | .kreturn n => emitWith .return_ n
  | .krestart => out (op .restart)
  | .kgrab n => emitWith .grab n
  | .kclosure lbl n => do
      out (op .closure)
      outInt n
      outLabel lbl
  | .kclosurerec lbls n => do
      out (op .closureRec)
      outInt lbls.length
      outInt n
      let org := (← get).outPosition
      lbls.forM (outLabelWithOrig org)
  | .koffsetclosure ofs => emitOffsetclosure .offsetClosure0 .offsetClosure ofs
  | .kgetglobal q => do
      out (op .getGlobal)
      slotForGetglobal q
  | .ksetglobal q => do
      out (op .setGlobal)
      slotForSetglobal q
  | .kconst sc => emitConst .const0 .constInt .atom0 .atom .getGlobal sc
  | .kmakeblock n t =>
      if n = 0 then emitAtom .atom0 .atom t
      else if n < 4 then do
        out (op .makeBlock1 + n - 1)
        outInt t
      else do
        out (op .makeBlock)
        outInt n
        outInt t
  | .kgetfield n => emitSmall 4 .getField0 .getField n
  | .ksetfield n => emitSmall 4 .setField0 .setField n
  | .kmakefloatblock n => if n = 0 then out (op .atom0) else emitWith .makeFloatBlock n
  | .kgetfloatfield n => emitWith .getFloatField n
  | .ksetfloatfield n => emitWith .setFloatField n
  | .kvectlength => out (op .vecTLength)
  | .kgetvectitem => out (op .getVecTItem)
  | .ksetvectitem => out (op .setVecTItem)
  | .kgetstringchar => out (op .getStringChar)
  | .kgetbyteschar => out (op .getBytesChar)
  | .ksetbyteschar => out (op .setBytesChar)
  | .kbranch lbl => emitJump .branch lbl
  | .kbranchif lbl => emitJump .branchIf lbl
  | .kbranchifnot lbl => emitJump .branchIfNot lbl
  | .kstrictbranchif lbl => emitJump .branchIf lbl
  | .kstrictbranchifnot lbl => emitJump .branchIfNot lbl
  | .kswitch tblConst tblBlock => do
      out (op .switch)
      outInt (tblConst.length + (tblBlock.length <<< 16 : Nat))
      let org := (← get).outPosition
      tblConst.forM (outLabelWithOrig org)
      tblBlock.forM (outLabelWithOrig org)
  | .kboolnot => out (op .boolNot)
  | .kpushtrap lbl => emitJump .pushTrap lbl
  | .kpoptrap => out (op .popTrap)
  | .kraise .regular => out (op .raise)
  | .kraise .reRaise => out (op .reRaise)
  | .kraise .noTrace => out (op .raiseNoTrace)
  | .kcheckSignals => out (op .checkSignals)
  | .kccall name n =>
      if n ≤ 5 then do
        out (op .cCall1 + n - 1)
        slotForCPrim name
      else do
        out (op .cCallN)
        outInt n
        slotForCPrim name
  | .knegint => out (op .negInt)
  | .kaddint => out (op .addInt)
  | .ksubint => out (op .subInt)
  | .kmulint => out (op .mulInt)
  | .kdivint => out (op .divInt)
  | .kmodint => out (op .modInt)
  | .kandint => out (op .andInt)
  | .korint => out (op .orInt)
  | .kxorint => out (op .xorInt)
  | .klslint => out (op .lslInt)
  | .klsrint => out (op .lsrInt)
  | .kasrint => out (op .asrInt)
  | .kintcomp c => emitComp c
  | .koffsetint n => emitWith .offsetInt n
  | .koffsetref n => emitWith .offsetRef n
  | .kisint => out (op .isInt)
  | .kisout => out (op .uLtInt)
  | .kgetmethod => out (op .getMethod)
  | .kgetpubmet tag => do
      out (op .getPubMet)
      outInt tag
      outInt 0
  | .kgetdynmet => out (op .getDynMet)
  | .kevent ev => recordEvent ev
  | .kstop => out (op .stop)

/-! ## §5. Lists of instructions. -/

/-- What a pattern of `emit` puts out. -/
inductive Output (Ev : Type) where
  | instr (i : Kinstruction Ev)
  | branchComp (c : IntegerComparison) (k : StructuredConstant) (lbl : Label)
  | branchUltint (k : StructuredConstant) (lbl : Label)
  | branchUgeint (k : StructuredConstant) (lbl : Label)
  | pushAcc (n : Int)
  | pushEnvacc (n : Int)
  | pushOffsetclosure (ofs : Int)
  | pushGetglobalField (id : Ident) (n : Int)
  | pushGetglobal (id : Ident)
  | pushConst (sc : StructuredConstant)
  | getglobalField (id : Ident) (n : Int)

/-- The right-hand sides of `emit`, up to `emit rem`. -/
def Output.emit : Output Ev → Emit Ev Unit
  | .instr i => emitInstr i
  | .branchComp c k lbl => do
      emitBranchComp c
      outConst k
      outLabel lbl
  | .branchUltint k lbl => do
      out (op .bULtInt)
      outConst k
      outLabel lbl
  | .branchUgeint k lbl => do
      out (op .bUGeInt)
      outConst k
      outLabel lbl
  | .pushAcc n => emitSmall 8 .pushAcc0 .pushAcc n
  | .pushEnvacc n =>
      if 1 ≤ n ∧ n < 4 then out (op .pushEnvAcc1 + n - 1) else emitWith .pushEnvAcc n
  | .pushOffsetclosure ofs => emitOffsetclosure .pushOffsetClosure0 .pushOffsetClosure ofs
  | .pushGetglobalField id n => do
      out (op .pushGetGlobalField)
      slotForGetglobal id
      outInt n
  | .pushGetglobal id => do
      out (op .pushGetGlobal)
      slotForGetglobal id
  | .pushConst sc => emitConst .pushConst0 .pushConstInt .pushAtom0 .pushAtom .pushGetGlobal sc
  | .getglobalField id n => do
      out (op .getGlobalField)
      slotForGetglobal id
      outInt n

/-- Which pattern of `emit` applies. -/
inductive Emission (Ev : Type) where
  | nothing
  /-- `emit ks`. -/
  | again (ks : List (Kinstruction Ev))
  /-- The output, and `emit rest`. -/
  | output (o : Output Ev) (rest : List (Kinstruction Ev))

section Peephole

variable (evs : EventOps Ev)

/-- `remerge_events`. -/
def remergeEvents (ev1 : Ev) :
    List (Kinstruction Ev) → Except EmitError (List (Kinstruction Ev))
  | .kevent ev2 :: c =>
      match evs.mergeEvents ev1 ev2 with
      | some ev => .ok (.kevent ev :: c)
      | none => .error (.fatalError "Bytegen.merge_events")
  | c => .ok (.kevent ev1 :: c)

/-- The patterns that begin with `Kpush :: Kconst k`. -/
def peepholeConst (k : StructuredConstant) (c : List (Kinstruction Ev)) : Emission Ev :=
  if isImmedConst k then
    match c with
    | .kintcomp cmp :: .kbranchif lbl :: rem => .output (.branchComp cmp k lbl) rem
    | .kintcomp cmp :: .kbranchifnot lbl :: rem =>
        .output (.branchComp (negateIntegerComparison cmp) k lbl) rem
    | .kisout :: .kbranchif lbl :: rem => .output (.branchUltint k lbl) rem
    | .kisout :: .kbranchifnot lbl :: rem => .output (.branchUgeint k lbl) rem
    | c => .output (.pushConst k) c
  else .output (.pushConst k) c

/-- Those that begin with `Kpush :: Kacc n`. -/
def peepholeAcc (n : Int) (c : List (Kinstruction Ev)) : Emission Ev :=
  match c with
  | .kreturn m :: c =>
      if n = 0 then .again (.kreturn (m - 1) :: c)
      else .output (.pushAcc n) (.kreturn m :: c)
  | c => .output (.pushAcc n) c

/-- Those that begin with `Kpush :: Kgetglobal id`. -/
def peepholeGetglobal (id : Ident) : List (Kinstruction Ev) → Emission Ev
  | .kgetfield n :: c => .output (.pushGetglobalField id n) c
  | c => .output (.pushGetglobal id) c

/-- Those that begin with `Kpush :: Kevent ev`, for an event before: it moves behind
what is pushed. -/
def peepholeEvent (ev : Ev) (c : List (Kinstruction Ev)) : Except EmitError (Emission Ev) :=
  match c with
  | .kgetglobal id :: .kgetfield n :: c => do
      pure (.again (.kpush :: .kgetglobal id :: .kgetfield n :: (← remergeEvents evs ev c)))
  | .kacc n :: c => do
      pure (.again (.kpush :: .kacc n :: (← remergeEvents evs ev c)))
  | .kenvacc n :: c => do
      pure (.again (.kpush :: .kenvacc n :: (← remergeEvents evs ev c)))
  | .koffsetclosure ofs :: c => do
      pure (.again (.kpush :: .koffsetclosure ofs :: (← remergeEvents evs ev c)))
  | .kgetglobal id :: c => do
      pure (.again (.kpush :: .kgetglobal id :: (← remergeEvents evs ev c)))
  | .kconst sc :: c => do
      pure (.again (.kpush :: .kconst sc :: (← remergeEvents evs ev c)))
  | c => pure (.output (.instr .kpush) (.kevent ev :: c))

/-- The patterns that begin with `Kpush`. -/
def peepholePush : List (Kinstruction Ev) → Except EmitError (Emission Ev)
  | .kconst k :: c => pure (peepholeConst k c)
  | .kacc n :: c => pure (peepholeAcc n c)
  | .kenvacc n :: c => pure (.output (.pushEnvacc n) c)
  | .koffsetclosure ofs :: c => pure (.output (.pushOffsetclosure ofs) c)
  | .kgetglobal id :: c => pure (peepholeGetglobal id c)
  | .kevent ev :: c =>
      if evs.before ev then peepholeEvent evs ev c
      else pure (.output (.instr .kpush) (.kevent ev :: c))
  | c => pure (.output (.instr .kpush) c)

/-- The left-hand sides of `emit`. -/
def peephole : List (Kinstruction Ev) → Except EmitError (Emission Ev)
  | [] => pure .nothing
  | .kpush :: c => peepholePush evs c
  | .kgetglobal id :: .kgetfield n :: c => pure (.output (.getglobalField id n) c)
  | instr :: c => pure (.output (.instr instr) c)

/-! ## §6. What the patterns do. -/

/-- The instructions an output stands for. -/
inductive Covers : List (Kinstruction Ev) → Output Ev → Prop where
  | instr (i : Kinstruction Ev) : Covers [i] (.instr i)
  | branchif {k : StructuredConstant} (hk : isImmedConst k = true) (c : IntegerComparison)
      (lbl : Label) :
      Covers [.kpush, .kconst k, .kintcomp c, .kbranchif lbl] (.branchComp c k lbl)
  | branchifnot {k : StructuredConstant} (hk : isImmedConst k = true) (c : IntegerComparison)
      (lbl : Label) :
      Covers [.kpush, .kconst k, .kintcomp c, .kbranchifnot lbl]
        (.branchComp (negateIntegerComparison c) k lbl)
  | rangeif {k : StructuredConstant} (hk : isImmedConst k = true) (lbl : Label) :
      Covers [.kpush, .kconst k, .kisout, .kbranchif lbl] (.branchUltint k lbl)
  | rangeifnot {k : StructuredConstant} (hk : isImmedConst k = true) (lbl : Label) :
      Covers [.kpush, .kconst k, .kisout, .kbranchifnot lbl] (.branchUgeint k lbl)
  | pushAcc (n : Int) : Covers [.kpush, .kacc n] (.pushAcc n)
  | pushEnvacc (n : Int) : Covers [.kpush, .kenvacc n] (.pushEnvacc n)
  | pushOffsetclosure (ofs : Int) :
      Covers [.kpush, .koffsetclosure ofs] (.pushOffsetclosure ofs)
  | pushGetglobalField (id : Ident) (n : Int) :
      Covers [.kpush, .kgetglobal id, .kgetfield n] (.pushGetglobalField id n)
  | pushGetglobal (id : Ident) : Covers [.kpush, .kgetglobal id] (.pushGetglobal id)
  | pushConst (sc : StructuredConstant) : Covers [.kpush, .kconst sc] (.pushConst sc)
  | getglobalField (id : Ident) (n : Int) :
      Covers [.kgetglobal id, .kgetfield n] (.getglobalField id n)

/-- What an event moves behind. -/
inductive Loads : List (Kinstruction Ev) → Prop where
  | acc (n : Int) : Loads [.kacc n]
  | envacc (n : Int) : Loads [.kenvacc n]
  | offsetclosure (ofs : Int) : Loads [.koffsetclosure ofs]
  | getglobal (id : Ident) : Loads [.kgetglobal id]
  | getglobalField (id : Ident) (n : Int) : Loads [.kgetglobal id, .kgetfield n]
  | const (sc : StructuredConstant) : Loads [.kconst sc]

/-- What is emitted instead. -/
inductive Rewrites : List (Kinstruction Ev) → List (Kinstruction Ev) → Prop where
  | ret (m : Int) (c : List (Kinstruction Ev)) :
      Rewrites (.kpush :: .kacc 0 :: .kreturn m :: c) (.kreturn (m - 1) :: c)
  | event {ev : Ev} {front c c' : List (Kinstruction Ev)} (hfront : Loads front)
      (hc : remergeEvents evs ev c = .ok c') :
      Rewrites (.kpush :: .kevent ev :: (front ++ c)) (.kpush :: (front ++ c'))

variable {evs} {ks rest : List (Kinstruction Ev)}

/-- What the outcome of the patterns says. -/
def Follows (evs : EventOps Ev) (ks : List (Kinstruction Ev)) : Emission Ev → Prop
  | .nothing => ks = []
  | .again ks' => Rewrites evs ks ks'
  | .output o rest => ∃ front, ks = front ++ rest ∧ Covers front o

/-- A constant after a push. -/
theorem follows_peepholeConst (k : StructuredConstant) (c : List (Kinstruction Ev)) :
    Follows evs (.kpush :: .kconst k :: c) (peepholeConst k c) := by
  unfold peepholeConst
  split
  next hk =>
    split
    · exact ⟨_, rfl, .branchif hk _ _⟩
    · exact ⟨_, rfl, .branchifnot hk _ _⟩
    · exact ⟨_, rfl, .rangeif hk _⟩
    · exact ⟨_, rfl, .rangeifnot hk _⟩
    · exact ⟨_, rfl, .pushConst k⟩
  · exact ⟨_, rfl, .pushConst k⟩

/-- An access after a push. -/
theorem follows_peepholeAcc (n : Int) (c : List (Kinstruction Ev)) :
    Follows evs (.kpush :: .kacc n :: c) (peepholeAcc n c) := by
  unfold peepholeAcc
  split
  · split
    next hn =>
      subst hn
      exact .ret _ _
    · exact ⟨_, rfl, .pushAcc n⟩
  · exact ⟨_, rfl, .pushAcc n⟩

/-- A global after a push. -/
theorem follows_peepholeGetglobal (id : Ident) (c : List (Kinstruction Ev)) :
    Follows evs (.kpush :: .kgetglobal id :: c) (peepholeGetglobal id c) := by
  unfold peepholeGetglobal
  split
  · exact ⟨_, rfl, .pushGetglobalField id _⟩
  · exact ⟨_, rfl, .pushGetglobal id⟩

/-- An event between a push and a load moves behind them. -/
theorem follows_remerge {ev : Ev} {front c : List (Kinstruction Ev)} (hfront : Loads front)
    {e : Emission Ev}
    (h : (do pure (.again (.kpush :: (front ++ (← remergeEvents evs ev c))))) =
      (.ok e : Except EmitError (Emission Ev))) :
    Follows evs (.kpush :: .kevent ev :: (front ++ c)) e := by
  cases hc : remergeEvents evs ev c with
  | error err =>
      rw [hc] at h
      cases h
  | ok c' =>
      rw [hc] at h
      cases h
      exact .event hfront hc

/-- An event after a push. -/
theorem follows_peepholeEvent {ev : Ev} {c : List (Kinstruction Ev)} {e : Emission Ev}
    (h : peepholeEvent evs ev c = .ok e) : Follows evs (.kpush :: .kevent ev :: c) e := by
  unfold peepholeEvent at h
  split at h
  · exact follows_remerge (.getglobalField _ _) h
  · exact follows_remerge (.acc _) h
  · exact follows_remerge (.envacc _) h
  · exact follows_remerge (.offsetclosure _) h
  · exact follows_remerge (.getglobal _) h
  · exact follows_remerge (.const _) h
  · cases h
    exact ⟨_, rfl, .instr .kpush⟩

/-- Whatever comes after a push. -/
theorem follows_peepholePush {c : List (Kinstruction Ev)} {e : Emission Ev}
    (h : peepholePush evs c = .ok e) : Follows evs (.kpush :: c) e := by
  unfold peepholePush at h
  split at h
  · cases h
    exact follows_peepholeConst _ _
  · cases h
    exact follows_peepholeAcc _ _
  · cases h
    exact ⟨_, rfl, .pushEnvacc _⟩
  · cases h
    exact ⟨_, rfl, .pushOffsetclosure _⟩
  · cases h
    exact follows_peepholeGetglobal _ _
  · split at h
    · exact follows_peepholeEvent h
    · cases h
      exact ⟨_, rfl, .instr .kpush⟩
  · cases h
    exact ⟨_, rfl, .instr .kpush⟩

/-- **Every pattern** puts out something for what it takes from the list, or
rewrites its beginning. -/
theorem follows_peephole {e : Emission Ev} (h : peephole evs ks = .ok e) : Follows evs ks e := by
  unfold peephole at h
  split at h
  · cases h
    rfl
  · exact follows_peepholePush h
  · cases h
    exact ⟨_, rfl, .getglobalField _ _⟩
  · cases h
    exact ⟨_, rfl, .instr _⟩

/-- What `emit` has still to do: an event that moves behind an instruction counts. -/
def pending : List (Kinstruction Ev) → Nat
  | .kpush :: .kevent _ :: c => 2 * (c.length + 2) + 1
  | c => 2 * c.length

/-- The bound is about twice the length. -/
theorem pending_bounds (c : List (Kinstruction Ev)) :
    2 * c.length ≤ pending c ∧ pending c ≤ 2 * c.length + 1 := by
  unfold pending
  split
  · simp only [List.length_cons]
    omega
  · omega

/-- An output takes an instruction at least. -/
theorem Covers.length_pos {front : List (Kinstruction Ev)} {o : Output Ev}
    (h : Covers front o) : 0 < front.length := by
  cases h <;> exact Nat.succ_pos _

/-- So an output brings the bound down. -/
theorem pending_output {o : Output Ev} (h : peephole evs ks = .ok (.output o rest)) :
    pending rest < pending ks := by
  obtain ⟨front, rfl, hcovers⟩ := follows_peephole h
  have hpos := hcovers.length_pos
  have hrest := (pending_bounds rest).2
  have hks := (pending_bounds (front ++ rest)).1
  rw [List.length_append] at hks
  omega

/-- Merging events adds one at most. -/
theorem length_remergeEvents {ev : Ev} {c c' : List (Kinstruction Ev)}
    (h : remergeEvents evs ev c = .ok c') : c'.length ≤ c.length + 1 := by
  unfold remergeEvents at h
  split at h
  · split at h
    · cases h
      simp only [List.length_cons]
      omega
    · cases h
  · cases h
    exact Nat.le_refl _

/-- A push before a load. -/
theorem Loads.pending_eq {front : List (Kinstruction Ev)} (h : Loads front)
    (c : List (Kinstruction Ev)) :
    pending (.kpush :: (front ++ c)) = 2 * (1 + (front.length + c.length)) := by
  cases h <;>
    simp only [List.cons_append, List.nil_append, pending, List.length_cons, List.length_nil] <;>
    omega

/-- **Rewriting brings the bound down**. -/
theorem pending_again {ks' : List (Kinstruction Ev)}
    (h : peephole evs ks = .ok (.again ks')) : pending ks' < pending ks := by
  cases follows_peephole h with
  | ret m c =>
      have hbefore := (pending_bounds (.kpush :: .kacc 0 :: .kreturn m :: c)).1
      have hafter := (pending_bounds (.kreturn (m - 1) :: c)).2
      simp only [List.length_cons] at hbefore hafter
      omega
  | @event ev front c c' hfront hc =>
      have hlen := length_remergeEvents hc
      rw [hfront.pending_eq, pending, List.length_append]
      omega

end Peephole

/-! ## §7. Emission. -/

section Emission

variable (evs : EventOps Ev)

/-- `emit`. -/
def emit (ks : List (Kinstruction Ev)) : Emit Ev Unit :=
  match _h : peephole evs ks with
  | .error e => throw e
  | .ok .nothing => pure ()
  | .ok (.again ks') => emit ks'
  | .ok (.output o rest) => do
      o.emit
      emit rest
termination_by pending ks
decreasing_by
  · exact pending_again _h
  · exact pending_output _h

/-- The code so far. -/
def codeSoFar : Emit Ev (List UInt8) := do
  pure ((← get).outBuffer.take (← get).outPosition)

/-- What `to_file` puts in a unit: the code, the relocation information and the
events. -/
def toFile (code : List (Kinstruction Ev)) :
    Emit Ev (List UInt8 × List (RelocInfo × Nat) × List (Ev × Nat)) := do
  init
  emit evs code
  let bytes ← codeSoFar
  let reloc := (← get).relocInfo.reverse
  let events := (← get).events
  init
  pure (bytes, reloc, events)

/-- `to_memory`. -/
def toMemory (initCode funCode : List (Kinstruction Ev)) :
    Emit Ev (List UInt8 × List (RelocInfo × Nat) × List (Ev × Nat)) := do
  init
  emit evs initCode
  emit evs funCode
  let bytes ← codeSoFar
  let reloc := (← get).relocInfo.reverse
  let events := (← get).events
  init
  pure (bytes, reloc, events)

end Emission

end OcamlJit.Bytecomp

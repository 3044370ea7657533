/-
  OcamlJit.Bytecomp.Peephole
  ──────────────────────────
  **THE PATTERNS OF `emit` KEEP THE MEANING.**

  `emit` cuts a list of instructions into pieces and puts out one output for each.
  But for the events, which have no meaning and which it moves, the pieces one after
  the other are the list.

    • `Chooses.exists_pieces`   the pieces of a list;
    • `parallel_program`        what is decoded is parallel to the instructions;
    • `linkedRun_sim`           runs of a linked program.
-/
import OcamlJit.Bytecode.Fusion
import OcamlJit.Bytecomp.Operands

namespace OcamlJit.Bytecomp

open OcamlJit.Instructions OcamlJit.Bytecode
open OcamlJit.Lib OcamlJit.Lib.Backpatch
open OcamlJit.Interp (Value)
open OcamlJit.Bytecomp.Bytelink OcamlJit.Bytecomp.Symtable

variable {Ev : Type}

/-! ## §1. Pieces. -/

/-- Not an event. -/
def Kinstruction.acts : Kinstruction Ev → Bool
  | .kevent _ => false
  | _ => true

/-- The instructions but for the events. -/
def withoutEvents (ks : List (Kinstruction Ev)) : List (Kinstruction Ev) :=
  ks.filter Kinstruction.acts

/-- Instructions, and the output for them. -/
abbrev Piece (Ev : Type) := List (Kinstruction Ev) × Output Ev

/-- The output of a piece. -/
inductive Serves : List (Kinstruction Ev) → Output Ev → Prop where
  | covers {front : List (Kinstruction Ev)} {o : Output Ev} (h : Covers front o) : Serves front o
  | return_ (m : Int) : Serves [.kpush, .kacc 0, .kreturn m] (.instr (.kreturn (m - 1)))

/-- A list in pieces. -/
structure Divides (ks : List (Kinstruction Ev)) (pieces : List (Piece Ev)) : Prop where
  serves : ∀ piece ∈ pieces, Serves piece.1 piece.2
  code : withoutEvents (pieces.flatMap Prod.fst) = withoutEvents ks

section Pieces

variable {evs : EventOps Ev} {ks : List (Kinstruction Ev)} {pieces : List (Piece Ev)}

/-- Two stretches without their events. -/
theorem withoutEvents_append (ks ks' : List (Kinstruction Ev)) :
    withoutEvents (ks ++ ks') = withoutEvents ks ++ withoutEvents ks' :=
  List.filter_append _ _

/-- Merging events changes nothing else. -/
theorem withoutEvents_remerge {ev : Ev} {c c' : List (Kinstruction Ev)}
    (h : remergeEvents evs ev c = .ok c') : withoutEvents c' = withoutEvents c := by
  unfold remergeEvents at h
  split at h
  · split at h
    · cases h
      rfl
    · cases h
  · cases h
    rfl

/-- A piece that puts out a `RETURN`. -/
theorem Serves.of_return {front : List (Kinstruction Ev)} {m : Int}
    (h : Serves front (.instr (.kreturn m))) :
    front = [.kreturn m] ∨ front = [.kpush, .kacc 0, .kreturn (m + 1)] := by
  generalize ho : (Output.instr (.kreturn m) : Output Ev) = o at h
  cases h with
  | covers h =>
      cases h <;> cases ho
      exact .inl rfl
  | return_ n =>
      cases ho
      exact .inr (by rw [Int.sub_add_cancel])

/-- **`emit` cuts a list into pieces.** -/
theorem Chooses.exists_pieces {os : List (Output Ev)} (h : Chooses evs ks os) :
    ∃ pieces, Divides ks pieces ∧ pieces.map Prod.snd = os := by
  induction h with
  | nothing he =>
      obtain rfl := follows_peephole he
      exact ⟨[], ⟨fun piece hpiece => absurd hpiece List.not_mem_nil, rfl⟩, rfl⟩
  | @output ks rest o os he _ ih =>
      obtain ⟨front, rfl, hcovers⟩ := follows_peephole he
      obtain ⟨pieces, hdivides, rfl⟩ := ih
      refine ⟨(front, o) :: pieces, ⟨fun piece hpiece => ?_, ?_⟩, rfl⟩
      · rcases List.mem_cons.mp hpiece with rfl | hpiece
        · exact .covers hcovers
        · exact hdivides.serves piece hpiece
      · rw [List.flatMap_cons, withoutEvents_append, withoutEvents_append, hdivides.code]
  | @again ks ks' os he hrest ih =>
      obtain ⟨pieces, hdivides, hos⟩ := ih
      have hfollows : Rewrites evs ks ks' := follows_peephole he
      cases hfollows with
      -- an event is moved over the `PUSH`: without the events nothing changes
      | @event ev front c c' hfront hc =>
          refine ⟨pieces, ⟨hdivides.serves, hdivides.code.trans ?_⟩, hos⟩
          show .kpush :: withoutEvents (front ++ c') = .kpush :: withoutEvents (front ++ c)
          rw [withoutEvents_append, withoutEvents_append, withoutEvents_remerge hc]
      | ret m c =>
          -- the first piece is the `RETURN`: it takes what was before it
          rcases hrest.inv rfl with ⟨h, -⟩ | ⟨_, h, -⟩ | ⟨o, rest, os', h, rfl, -⟩
          · cases h
          · cases h
          · cases h
            cases pieces with
            | nil => cases hos
            | cons piece pieces =>
                obtain ⟨front, o⟩ := piece
                rw [List.map_cons, List.cons.injEq] at hos
                obtain ⟨rfl, hos⟩ := hos
                have hcode := hdivides.code
                rw [List.flatMap_cons, withoutEvents_append] at hcode
                rcases (hdivides.serves _ List.mem_cons_self).of_return with rfl | rfl
                · refine ⟨([.kpush, .kacc 0, .kreturn m], .instr (.kreturn (m - 1))) :: pieces,
                    ⟨fun piece hpiece => ?_, ?_⟩, by rw [List.map_cons, hos]⟩
                  · rcases List.mem_cons.mp hpiece with rfl | hpiece
                    · exact .return_ m
                    · exact hdivides.serves piece (List.mem_cons_of_mem _ hpiece)
                  · rw [List.flatMap_cons, withoutEvents_append]
                    have htail : withoutEvents (pieces.flatMap Prod.fst) = withoutEvents c :=
                      (List.cons.inj hcode).2
                    rw [htail]
                    rfl
                · cases (List.cons.inj hcode).1

/-- **`to_file` puts out an output for each piece** of the list: its result is the code,
the relocations and the events that two passes over the outputs give.  It stops only
where events do not merge or a label is defined twice. -/
theorem toFile_emits {st : EmitState Ev} (h : BufferOk st) (ks : List (Kinstruction Ev)) :
    (∃ pieces st', Divides ks pieces ∧ Unique (itemsOf (pieces.map Prod.snd)) ∧
      toFile evs ks st = .ok (objectOf (itemsOf (pieces.map Prod.snd)), st') ∧ BufferOk st') ∨
    ((∃ e, toFile evs ks st = .error e) ∧
      ∀ os, Chooses evs ks os → ¬ Unique (itemsOf os)) := by
  have hnil : Chooses evs ([] : List (Kinstruction Ev)) [] := .nothing rfl
  rw [toFile_eq]
  rcases toMemory_eq h [] ks with
    ⟨os, os', st', hos, hos', hunique, hmemory, hbuffer⟩ | ⟨herr, hnot⟩
  · obtain rfl := hos.unique hnil
    obtain ⟨pieces, hdivides, rfl⟩ := hos'.exists_pieces
    exact .inl ⟨pieces, st', hdivides, hunique, hmemory, hbuffer⟩
  · exact .inr ⟨herr, fun os hos => hnot [] os hnil hos⟩

/-- A function that returns its argument. -/
def returning : List (Kinstruction Unit) := [.kpush, .kacc 0, .kreturn 2]

/-- No events to merge. -/
def noEvents : EventOps Unit := ⟨fun _ => false, fun _ _ => none⟩

/-- The emitter before the first unit. -/
def firstState : EmitState Unit := ⟨List.replicate 1024 0, 0, [], [], []⟩

/-- The function that returns its argument, in one piece. -/
theorem toFile_emits_returning : ∃ pieces st', Divides returning pieces ∧
    Unique (itemsOf (pieces.map Prod.snd)) ∧
    toFile noEvents returning firstState =
      .ok (objectOf (itemsOf (pieces.map Prod.snd)), st') ∧ BufferOk st' := by
  have hlen : firstState.outBuffer.length = 1024 := List.length_replicate
  have hbuffer : BufferOk firstState := ⟨by rw [hlen]; decide, by rw [hlen]; decide⟩
  rcases toFile_emits hbuffer returning with h | ⟨-, hnot⟩
  · exact h
  · have hchooses : Chooses noEvents returning [.instr (.kreturn 1)] :=
      .again rfl (.output rfl (.nothing rfl))
    have hunique : Unique (itemsOf ([.instr (.kreturn 1)] : List (Output Unit))) :=
      List.nodup_nil
    exact absurd hunique (hnot _ hchooses)

end Pieces

/-! ## §2. Lists of instructions that are sound. -/

/-- The labels an instruction refers to. -/
def Kinstruction.labels (k : Kinstruction Ev) : List Label := (Output.instr k).labels

/-- What the bytecode compiler sees to. -/
structure CodeOk (ks : List (Kinstruction Ev)) : Prop where
  fits : ∀ k ∈ ks, k.Fits
  /-- At a `RETURN` there is something to be popped. -/
  returns : ∀ m, .kreturn m ∈ ks → 1 ≤ m ∧ m < 2 ^ 31
  labels : ∀ k ∈ ks, ∀ l ∈ k.labels, .klabel l ∈ ks

section Sound

variable {ks : List (Kinstruction Ev)} {pieces : List (Piece Ev)}

/-- What is left are the instructions that act. -/
theorem mem_withoutEvents {k : Kinstruction Ev} :
    k ∈ withoutEvents ks ↔ k ∈ ks ∧ k.acts = true := List.mem_filter

/-- An instruction of a piece is one of the list. -/
theorem Divides.mem_of_piece (h : Divides ks pieces) {piece : Piece Ev} (hpiece : piece ∈ pieces)
    {k : Kinstruction Ev} (hk : k ∈ piece.1) (hacts : k.acts = true) : k ∈ ks := by
  have hmem : k ∈ withoutEvents (pieces.flatMap Prod.fst) :=
    mem_withoutEvents.mpr ⟨List.mem_flatMap.mpr ⟨piece, hpiece, hk⟩, hacts⟩
  rw [h.code] at hmem
  exact (mem_withoutEvents.mp hmem).1

/-- An instruction of the list is in one of the pieces. -/
theorem Divides.exists_piece (h : Divides ks pieces) {k : Kinstruction Ev} (hk : k ∈ ks)
    (hacts : k.acts = true) : ∃ piece ∈ pieces, k ∈ piece.1 := by
  have hmem : k ∈ withoutEvents ks := mem_withoutEvents.mpr ⟨hk, hacts⟩
  rw [← h.code] at hmem
  exact List.mem_flatMap.mp (mem_withoutEvents.mp hmem).1

/-- An output fits when the instructions it stands for do. -/
theorem Serves.fits {front : List (Kinstruction Ev)} {o : Output Ev} (h : Serves front o)
    (hfits : ∀ k ∈ front, k.acts = true → k.Fits)
    (hreturns : ∀ m, .kreturn m ∈ front → 1 ≤ m) : o.Fits := by
  cases h with
  | return_ m =>
      have hm := hreturns m (by simp)
      have hfit : FitsU32 m := hfits (.kreturn m) (by simp) rfl
      exact ⟨by omega, by have := hfit.2; omega⟩
  | covers h =>
      cases h with
      | instr k =>
          cases k with
          | kevent ev => exact trivial
          | _ => exact hfits _ List.mem_cons_self rfl
      | branchif hk => exact hk
      | branchifnot hk => exact hk
      | rangeif hk => exact hk
      | rangeifnot hk => exact hk
      | pushAcc n => exact hfits (.kacc n) (by simp) rfl
      | pushEnvacc n => exact hfits (.kenvacc n) (by simp) rfl
      | pushOffsetclosure ofs => exact hfits (.koffsetclosure ofs) (by simp) rfl
      | pushGetglobalField id n => exact hfits (.kgetfield n) (by simp) rfl
      | pushGetglobal id => exact trivial
      | pushConst sc => exact hfits (.kconst sc) (by simp) rfl
      | getglobalField id n => exact hfits (.kgetfield n) (by simp) rfl

/-- The labels of an output are those of its instructions. -/
theorem Serves.labels {front : List (Kinstruction Ev)} {o : Output Ev} (h : Serves front o) :
    o.labels = front.flatMap Kinstruction.labels := by
  cases h with
  | return_ m => rfl
  | covers h =>
      cases h with
      | instr k => exact (List.flatMap_singleton ..).symm
      | _ => rfl

/-- A label stands for itself. -/
theorem Serves.of_klabel {front : List (Kinstruction Ev)} {o : Output Ev} (h : Serves front o)
    {l : Label} (hl : .klabel l ∈ front) : o = .instr (.klabel l) := by
  cases h with
  | return_ m => simp at hl
  | covers h =>
      cases h with
      | instr k =>
          rw [List.mem_singleton.mp hl]
      | _ => simp at hl

/-- An instruction with labels acts. -/
theorem acts_of_mem_labels {k : Kinstruction Ev} {l : Label} (h : l ∈ k.labels) :
    k.acts = true := by
  cases k with
  | kevent ev => cases h
  | _ => rfl

/-- A label that comes out is defined. -/
theorem mem_definitions_of_klabel {l : Label} :
    ∀ {os : List (Output Ev)} (p : Nat), .instr (.klabel l) ∈ os →
      l ∈ (definitions p (itemsOf os)).map Prod.fst
  | o :: os, p, h => by
      rw [itemsOf_cons, definitions_append, List.map_append, List.mem_append]
      rcases List.mem_cons.mp h with rfl | h
      · exact .inl List.mem_cons_self
      · exact .inr (mem_definitions_of_klabel _ h)

/-- **The outputs for sound instructions are sound.** -/
theorem Divides.unitOk (h : Divides ks pieces) (hok : CodeOk ks) :
    UnitOk (pieces.map Prod.snd) where
  fits o ho := by
    obtain ⟨piece, hpiece, rfl⟩ := List.mem_map.mp ho
    exact (h.serves piece hpiece).fits
      (fun k hk hacts => hok.fits k (h.mem_of_piece hpiece hk hacts))
      (fun m hm => (hok.returns m (h.mem_of_piece hpiece hm rfl)).1)
  labels o ho l hl := by
    obtain ⟨piece, hpiece, rfl⟩ := List.mem_map.mp ho
    rw [(h.serves piece hpiece).labels] at hl
    obtain ⟨k, hk, hl⟩ := List.mem_flatMap.mp hl
    have hks := h.mem_of_piece hpiece hk (acts_of_mem_labels hl)
    obtain ⟨piece', hpiece', hdef⟩ := h.exists_piece (hok.labels k hks l hl) rfl
    have heq := (h.serves piece' hpiece').of_klabel hdef
    exact mem_definitions_of_klabel 0 (List.mem_map.mpr ⟨piece', hpiece', heq⟩)

end Sound

/-! ## §3. Streams of instructions. -/

/-- The instructions of a piece, as they are decoded. -/
def Piece.instrs (value : Nat → Int) (defs : List (Label × Nat)) (p : Nat) (piece : Piece Ev) :
    List (Instruction Nat) :=
  piece.1.flatMap (Kinstruction.instrs (value (p + piece.2.slotAfter)).toNat (locOf defs))

/-- The instructions of pieces, each piece at the place of its output. -/
def sourceStream (value : Nat → Int) (defs : List (Label × Nat)) :
    Nat → List (Piece Ev) → List (Instruction Nat)
  | _, [] => []
  | p, piece :: pieces =>
      if wordCount piece.2.items = 0 then sourceStream value defs p pieces
      else .labelDef p :: piece.instrs value defs p ++
        sourceStream value defs (p + wordCount piece.2.items) pieces

/-- The outputs of units. -/
def outputsOf (piecess : List (List (Piece Ev))) : List (List (Output Ev)) :=
  piecess.map (List.map Prod.snd)

/-- The instructions of units that begin at `b`, and the `STOP` after them. -/
def sourceProgram (value : Nat → Nat) : Nat → List (List (Piece Ev)) → List (Instruction Nat)
  | b, [] => [.labelDef b, .stop]
  | b, pieces :: piecess =>
      sourceStream (fun p => value p) (definitions b (itemsOf (pieces.map Prod.snd))) b pieces ++
        sourceProgram value (b + wordCount (itemsOf (pieces.map Prod.snd))) piecess

section Streams

variable {slot : Nat} {loc : Label → Nat}

/-- Constants are plain instructions. -/
theorem isPlain_constInstrs (sc : StructuredConstant) :
    ∀ i ∈ constInstrs slot sc, isPlain i = true := by
  unfold constInstrs
  split
  · split <;> exact List.forall_mem_singleton.mpr rfl
  · exact List.forall_mem_singleton.mpr rfl
  · exact List.forall_mem_singleton.mpr rfl
  · exact List.forall_mem_singleton.mpr rfl
  · exact List.forall_mem_singleton.mpr rfl

/-- And so are the instructions of every opcode. -/
theorem Kinstruction.isPlain_instrs (k : Kinstruction Ev) :
    ∀ i ∈ k.instrs slot loc, isPlain i = true := by
  cases k with
  | kconst sc => exact isPlain_constInstrs sc
  | kapply n =>
      simp only [Kinstruction.instrs, applyInstr]
      split <;> exact List.forall_mem_singleton.mpr rfl
  | kccall name n =>
      simp only [Kinstruction.instrs, ccallInstr]
      split <;> exact List.forall_mem_singleton.mpr rfl
  | kmakefloatblock n =>
      simp only [Kinstruction.instrs]
      split <;> exact List.forall_mem_singleton.mpr rfl
  | _ => simp [Kinstruction.instrs, isPlain]

/-- A constant that is an operand. -/
theorem constInstrs_of_isImmedConst (slot : Nat) {k : StructuredConstant}
    (h : isImmedConst k = true) :
    constInstrs slot k = [.const ((constAsInt k).getD 0)] ∧
      OcamlJit.Cranelift.immediateOk ((constAsInt k).getD 0) = true := by
  have himmed {i : Int} (hi : isImmed i = true) : OcamlJit.Cranelift.immediateOk i = true := by
    unfold isImmed immedMin immedMax at hi
    rw [Bool.and_eq_true, decide_eq_true_eq, decide_eq_true_eq] at hi
    exact decide_eq_true ⟨by omega, by omega⟩
  unfold isImmedConst at h
  cases k with
  | constBase c =>
      cases c with
      | constInt i => exact ⟨if_pos h, himmed h⟩
      | constChar c => exact ⟨rfl, himmed h⟩
      | _ => cases h
  | constPointer i => exact ⟨rfl, himmed h⟩
  | _ => cases h

/-- The negated comparison is the comparison negated. -/
theorem negated_comp (c : IntegerComparison) :
    negated c.comp = (negateIntegerComparison c).comp := by
  cases c <;> rfl

/-- **An output stands for the instructions of its piece.** -/
theorem Serves.fuses {front : List (Kinstruction Ev)} {o : Output Ev} (h : Serves front o)
    (hreturns : ∀ m, .kreturn m ∈ front → 1 ≤ m ∧ m < 2 ^ 31) :
    Fuses (front.flatMap (Kinstruction.instrs slot loc)) (o.instrs slot loc) := by
  cases h with
  | return_ m =>
      obtain ⟨hpos, hlt⟩ := hreturns m (by simp)
      have hnat : m.toNat = (m - 1).toNat + 1 := by omega
      show Fuses [.push, .acc 0, .return_ m.toNat] [.return_ (m - 1).toNat]
      rw [hnat]
      exact .return_ (by omega)
  | covers h =>
      cases h with
      | instr k =>
          rw [List.flatMap_singleton]
          exact .same _
      -- a constant, a comparison and a branch become one
      | branchif hk c lbl =>
          obtain ⟨hconst, himmed⟩ := constInstrs_of_isImmedConst slot hk
          show Fuses (.push :: (constInstrs slot _ ++ [.intCmp c.comp, .branchIf (loc lbl)])) _
          rw [hconst]
          exact .branchIf himmed c.comp (loc lbl)
      -- the comparison is turned round
      | branchifnot hk c lbl =>
          obtain ⟨hconst, himmed⟩ := constInstrs_of_isImmedConst slot hk
          show Fuses (.push :: (constInstrs slot _ ++ [.intCmp c.comp, .branchIfNot (loc lbl)]))
            [.branchCmp (negateIntegerComparison c).comp _ _]
          rw [hconst, ← negated_comp]
          exact .branchIfNot himmed c.comp (loc lbl)
      | rangeif hk lbl =>
          obtain ⟨hconst, himmed⟩ := constInstrs_of_isImmedConst slot hk
          show Fuses (.push :: (constInstrs slot _ ++ [.intCmp .uLt, .branchIf (loc lbl)])) _
          rw [hconst]
          exact .branchIf himmed .uLt (loc lbl)
      | rangeifnot hk lbl =>
          obtain ⟨hconst, himmed⟩ := constInstrs_of_isImmedConst slot hk
          show Fuses (.push :: (constInstrs slot _ ++ [.intCmp .uLt, .branchIfNot (loc lbl)])) _
          rw [hconst]
          exact .branchIfNot himmed .uLt (loc lbl)
      | pushConst sc =>
          show Fuses (.push :: (constInstrs slot sc ++ [])) _
          rw [List.append_nil]
          exact .same _
      | _ => exact .same _

/-- And those of a stretch. -/
theorem isPlain_flatMap (front : List (Kinstruction Ev)) :
    ∀ i ∈ front.flatMap (Kinstruction.instrs slot loc), isPlain i = true := by
  intro i hi
  obtain ⟨k, -, hi⟩ := List.mem_flatMap.mp hi
  exact k.isPlain_instrs i hi

/-- An output is decoded to no `labelDef`. -/
theorem Output.isPlain_instrs (o : Output Ev) : ∀ i ∈ o.instrs slot loc, isPlain i = true := by
  cases o with
  | instr k => exact k.isPlain_instrs
  | pushConst sc =>
      intro i hi
      rcases List.mem_cons.mp hi with rfl | hi
      · rfl
      · exact isPlain_constInstrs sc i hi
  | _ => simp [Output.instrs, isPlain]

/-- **What is decoded is parallel to the instructions.** -/
theorem parallel_streamOf {value : Nat → Int} {defs : List (Label × Nat)}
    {S T : List (Instruction Nat)} (hrest : Parallel S T) :
    ∀ (pieces : List (Piece Ev)) (p : Nat), (∀ piece ∈ pieces, Serves piece.1 piece.2) →
      (∀ piece ∈ pieces, ∀ m, .kreturn m ∈ piece.1 → 1 ≤ m ∧ m < 2 ^ 31) →
      Parallel (sourceStream value defs p pieces ++ S)
        (streamOf value defs p (pieces.map Prod.snd) ++ T)
  | [], _, _, _ => hrest
  | piece :: pieces, p, hserves, hreturns => by
      have hserve := hserves piece List.mem_cons_self
      have hlater (q : Nat) := @parallel_streamOf value defs S T hrest pieces q
        (fun piece' h => hserves piece' (List.mem_cons_of_mem _ h))
        (fun piece' h => hreturns piece' (List.mem_cons_of_mem _ h))
      rw [List.map_cons, sourceStream, streamOf]
      by_cases hcount : wordCount piece.2.items = 0
      · rw [if_pos hcount, if_pos hcount]
        exact hlater p
      · rw [if_neg hcount, if_neg hcount, List.append_assoc, List.append_assoc]
        exact .cons (isPlain_flatMap _) (Output.isPlain_instrs _)
          (hserve.fuses (hreturns piece List.mem_cons_self)) (hlater _)

/-- **The two programs run side by side**: unit by unit, piece by piece. -/
theorem parallel_program {value : Nat → Nat} :
    ∀ {kss : List (List (Kinstruction Ev))} {piecess : List (List (Piece Ev))} (b : Nat),
      List.Forall₂ Divides kss piecess → (∀ ks ∈ kss, CodeOk ks) →
      Parallel (sourceProgram value b piecess) (programOf value b (outputsOf piecess))
  | _, _, b, .nil, _ =>
      .cons (List.forall_mem_singleton.mpr rfl) (List.forall_mem_singleton.mpr rfl) (.same _) .nil
  | ks :: kss, pieces :: piecess, b, .cons h hrest, hok => by
      have hlater := @parallel_program value kss piecess
        (b + wordCount (itemsOf (pieces.map Prod.snd))) hrest
        fun ks' h => hok ks' (List.mem_cons_of_mem _ h)
      refine parallel_streamOf hlater pieces b h.serves fun piece hpiece m hm => ?_
      exact (hok ks List.mem_cons_self).returns m (h.mem_of_piece hpiece hm rfl)

end Streams

/-! ## §4. Runs of linked programs. -/

section Linked

variable {O : Oracle Bytecode.Effect Value} {opts : LinkOptions} {tables : Tables}
  {objfiles : List (LinkAction Ev)} {kss : List (List (Kinstruction Ev))}
  {piecess : List (List (Piece Ev))} {st : LinkState Ev} {im : Image}

/-- The units that come out are as they should be. -/
theorem forall₂_unitOk (h : List.Forall₂ Divides kss piecess) (hok : ∀ ks ∈ kss, CodeOk ks) :
    ∀ os ∈ outputsOf piecess, UnitOk os := by
  induction h with
  | nil => exact fun os hos => absurd hos List.not_mem_nil
  | @cons ks pieces kss piecess hdivides _ ih =>
      intro os hos
      rcases List.mem_cons.mp hos with rfl | hos
      · exact hdivides.unitOk (hok ks List.mem_cons_self)
      · exact ih (fun ks' h => hok ks' (List.mem_cons_of_mem _ h)) os hos

/-- **A linked program runs like its instructions.**  The interpreter on the words of
the program makes the requests that the instructions of the units make, piece by
piece, in the same order, and leaves the same registers, but for the accumulator,
and the same stack. -/
theorem linkedRun_sim
    (hlinkable : Linkable tables (linkedUnits opts.linkEverything objfiles) (outputsOf piecess))
    (hdivides : List.Forall₂ Divides kss piecess) (hok : ∀ ks ∈ kss, CodeOk ks)
    (hroom : programLength (outputsOf piecess) + 1 < 2 ^ 31)
    (hlink : link opts tables objfiles = .ok st) (hsmall : Small st)
    (hdead : ∀ value, BranchesDead O im (programLength (outputsOf piecess) + 1)
      (sourceProgram value 0 piecess) (programOf value 0 (outputsOf piecess))) :
    ∃ words value, st.code = codeBytes words ∧
      (∀ r ∈ relocsFrom 0 (outputsOf piecess), Numbers st.tables r.1 (value r.2)) ∧
      ∀ (n : Nat) (r : Regs), Sim (O := O) SameButAccu
        (runFor (comparingFetch im words.length (programOf value 0 (outputsOf piecess))
          (interpFetch im words (programOf value 0 (outputsOf piecess)))) n r)
        (runFor (streamFetch im words.length (sourceProgram value 0 piecess)) n r) := by
  obtain ⟨value, hcode, hlinked⟩ := linked_words hlinkable hlink
  have hunits := forall₂_unitOk hdivides hok
  have hvalue := value_lt_of_linked hlinked hsmall
  have hlen : (wordsFrom value 0 (outputsOf piecess) ++ [wordOfInt (op .stop)]).length =
      programLength (outputsOf piecess) + 1 := by
    rw [List.length_append, length_wordsFrom]
    rfl
  have hdec := decodeAll_eq_ok.mpr (decodes_program [] hunits
    (by rw [List.length_nil]; omega) hvalue)
  have hfit := operandsFit_program [] hunits (by rw [List.length_nil]; omega) hvalue
  have hdead' := hdead value
  rw [← hlen] at hdead'
  refine ⟨_, value, hcode, hlinked.numbers, fun n r => ?_⟩
  exact fusedRun_sim (parallel_program 0 hdivides hok) hdec hfit hdead' n r

end Linked

/-! ### A program with a comparison. -/

/-- `Const_base(Const_int n)`. -/
def constNum (n : Int) : StructuredConstant := .constBase (.constInt n)

/-- The pieces of `A = if 5 = 0 then 2 else (1; 2)`. -/
def comparingPieces : List (Piece Unit) :=
  [([.kconst (constNum 5)], .instr (.kconst (constNum 5))),
    ([.kpush, .kconst (constNum 0), .kintcomp .ceq, .kbranchif 1],
      .branchComp .ceq (constNum 0) 1),
    ([.kconst (constNum 1)], .instr (.kconst (constNum 1))),
    ([.klabel 1], .instr (.klabel 1)),
    ([.kconst (constNum 2)], .instr (.kconst (constNum 2))),
    ([.ksetglobal (.global [65])], .instr (.ksetglobal (.global [65])))]

/-- The unit of these pieces. -/
def comparingUnit : CompilationUnit Unit := unitOf (comparingPieces.map Prod.snd)

/-- The pieces of the example. -/
theorem divides_comparing :
    Divides (comparingPieces.flatMap Prod.fst) comparingPieces where
  serves := by
    simp only [comparingPieces, List.forall_mem_cons]
    exact ⟨.covers (.instr _), .covers (.branchif rfl _ _), .covers (.instr _),
      .covers (.instr _), .covers (.instr _), .covers (.instr _),
      fun _ h => absurd h List.not_mem_nil⟩
  code := rfl

/-- Its code is as it should be. -/
theorem codeOk_comparing : CodeOk (comparingPieces.flatMap Prod.fst) where
  fits := by
    simp [comparingPieces, Kinstruction.Fits, StructuredConstant.Fits, constNum]
  returns := by simp [comparingPieces]
  labels := by simp [comparingPieces, Kinstruction.labels, Output.labels]

/-- It can be linked. -/
theorem linkable_comparing :
    Linkable ⟨.empty, [], .empty⟩ (linkedUnits false [.linkObject comparingUnit])
      (outputsOf [comparingPieces]) where
  compiled := .cons (compiled_unitOf _) .nil
  ok := emptyTables_ok
  sets := ⟨List.nodup_singleton _, fun key _ => rfl⟩
  own compunit hmem before id pos after hsplit _ := by
    obtain rfl : compunit = comparingUnit := List.mem_singleton.mp hmem
    have hreloc : comparingUnit.cuReloc = [(.relocSetglobal (.global [65]), 32)] := rfl
    rw [hreloc] at hsplit
    cases before with
    | nil => cases hsplit
    | cons r before => cases before <;> cases hsplit
  predef key hkey _ := by cases hkey

/-- Its dead branch is never taken. -/
theorem branchesDead_comparing (O : Oracle Bytecode.Effect Value) (im : Image)
    (value : Nat → Nat) :
    BranchesDead O im 10 (sourceProgram value 0 [comparingPieces])
      (programOf value 0 (outputsOf [comparingPieces])) := by
  have hdead5 : AccuDead O im 10 (sourceProgram value 0 [comparingPieces]) 5 :=
    accuDead_of_loadsAccu (q := 6) rfl rfl
  have hdead6 : AccuDead O im 10 (sourceProgram value 0 [comparingPieces]) 6 :=
    accuDead_of_loadsAccu (q := 7) rfl rfl
  have hprogram : programOf value 0 (outputsOf [comparingPieces]) =
      [.labelDef 0, .const 5, .labelDef 2, .branchCmp .eq 0 6, .labelDef 5, .const 1, .labelDef 6,
        .const 2, .labelDef 7, .setGlobal (value 8), .labelDef 9, .stop] := rfl
  rintro off is q l hT ⟨cmp, n, l', rfl, hl⟩
  rw [hprogram] at hT
  have hmem : off = 0 ∨ off = 2 ∨ off = 5 ∨ off = 6 ∨ off = 7 ∨ off = 9 := by
    by_contra hnot
    have hskip := @opcodeIn_append off [] 10 [.labelDef 0, .const 5, .labelDef 2,
      .branchCmp .eq 0 6, .labelDef 5, .const 1, .labelDef 6, .const 2, .labelDef 7,
      .setGlobal (value 8), .labelDef 9, .stop] (by simp; omega)
    rw [List.append_nil, hT] at hskip
    cases hskip
  rcases hmem with rfl | rfl | rfl | rfl | rfl | rfl
  · cases hT
  · cases hT
    rcases hl with rfl | rfl
    · exact hdead6
    · exact hdead5
  · cases hT
  · cases hT
  · cases hT
  · cases hT

/-- And it is linked. -/
theorem link_comparing : ∃ st,
    link ⟨fun _ => true, false, false⟩ ⟨.empty, [], .empty⟩ [.linkObject comparingUnit] =
      .ok st ∧ Small st :=
  ⟨_, rfl, by decide, by decide⟩

/-- The program with a comparison runs like its instructions. -/
theorem linkedRun_sim_comparing : ∃ st,
    link ⟨fun _ => true, false, false⟩ ⟨.empty, [], .empty⟩ [.linkObject comparingUnit] =
      .ok st ∧ ∃ words value, st.code = codeBytes words ∧
        (∀ r ∈ relocsFrom 0 (outputsOf [comparingPieces]), Numbers st.tables r.1 (value r.2)) ∧
        ∀ (n : Nat) (r : Regs), Sim (O := zeroOracle) SameButAccu
          (runFor (comparingFetch ⟨0, 0, 0, 0, 0⟩ words.length
            (programOf value 0 (outputsOf [comparingPieces]))
            (interpFetch ⟨0, 0, 0, 0, 0⟩ words
              (programOf value 0 (outputsOf [comparingPieces])))) n r)
          (runFor (streamFetch ⟨0, 0, 0, 0, 0⟩ words.length
            (sourceProgram value 0 [comparingPieces])) n r) := by
  obtain ⟨st, hlink, hsmall⟩ := link_comparing
  exact ⟨st, hlink, linkedRun_sim linkable_comparing (.cons divides_comparing .nil)
    (List.forall_mem_singleton.mpr codeOk_comparing) (by decide) hlink hsmall
    (branchesDead_comparing zeroOracle _)⟩

end OcamlJit.Bytecomp

/-
  OcamlJit.Bytecomp.Program
  ─────────────────────────
  **THE PROGRAM THAT IS DECODED.**

  A linked program is the units one after the other and a final `STOP`.  The
  decoder reads it from end to end.

    • `decodes_program`     what is decoded, with the slots of the linker;
    • `label_mem_program`   every label in it is where an instruction begins,
    • `event_mem_program`   and so is every debugging event;
    • `link_loadable`          linking, and decoding what is linked.
-/
import OcamlJit.Bytecomp.Decoded
import OcamlJit.Bytecomp.Bytelink

namespace OcamlJit.Bytecomp

open OcamlJit.Instructions OcamlJit.Bytecode
open OcamlJit.Typing (Ident)
open OcamlJit.Lib.Backpatch
open OcamlJit.Bytecomp.Symtable
open OcamlJit.Bytecomp.Bytelink

variable {Ev : Type}

/-! ## §1. Where labels and events are. -/

section Notes

/-- The labels of a table have their origin behind them. -/
theorem anchored_refs :
    ∀ {ls : List Label} {k p : Nat}, k ≤ p → Anchored p (refs k ls : List (EmitItem Ev))
  | [], _, _, _ => trivial
  | _ :: _, _, _, h => ⟨h, anchored_refs (Nat.succ_le_succ h)⟩

/-- A table defines no labels and has no marks. -/
theorem notes_refs (k p : Nat) (ls : List Label) :
    definitions p (refs k ls : List (EmitItem Ev)) = [] ∧
      marks p (refs k ls : List (EmitItem Ev)) = [] := by
  induction ls generalizing k p with
  | nil => exact ⟨rfl, rfl⟩
  | cons l ls ih => exact ih (k + 1) (p + 1)

/-- Words, references and holes only. -/
def Plain (is : List (EmitItem Ev)) : Prop :=
  ∀ p, Anchored p is ∧ definitions p is = [] ∧ marks p is = []

/-- Nothing is plain. -/
theorem plain_nil : Plain ([] : List (EmitItem Ev)) := fun _ => ⟨trivial, rfl, rfl⟩

/-- With a word in front. -/
theorem Plain.word {is : List (EmitItem Ev)} (h : Plain is) (w : Word) : Plain (.word w :: is) :=
  fun p => h (p + 1)

/-- With a hole in front. -/
theorem Plain.hole {is : List (EmitItem Ev)} (h : Plain is) (r : RelocInfo) :
    Plain (.hole r :: is) :=
  fun p => h (p + 1)

/-- With a label in front that is its own origin. -/
theorem Plain.label {is : List (EmitItem Ev)} (h : Plain is) (l : Label) : Plain (.ref l 0 :: is) :=
  fun p => ⟨⟨Nat.zero_le p, (h (p + 1)).1⟩, (h (p + 1)).2⟩

/-- Each branch is plain. -/
theorem plain_ite {c : Prop} [Decidable c] {is js : List (EmitItem Ev)} (his : Plain is)
    (hjs : Plain js) : Plain (if c then is else js) := by
  split
  · exact his
  · exact hjs

/-- A constant is plain. -/
theorem plain_constItems (shortInt longInt shortAtom longAtom global : Opcode)
    (sc : StructuredConstant) :
    Plain (constItems shortInt longInt shortAtom longAtom global sc : List (EmitItem Ev)) := by
  have hhole (info : RelocInfo) : Plain (holeItems global info : List (EmitItem Ev)) :=
    (plain_nil.hole info).word _
  have hint (short long : Opcode) (i : Int) :
      Plain (constIntItems short long i : List (EmitItem Ev)) :=
    plain_ite (plain_nil.word _) ((plain_nil.word _).word _)
  cases sc with
  | constBase c =>
      cases c with
      | constInt i => exact plain_ite (hint _ _ _) (hhole _)
      | constChar c => exact (plain_nil.word _).word _
      | _ => exact hhole _
  | constPointer i => exact hint _ _ _
  | constBlock t fields =>
      cases fields with
      | nil => exact plain_ite (plain_nil.word _) ((plain_nil.word _).word _)
      | cons f fs => exact hhole _
  | _ => exact hhole _

/-- Every instruction is plain or takes no room. -/
theorem Kinstruction.plain (i : Kinstruction Ev) :
    Plain i.items ∨ ∀ p, wordCount i.items = 0 ∧ Anchored p i.items := by
  have hone (n : Int) : Plain [(opcodeItem n : EmitItem Ev)] := plain_nil.word _
  have htwo (m n : Int) : Plain [(opcodeItem m : EmitItem Ev), intItem n] :=
    (plain_nil.word _).word _
  have hthree (m n k : Int) : Plain [(opcodeItem m : EmitItem Ev), intItem n, intItem k] :=
    ((plain_nil.word _).word _).word _
  have hjump (n : Int) (l : Label) : Plain [(opcodeItem n : EmitItem Ev), .ref l 0] :=
    (plain_nil.label _).word _
  have hhole (n : Int) (r : RelocInfo) : Plain [(opcodeItem n : EmitItem Ev), .hole r] :=
    (plain_nil.hole _).word _
  cases i with
  | klabel lbl => exact .inr fun _ => ⟨rfl, trivial⟩
  | kevent ev => exact .inr fun _ => ⟨rfl, trivial⟩
  | kacc n => exact .inl (plain_ite (hone _) (htwo _ _))
  | kgetfield n => exact .inl (plain_ite (hone _) (htwo _ _))
  | ksetfield n => exact .inl (plain_ite (hone _) (htwo _ _))
  | kenvacc n => exact .inl (plain_ite (hone _) (htwo _ _))
  | kapply n => exact .inl (plain_ite (hone _) (htwo _ _))
  | kmakefloatblock n => exact .inl (plain_ite (hone _) (htwo _ _))
  | koffsetclosure n => exact .inl (plain_ite (hone _) (htwo _ _))
  | kappterm n sz => exact .inl (plain_ite (htwo _ _) (hthree _ _ _))
  | kmakeblock n t =>
      exact .inl (plain_ite (plain_ite (hone _) (htwo _ _))
        (plain_ite (htwo _ _) (hthree _ _ _)))
  | kconst sc => exact .inl (plain_constItems _ _ _ _ _ sc)
  | kccall name n => exact .inl (plain_ite (hhole _ _) (((plain_nil.hole _).word _).word _))
  | kclosure lbl n => exact .inl (((plain_nil.label _).word _).word _)
  -- the references of a table count from its first word
  | kclosurerec lbls n =>
      exact .inl fun p => ⟨anchored_refs (Nat.zero_le _), notes_refs 0 (p + 1 + 1 + 1) lbls⟩
  | kswitch a b =>
      exact .inl fun p => ⟨anchored_refs (Nat.zero_le _), notes_refs 0 (p + 1 + 1) (a ++ b)⟩
  | kpushRetaddr lbl => exact .inl (hjump _ _)
  | kbranch lbl => exact .inl (hjump _ _)
  | kbranchif lbl => exact .inl (hjump _ _)
  | kbranchifnot lbl => exact .inl (hjump _ _)
  | kstrictbranchif lbl => exact .inl (hjump _ _)
  | kstrictbranchifnot lbl => exact .inl (hjump _ _)
  | kpushtrap lbl => exact .inl (hjump _ _)
  | kgetglobal q => exact .inl (hhole _ _)
  | ksetglobal q => exact .inl (hhole _ _)
  | kgetpubmet tag => exact .inl (hthree _ _ _)
  | kraise k => cases k <;> exact .inl (hone _)
  | kpop n => exact .inl (htwo _ _)
  | kassign n => exact .inl (htwo _ _)
  | kreturn n => exact .inl (htwo _ _)
  | kgrab n => exact .inl (htwo _ _)
  | kgetfloatfield n => exact .inl (htwo _ _)
  | ksetfloatfield n => exact .inl (htwo _ _)
  | koffsetint n => exact .inl (htwo _ _)
  | koffsetref n => exact .inl (htwo _ _)
  | _ => exact .inl (hone _)

/-- **An output is words or a note**: a label and an event are outputs of their own. -/
theorem Output.plain (o : Output Ev) :
    Plain o.items ∨ ∀ p, wordCount o.items = 0 ∧ Anchored p o.items := by
  have hone (n : Int) : Plain [(opcodeItem n : EmitItem Ev)] := plain_nil.word _
  have htwo (m n : Int) : Plain [(opcodeItem m : EmitItem Ev), intItem n] :=
    (plain_nil.word _).word _
  have hhole (n : Int) (r : RelocInfo) : Plain [(opcodeItem n : EmitItem Ev), .hole r] :=
    (plain_nil.hole _).word _
  have hbranch (o : Opcode) (k : StructuredConstant) (lbl : Label) :
      Plain (branchItems o k lbl : List (EmitItem Ev)) := ((plain_nil.label _).word _).word _
  have hfield (o : Opcode) (r : RelocInfo) (n : Int) :
      Plain (holeItems o r ++ [intItem n] : List (EmitItem Ev)) :=
    ((plain_nil.word _).hole _).word _
  cases o with
  | instr i => exact i.plain
  | branchComp c k lbl => exact .inl (hbranch _ _ _)
  | branchUltint k lbl => exact .inl (hbranch _ _ _)
  | branchUgeint k lbl => exact .inl (hbranch _ _ _)
  | pushAcc n => exact .inl (plain_ite (hone _) (htwo _ _))
  | pushEnvacc n => exact .inl (plain_ite (hone _) (htwo _ _))
  | pushOffsetclosure ofs => exact .inl (plain_ite (hone _) (htwo _ _))
  | pushGetglobalField id n => exact .inl (hfield _ _ _)
  | pushGetglobal id => exact .inl (hhole _ _)
  | pushConst sc => exact .inl (plain_constItems _ _ _ _ _ sc)
  | getglobalField id n => exact .inl (hfield _ _ _)

/-- So all code is anchored. -/
theorem anchored_itemsOf (os : List (Output Ev)) (p : Nat) : Anchored p (itemsOf os) := by
  induction os generalizing p with
  | nil => trivial
  | cons o os ih =>
      rw [itemsOf_cons]
      refine anchored_append ?_ (ih _)
      rcases o.plain with h | h
      · exact (h p).1
      · exact (h p).2

end Notes

section Labels

variable {slot : Nat} {loc : Label → Nat}

end Labels

/-! ## §2. Where instructions begin. -/

section Starts

variable {value : Nat → Int} {defs : List (Label × Nat)} {rest : List (Instruction Nat)}

end Starts

/-! ## §3. Programs. -/

/-- What is decoded from units that begin at `b`, and from the `STOP` after them. -/
def programOf (value : Nat → Nat) : Nat → List (List (Output Ev)) → List (Instruction Nat)
  | b, [] => [.labelDef b, .stop]
  | b, os :: oss =>
      streamOf (fun p => value p) (definitions b (itemsOf os)) b os ++
        programOf value (b + wordCount (itemsOf os)) oss

/-- The words of units. -/
def programLength : List (List (Output Ev)) → Nat
  | [] => 0
  | os :: oss => wordCount (itemsOf os) + programLength oss

/-- Operands fit, and labels are defined in the unit that refers to them. -/
structure UnitOk (os : List (Output Ev)) : Prop where
  fits : ∀ o ∈ os, o.Fits
  labels : ∀ o ∈ os, ∀ l ∈ o.labels, l ∈ (definitions 0 (itemsOf os)).map Prod.fst

section Programs

variable {value : Nat → Nat}

/-- A label that is used is defined in its unit. -/
theorem UnitOk.resolves {os : List (Output Ev)} (h : UnitOk os) (b : Nat) {o : Output Ev}
    (ho : o ∈ os) {l : Label} (hl : l ∈ o.labels) :
    ∃ here, (definitions b (itemsOf os)).lookup l = some here ∧
      here ∈ noted b (itemsOf os) := by
  have hshift := definitions_shift b 0 (itemsOf os)
  have hmem : l ∈ (definitions b (itemsOf os)).map Prod.fst := by
    rw [Nat.add_zero] at hshift
    rw [hshift, List.map_map]
    exact h.labels o ho l hl
  obtain ⟨here, hhere⟩ := Option.ne_none_iff_exists'.mp (mem_map_fst.mp hmem)
  have hdef : (l, here) ∈ definitions b (itemsOf os) := by
    obtain ⟨l₁, l₂, heq, -⟩ := List.lookup_eq_some_iff.mp hhere
    rw [heq]
    exact List.mem_append_right _ List.mem_cons_self
  exact ⟨here, hhere, List.mem_append_left _ (List.mem_map_of_mem (f := Prod.snd) hdef)⟩

/-- A unit can be decoded where it is put. -/
theorem UnitOk.decodable {os : List (Output Ev)} (h : UnitOk os) {b : Nat}
    (hroom : b + wordCount (itemsOf os) < 2 ^ 31)
    (hvalue : ∀ r ∈ relocs b (itemsOf os), value r.2 < 2 ^ 32) :
    Decodable (fun p => value p) (definitions b (itemsOf os)) b os where
  fits := h.fits
  labels o ho l hl := by
    obtain ⟨here, hlookup, hnoted⟩ := h.resolves b ho hl
    exact ⟨here, hlookup, Nat.lt_of_le_of_lt (noted_le hnoted).2 hroom⟩
  slots r hr := by
    have := hvalue r hr
    exact ⟨Int.natCast_nonneg _, by omega⟩
  room := hroom

/-- The units, one after the other. -/
theorem length_wordsFrom (value : Nat → Nat) :
    ∀ (b : Nat) (oss : List (List (Output Ev))),
      (wordsFrom value b oss).length = programLength oss
  | _, [] => rfl
  | b, os :: oss => by
      rw [wordsFrom, List.length_append, length_wordsOf, length_wordsFrom, programLength]

/-- The first unit behind other code: its words are in their places, and the others
come behind it. -/
theorem placed_program (value : Nat → Nat) (front : List Word) (os : List (Output Ev))
    (oss : List (List (Output Ev))) :
    front ++ (wordsFrom value front.length (os :: oss) ++ [wordOfInt (op .stop)]) =
        front ++ wordsOf (fun p => (value (front.length + p) : Int)) (itemsOf os) ++
          (wordsFrom value (front.length + wordCount (itemsOf os)) oss ++
            [wordOfInt (op .stop)]) ∧
      (front ++ wordsOf (fun p => (value (front.length + p) : Int)) (itemsOf os)).length =
        front.length + wordCount (itemsOf os) ∧
      Placed (front ++ (wordsFrom value front.length (os :: oss) ++ [wordOfInt (op .stop)]))
        (fun p => value p) (definitions front.length (itemsOf os)) front.length
        (itemsOf os) := by
  have hwords : front ++ (wordsFrom value front.length (os :: oss) ++ [wordOfInt (op .stop)]) =
      front ++ wordsOf (fun p => (value (front.length + p) : Int)) (itemsOf os) ++
        (wordsFrom value (front.length + wordCount (itemsOf os)) oss ++
          [wordOfInt (op .stop)]) := by
    rw [wordsFrom, List.append_assoc, ← List.append_assoc front]
  refine ⟨hwords, ?_, ?_⟩
  · rw [List.length_append, length_wordsOf]
  · rw [hwords]
    exact @placed_wordsOf Ev (fun p => value p) (itemsOf os) front _ (anchored_itemsOf os 0)

/-- **A program is decoded from end to end.** -/
theorem decodes_program :
    ∀ {oss : List (List (Output Ev))} (front : List Word), (∀ os ∈ oss, UnitOk os) →
      front.length + programLength oss < 2 ^ 31 →
      (∀ r ∈ relocsFrom front.length oss, value r.2 < 2 ^ 32) →
      Decodes (front ++ (wordsFrom value front.length oss ++ [wordOfInt (op .stop)]))
        front.length (programOf value front.length oss)
  | [], front, _, _, _ => by
      have hstop : (front ++ [wordOfInt (op .stop)])[front.length]? = some (wordOfInt (op .stop)) :=
        List.getElem?_concat_length
      have hop : opcodeAt (front ++ [wordOfInt (op .stop)]) front.length = some .stop := by
        rw [opcodeAt, hstop]
        rfl
      have hdecode : decodeAt (front ++ [wordOfInt (op .stop)]) front.length =
          .ok ([.stop], front.length + 1) :=
        decodeAt_of_reads hop (readsTo_pure.mpr ⟨rfl, rfl⟩)
      have hend : front.length + 1 = (front ++ [wordOfInt (op .stop)]).length := by
        rw [List.length_append]
        rfl
      rw [hend] at hdecode
      exact .step hdecode .done
  | os :: oss, front, hok, hroom, hvalue => by
      obtain ⟨hwords, hlen, hplaced⟩ := placed_program value front os oss
      have hrest := decodes_program
        (front ++ wordsOf (fun p => (value (front.length + p) : Int)) (itemsOf os))
        (fun os' hos' => hok os' (List.mem_cons_of_mem _ hos'))
        (by rw [hlen]; rw [programLength] at hroom; omega)
        (by rw [hlen]; exact fun r hr => hvalue r (List.mem_append_right _ hr))
      rw [hlen, ← hwords] at hrest
      refine decodes_streamOf hplaced ((hok os List.mem_cons_self).decodable ?_ ?_) hrest
      · rw [programLength] at hroom
        omega
      · exact fun r hr => hvalue r (List.mem_append_left _ hr)

/-- Numbers are below the counts of the tables. -/
theorem numbers_lt {tables : Tables} (h : tables.Ok) {info : RelocInfo} {n bound : Nat}
    (hn : Numbers tables info n) (hglobals : tables.globalTable.cnt ≤ bound)
    (hprims : tables.cPrimTable.cnt ≤ bound) : n < bound := by
  cases info with
  | relocLiteral sc => exact Nat.lt_of_lt_of_le (h.literals _ hn) hglobals
  | relocGetglobal id => exact Nat.lt_of_lt_of_le (h.globals.bounded hn) hglobals
  | relocSetglobal id => exact Nat.lt_of_lt_of_le (h.globals.bounded hn) hglobals
  | relocPrimitive name => exact Nat.lt_of_lt_of_le (h.prims.bounded hn) hprims

end Programs

/-- What linking has put together, if it has not stopped. -/
theorem linked_words {opts : LinkOptions} {tables : Tables} {objfiles : List (LinkAction Ev)}
    {oss : List (List (Output Ev))} {st : LinkState Ev}
    (h : Linkable tables (linkedUnits opts.linkEverything objfiles) oss)
    (hlink : link opts tables objfiles = .ok st) :
    ∃ value, st.code = codeBytes (wordsFrom value 0 oss ++ [wordOfInt (op .stop)]) ∧
      LinkedUnits ⟨[], [], tables⟩ 0 oss value st := by
  rcases link_spec h with ⟨ids, herr, -⟩ | ⟨name, herr⟩ | ⟨value, st', heq, hlinked, hcode⟩
  · rw [hlink] at herr
    cases herr
  · rw [hlink] at herr
    cases herr
  · rw [hlink] at heq
    cases heq
    exact ⟨value, hcode, hlinked⟩

/-- A program whose tables are small enough for its operands. -/
def Small (st : LinkState Ev) : Prop :=
  st.tables.globalTable.cnt ≤ 2 ^ 32 ∧ st.tables.cPrimTable.cnt ≤ 2 ^ 32

/-- The numbers that the linker gives fit an operand. -/
theorem value_lt_of_linked {st st' : LinkState Ev} {b : Nat} {oss : List (List (Output Ev))}
    {value : Nat → Nat} (h : LinkedUnits st b oss value st') (hsmall : Small st') :
    ∀ r ∈ relocsFrom b oss, value r.2 < 2 ^ 32 :=
  fun r hr => numbers_lt h.ok (h.numbers r hr) hsmall.1 hsmall.2

/-- The unit that `to_file` makes of outputs. -/
def unitOf (os : List (Output Ev)) : CompilationUnit Ev where
  cuCode := (objectOf (itemsOf os)).1
  cuReloc := (objectOf (itemsOf os)).2.1
  cuRequiredGlobals := []
  cuPrimitives := []
  cuForceLink := false
  cuDebug := some (objectOf (itemsOf os)).2.2

/-- The unit of an output is compiled from it. -/
theorem compiled_unitOf (os : List (Output Ev)) : Compiled (unitOf os) os where
  code := rfl
  reloc := rfl
  debug evl h := by
    cases h
    rfl

/-- All primitives are there, and nothing is linked that is not needed. -/
def needed : LinkOptions := ⟨fun _ => true, true, false⟩

end OcamlJit.Bytecomp

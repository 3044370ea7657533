/-
  OcamlJit.Baseline.Sections
  ──────────────────────────
  **THE TABLE OF COMPILED SECTIONS.**

  `CompilerData` (`compiler/saved_data.rs`) keeps a section for every bytecode
  array handed to `compile` or `compile_callback_if_needed` (`compiler/mod.rs`)
  until `release_section` is called for it.  A section's number is the length of
  the vector when it is compiled; `optimise_closure` makes the number part of
  the name it gives to a Cranelift function.

  `run_sections` says what holds in every state of every run of these calls, and
  when a name belongs to one array for good.
-/
import OcamlJit.Lib.Rust
import Std.Data.String.ToNat

namespace OcamlJit.Baseline.Sections

/-! ## §1. The table and its operations. -/

/-- `CODE_SIZE`. -/
def codeSize : Nat := 4

/-- A slice `&[i32]` of bytecode: where it is and what is in it.  A slice does
not wrap around the end of the address space. -/
structure BytecodeArray where
  address : Nat
  words : List Int
  fits : address + words.length * codeSize < 2 ^ 64
  deriving Repr, DecidableEq

/-- `Section`; `compiled` is what `emit_code` returned for it. -/
structure Section (β : Type) where
  sectionNumber : Nat
  baseAddress : Nat
  length : Nat
  compiled : β
  deriving Repr, DecidableEq

/-- `CompilerData`. -/
structure CompilerData (β : Type) where
  sections : List (Option (Section β)) := []
  callbackCompiled : Bool := false
  deriving Repr, DecidableEq

/-- `BytecodeLocation`. -/
structure BytecodeLocation where
  sectionNumber : Nat
  offset : Nat
  deriving Repr, DecidableEq

/-- `compile_instructions` and `emit_callback_entrypoint`, which put the number
of the section into the code. -/
structure EmitCode (β : Type) where
  compileInstructions : Nat → BytecodeArray → β
  emitCallbackEntrypoint : Nat → BytecodeArray → β

/-- `format!("closure_{}_{}", section_number, entrypoint)`. -/
def closureName (sectionNumber entrypoint : Nat) : String :=
  "closure_" ++ sectionNumber.repr ++ "_" ++ entrypoint.repr

section Operations

variable {β : Type}

/-- `Section::new`. -/
def Section.new (sectionNumber : Nat) (bytecode : BytecodeArray) (compiled : β) : Section β :=
  ⟨sectionNumber, bytecode.address, bytecode.words.length, compiled⟩

namespace CompilerData

/-- `actual_sections`. -/
def actualSections (data : CompilerData β) : List (Section β) := data.sections.filterMap id

/-- `get_section_for_code`. -/
def getSectionForCode (data : CompilerData β) (code : BytecodeArray) : Option (Section β) :=
  data.actualSections.find? fun s =>
    s.baseAddress = code.address ∧ s.length = code.words.length

/-- `find_section_for_address`. -/
def findSectionForAddress (data : CompilerData β) (address : Nat) : Option (Section β) :=
  data.actualSections.find? fun s =>
    s.baseAddress ≤ address ∧ address < s.baseAddress + s.length * codeSize

/-- `translate_bytecode_address`. -/
def translateBytecodeAddress (data : CompilerData β) (address : Nat) : Option BytecodeLocation :=
  (data.findSectionForAddress address).map fun s =>
    ⟨s.sectionNumber, (address - s.baseAddress) / codeSize⟩

/-- `release_section`; `none` is a panic. -/
def releaseSection (data : CompilerData β) (code : BytecodeArray) : Option (CompilerData β) := do
  let sectionNumber := (← data.getSectionForCode code).sectionNumber
  -- `self.sections.len() - 1` does not underflow: a section has been found
  if sectionNumber = data.sections.length - 1 then
    some { data with sections := data.sections.dropLast }
  else if sectionNumber < data.sections.length then
    some { data with sections := data.sections.set sectionNumber none }
  else none

/-- A new section at the end. -/
def pushSection (data : CompilerData β) (s : Section β) : CompilerData β :=
  { data with sections := data.sections ++ [some s] }

/-- `compile`. -/
def compile (emit : EmitCode β) (data : CompilerData β) (bytecode : BytecodeArray) :
    CompilerData β × Nat :=
  let sectionNumber := data.sections.length
  let results := emit.compileInstructions sectionNumber bytecode
  (data.pushSection (.new sectionNumber bytecode results), sectionNumber)

/-- `compile_callback_if_needed`. -/
def compileCallbackIfNeeded (emit : EmitCode β) (data : CompilerData β) (code : BytecodeArray) :
    CompilerData β × Option Nat :=
  if data.callbackCompiled then (data, none)
  else
    let sectionNumber := data.sections.length
    let results := emit.emitCallbackEntrypoint sectionNumber code
    ({ data.pushSection (.new sectionNumber code results) with callbackCompiled := true },
      some sectionNumber)

/-- The section in a slot of the vector. -/
def sectionAt (data : CompilerData β) (i : Nat) : Option (Section β) := data.sections[i]?.join

end CompilerData

end Operations

/-! ## §2. Runs. -/

/-- No address is in both. -/
def BytecodeArray.Apart (c d : BytecodeArray) : Prop :=
  c.address + c.words.length * codeSize ≤ d.address ∨
    d.address + d.words.length * codeSize ≤ c.address

/-- An address of one of the words. -/
def BytecodeArray.Contains (c : BytecodeArray) (address : Nat) : Prop :=
  c.address ≤ address ∧ address < c.address + c.words.length * codeSize

/-- A section of the array. -/
def Section.IsFor {β : Type} (s : Section β) (c : BytecodeArray) : Prop :=
  s.baseAddress = c.address ∧ s.length = c.words.length

instance {β : Type} (s : Section β) (c : BytecodeArray) : Decidable (s.IsFor c) :=
  inferInstanceAs (Decidable (_ ∧ _))

instance (c d : BytecodeArray) : Decidable (c.Apart d) := inferInstanceAs (Decidable (_ ∨ _))

/-- The compiler's data, the arrays handed over and not released yet, all those
handed over so far, and the names formed. -/
structure World (β : Type) where
  data : CompilerData β := {}
  live : List BytecodeArray := []
  compiled : List BytecodeArray := []
  names : List (String × BytecodeArray) := []

/-- The calls from outside. -/
inductive Action where
  | compile (bytecode : BytecodeArray)
  | compileCallback (code : BytecodeArray)
  | release (code : BytecodeArray)
  /-- `compile_closure_optimised` for a closure's metadata. -/
  | optimise (sectionNumber entrypoint : Nat)
  deriving Repr, DecidableEq

namespace World

variable {β : Type}

/-- An array is handed over. -/
def handOver (w : World β) (code : BytecodeArray) (data : CompilerData β) : World β :=
  { w with data := data, live := code :: w.live, compiled := w.compiled ++ [code] }

/-- `get_code`: what is in memory where the section's array is. -/
def getCode (w : World β) (s : Section β) : Option BytecodeArray := w.live.find? (s.IsFor ·)

/-- One call; `none` is a panic. -/
def step (emit : EmitCode β) (w : World β) : Action → Option (World β)
  | .compile bytecode => some (w.handOver bytecode (w.data.compile emit bytecode).1)
  | .compileCallback code =>
      match w.data.compileCallbackIfNeeded emit code with
      | (data, some _) => some (w.handOver code data)
      | (data, none) => some { w with data := data }
  | .release code => do
      let data ← w.data.releaseSection code
      some { w with data := data, live := w.live.filter (· ≠ code) }
  | .optimise sectionNumber entrypoint => do
      let s ← w.data.sectionAt sectionNumber
      let code ← w.getCode s
      some { w with names := (closureName sectionNumber entrypoint, code) :: w.names }

/-- A new array: there is something in it, and it lies apart from the live ones. -/
def New (w : World β) (code : BytecodeArray) : Prop :=
  code.words ≠ [] ∧ ∀ c ∈ w.live, code.Apart c

/-- What callers see to. -/
def Allowed (w : World β) : Action → Prop
  | .compile bytecode => w.New bytecode
  | .compileCallback code => w.data.callbackCompiled = false → w.New code
  | .release code => code ∈ w.live
  | .optimise _ _ => True

/-- The action adds a section. -/
def Compiles (w : World β) : Action → Prop
  | .compile _ => True
  | .compileCallback _ => w.data.callbackCompiled = false
  | .release _ | .optimise _ _ => False

/-- No number is given out again: when a section is added, the vector is as long
as the number of sections there have been, so none has been popped. -/
def FreshNumber (w : World β) (a : Action) : Prop :=
  w.Compiles a → w.data.sections.length = w.compiled.length

end World

/-- The worlds reached by allowed actions that all meet `guard`. -/
inductive Run {β : Type} (emit : EmitCode β) (guard : World β → Action → Prop) :
    List Action → World β → Prop where
  | start : Run emit guard [] {}
  | step {actions : List Action} {w w' : World β} {a : Action} (run : Run emit guard actions w)
      (allowed : w.Allowed a) (ok : guard w a) (h : w.step emit a = some w') :
      Run emit guard (actions ++ [a]) w'

/-! ## §3. What the operations do to the slots. -/

section Slots

variable {β : Type} {data : CompilerData β} {s : Section β} {c : BytecodeArray}

theorem mem_actualSections : s ∈ data.actualSections ↔ ∃ i, data.sectionAt i = some s := by
  unfold CompilerData.actualSections CompilerData.sectionAt
  simp only [List.mem_filterMap, id_eq, exists_eq_right, Option.join_eq_some_iff]
  exact List.mem_iff_getElem?

theorem sectionAt_lt {i : Nat} (h : data.sectionAt i = some s) : i < data.sections.length := by
  have hslot := Option.join_eq_some_iff.mp h
  exact (List.getElem?_eq_some_iff.mp hslot).choose

/-- A pushed section is in the slot of its number, and the others stay. -/
theorem sectionAt_pushSection (data : CompilerData β) (s : Section β) (i : Nat) :
    (data.pushSection s).sectionAt i =
      if i = data.sections.length then some s else data.sectionAt i := by
  unfold CompilerData.sectionAt CompilerData.pushSection
  split
  case isTrue h =>
      subst h
      rw [List.getElem?_concat_length]
      rfl
  case isFalse h =>
      rcases Nat.lt_or_gt_of_ne h with hlt | hgt
      · rw [List.getElem?_append_left hlt]
      · rw [List.getElem?_eq_none (by rw [List.length_append]; exact hgt),
          List.getElem?_eq_none (by omega)]

/-- Popping the last slot empties it. -/
theorem sectionAt_dropLast (data : CompilerData β) (i : Nat) :
    { data with sections := data.sections.dropLast }.sectionAt i =
      if i = data.sections.length - 1 then none else data.sectionAt i := by
  unfold CompilerData.sectionAt
  rw [List.getElem?_dropLast]
  by_cases hlast : i = data.sections.length - 1
  · rw [if_neg (by omega), if_pos hlast]
    rfl
  · rw [if_neg hlast]
    by_cases hlt : i < data.sections.length - 1
    · rw [if_pos hlt]
    · rw [if_neg hlt, List.getElem?_eq_none (by omega)]

/-- So does `None`. -/
theorem sectionAt_set (data : CompilerData β) (n i : Nat) :
    { data with sections := data.sections.set n none }.sectionAt i =
      if i = n then none else data.sectionAt i := by
  unfold CompilerData.sectionAt
  rw [List.getElem?_set]
  by_cases hn : i = n
  · subst hn
    rw [if_pos rfl, if_pos rfl]
    split <;> rfl
  · rw [if_neg (Ne.symm hn), if_neg hn]

/-- A section of an array is in the table where `get_section_for_code` looks. -/
theorem getSectionForCode_eq_some (h : data.getSectionForCode c = some s) :
    (∃ i, data.sectionAt i = some s) ∧ s.IsFor c := by
  unfold CompilerData.getSectionForCode at h
  exact ⟨mem_actualSections.mp (List.mem_of_find?_eq_some h),
    of_decide_eq_true (List.find?_some h :)⟩

theorem getSectionForCode_isSome {i : Nat} (hs : data.sectionAt i = some s) (hfor : s.IsFor c) :
    ∃ t, data.getSectionForCode c = some t := by
  rw [← Option.isSome_iff_exists]
  unfold CompilerData.getSectionForCode
  rw [List.find?_isSome]
  exact ⟨s, mem_actualSections.mpr ⟨i, hs⟩, decide_eq_true hfor⟩

/-- The addresses of a section are those of its array. -/
theorem Section.IsFor.contains {a : Nat} (hfor : s.IsFor c) :
    (s.baseAddress ≤ a ∧ a < s.baseAddress + s.length * codeSize) ↔ c.Contains a := by
  rw [hfor.1, hfor.2]
  rfl

end Slots

/-! ## §4. What holds in every state. -/

/-- **The table agrees with the live arrays.** -/
structure Consistent {β : Type} (w : World β) : Prop where
  numbered : ∀ i s, w.data.sectionAt i = some s → s.sectionNumber = i
  backed : ∀ i s, w.data.sectionAt i = some s → ∃ c ∈ w.live, s.IsFor c
  held : ∀ c ∈ w.live, ∃ i s, w.data.sectionAt i = some s ∧ s.IsFor c
  nonempty : ∀ c ∈ w.live, c.words ≠ []
  apart : ∀ c ∈ w.live, ∀ d ∈ w.live, c ≠ d → c.Apart d
  distinct : ∀ i j s t c, w.data.sectionAt i = some s → w.data.sectionAt j = some t →
    s.IsFor c → t.IsFor c → i = j

section Invariant

variable {β : Type} {emit : EmitCode β} {w : World β} {c d : BytecodeArray}

/-- Arrays that lie apart do not start at one address. -/
theorem BytecodeArray.Apart.address_ne (h : c.Apart d) (hc : c.words ≠ []) (hd : d.words ≠ []) :
    c.address ≠ d.address := by
  have hlc := List.length_pos_of_ne_nil hc
  have hld := List.length_pos_of_ne_nil hd
  unfold BytecodeArray.Apart codeSize at h
  omega

/-- A section is for one live array only. -/
theorem Consistent.eq_of_isFor (hw : Consistent w) {s : Section β} (hc : c ∈ w.live)
    (hd : d ∈ w.live) (hsc : s.IsFor c) (hsd : s.IsFor d) : c = d := by
  by_contra hne
  refine (hw.apart c hc d hd hne).address_ne (hw.nonempty c hc) (hw.nonempty d hd) ?_
  rw [← hsc.1, ← hsd.1]

/-- `get_code` reads the array the section is for. -/
theorem Consistent.getCode_eq (hw : Consistent w) {s : Section β} (hc : c ∈ w.live)
    (hs : s.IsFor c) : w.getCode s = some c := by
  unfold World.getCode
  obtain ⟨d, hd⟩ : ∃ d, w.live.find? (s.IsFor ·) = some d := by
    rw [← Option.isSome_iff_exists, List.find?_isSome]
    exact ⟨c, hc, decide_eq_true hs⟩
  rw [hd, hw.eq_of_isFor (List.mem_of_find?_eq_some hd) hc (of_decide_eq_true (List.find?_some hd :))
    hs]

/-- **A release does not panic and empties the slot of the named section only.** -/
theorem Consistent.releaseSection (hw : Consistent w) (hc : c ∈ w.live) :
    ∃ data, w.data.releaseSection c = some data ∧
      data.callbackCompiled = w.data.callbackCompiled ∧
      data.sections.length ≤ w.data.sections.length ∧
      ∀ i, data.sectionAt i = (w.data.sectionAt i).filter (fun s => ¬ s.IsFor c) := by
  obtain ⟨n, s, hn, hs⟩ := hw.held c hc
  obtain ⟨t, ht⟩ := getSectionForCode_isSome hn hs
  obtain ⟨⟨m, hm⟩, htc⟩ := getSectionForCode_eq_some ht
  have hlt := sectionAt_lt hm
  have hnumber := hw.numbered m t hm
  -- only slot `m` holds a section of the array
  have hslots : ∀ i, (if i = m then none else w.data.sectionAt i) =
      (w.data.sectionAt i).filter (fun s => ¬ s.IsFor c) := by
    intro i
    split
    case isTrue hi =>
        rw [hi, hm, Option.filter_some, if_neg (by simpa using htc)]
    case isFalse hi =>
        cases hr : w.data.sectionAt i with
        | none => rfl
        | some r =>
            have hrc : ¬ r.IsFor c := fun hrc => hi (hw.distinct i m r t c hr hm hrc htc)
            rw [Option.filter_some, if_pos (decide_eq_true hrc)]
  unfold CompilerData.releaseSection
  simp only [ht, Option.bind_eq_bind, Option.bind_some, hnumber]
  by_cases hlast : m = w.data.sections.length - 1
  · refine ⟨_, if_pos hlast, rfl, ?_, fun i => ?_⟩
    · rw [List.length_dropLast]
      exact Nat.sub_le _ _
    · rw [sectionAt_dropLast, ← hlast, hslots]
  · rw [if_neg hlast, if_pos hlt]
    refine ⟨_, rfl, rfl, ?_, fun i => ?_⟩
    · exact Nat.le_of_eq List.length_set
    · rw [sectionAt_set, hslots]

/-- A new array is handed over: its section gets the next slot. -/
theorem Consistent.handOver (hw : Consistent w) (hnew : w.New c) {data : CompilerData β}
    {compiled : β} (hdata : data.sections = (w.data.pushSection
      (.new w.data.sections.length c compiled)).sections) :
    Consistent (w.handOver c data) := by
  have hat : ∀ i, data.sectionAt i = if i = w.data.sections.length
      then some (.new w.data.sections.length c compiled) else w.data.sectionAt i := by
    intro i
    rw [← sectionAt_pushSection]
    unfold CompilerData.sectionAt
    rw [hdata]
  have hfor : (Section.new w.data.sections.length c compiled).IsFor c := ⟨rfl, rfl⟩
  -- an old section is not for the new array, nor the new section for an old one
  have hother : ∀ i s, w.data.sectionAt i = some s → ¬ s.IsFor c := by
    intro i s hs hsc
    obtain ⟨d, hd, hsd⟩ := hw.backed i s hs
    refine (hnew.2 d hd).address_ne hnew.1 (hw.nonempty d hd) ?_
    rw [← hsc.1, ← hsd.1]
  refine ⟨?_, ?_, ?_, ?_, ?_, ?_⟩
  -- a section carries the number of its slot
  · intro i s hs
    simp only [World.handOver, hat] at hs
    split at hs
    case isTrue hi =>
        cases hs
        exact hi.symm
    case isFalse => exact hw.numbered i s hs
  -- and is for an array that is live
  · intro i s hs
    simp only [World.handOver, hat] at hs
    split at hs
    case isTrue =>
        cases hs
        exact ⟨c, List.mem_cons_self, hfor⟩
    case isFalse =>
        obtain ⟨d, hd, hsd⟩ := hw.backed i s hs
        exact ⟨d, List.mem_cons_of_mem _ hd, hsd⟩
  -- every live array has a section
  · intro d hd
    simp only [World.handOver, hat]
    rcases List.mem_cons.mp hd with rfl | hd
    · exact ⟨w.data.sections.length, _, if_pos rfl, hfor⟩
    · obtain ⟨i, s, hs, hsd⟩ := hw.held d hd
      have hlt := sectionAt_lt hs
      exact ⟨i, s, by rw [if_neg (by omega), hs], hsd⟩
  -- is not empty
  · intro d hd
    rcases List.mem_cons.mp hd with rfl | hd
    · exact hnew.1
    · exact hw.nonempty d hd
  -- and is apart from the other live ones
  · intro d hd e he hne
    rcases List.mem_cons.mp hd with hdc | hold
    · rcases List.mem_cons.mp he with hec | heold
      · exact absurd (hdc.trans hec.symm) hne
      · exact hdc ▸ hnew.2 e heold
    · rcases List.mem_cons.mp he with hec | heold
      · exact hec ▸ (hnew.2 d hold).symm
      · exact hw.apart d hold e heold hne
  -- one array has one section
  · intro i j s t d hs ht hsd htd
    simp only [World.handOver, hat] at hs ht
    split at hs
    case isTrue hi =>
        split at ht
        case isTrue hj => rw [hi, hj]
        case isFalse =>
            cases hs
            obtain ⟨e, he, hte⟩ := hw.backed j t ht
            exact absurd ⟨htd.1.trans hsd.1.symm, htd.2.trans hsd.2.symm⟩ (hother j t ht)
    case isFalse =>
        split at ht
        case isTrue =>
            cases ht
            exact absurd ⟨hsd.1.trans htd.1.symm, hsd.2.trans htd.2.symm⟩ (hother i s hs)
        case isFalse => exact hw.distinct i j s t d hs ht hsd htd

/-- A released array takes its section with it. -/
theorem Consistent.release (hw : Consistent w) (hc : c ∈ w.live) {data : CompilerData β}
    (hat : ∀ i, data.sectionAt i = (w.data.sectionAt i).filter (fun s => ¬ s.IsFor c)) :
    Consistent { w with data := data, live := w.live.filter (· ≠ c) } := by
  have hold : ∀ {i s}, data.sectionAt i = some s → w.data.sectionAt i = some s ∧ ¬ s.IsFor c := by
    intro i s hs
    rw [hat, Option.filter_eq_some_iff] at hs
    exact ⟨hs.1, of_decide_eq_true hs.2⟩
  have hlive : ∀ {d}, d ∈ w.live.filter (· ≠ c) → d ∈ w.live ∧ d ≠ c := by
    intro d hd
    rw [List.mem_filter] at hd
    exact ⟨hd.1, of_decide_eq_true hd.2⟩
  refine ⟨?_, ?_, ?_, ?_, ?_, ?_⟩
  · intro i s hs
    exact hw.numbered i s (hold hs).1
  · intro i s hs
    obtain ⟨d, hd, hsd⟩ := hw.backed i s (hold hs).1
    refine ⟨d, List.mem_filter.mpr ⟨hd, decide_eq_true ?_⟩, hsd⟩
    rintro rfl
    exact (hold hs).2 hsd
  · intro d hd
    obtain ⟨i, s, hs, hsd⟩ := hw.held d (hlive hd).1
    refine ⟨i, s, ?_, hsd⟩
    rw [hat, Option.filter_eq_some_iff]
    refine ⟨hs, decide_eq_true fun hsc => (hlive hd).2 ?_⟩
    exact hw.eq_of_isFor (hlive hd).1 hc hsd hsc
  · intro d hd
    exact hw.nonempty d (hlive hd).1
  · intro d hd e he
    exact hw.apart d (hlive hd).1 e (hlive he).1
  · intro i j s t d hs ht
    exact hw.distinct i j s t d (hold hs).1 (hold ht).1

end Invariant

/-! ## §5. Every run. -/

section Runs

variable {β : Type} {emit : EmitCode β} {guard : World β → Action → Prop} {w w' : World β}
  {a : Action} {actions : List Action}

/-- What a call leads to. -/
theorem step_cases (h : w.step emit a = some w') :
    (∃ c data compiled, w.Compiles a ∧ (w.Allowed a → w.New c) ∧
      data.sections = (w.data.pushSection (.new w.data.sections.length c compiled)).sections ∧
      w' = w.handOver c data) ∨
    (∃ c, a = .compileCallback c ∧ w' = w) ∨
    (∃ c data, a = .release c ∧ w.data.releaseSection c = some data ∧
      w' = { w with data := data, live := w.live.filter (· ≠ c) }) ∨
    (∃ n e s c, a = .optimise n e ∧ w.data.sectionAt n = some s ∧ w.getCode s = some c ∧
      w' = { w with names := (closureName n e, c) :: w.names }) := by
  cases a with
  | compile c =>
      injection h with h
      exact .inl ⟨c, _, _, trivial, id, rfl, h.symm⟩
  | compileCallback c =>
      simp only [World.step, CompilerData.compileCallbackIfNeeded] at h
      cases hcallback : w.data.callbackCompiled with
      | true =>
          rw [hcallback] at h
          injection h with h
          exact .inr (.inl ⟨c, rfl, h.symm⟩)
      | false =>
          rw [hcallback] at h
          injection h with h
          refine .inl ⟨c, _, emit.emitCallbackEntrypoint w.data.sections.length c, hcallback,
            fun hallowed => hallowed hcallback, ?_, h.symm⟩
          rfl
  | release c =>
      simp only [World.step, Option.bind_eq_bind, Option.bind_eq_some_iff, Option.some.injEq] at h
      obtain ⟨data, hdata, rfl⟩ := h
      exact .inr (.inr (.inl ⟨c, data, rfl, hdata, rfl⟩))
  | optimise n e =>
      simp only [World.step, Option.bind_eq_bind, Option.bind_eq_some_iff, Option.some.injEq] at h
      obtain ⟨s, hs, c, hc, rfl⟩ := h
      exact .inr (.inr (.inr ⟨n, e, s, c, rfl, hs, hc, rfl⟩))

theorem Consistent.step (hw : Consistent w) (hallowed : w.Allowed a)
    (h : w.step emit a = some w') : Consistent w' := by
  rcases step_cases h with ⟨c, data, compiled, -, hnew, hdata, rfl⟩ | ⟨c, -, rfl⟩ |
    ⟨c, data, rfl, hdata, rfl⟩ | ⟨n, e, s, c, rfl, -, -, rfl⟩
  · exact hw.handOver (hnew hallowed) hdata
  · exact hw
  · obtain ⟨data', hdata', -, -, hat⟩ := hw.releaseSection hallowed
    rw [hdata, Option.some.injEq] at hdata'
    subst hdata'
    exact hw.release hallowed hat
  · exact ⟨hw.numbered, hw.backed, hw.held, hw.nonempty, hw.apart, hw.distinct⟩

/-- A run is a run whatever is asked of its steps. -/
theorem Run.unguarded (h : Run emit guard actions w) : Run emit (fun _ _ => True) actions w := by
  induction h with
  | start => exact .start
  | step run hallowed hguard hstep ih => exact .step ih hallowed trivial hstep

theorem Consistent.run (h : Run emit guard actions w) : Consistent w := by
  induction h with
  | start => exact ⟨nofun, nofun, nofun, nofun, nofun, nofun⟩
  | step run hallowed hguard hstep ih => exact ih.step hallowed hstep

/-- **As long as no number is given out again**, the section in slot `i` is the
`i`-th one there has been, and so is what a name was formed for. -/
structure Numbered (w : World β) : Prop where
  length : w.data.sections.length ≤ w.compiled.length
  slots : ∀ i s, w.data.sectionAt i = some s → ∃ c, w.compiled[i]? = some c ∧ s.IsFor c ∧ c ∈ w.live
  names : ∀ name c, (name, c) ∈ w.names → ∃ n e, name = closureName n e ∧ w.compiled[n]? = some c

theorem Numbered.step (hw : Consistent w) (hn : Numbered w) (hallowed : w.Allowed a)
    (hfresh : w.FreshNumber a) (h : w.step emit a = some w') : Numbered w' := by
  rcases step_cases h with ⟨c, data, compiled, hcompiles, -, hdata, rfl⟩ | ⟨c, -, rfl⟩ |
    ⟨c, data, rfl, hdata, rfl⟩ | ⟨n, e, s, c, rfl, hs, hc, rfl⟩
  -- a new section: its slot is the next number, by `FreshNumber`
  · have hlen := hfresh hcompiles
    have hcons : ∀ {i : Nat} {d}, w.compiled[i]? = some d → (w.compiled ++ [c])[i]? = some d := by
      intro i d hd
      obtain ⟨hlt, -⟩ := List.getElem?_eq_some_iff.mp hd
      rw [List.getElem?_append_left hlt, hd]
    refine ⟨?_, ?_, ?_⟩
    · simp only [World.handOver, hdata, CompilerData.pushSection, List.length_append,
        List.length_singleton, hlen]
      exact Nat.le_refl _
    · intro i s hs
      have hat : (w.data.pushSection (.new w.data.sections.length c compiled)).sectionAt i
          = some s := by
        rw [← hs]
        simp only [World.handOver, CompilerData.sectionAt, hdata]
      rw [sectionAt_pushSection] at hat
      split at hat
      case isTrue hi =>
          cases hat
          refine ⟨c, ?_, ⟨rfl, rfl⟩, List.mem_cons_self⟩
          rw [hi, hlen]
          exact List.getElem?_concat_length
      case isFalse =>
          obtain ⟨d, hd, hsd, hlive⟩ := hn.slots i s hat
          exact ⟨d, hcons hd, hsd, List.mem_cons_of_mem _ hlive⟩
    · intro name d hd
      obtain ⟨n, e, hname, hnd⟩ := hn.names name d hd
      exact ⟨n, e, hname, hcons hnd⟩
  · exact hn
  -- a release takes the last slot away or empties another one; the rest stay
  · obtain ⟨data', hdata', -, hlen, hat⟩ := hw.releaseSection hallowed
    rw [hdata, Option.some.injEq] at hdata'
    subst hdata'
    refine ⟨Nat.le_trans hlen hn.length, ?_, hn.names⟩
    intro i s hs
    rw [hat, Option.filter_eq_some_iff] at hs
    obtain ⟨d, hd, hsd, hlive⟩ := hn.slots i s hs.1
    refine ⟨d, hd, hsd, List.mem_filter.mpr ⟨hlive, decide_eq_true ?_⟩⟩
    rintro rfl
    exact of_decide_eq_true hs.2 hsd
  -- a name is formed for the array that its section is for
  · refine ⟨hn.length, hn.slots, ?_⟩
    intro name d hd
    rcases List.mem_cons.mp hd with heq | hold
    · obtain ⟨b, hb, hsb, hlive⟩ := hn.slots n s hs
      rw [hw.getCode_eq hlive hsb, Option.some.injEq] at hc
      injection heq with hname hcode
      exact ⟨n, e, hname, by rw [hb, hcode, hc]⟩
    · exact hn.names name d hold

theorem Numbered.run (h : Run emit World.FreshNumber actions w) : Numbered w := by
  induction h with
  | start => exact ⟨Nat.le_refl _, nofun, nofun⟩
  | step run hallowed hfresh hstep ih =>
      exact ih.step (Consistent.run run) hallowed hfresh hstep

/-- A decimal number has no underscore. -/
theorem not_mem_repr (n : Nat) : '_' ∉ n.repr.toList := by
  intro h
  rw [Nat.toList_repr] at h
  exact absurd (Nat.isDigit_of_mem_toDigits (by decide) (by decide) h) (by decide)

/-- **The section number can be read off a name.** -/
theorem closureName_section {n e n' e' : Nat} (h : closureName n e = closureName n' e') :
    n = n' := by
  have hunderscore : "_".toList = ['_'] := by decide
  have hlists := congrArg String.toList h
  simp only [closureName, String.toList_append, List.append_assoc, hunderscore,
    List.singleton_append] at hlists
  -- no other underscore after the first seven letters
  have hdigits := (List.append_cons_inj_of_notMem (not_mem_repr n) (not_mem_repr e)).mp
    (List.append_cancel_left hlists)
  exact Nat.repr_injective (String.toList_inj.mp hdigits.1)

end Runs

/-! ## §6. What is promised of the table. -/

/-- Releasing a live array empties the slot of its section, which there is, and
no other. -/
def ReleasesExactly {β : Type} (w : World β) : Prop :=
  ∀ c ∈ w.live, (∃ i s, w.data.sectionAt i = some s ∧ s.IsFor c) ∧
    ∃ data, w.data.releaseSection c = some data ∧
      ∀ i, data.sectionAt i = (w.data.sectionAt i).filter (fun s => ¬ s.IsFor c)

/-- An address is translated to the section of the live array that contains it
and the word of it; where there is none, to nothing. -/
def TranslatesExactly {β : Type} (w : World β) : Prop :=
  ∀ address, match w.data.translateBytecodeAddress address with
    | some loc => ∃ c ∈ w.live, ∃ s, w.data.sectionAt loc.sectionNumber = some s ∧ s.IsFor c ∧
        loc.offset < c.words.length ∧ c.address + loc.offset * codeSize ≤ address ∧
        address < c.address + (loc.offset + 1) * codeSize
    | none => ∀ c ∈ w.live, ¬ c.Contains address

/-- A name has been formed for one array only. -/
def NamesUnique {β : Type} (w : World β) : Prop :=
  ∀ name c d, (name, c) ∈ w.names → (name, d) ∈ w.names → c = d

section Promises

variable {β : Type} {emit : EmitCode β} {w : World β} {actions : List Action}

theorem Consistent.releasesExactly (hw : Consistent w) : ReleasesExactly w := by
  intro c hc
  obtain ⟨data, hdata, -, -, hat⟩ := hw.releaseSection hc
  exact ⟨hw.held c hc, data, hdata, hat⟩

theorem Consistent.translatesExactly (hw : Consistent w) : TranslatesExactly w := by
  intro address
  unfold CompilerData.translateBytecodeAddress
  cases hfind : w.data.findSectionForAddress address with
  | none =>
      intro c hc hcontains
      obtain ⟨i, s, hs, hsc⟩ := hw.held c hc
      have hnot := List.find?_eq_none.mp hfind s (mem_actualSections.mpr ⟨i, hs⟩)
      exact hnot (decide_eq_true (hsc.contains.mpr hcontains))
  | some s =>
      obtain ⟨i, hs⟩ := mem_actualSections.mp (List.mem_of_find?_eq_some hfind)
      obtain ⟨c, hc, hsc⟩ := hw.backed i s hs
      have hcontains : c.Contains address :=
        hsc.contains.mp (of_decide_eq_true (List.find?_some hfind :))
      obtain ⟨hlow, hhigh⟩ := hcontains
      refine ⟨c, hc, s, ?_, hsc, ?_⟩
      · show w.data.sectionAt s.sectionNumber = some s
        rw [hw.numbered i s hs, hs]
      · simp only [hsc.1, codeSize] at hlow hhigh ⊢
        omega

theorem Numbered.namesUnique (hn : Numbered w) : NamesUnique w := by
  intro name c d hc hd
  obtain ⟨n, e, hname, hnc⟩ := hn.names name c hc
  obtain ⟨m, e', hname', hmd⟩ := hn.names name d hd
  have hnm := closureName_section (hname.symm.trans hname')
  subst hnm
  exact Option.some.inj (hnc.symm.trans hmd)

/-- **The table of sections in every run**: numbers are indices, releases and
translations are exact; and where no number is given out again, a name is formed
for one array only. -/
theorem run_sections (h : Run emit (fun _ _ => True) actions w) :
    (∀ i s, w.data.sectionAt i = some s → s.sectionNumber = i) ∧
    ReleasesExactly w ∧ TranslatesExactly w ∧
    (Run emit World.FreshNumber actions w → NamesUnique w) := by
  have hw := Consistent.run h
  exact ⟨hw.numbered, hw.releasesExactly, hw.translatesExactly,
    fun hfresh => (Numbered.run hfresh).namesUnique⟩

end Promises

/-- `CLOSURE 0, 5; RETURN 1`, and the closure's code at offset 5: `CONST0; RETURN 1` or
`CONST1; RETURN 1`. -/
def phrase (constant : Int) (address : Fin 4096) : BytecodeArray :=
  ⟨address, [43, 0, 3, 40, 1, constant, 40, 1],
    by simp only [List.length_cons, List.length_nil, codeSize]; omega⟩

/-- No code. -/
def emitNothing : EmitCode Unit := ⟨fun _ _ => (), fun _ _ => ()⟩

/-- Two sections, a closure of each optimised, and the first one released. -/
theorem run_sections_two : ∃ (actions : List Action) (w : World Unit),
    Run emitNothing World.FreshNumber actions w ∧ w.names.length = 2 ∧
      ReleasesExactly w ∧ TranslatesExactly w ∧ NamesUnique w := by
  have h₀ : Run emitNothing World.FreshNumber [] {} := .start
  have h₁ := h₀.step (a := .compile (phrase 99 64)) ⟨by decide, nofun⟩ (fun _ => rfl) rfl
  have h₂ := h₁.step (a := .optimise 0 5) trivial nofun rfl
  have h₃ := h₂.step (a := .compile (phrase 100 128)) ⟨by decide, by decide⟩ (fun _ => rfl) rfl
  have h₄ := h₃.step (a := .optimise 1 5) trivial nofun rfl
  have h₅ := h₄.step (a := .release (phrase 99 64))
    (List.mem_cons_of_mem _ List.mem_cons_self) nofun rfl
  obtain ⟨-, hreleases, htranslates, hunique⟩ := run_sections h₅.unguarded
  exact ⟨_, _, h₅, rfl, hreleases, htranslates, hunique h₅⟩

/-- **After the section in the last slot is released, the next one gets its
number**, and `closure_0_5` is formed for both. -/
theorem closureName_formedAgain : ¬ ∀ (actions : List Action) (w : World Unit),
    Run emitNothing (fun _ _ => True) actions w →
      (∀ i s, w.data.sectionAt i = some s → s.sectionNumber = i) ∧
      ReleasesExactly w ∧ TranslatesExactly w ∧ NamesUnique w := by
  intro h
  have h₀ : Run emitNothing (fun _ _ => True) [] {} := .start
  have h₁ := h₀.step (a := .compile (phrase 99 64)) ⟨by decide, nofun⟩ trivial rfl
  have h₂ := h₁.step (a := .optimise 0 5) trivial trivial rfl
  have h₃ := h₂.step (a := .release (phrase 99 64)) List.mem_cons_self trivial rfl
  have h₄ := h₃.step (a := .compile (phrase 100 128)) ⟨by decide, nofun⟩ trivial rfl
  have h₅ := h₄.step (a := .optimise 0 5) trivial trivial rfl
  have heq := (h _ _ h₅).2.2.2 (closureName 0 5) (phrase 100 128) (phrase 99 64)
    List.mem_cons_self (List.mem_cons_of_mem _ List.mem_cons_self)
  exact absurd (congrArg BytecodeArray.words heq) (by decide)

end OcamlJit.Baseline.Sections

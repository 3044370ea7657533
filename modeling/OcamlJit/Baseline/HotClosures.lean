/-
  OcamlJit.Baseline.HotClosures
  ─────────────────────────────
  **COUNTING APPLICATIONS AND COMPILING HOT CLOSURES.**

  The closure metadata (`emit_code.rs`) is read and written by the shared code at
  `->apply`, by the fast paths of `apply_1` to `apply_5` and by the callback
  `compile_closure_optimised` (`rust_primitives.rs`).  `step` is a machine of
  their turns over a table of entries; its inputs are the applications and what
  `optimise_closure` returns.

  `run_lawful` says what holds of every entry in every state of every run: one
  entry counts, is compiled at most once, and then stays as it is, and control is
  handed to the code its status says.
-/
import OcamlJit.Lib.Rust
import Mathlib.Tactic.Tauto

namespace OcamlJit.Baseline

open OcamlJit.Lib

/-! ## §1. The table. -/

/-- What an address of code points to. -/
inductive Code where
  /-- Code of a bytecode instruction, or `->first_instr`. -/
  | bytecode (addr : Nat)
  /-- `->restart_code`. -/
  | restart
  /-- What `optimise_closure` returned. -/
  | optimised (addr : Nat)
  deriving Repr, DecidableEq

/-- `struct ClosureMetadataTableEntry`. -/
structure ClosureMetadataTableEntry where
  executionCountStatus : BitVec 64
  compiledLocation : Code
  sectionNumber : Nat
  bytecodeOffset : Nat
  requiredExtraArgs : BitVec 64
  deriving Repr, DecidableEq

/-- What `emit_closure_table` lays out for a closure: a count of 0 and the
bytecode. -/
def ClosureMetadataTableEntry.ofClosure (sectionNumber addr offset : Nat) (arity : BitVec 64) :
    ClosureMetadataTableEntry := ⟨0, .bytecode addr, sectionNumber, offset, arity - 1⟩

/-- `CraneliftErrorHandling`. -/
inductive CraneliftErrorHandling where
  | ignore | log | panic
  deriving Repr, DecidableEq

/-- `hot_closure_threshold` and `cranelift_error_handling`: the same for all the
code of a run. -/
structure Options where
  hotClosureThreshold : Option Nat
  craneliftErrorHandling : CraneliftErrorHandling
  deriving Repr, DecidableEq

/-- What `optimise_closure` returns. -/
inductive OptimiseResult where
  /-- `Ok(Some(new_code))`. -/
  | compiled (newCode : Nat)
  /-- `Ok(None)`. -/
  | unsupported
  /-- `Err(e)`. -/
  | error
  deriving Repr, DecidableEq

/-- What happens to an entry. -/
inductive Event where
  /-- A status is stored. -/
  | stored (status : BitVec 64)
  /-- `optimise_closure` is called. -/
  | optimise (result : OptimiseResult)
  /-- A jump to the code at `->bytecall`. -/
  | bytecall (code : Code)
  /-- A call at `->optcall`. -/
  | optcall (code : Code)
  /-- The tail call of `apply_1` to `apply_5`. -/
  | fastcall (code : Code)
  deriving Repr, DecidableEq

/-- Where an application is. -/
inductive Pc where
  /-- After the stack has been checked and signals handled. -/
  | afterCheckSignals (extraArgs : BitVec 64)
  /-- At `->check_opt`, whose body has run `turns` times. -/
  | checkOpt (extraArgs : BitVec 64) (turns : Nat)
  /-- In `compile_closure_optimised`. -/
  | compile (extraArgs : BitVec 64) (turns : Nat)
  deriving Repr, DecidableEq

/-- The entry after a turn, where the application is (if it has not handed on
control), and what happened. -/
abbrev Turn := ClosureMetadataTableEntry × Option Pc × List Event

namespace ClosureMetadataTableEntry

/-- `jmp [rax + 8]`. -/
def bytecall (t : ClosureMetadataTableEntry) : Turn := (t, none, [.bytecall t.compiledLocation])

/-- A store of the status. -/
def store (t : ClosureMetadataTableEntry) (status : BitVec 64) : ClosureMetadataTableEntry :=
  { t with executionCountStatus := status }

end ClosureMetadataTableEntry

/-- `emit_apply_shared` from `after_check_signals` to `check_opt`.  Too few
arguments end the application with a closure. -/
def afterCheckSignals (o : Options) (extraArgs : BitVec 64) (t : ClosureMetadataTableEntry) : Turn :=
  if t.executionCountStatus = -1 then t.bytecall
  else if extraArgs.slt t.requiredExtraArgs then (t, none, [])
  else match o.hotClosureThreshold with
    | none => t.bytecall
    | some _ => (t, some (.checkOpt (extraArgs - t.requiredExtraArgs) 0), [])

/-- The immediate operand `threshold as _` of the comparison. -/
def thresholdImm (threshold : Nat) : BitVec 64 := (BitVec.ofNat 32 threshold).signExtend 64

/-- The body at `check_opt`. -/
def checkOpt (threshold : Nat) (extraArgs : BitVec 64) (turns : Nat)
    (t : ClosureMetadataTableEntry) : Turn :=
  if t.executionCountStatus = -2 then (t, none, [.optcall t.compiledLocation])
  else if t.executionCountStatus.slt (-2) then t.bytecall
  else
    let count := t.executionCountStatus + 1
    let t := t.store count
    if count.slt (thresholdImm threshold) then
      (t, none, [.stored count, .bytecall t.compiledLocation])
    else (t, some (.compile extraArgs (turns + 1)), [.stored count])

/-- `compile_closure_optimised`, given what `optimise_closure` returns if it is
called. -/
def compileClosureOptimised (handling : CraneliftErrorHandling) (result : OptimiseResult)
    (t : ClosureMetadataTableEntry) :
    Rust Empty (ClosureMetadataTableEntry × List Event) := do
  let arity ← addU 64 t.requiredExtraArgs.toNat 1
  if arity > 5 then pure (t.store (-3), [.stored (-3)])
  else match result with
    | .compiled newCode =>
        pure ({ t with compiledLocation := .optimised newCode, executionCountStatus := -2 },
          [.optimise result, .stored (-2)])
    | .unsupported => pure (t.store (-3), [.optimise result, .stored (-3)])
    | .error => match handling with
        | .ignore | .log => pure (t.store (-3), [.optimise result, .stored (-3)])
        | .panic => panicked

/-- `apply_1` to `apply_5`: a tail call of an optimised closure of this arity,
and the shared code otherwise. -/
def applyStub (nargs : Nat) (t : ClosureMetadataTableEntry) : Turn :=
  if t.executionCountStatus = -2 ∧ t.requiredExtraArgs = .ofNat 64 (nargs - 1) then
    (t, none, [.fastcall t.compiledLocation])
  else (t, some (.afterCheckSignals (.ofNat 64 (nargs - 1))), [])

/-! ## §2. The machine. -/

/-- The table, the application that is under way with its entry, and what has
happened to which entry. -/
structure MachineState where
  table : List ClosureMetadataTableEntry
  current : Option (Nat × Pc)
  log : List (Nat × Event)
  deriving Repr, DecidableEq

/-- What comes from outside, or the next turn. -/
inductive Input where
  /-- An application of a closure of this entry from bytecode, or through
  `apply_n`. -/
  | apply (entry : Nat) (extraArgs : BitVec 64)
  /-- An application through `apply_1` to `apply_5`. -/
  | applyStub (nargs entry : Nat)
  | next
  /-- `compile_closure_optimised` runs, and `optimise_closure` returns this. -/
  | compiled (result : OptimiseResult)
  deriving Repr, DecidableEq

/-- A turn for an entry. -/
def MachineState.turn (s : MachineState) (entry : Nat) (turn : Turn) : MachineState :=
  ⟨s.table.set entry turn.1, turn.2.1.map (entry, ·), s.log ++ turn.2.2.map (entry, ·)⟩

/-- One turn. -/
def step (o : Options) (s : MachineState) (input : Input) : Option MachineState :=
  match input, s.current with
  | .apply entry extraArgs, none => do
      let t ← s.table[entry]?
      some (s.turn entry (t, some (.afterCheckSignals extraArgs), []))
  | .applyStub nargs entry, none => do
      let t ← s.table[entry]?
      if 1 ≤ nargs ∧ nargs ≤ 5 then some (s.turn entry (applyStub nargs t)) else none
  | .next, some (entry, .afterCheckSignals extraArgs) => do
      let t ← s.table[entry]?
      some (s.turn entry (afterCheckSignals o extraArgs t))
  | .next, some (entry, .checkOpt extraArgs turns) => do
      let t ← s.table[entry]?
      let threshold ← o.hotClosureThreshold
      some (s.turn entry (checkOpt threshold extraArgs turns t))
  | .compiled result, some (entry, .compile extraArgs turns) => do
      let t ← s.table[entry]?
      let (t, events) ← (compileClosureOptimised o.craneliftErrorHandling result t).toOption
      some (s.turn entry (t, some (.checkOpt extraArgs turns), events))
  | _, _ => none

/-- Turns one after another. -/
def run (o : Options) : MachineState → List Input → Option MachineState
  | s, [] => some s
  | s, input :: inputs => do run o (← step o s input) inputs

/-- Before any application. -/
def MachineState.start (table : List ClosureMetadataTableEntry) : MachineState := ⟨table, none, []⟩

/-! ## §3. What holds of an entry. -/

/-- What has happened to an entry. -/
def history (entry : Nat) (log : List (Nat × Event)) : List Event :=
  (log.filter fun p => p.1 = entry).map Prod.snd

/-- The stored statuses. -/
def statuses (events : List Event) : List (BitVec 64) := events.filterMap fun
  | .stored status => some status
  | _ => none

/-- What the calls of `optimise_closure` returned. -/
def results (events : List Event) : List OptimiseResult := events.filterMap fun
  | .optimise result => some result
  | _ => none

/-- 1 to `k`. -/
def counts (k : Nat) : List (BitVec 64) := (List.range k).map fun i => .ofNat 64 (i + 1)

/-- An entry as it is laid out: bytecode with a count of 0, or code that is not
to be optimised. -/
def ClosureMetadataTableEntry.Fresh (t : ClosureMetadataTableEntry) : Prop :=
  (t.executionCountStatus = 0 ∨ t.executionCountStatus = -1) ∧
    ∀ addr, t.compiledLocation ≠ .optimised addr

/-- **What an entry may go through**, from `t₀` to `t`. -/
structure Lawful (t₀ t : ClosureMetadataTableEntry) (events : List Event) : Prop where
  /-- A status of -1 stays. -/
  restart : t₀.executionCountStatus = -1 → t.executionCountStatus = -1 ∧ statuses events = []
  /-- A count goes up one by one, and becomes -2 or -3 at most once, for good. -/
  counting : t₀.executionCountStatus = 0 → ∃ k last, last ∈ [[], [-2], [-3]] ∧
    statuses events = counts k ++ last ∧
    t.executionCountStatus = (counts k ++ last).getLast?.getD 0
  once : (results events).length ≤ 1
  /-- The location is the optimised one exactly with the status -2. -/
  location : t.executionCountStatus = -2 ∧
      (∃ addr, t.compiledLocation = .optimised addr ∧ .optimise (.compiled addr) ∈ events) ∨
    t.executionCountStatus ≠ -2 ∧ t.compiledLocation = t₀.compiledLocation
  bytecalls : ∀ code, .bytecall code ∈ events →
    code = t₀.compiledLocation ∧ ∀ addr, code ≠ .optimised addr
  optcalls : ∀ code, .optcall code ∈ events ∨ .fastcall code ∈ events →
    ∃ addr, code = .optimised addr ∧ .optimise (.compiled addr) ∈ events

/-- What has been stored and compiled so far; a count can be 2³¹ only while the
closure is being compiled. -/
inductive Phase (t₀ : ClosureMetadataTableEntry) :
    ClosureMetadataTableEntry → Bool → List Event → Prop where
  | fixed {events : List Event} (hstart : t₀.executionCountStatus = -1)
      (hstatuses : statuses events = []) (hresults : results events = []) :
      Phase t₀ t₀ false events
  | counting {compiling : Bool} {events : List Event} {k : Nat}
      (hstart : t₀.executionCountStatus = 0) (hk : k < 2 ^ 31 ∨ compiling = true ∧ k ≤ 2 ^ 31)
      (hstatuses : statuses events = counts k) (hresults : results events = []) :
      Phase t₀ (t₀.store (.ofNat 64 k)) compiling events
  | compiled {events : List Event} {k addr : Nat} (hstart : t₀.executionCountStatus = 0)
      (hstatuses : statuses events = counts k ++ [-2])
      (hresults : results events = [.compiled addr]) :
      Phase t₀ { t₀ with compiledLocation := .optimised addr, executionCountStatus := -2 } false
        events
  | failed {events : List Event} {k : Nat} (hstart : t₀.executionCountStatus = 0)
      (hstatuses : statuses events = counts k ++ [-3]) (hresults : (results events).length ≤ 1) :
      Phase t₀ (t₀.store (-3)) false events

/-- Where control has been handed to. -/
structure Jumps (t₀ : ClosureMetadataTableEntry) (events : List Event) : Prop where
  bytecalls : ∀ code, .bytecall code ∈ events → code = t₀.compiledLocation
  optcalls : ∀ code, .optcall code ∈ events ∨ .fastcall code ∈ events →
    ∃ addr, code = .optimised addr ∧ .optimise (.compiled addr) ∈ events

/-- Where an application can be. -/
def Pc.Ok (t : ClosureMetadataTableEntry) : Option Pc → Prop
  | none | some (.afterCheckSignals _) => True
  | some (.checkOpt _ turns) => t.executionCountStatus ≠ -1 ∧
      (turns = 0 ∨ turns = 1 ∧ (t.executionCountStatus = -2 ∨ t.executionCountStatus = -3))
  | some (.compile _ turns) => turns = 1

/-- In the callback. -/
def Pc.isCompile : Option Pc → Bool
  | some (.compile _ _) => true
  | _ => false

/-- What holds of an entry and an application of it.  Without a threshold nothing
is compiled. -/
structure EntryOk (threshold : Option Nat) (t₀ t : ClosureMetadataTableEntry) (pc : Option Pc)
    (events : List Event) : Prop where
  phase : Phase t₀ t (Pc.isCompile pc) events
  jumps : Jumps t₀ events
  place : Pc.Ok t pc
  cold : threshold = none → results events = [] ∧ Pc.isCompile pc = false

section Entry

variable {t₀ t : ClosureMetadataTableEntry} {events : List Event} {extraArgs : BitVec 64}

/-- A count below the limit is what it says. -/
theorem toInt_count {k : Nat} (hk : k ≤ 2 ^ 31) : (BitVec.ofNat 64 k).toInt = k := by
  have hnat : (BitVec.ofNat 64 k).toNat = k := by
    rw [BitVec.toNat_ofNat]
    omega
  rw [BitVec.toInt_eq_toNat_of_lt (by omega), hnat]

/-- A count is none of the negative statuses. -/
theorem count_ne {k : Nat} {status : BitVec 64} (hk : k ≤ 2 ^ 31) (hneg : status.toInt < 0) :
    BitVec.ofNat 64 k ≠ status := by
  intro heq
  have hint := toInt_count hk
  rw [heq] at hint
  omega

/-- The threshold is an immediate of 32 bits. -/
theorem toInt_thresholdImm_lt (threshold : Nat) : (thresholdImm threshold).toInt < 2 ^ 31 := by
  unfold thresholdImm
  rw [BitVec.toInt_signExtend_of_le (by decide)]
  exact BitVec.toInt_lt

/-- One count more. -/
theorem counts_succ (k : Nat) : counts (k + 1) = counts k ++ [.ofNat 64 (k + 1)] := by
  unfold counts
  rw [List.range_succ, List.map_append]
  rfl

/-- The statuses written in two stretches. -/
theorem statuses_append (events events' : List Event) :
    statuses (events ++ events') = statuses events ++ statuses events' := List.filterMap_append ..

/-- The compilations of two stretches. -/
theorem results_append (events events' : List Event) :
    results (events ++ events') = results events ++ results events' := List.filterMap_append ..

/-- A compilation is in the history. -/
theorem mem_results {result : OptimiseResult} : result ∈ results events ↔
    .optimise result ∈ events := by
  unfold results
  rw [List.mem_filterMap]
  constructor
  · rintro ⟨event, hmem, heq⟩
    cases event with
    | optimise r =>
        cases heq
        exact hmem
    | stored _ => cases heq
    | bytecall _ => cases heq
    | optcall _ => cases heq
    | fastcall _ => cases heq
  · intro hmem
    exact ⟨_, hmem, rfl⟩

/-- No count is above the limit. -/
theorem Phase.le {compiling : Bool} {k : Nat} (hk : k < 2 ^ 31 ∨ compiling = true ∧ k ≤ 2 ^ 31) :
    k ≤ 2 ^ 31 := hk.elim Nat.le_of_lt And.right

/-- **The location goes with the status.** -/
theorem Phase.location {compiling : Bool} (h : Phase t₀ t compiling events) :
    t.executionCountStatus = -2 ∧ (∃ addr, t.compiledLocation = .optimised addr ∧
      .optimise (.compiled addr) ∈ events) ∨
    t.executionCountStatus ≠ -2 ∧ t.compiledLocation = t₀.compiledLocation := by
  cases h with
  | fixed hstart hstatuses hresults =>
      refine .inr ⟨?_, rfl⟩
      rw [hstart]
      decide
  | counting hstart hk hstatuses hresults =>
      exact .inr ⟨count_ne (Phase.le hk) (by decide), rfl⟩
  | @compiled events k addr hstart hstatuses hresults =>
      refine .inl ⟨rfl, addr, rfl, mem_results.mp ?_⟩
      rw [hresults]
      exact List.mem_singleton.mpr rfl
  | failed hstart hstatuses hresults => exact .inr ⟨show (-3 : BitVec 64) ≠ -2 by decide, rfl⟩

/-- **A closure that counts is lawful**: it has not been compiled. -/
theorem Phase.lawful {compiling : Bool} (h : Phase t₀ t compiling events) (hj : Jumps t₀ events)
    (hplain : ∀ addr, t₀.compiledLocation ≠ .optimised addr) : Lawful t₀ t events := by
  refine ⟨fun hrestart => ?_, fun hzero => ?_, ?_, h.location, fun code hcode => ?_, hj.optcalls⟩
  · cases h with
    | fixed hstart hstatuses hresults => exact ⟨hstart, hstatuses⟩
    | counting hstart => exact absurd (hstart.symm.trans hrestart) (by decide)
    | compiled hstart => exact absurd (hstart.symm.trans hrestart) (by decide)
    | failed hstart => exact absurd (hstart.symm.trans hrestart) (by decide)
  · cases h with
    | fixed hstart => exact absurd (hstart.symm.trans hzero) (by decide)
    | @counting compiling events k hstart hk hstatuses hresults =>
        refine ⟨k, [], by simp, by rw [hstatuses, List.append_nil], ?_⟩
        cases k with
        | zero => rfl
        | succ k =>
            rw [List.append_nil, counts_succ, List.getLast?_concat]
            rfl
    | @compiled events k addr hstart hstatuses hresults =>
        exact ⟨k, [-2], by simp, hstatuses, by rw [List.getLast?_concat]; rfl⟩
    | @failed events k hstart hstatuses hresults =>
        exact ⟨k, [-3], by simp, hstatuses, by rw [List.getLast?_concat]; rfl⟩
  · cases h with
    | fixed hstart hstatuses hresults => rw [hresults]; exact Nat.zero_le _
    | counting hstart hk hstatuses hresults => rw [hresults]; exact Nat.zero_le _
    | compiled hstart hstatuses hresults => rw [hresults]; exact Nat.le_refl _
    | failed hstart hstatuses hresults => exact hresults
  · have hloc := hj.bytecalls code hcode
    rw [hloc]
    exact ⟨rfl, hplain⟩

/-- Events that store and compile nothing. -/
theorem Phase.quiet {compiling : Bool} {more : List Event} (h : Phase t₀ t compiling events)
    (hstatuses : statuses more = []) (hresults : results more = []) :
    Phase t₀ t compiling (events ++ more) := by
  have hs : statuses (events ++ more) = statuses events := by
    rw [statuses_append, hstatuses, List.append_nil]
  have hr : results (events ++ more) = results events := by
    rw [results_append, hresults, List.append_nil]
  cases h with
  | fixed h₀ h₁ h₂ => exact .fixed h₀ (hs.trans h₁) (hr.trans h₂)
  | counting h₀ hk h₁ h₂ => exact .counting h₀ hk (hs.trans h₁) (hr.trans h₂)
  | compiled h₀ h₁ h₂ => exact .compiled h₀ (hs.trans h₁) (hr.trans h₂)
  | failed h₀ h₁ h₂ => exact .failed h₀ (hs.trans h₁) (by rw [hr]; exact h₂)

/-- More jumps, each to the code that is there then. -/
theorem Jumps.append {more : List Event} (h : Jumps t₀ events)
    (hbytecalls : ∀ code, .bytecall code ∈ more → code = t₀.compiledLocation)
    (hoptcalls : ∀ code, .optcall code ∈ more ∨ .fastcall code ∈ more →
      ∃ addr, code = .optimised addr ∧ .optimise (.compiled addr) ∈ events) :
    Jumps t₀ (events ++ more) := by
  refine ⟨fun code hcode => ?_, fun code hcode => ?_⟩
  · exact (List.mem_append.mp hcode).elim (h.bytecalls code) (hbytecalls code)
  · simp only [List.mem_append] at hcode ⊢
    have hcases : (.optcall code ∈ events ∨ .fastcall code ∈ events) ∨
        (.optcall code ∈ more ∨ .fastcall code ∈ more) := by tauto
    obtain ⟨addr, heq, hmem⟩ := hcases.elim (h.optcalls code) (hoptcalls code)
    exact ⟨addr, heq, .inl hmem⟩

/-- A jump to the location of an entry that is not optimised. -/
theorem Phase.bytecall {compiling : Bool} (h : Phase t₀ t compiling events)
    (hj : Jumps t₀ events) (hstatus : t.executionCountStatus ≠ -2) :
    Jumps t₀ (events ++ [.bytecall t.compiledLocation]) := by
  have hloc := (h.location.resolve_left fun h => hstatus h.1).2
  exact hj.append (fun code hcode => by simpa [hloc] using hcode) fun code hcode => by simp at hcode

/-- One to that of an optimised entry. -/
theorem Phase.optcall {compiling : Bool} {event : Code → Event} (h : Phase t₀ t compiling events)
    (hj : Jumps t₀ events) (hstatus : t.executionCountStatus = -2)
    (hevent : event = .optcall ∨ event = .fastcall) :
    Jumps t₀ (events ++ [event t.compiledLocation]) := by
  obtain ⟨addr, hloc, hmem⟩ := (h.location.resolve_right fun h => h.1 hstatus).2
  refine hj.append (fun code hcode => ?_) fun code hcode => ⟨addr, ?_, hmem⟩
  · rcases hevent with rfl | rfl <;> simp at hcode
  · rcases hevent with rfl | rfl <;> simpa [hloc] using hcode

/-! ## §4. Turns. -/

/-- The entry after a turn. -/
abbrev TurnOk (threshold : Option Nat) (t₀ : ClosureMetadataTableEntry) (events : List Event)
    (turn : Turn) : Prop := EntryOk threshold t₀ turn.1 turn.2.1 (events ++ turn.2.2)

variable {limit : Option Nat}

/-- A turn that stores and compiles nothing. -/
theorem EntryOk.quiet {pc pc' : Option Pc} {more : List Event} (h : EntryOk limit t₀ t pc events)
    (hidle : Pc.isCompile pc = false) (hidle' : Pc.isCompile pc' = false)
    (hstatuses : statuses more = []) (hresults : results more = [])
    (hj : Jumps t₀ (events ++ more)) (hpc : Pc.Ok t pc') :
    EntryOk limit t₀ t pc' (events ++ more) := by
  have hphase := h.phase
  rw [hidle] at hphase
  refine ⟨?_, hj, hpc, fun hcold => ⟨?_, hidle'⟩⟩
  · rw [hidle']
    exact hphase.quiet hstatuses hresults
  · rw [results_append, hresults, List.append_nil]
    exact (h.cold hcold).1

/-- No jump more. -/
theorem Jumps.same (h : Jumps t₀ events) : Jumps t₀ (events ++ []) := by
  rw [List.append_nil]
  exact h

/-- A closure that is not compiled runs as bytecode. -/
theorem bytecall_ok {pc : Option Pc} (h : EntryOk limit t₀ t pc events)
    (hidle : Pc.isCompile pc = false) (hstatus : t.executionCountStatus ≠ -2) :
    TurnOk limit t₀ events t.bytecall :=
  h.quiet hidle rfl rfl rfl (h.phase.bytecall h.jumps hstatus) trivial

/-- `APPLY` goes to the code the entry has. -/
theorem applyStub_ok (nargs : Nat) (h : EntryOk limit t₀ t none events) :
    TurnOk limit t₀ events (applyStub nargs t) := by
  unfold applyStub
  split
  · next hfast =>
      exact h.quiet rfl rfl rfl rfl (h.phase.optcall h.jumps hfast.1 (.inr rfl)) trivial
  · exact h.quiet rfl rfl rfl rfl h.jumps.same trivial

/-- Behind the signals the entry is looked at. -/
theorem afterCheckSignals_ok (o : Options)
    (h : EntryOk o.hotClosureThreshold t₀ t (some (.afterCheckSignals extraArgs)) events) :
    TurnOk o.hotClosureThreshold t₀ events (afterCheckSignals o extraArgs t) := by
  unfold afterCheckSignals
  split
  · next hrestart =>
      refine bytecall_ok h rfl ?_
      rw [hrestart]
      decide
  split
  · exact h.quiet rfl rfl rfl rfl h.jumps.same trivial
  split
  · next hcold =>
      -- nothing has been compiled, so the location is that of the bytecode
      refine bytecall_ok h rfl fun hstatus => ?_
      obtain ⟨addr, -, hmem⟩ := (h.phase.location.resolve_right fun h => h.1 hstatus).2
      rw [← mem_results, (h.cold hcold).1] at hmem
      cases hmem
  · next hne _ _ _ _ => exact h.quiet rfl rfl rfl rfl h.jumps.same ⟨hne, .inl rfl⟩

/-- `check_opt` counts, and compiles when the count is right. -/
theorem checkOpt_ok (threshold : Nat) {turns : Nat}
    (h : EntryOk (some threshold) t₀ t (some (.checkOpt extraArgs turns)) events) :
    TurnOk (some threshold) t₀ events (checkOpt threshold extraArgs turns t) := by
  obtain ⟨hne, hturns⟩ := h.place
  unfold checkOpt
  split
  -- -2: jump to the optimised code
  · next hopt =>
      exact h.quiet rfl rfl rfl rfl (h.phase.optcall h.jumps hopt (.inl rfl)) trivial
  split
  · next hopt _ => exact bytecall_ok h rfl hopt
  next hopt herr =>
  -- what is left is a count, and it is the first turn
  have hphase : Phase t₀ t false events := h.phase
  cases hphase with
  | fixed hstart => exact absurd hstart hne
  | compiled => exact absurd rfl hopt
  | failed =>
      have hlt : BitVec.slt (-3 : BitVec 64) (-2) = true := by decide
      exact absurd hlt herr
  | @counting compiling events k hstart hk hstatuses hresults =>
      have hk : k < 2 ^ 31 := hk.resolve_right fun h => Bool.noConfusion h.1
      have hzero : turns = 0 := by
        refine hturns.resolve_right fun h => h.2.elim ?_ ?_
        · exact count_ne (Nat.le_of_lt hk) (by decide)
        · exact count_ne (Nat.le_of_lt hk) (by decide)
      have hcount : (t₀.store (.ofNat 64 k)).executionCountStatus + 1 = .ofNat 64 (k + 1) := by
        show BitVec.ofNat 64 k + 1 = _
        rw [BitVec.ofNat_add]
        rfl
      have hstored : ∀ more, statuses more = [] →
          statuses (events ++ Event.stored (.ofNat 64 (k + 1)) :: more) = counts (k + 1) := by
        intro more hmore
        rw [statuses_append, hstatuses, counts_succ, show statuses (Event.stored
          (.ofNat 64 (k + 1)) :: more) = .ofNat 64 (k + 1) :: statuses more from rfl, hmore]
      have hsame : ∀ more, results more = [] →
          results (events ++ Event.stored (.ofNat 64 (k + 1)) :: more) = [] := by
        intro more hmore
        rw [results_append, hresults]
        exact hmore
      dsimp only
      rw [hcount]
      split
      -- below the threshold the bytecode runs, at it the compiler is called
      · next hlt =>
          have hk' : k + 1 < 2 ^ 31 := by
            have hint := BitVec.slt_iff_toInt_lt.mp hlt
            have := toInt_thresholdImm_lt threshold
            rw [toInt_count (by omega)] at hint
            omega
          refine ⟨.counting hstart (.inl hk') (hstored _ rfl) (hsame _ rfl), ?_, trivial, nofun⟩
          refine h.jumps.append (fun code hcode => ?_) (by simp)
          simp only [List.mem_cons, List.not_mem_nil, or_false, reduceCtorEq, false_or,
            Event.bytecall.injEq] at hcode
          exact hcode
      · refine ⟨.counting hstart (.inr ⟨rfl, by omega⟩) (hstored _ rfl) (hsame _ rfl), ?_, ?_, nofun⟩
        · exact h.jumps.append (by simp) (by simp)
        · show turns + 1 = 1
          rw [hzero]

/-- A compilation leaves an address or gives up for good. -/
theorem compileClosureOptimised_ok {handling : CraneliftErrorHandling} {result : OptimiseResult}
    {turns : Nat} {t' : ClosureMetadataTableEntry} {more : List Event}
    (h : EntryOk limit t₀ t (some (.compile extraArgs turns)) events)
    (hcompile : compileClosureOptimised handling result t = .ok (t', more)) :
    EntryOk limit t₀ t' (some (.checkOpt extraArgs turns)) (events ++ more) := by
  have hphase : Phase t₀ t true events := h.phase
  have hturns : turns = 1 := h.place
  have hwarm : limit ≠ none := fun hcold => Bool.noConfusion (h.cold hcold).2
  cases hphase with
  | @counting compiling events k hstart hk hstatuses hresults =>
      -- after a failure
      have hfailed : ∀ rs, statuses more = [-3] → results more = rs → rs.length ≤ 1 →
          Jumps t₀ (events ++ more) → EntryOk limit t₀ (t₀.store (-3))
            (some (.checkOpt extraArgs turns)) (events ++ more) := by
        intro rs hs hr hlen hj
        refine ⟨.failed (k := k) hstart ?_ ?_, hj, ⟨show (-3 : BitVec 64) ≠ -1 by decide,
          .inr ⟨hturns, .inr rfl⟩⟩, fun hcold => absurd hcold hwarm⟩
        · rw [statuses_append, hstatuses, hs]
        · rw [results_append, hresults, hr]
          exact hlen
      obtain ⟨arity, -, hcompile⟩ := bind_eq_ok.mp hcompile
      -- more than five parameters are a failure, and the compiler is not called
      split at hcompile
      · cases hcompile
        exact hfailed [] rfl rfl (by simp) (h.jumps.append (by simp) (by simp))
      · cases result with
        | compiled newCode =>
            cases hcompile
            refine ⟨.compiled (k := k) hstart ?_ ?_, h.jumps.append (by simp) (by simp),
              ⟨show (-2 : BitVec 64) ≠ -1 by decide, .inr ⟨hturns, .inl rfl⟩⟩,
              fun hcold => absurd hcold hwarm⟩
            · rw [statuses_append, hstatuses]
              rfl
            · rw [results_append, hresults]
              rfl
        | unsupported =>
            cases hcompile
            exact hfailed [.unsupported] rfl rfl (by simp) (h.jumps.append (by simp) (by simp))
        | error =>
            cases handling with
            | ignore =>
                cases hcompile
                exact hfailed [.error] rfl rfl (by simp) (h.jumps.append (by simp) (by simp))
            | log =>
                cases hcompile
                exact hfailed [.error] rfl rfl (by simp) (h.jumps.append (by simp) (by simp))
            | panic => cases hcompile

end Entry

/-! ## §5. Runs. -/

/-- The history of two stretches. -/
theorem history_append (entry : Nat) (log log' : List (Nat × Event)) :
    history entry (log ++ log') = history entry log ++ history entry log' := by
  unfold history
  rw [List.filter_append, List.map_append]

/-- What one entry does is its own history. -/
theorem history_self (entry : Nat) : ∀ events : List Event,
    history entry (events.map (entry, ·)) = events
  | [] => rfl
  | event :: events => by
      have ih := history_self entry events
      unfold history at ih ⊢
      rw [List.map_cons, List.filter_cons_of_pos (by simp), List.map_cons, ih]

/-- And it is in no other's. -/
theorem history_other {entry other : Nat} (hne : entry ≠ other) : ∀ events : List Event,
    history other (events.map (entry, ·)) = []
  | [] => rfl
  | event :: events => by
      have ih := history_other hne events
      unfold history at ih ⊢
      rw [List.map_cons, List.filter_cons_of_neg (by simpa using hne), ih]

/-- Where the application under way is, if it is one of this entry. -/
def MachineState.place (s : MachineState) (entry : Nat) : Option Pc :=
  match s.current with
  | none => none
  | some (current, pc) => if current = entry then some pc else none

/-- **The invariant**: of every entry, with the application that is under way. -/
structure MachineOk (o : Options) (table : List ClosureMetadataTableEntry) (s : MachineState) :
    Prop where
  size : s.table.length = table.length
  current : ∀ e pc, s.current = some (e, pc) → e < table.length
  entries : ∀ e t₀, table[e]? = some t₀ → ∃ t, s.table[e]? = some t ∧
    EntryOk o.hotClosureThreshold t₀ t (s.place e) (history e s.log)

section Machine

variable {o : Options} {table : List ClosureMetadataTableEntry} {s s' : MachineState}

/-- A turn for one entry; there is no application of another one. -/
theorem MachineOk.turn {entry : Nat} {t : ClosureMetadataTableEntry} {turn : Turn}
    (h : MachineOk o table s) (hget : s.table[entry]? = some t)
    (hothers : ∀ e, e ≠ entry → s.place e = none)
    (hturn : ∀ t₀, EntryOk o.hotClosureThreshold t₀ t (s.place entry) (history entry s.log) →
      TurnOk o.hotClosureThreshold t₀ (history entry s.log) turn) :
    MachineOk o table (s.turn entry turn) := by
  have hlt : entry < s.table.length := (List.getElem?_eq_some_iff.mp hget).1
  refine ⟨(List.length_set ..).trans h.size, fun e pc hcurrent => ?_, fun e t₀ ht₀ => ?_⟩
  · obtain ⟨pc', -, heq⟩ := Option.map_eq_some_iff.mp hcurrent
    injection heq with hentry
    rw [← hentry, ← h.size]
    exact hlt
  obtain ⟨t', hget', hok⟩ := h.entries e t₀ ht₀
  -- only the row of `entry`, its place and its part of the log change
  by_cases he : e = entry
  · subst he
    obtain rfl : t' = t := Option.some.inj (hget'.symm.trans hget)
    refine ⟨turn.1, ?_, ?_⟩
    · show (s.table.set e turn.1)[e]? = some turn.1
      rw [List.getElem?_set_self hlt]
    · have hplace : (s.turn e turn).place e = turn.2.1 := by
        unfold MachineState.place MachineState.turn
        cases turn.2.1 with
        | none => rfl
        | some pc => exact if_pos rfl
      have hlog : history e (s.turn e turn).log = history e s.log ++ turn.2.2 := by
        show history e (s.log ++ turn.2.2.map (e, ·)) = _
        rw [history_append, history_self]
      rw [hplace, hlog]
      exact hturn t₀ hok
  · refine ⟨t', ?_, ?_⟩
    · show (s.table.set entry turn.1)[e]? = some t'
      rw [List.getElem?_set_ne (Ne.symm he)]
      exact hget'
    · have hplace : (s.turn entry turn).place e = s.place e := by
        rw [hothers e he]
        unfold MachineState.place MachineState.turn
        cases turn.2.1 with
        | none => rfl
        | some pc => exact if_neg (Ne.symm he)
      have hlog : history e (s.turn entry turn).log = history e s.log := by
        show history e (s.log ++ turn.2.2.map (entry, ·)) = _
        rw [history_append, history_other (Ne.symm he), List.append_nil]
      rw [hplace, hlog]
      exact hok

/-- Where no application runs no entry is entered. -/
theorem MachineState.place_idle (hcurrent : s.current = none) (e : Nat) : s.place e = none := by
  unfold MachineState.place
  rw [hcurrent]

/-- One entry at a time is entered. -/
theorem MachineState.place_current {entry : Nat} {pc : Pc} (hcurrent : s.current = some (entry, pc)) :
    s.place entry = some pc ∧ ∀ e, e ≠ entry → s.place e = none := by
  unfold MachineState.place
  rw [hcurrent]
  exact ⟨if_pos rfl, fun e he => if_neg (Ne.symm he)⟩

/-- The step lemma: every turn keeps the invariant. -/
theorem MachineOk.step {input : Input} (h : MachineOk o table s)
    (hstep : step o s input = some s') : MachineOk o table s' := by
  unfold Baseline.step at hstep
  split at hstep
  -- an application starts
  · next entry extraArgs hidle =>
      obtain ⟨t, hget, hstep⟩ := Option.bind_eq_some_iff.mp hstep
      cases hstep
      refine h.turn hget (fun e _ => s.place_idle hidle e) fun t₀ hok => ?_
      rw [s.place_idle hidle] at hok
      exact hok.quiet rfl rfl rfl rfl hok.jumps.same trivial
  -- by one of the stubs
  · next nargs entry hidle =>
      obtain ⟨t, hget, hstep⟩ := Option.bind_eq_some_iff.mp hstep
      split at hstep
      · cases hstep
        refine h.turn hget (fun e _ => s.place_idle hidle e) fun t₀ hok => ?_
        rw [s.place_idle hidle] at hok
        exact applyStub_ok nargs hok
      · cases hstep
  -- it comes behind the signals
  · next entry extraArgs hcurrent =>
      obtain ⟨t, hget, hstep⟩ := Option.bind_eq_some_iff.mp hstep
      obtain ⟨hplace, hothers⟩ := s.place_current hcurrent
      cases hstep
      refine h.turn hget hothers fun t₀ hok => ?_
      rw [hplace] at hok
      exact afterCheckSignals_ok o hok
  -- to the count
  · next entry extraArgs turns hcurrent =>
      obtain ⟨t, hget, hstep⟩ := Option.bind_eq_some_iff.mp hstep
      obtain ⟨threshold, hthreshold, hstep⟩ := Option.bind_eq_some_iff.mp hstep
      obtain ⟨hplace, hothers⟩ := s.place_current hcurrent
      cases hstep
      refine h.turn hget hothers fun t₀ hok => ?_
      rw [hplace, hthreshold] at hok
      rw [hthreshold]
      exact checkOpt_ok threshold hok
  -- and to the compiler
  · next result entry extraArgs turns hcurrent =>
      obtain ⟨t, hget, hstep⟩ := Option.bind_eq_some_iff.mp hstep
      obtain ⟨⟨t', events⟩, hcompile, hstep⟩ := Option.bind_eq_some_iff.mp hstep
      obtain ⟨hplace, hothers⟩ := s.place_current hcurrent
      cases hstep
      refine h.turn hget hothers fun t₀ hok => ?_
      rw [hplace] at hok
      exact compileClosureOptimised_ok hok (toOption_eq_some.mp hcompile)
  · cases hstep

/-- The run lemma. -/
theorem MachineOk.run {inputs : List Input} (h : MachineOk o table s)
    (hrun : run o s inputs = some s') : MachineOk o table s' := by
  induction inputs generalizing s with
  | nil =>
      cases hrun
      exact h
  | cons input inputs ih =>
      obtain ⟨s₁, hstep, hrun⟩ := Option.bind_eq_some_iff.mp hrun
      exact ih (h.step hstep) hrun

/-- It holds of fresh entries. -/
theorem MachineOk.start (hfresh : ∀ t ∈ table, t.Fresh) :
    MachineOk o table (.start table) := by
  refine ⟨rfl, nofun, fun e t₀ ht₀ => ⟨t₀, ht₀, ?_⟩⟩
  refine ⟨?_, ⟨nofun, fun code hcode => hcode.elim nofun nofun⟩, trivial, fun _ => ⟨rfl, rfl⟩⟩
  rcases (hfresh t₀ (List.mem_of_getElem? ht₀)).1 with hzero | hrestart
  · have hcounting : Phase t₀ (t₀.store (.ofNat 64 0)) false [] :=
      .counting hzero (.inl (by decide)) rfl rfl
    have hsame : t₀.store (.ofNat 64 0) = t₀ := by
      unfold ClosureMetadataTableEntry.store
      rw [show BitVec.ofNat 64 0 = t₀.executionCountStatus from hzero.symm]
    rwa [hsame] at hcounting
  · exact .fixed hrestart rfl rfl

/-- **Every entry is lawful in every state of every run**: a status of -1 stays;
any other counts up and becomes -2 or -3 at most once, for good;
`optimise_closure` is called at most once; the location is the optimised one
exactly with -2; and control goes to code of the right kind.  The body at
`check_opt` runs at most twice for an application. -/
theorem run_lawful (o : Options) (table : List ClosureMetadataTableEntry) (inputs : List Input)
    (s : MachineState) (hfresh : ∀ t ∈ table, t.Fresh)
    (hrun : run o (.start table) inputs = some s) :
    (∀ e t₀, table[e]? = some t₀ → ∃ t, s.table[e]? = some t ∧ Lawful t₀ t (history e s.log)) ∧
      ∀ e extraArgs turns, s.current = some (e, .checkOpt extraArgs turns) → turns ≤ 1 := by
  have hok : MachineOk o table s := (MachineOk.start hfresh).run hrun
  refine ⟨fun e t₀ ht₀ => ?_, fun e extraArgs turns hcurrent => ?_⟩
  · obtain ⟨t, hget, hentry⟩ := hok.entries e t₀ ht₀
    have hmem := List.mem_of_getElem? ht₀
    exact ⟨t, hget, hentry.phase.lawful hentry.jumps (hfresh t₀ hmem).2⟩
  · have hlt := hok.current e _ hcurrent
    obtain ⟨t, hget, hentry⟩ := hok.entries e table[e] (List.getElem?_eq_getElem hlt)
    have hplace := hentry.place
    rw [(s.place_current hcurrent).1] at hplace
    rcases hplace.2 with hzero | ⟨hone, -⟩
    · omega
    · omega

/-- A closure compiled at its first application, and called. -/
theorem run_lawful_one : ∃ s,
    run ⟨some 1, .log⟩ (.start [.ofClosure 0 100 4 1])
      [.apply 0 0, .next, .next, .compiled (.compiled 7), .next] = some s ∧
    (∀ e t₀, [ClosureMetadataTableEntry.ofClosure 0 100 4 1][e]? = some t₀ →
      ∃ t, s.table[e]? = some t ∧ Lawful t₀ t (history e s.log)) ∧
    ∀ e extraArgs turns, s.current = some (e, .checkOpt extraArgs turns) → turns ≤ 1 := by
  refine ⟨⟨[⟨-2, .optimised 7, 0, 4, 0⟩], none, [(0, .stored 1), (0, .optimise (.compiled 7)),
    (0, .stored (-2)), (0, .optcall (.optimised 7))]⟩, by decide, ?_⟩
  refine run_lawful ⟨some 1, .log⟩ _ [.apply 0 0, .next, .next, .compiled (.compiled 7), .next] _
    (fun t ht => ?_) (by decide)
  rw [List.mem_singleton.mp ht]
  exact ⟨.inl rfl, nofun⟩

end Machine

end OcamlJit.Baseline

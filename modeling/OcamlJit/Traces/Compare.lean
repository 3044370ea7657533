/-
  OcamlJit.Traces.Compare
  ───────────────────────
  **THE TRACE COMPARISONS** (`commands/compare_instruction_traces.rs`,
  `commands/compare_call_traces.rs`).

  Both commands run two programs, drop what is not a trace entry from their
  output, and compare the entries one by one; an attempt that fails at the first
  entry is repeated, three times in all.  When all three fail there, the loop is
  over and `run` is `Ok(())`.

    • `execute_eq_pass`           an attempt passes when the entries are the same
                                  to both ends;
    • `execute_eq_failFirstLine`  it is repeated when the first ones are not;
    • `runs_pass_iff_agree`       success means agreement unless the first three
                                  attempts all fail at the first entry.
-/
import OcamlJit.Lib.Rust
import OcamlJit.Instructions.Types
import OcamlJit.Instructions.Opcode

namespace OcamlJit.Traces

open OcamlJit.Lib OcamlJit.Instructions

/-! ## §1. Trace entries (`instruction_trace.rs`, `call_trace.rs`). -/

/-- `struct BytecodeLocation`. -/
structure BytecodeLocation where
  sectionNumber : Nat
  offset : Nat
  deriving Repr, DecidableEq

/-- `enum ValueOrBytecodeLocation`. -/
inductive ValueOrBytecodeLocation where
  | value (v : BitVec 64)
  | bytecodeLocation (l : BytecodeLocation)
  deriving Repr, DecidableEq

/-- Its `PartialEq`: the JIT and the interpreter may show a code pointer in
either way. -/
def ValueOrBytecodeLocation.eq : ValueOrBytecodeLocation → ValueOrBytecodeLocation → Bool
  | .value a, .value b => a = b
  | .bytecodeLocation a, .bytecodeLocation b => a = b
  | _, _ => true

/-- `enum InstructionTraceLocation`. -/
inductive InstructionTraceLocation where
  | bytecode (pc : BytecodeLocation) (opcode : Opcode)
  | parsedInstruction (i : Instruction Nat)
  | event (s : String)
  deriving DecidableEq

/-- `struct InstructionTraceEntry`. -/
structure InstructionTraceEntry where
  location : InstructionTraceLocation
  accu : ValueOrBytecodeLocation
  env : BitVec 64
  extraArgs : BitVec 64
  sp : BitVec 64
  trapSp : BitVec 64
  stackSize : Nat
  topOfStack : List ValueOrBytecodeLocation

/-- The derived `PartialEq`. -/
def InstructionTraceEntry.eq (a b : InstructionTraceEntry) : Bool :=
  decide (a.location = b.location) && a.accu.eq b.accu && decide (a.env = b.env) &&
    decide (a.extraArgs = b.extraArgs) && decide (a.sp = b.sp) && decide (a.trapSp = b.trapSp) &&
    decide (a.stackSize = b.stackSize) &&
    a.topOfStack.isEqv b.topOfStack ValueOrBytecodeLocation.eq

/-- `enum CallTrace`, whose equality is derived. -/
inductive CallTrace where
  | enter (closure : BytecodeLocation) (needed : Nat) (provided : List (BitVec 64))
  | cCall (id : Nat) (args : List (BitVec 64))
  | return_ (v : BitVec 64)
  | custom (message : String)
  deriving DecidableEq

/-! ## §2. The output of a program. -/

/-- A line with its line break, if it has one. -/
structure Line where
  chars : List Char
  nonempty : chars ≠ []

/-- What `read_line` gives, call by call: a line, or an `Err`; the end of the
output after the last one. -/
abbrev Stream := List (Option Line)

/-- How a command stops without `Ok`. -/
inductive CommandError where
  /-- An `Err` of `read_line`. -/
  | readLine
  /-- `process::exit(code)`. -/
  | exit (code : Nat)
  deriving Repr, DecidableEq

/-- `enum Output`. -/
inductive Output (τ : Type) where
  | trace (t : τ)
  | exited

/-- The derived `PartialEq`. -/
def Output.eq {τ : Type} (eq : τ → τ → Bool) : Output τ → Output τ → Bool
  | .trace a, .trace b => eq a b
  | .exited, .exited => true
  | _, _ => false

/-- In what the two commands are different.  The programs are called first and
second in the order their output is read in. -/
structure TraceCommand (τ : Type) where
  /-- What the lines with a trace entry start with. -/
  marker : List Char
  /-- `serde_json::from_str`. -/
  parse : List Char → Option τ
  /-- The entries that are returned. -/
  keeps : τ → Bool
  /-- `==` on the entries of the first and the second program. -/
  eq : τ → τ → Bool
  /-- The output that says whether the loop goes on. -/
  watched : Output τ → Output τ → Output τ
  watched_eq : ∀ a b, watched a b = a ∨ watched a b = b

/-- `str::trim_start_matches`. -/
def trimStartMatches (p s : List Char) : List Char :=
  if _ : p ≠ [] ∧ p.isPrefixOf s then trimStartMatches p (s.drop p.length) else s
  termination_by s.length
  decreasing_by
    have hp : p ≠ [] ∧ p.isPrefixOf s := ‹_›
    have hle := (List.isPrefixOf_iff_prefix.mp hp.2).length_le
    have hpos := List.length_pos_iff.mpr hp.1
    rw [List.length_drop]
    omega

/-! ## §3. An attempt. -/

section Command

variable {τ : Type} (c : TraceCommand τ)

/-- `RunningProgram::get_trace_line_or_exit`, and the output after it. -/
def getTraceLineOrExit : Stream → Rust CommandError (Output τ × Stream)
  | [] => pure (.exited, [])
  | none :: _ => err .readLine
  | some line :: lines =>
      if c.marker.isPrefixOf line.chars then
        match c.parse (trimStartMatches c.marker line.chars) with
        | none => panicked
        | some trace =>
            if c.keeps trace then pure (.trace trace, lines) else getTraceLineOrExit lines
      else getTraceLineOrExit lines

/-- `enum TestResult`. -/
inductive TestResult where
  | pass | fail | failFirstLine
  deriving Repr, DecidableEq

/-- The loop of `execute`. -/
def executeLoop : Nat → Stream → Stream → Bool → Rust CommandError TestResult
  | 0, _, _, _ => .error .outOfFuel
  | fuel + 1, first, second, firstLinePassed => do
      let (firstOutput, first) ← getTraceLineOrExit c first
      let (secondOutput, second) ← getTraceLineOrExit c second
      if Output.eq c.eq firstOutput secondOutput then
        match c.watched firstOutput secondOutput with
        | .trace _ => executeLoop fuel first second true
        | .exited => pure .pass
      else pure (if firstLinePassed then .fail else .failFirstLine)

/-- The outputs of the two programs, which have started. -/
structure Attempt where
  first : Stream
  second : Stream

/-- `execute`.  A round takes a line of both outputs, or is the last one. -/
def execute (a : Attempt) : Rust CommandError TestResult :=
  executeLoop c (a.first.length + 1) a.first a.second false

/-- The loop of `run`. -/
def runLoop : Nat → (Nat → Attempt) → Rust CommandError Unit
  | 0, _ => pure ()
  | retryAttempts + 1, attempts => do
      match ← execute c (attempts 0) with
      | .pass => pure ()
      | .fail => err (.exit 1)
      | .failFirstLine => runLoop retryAttempts fun i => attempts (i + 1)

/-- `run`, given what the programs print in one attempt after the other. -/
def run (attempts : Nat → Attempt) : Rust CommandError Unit := runLoop c 3 attempts

end Command

/-- `compare_instruction_traces.rs`: the interpreter, and then the compiled
program. -/
def instructionTraces (parse : List Char → Option InstructionTraceEntry) :
    TraceCommand InstructionTraceEntry where
  marker := ['!', 'T', '!']
  parse := parse
  keeps trace := match trace.location with
    | .bytecode _ opcode => !(opcode = .restart || opcode = .grab)
    | _ => false
  eq interpreted compiled := compiled.eq interpreted
  watched interpreted _ := interpreted
  watched_eq _ _ := .inl rfl

/-- `compare_call_traces.rs`: dynasm, and then Cranelift. -/
def callTraces (parse : List Char → Option CallTrace) : TraceCommand CallTrace where
  marker := ['!', 'C', '!']
  parse := parse
  keeps _ := true
  eq dynasm cranelift := dynasm = cranelift
  watched _ cranelift := cranelift
  watched_eq _ _ := .inr rfl

/-! ## §4. The entries of an output. -/

section Command

variable {τ : Type} (c : TraceCommand τ)

/-- What a line is, if it is not skipped: an entry, or the failure to read one. -/
def entryOf : Option Line → Option (Rust CommandError τ)
  | none => some (err .readLine)
  | some line =>
      if c.marker.isPrefixOf line.chars then
        match c.parse (trimStartMatches c.marker line.chars) with
        | none => some panicked
        | some trace => if c.keeps trace then some (.ok trace) else none
      else none

/-- What is left of an output when the rest is dropped. -/
def entries (s : Stream) : List (Rust CommandError τ) := s.filterMap (entryOf c)

/-- The first thing a program shows. -/
def firstOutput : List (Rust CommandError τ) → Rust CommandError (Output τ)
  | [] => .ok .exited
  | x :: _ => x.map .trace

/-- The comparison, of the entries. -/
def compareEntries : List (Rust CommandError τ) → List (Rust CommandError τ) → Bool →
    Rust CommandError TestResult
  | [], [], _ => pure .pass
  | [], y :: _, firstLinePassed => do
      let _ ← y
      pure (if firstLinePassed then .fail else .failFirstLine)
  | x :: _, [], firstLinePassed => do
      let _ ← x
      pure (if firstLinePassed then .fail else .failFirstLine)
  | x :: xs, y :: ys, firstLinePassed => do
      let t ← x
      let u ← y
      if c.eq t u then compareEntries xs ys true
      else pure (if firstLinePassed then .fail else .failFirstLine)

/-- The entries of both programs are the same, one by one and to both ends. -/
def Agrees (a : Attempt) : Prop :=
  List.Forall₂ (fun x y => ∃ t u, x = .ok t ∧ y = .ok u ∧ c.eq t u = true)
    (entries c a.first) (entries c a.second)

/-- The programs differ in the first thing they show. -/
def DiffersAtFirst (a : Attempt) : Prop :=
  ∃ o o', firstOutput (entries c a.first) = .ok o ∧ firstOutput (entries c a.second) = .ok o' ∧
    Output.eq c.eq o o' = false

variable {c}

theorem getTraceLineOrExit_cons (line : Option Line) (s : Stream) :
    getTraceLineOrExit c (line :: s) = (entryOf c line).elim (getTraceLineOrExit c s)
      fun x => x.map fun t => (.trace t, s) := by
  cases line with
  | none => rfl
  | some line =>
      rw [getTraceLineOrExit, entryOf]
      by_cases hmarker : c.marker.isPrefixOf line.chars = true
      · rw [if_pos hmarker, if_pos hmarker]
        cases c.parse (trimStartMatches c.marker line.chars) with
        | none => rfl
        | some trace =>
            dsimp only
            by_cases hkeeps : c.keeps trace = true
            · rw [if_pos hkeeps, if_pos hkeeps]
              rfl
            · rw [if_neg hkeeps, if_neg hkeeps]
              rfl
      · rw [if_neg hmarker, if_neg hmarker]
        rfl

theorem getTraceLineOrExit_nil {s : Stream} (h : entries c s = []) :
    getTraceLineOrExit c s = .ok (.exited, []) := by
  induction s with
  | nil => rfl
  | cons line s ih =>
      unfold entries at h ih
      rw [List.filterMap_cons] at h
      rw [getTraceLineOrExit_cons]
      cases he : entryOf c line with
      | none =>
          rw [he] at h
          exact ih h
      | some x =>
          rw [he] at h
          cases h

/-- The next output is the first entry, and the other ones are left. -/
theorem getTraceLineOrExit_entry {s : Stream} {x : Rust CommandError τ}
    {xs : List (Rust CommandError τ)} (h : entries c s = x :: xs) :
    ∃ rest, getTraceLineOrExit c s = x.map (fun t => (.trace t, rest)) ∧ entries c rest = xs ∧
      rest.length < s.length := by
  induction s with
  | nil => cases h
  | cons line s ih =>
      unfold entries at h ih
      rw [List.filterMap_cons] at h
      rw [getTraceLineOrExit_cons]
      cases he : entryOf c line with
      | none =>
          rw [he] at h
          obtain ⟨rest, hget, hrest, hlen⟩ := ih h
          exact ⟨rest, hget, hrest, by rw [List.length_cons]; omega⟩
      | some y =>
          rw [he] at h
          cases h
          exact ⟨s, rfl, rfl, by rw [List.length_cons]; omega⟩

/-! ## §5. How an attempt ends. -/

/-- The same output on both sides is the watched one. -/
theorem watched_exited : c.watched .exited .exited = .exited := by
  rcases c.watched_eq .exited .exited with h | h
  · exact h
  · exact h

theorem watched_trace (t u : τ) : ∃ w, c.watched (.trace t) (.trace u) = .trace w := by
  rcases c.watched_eq (.trace t) (.trace u) with h | h
  · exact ⟨t, h⟩
  · exact ⟨u, h⟩

/-- **The loop compares the entries.** -/
theorem executeLoop_eq (fuel : Nat) : ∀ first second firstLinePassed,
    first.length < fuel → executeLoop c fuel first second firstLinePassed =
      compareEntries c (entries c first) (entries c second) firstLinePassed := by
  induction fuel with
  | zero =>
      intro first second firstLinePassed hlen
      omega
  | succ fuel ih =>
      intro first second firstLinePassed hlen
      unfold executeLoop
      cases hx : entries c first with
      | nil =>
          rw [getTraceLineOrExit_nil hx]
          cases hy : entries c second with
          | nil =>
              rw [getTraceLineOrExit_nil hy]
              dsimp only [ok_bind, Output.eq]
              rw [watched_exited]
              rfl
          | cons y ys =>
              obtain ⟨rest, hget, -, -⟩ := getTraceLineOrExit_entry hy
              rw [hget]
              cases y with
              | error e => rfl
              | ok u => rfl
      | cons x xs =>
          obtain ⟨rest, hget, hxs, hlt⟩ := getTraceLineOrExit_entry hx
          rw [hget]
          -- an error in the first trace comes before the second is looked at
          cases x with
          | error e =>
              cases entries c second with
              | nil => rfl
              | cons y ys => rfl
          | ok t =>
              cases hy : entries c second with
              | nil =>
                  rw [getTraceLineOrExit_nil hy]
                  rfl
              | cons y ys =>
                  obtain ⟨rest', hget', hys, -⟩ := getTraceLineOrExit_entry hy
                  rw [hget']
                  cases y with
                  | error e => rfl
                  | ok u =>
                      -- the first line has passed from here on
                      have hrest := ih rest rest' true (by omega)
                      rw [hxs, hys] at hrest
                      obtain ⟨w, hw⟩ := watched_trace (c := c) t u
                      dsimp only [Except.map, ok_bind, Output.eq, compareEntries]
                      rw [hw]
                      dsimp only
                      rw [hrest]
                      rfl

theorem execute_eq (a : Attempt) :
    execute c a = compareEntries c (entries c a.first) (entries c a.second) false :=
  executeLoop_eq _ _ _ false (Nat.lt_succ_self _)

theorem compareEntries_eq_pass (xs : List (Rust CommandError τ)) : ∀ ys firstLinePassed,
    compareEntries c xs ys firstLinePassed = .ok .pass ↔
      List.Forall₂ (fun x y => ∃ t u, x = .ok t ∧ y = .ok u ∧ c.eq t u = true) xs ys := by
  have hdiff : ∀ p : Bool, (if p then TestResult.fail else .failFirstLine) ≠ .pass := by decide
  induction xs with
  | nil =>
      intro ys p
      cases ys with
      | nil => exact ⟨fun _ => .nil, fun _ => rfl⟩
      | cons y ys =>
          refine ⟨fun h => ?_, fun h => by cases h⟩
          obtain ⟨u, -, h⟩ := bind_eq_ok.mp h
          exact absurd (Except.ok.inj h) (hdiff p)
  | cons x xs ih =>
      intro ys p
      cases ys with
      | nil =>
          refine ⟨fun h => ?_, fun h => by cases h⟩
          obtain ⟨t, -, h⟩ := bind_eq_ok.mp h
          exact absurd (Except.ok.inj h) (hdiff p)
      | cons y ys =>
          rw [List.forall₂_cons]
          constructor
          · intro h
            obtain ⟨t, hx, h⟩ := bind_eq_ok.mp h
            obtain ⟨u, hy, h⟩ := bind_eq_ok.mp h
            split at h
            · next heq => exact ⟨⟨t, u, hx, hy, heq⟩, (ih ys true).mp h⟩
            · exact absurd (Except.ok.inj h) (hdiff p)
          · intro h
            obtain ⟨⟨t, u, rfl, rfl, heq⟩, h⟩ := h
            show (if c.eq t u = true then compareEntries c xs ys true else _) = _
            rw [if_pos heq]
            exact (ih ys true).mpr h

/-- **An attempt passes** when the entries agree. -/
theorem execute_eq_pass (a : Attempt) : execute c a = .ok .pass ↔ Agrees c a := by
  rw [execute_eq]
  exact compareEntries_eq_pass _ _ false

/-- After the first entry an attempt is not repeated. -/
theorem compareEntries_true (xs : List (Rust CommandError τ)) : ∀ ys,
    compareEntries c xs ys true ≠ .ok .failFirstLine := by
  induction xs with
  | nil =>
      intro ys h
      cases ys with
      | nil => cases h
      | cons y ys =>
          obtain ⟨u, -, h⟩ := bind_eq_ok.mp h
          cases h
  | cons x xs ih =>
      intro ys h
      cases ys with
      | nil =>
          obtain ⟨t, -, h⟩ := bind_eq_ok.mp h
          cases h
      | cons y ys =>
          obtain ⟨t, -, h⟩ := bind_eq_ok.mp h
          obtain ⟨u, -, h⟩ := bind_eq_ok.mp h
          split at h
          · exact ih ys h
          · cases h

theorem compareEntries_eq_failFirstLine (xs ys : List (Rust CommandError τ)) :
    compareEntries c xs ys false = .ok .failFirstLine ↔
      ∃ o o', firstOutput xs = .ok o ∧ firstOutput ys = .ok o' ∧ Output.eq c.eq o o' = false := by
  cases xs with
  | nil =>
      cases ys with
      | nil =>
          refine ⟨fun h => (by cases h), ?_⟩
          rintro ⟨o, o', hx, hy, hne⟩
          cases hx
          cases hy
          cases hne
      | cons y ys =>
          cases y with
          | error e =>
              refine ⟨fun h => (by cases h), ?_⟩
              rintro ⟨o, o', -, hy, -⟩
              cases hy
          | ok u => exact ⟨fun _ => ⟨.exited, .trace u, rfl, rfl, rfl⟩, fun _ => rfl⟩
  | cons x xs =>
      cases x with
      | error e =>
          refine ⟨fun h => (by cases ys <;> cases h), ?_⟩
          rintro ⟨o, o', hx, -, -⟩
          cases hx
      | ok t =>
          cases ys with
          | nil => exact ⟨fun _ => ⟨.trace t, .exited, rfl, rfl, rfl⟩, fun _ => rfl⟩
          | cons y ys =>
              cases y with
              | error e =>
                  refine ⟨fun h => (by cases h), ?_⟩
                  rintro ⟨o, o', -, hy, -⟩
                  cases hy
              | ok u =>
                  show (if c.eq t u = true then compareEntries c xs ys true else _) = _ ↔ _
                  -- equal entries: a later difference is no longer at the first line
                  by_cases heq : c.eq t u = true
                  · rw [if_pos heq]
                    refine ⟨fun h => absurd h (compareEntries_true xs ys), ?_⟩
                    rintro ⟨o, o', hx, hy, hne⟩
                    cases hx
                    cases hy
                    exact absurd (heq.symm.trans hne) (by decide)
                  · rw [if_neg heq]
                    exact ⟨fun _ => ⟨.trace t, .trace u, rfl, rfl, Bool.eq_false_iff.mpr heq⟩,
                      fun _ => rfl⟩

/-- **An attempt is repeated** when the programs differ in the first thing they
show. -/
theorem execute_eq_failFirstLine (a : Attempt) :
    execute c a = .ok .failFirstLine ↔ DiffersAtFirst c a := by
  rw [execute_eq]
  exact compareEntries_eq_failFirstLine _ _

theorem DiffersAtFirst.not_agrees {a : Attempt} (h : DiffersAtFirst c a) : ¬ Agrees c a := by
  intro hagrees
  have hpass := (execute_eq_pass a).mpr hagrees
  rw [(execute_eq_failFirstLine a).mpr h] at hpass
  cases hpass

/-! ## §6. The attempts. -/

/-- The attempt is made, and its outputs agree. -/
def AgreesAt (c : TraceCommand τ) (attempts : Nat → Attempt) (i : Nat) : Prop :=
  (∀ j < i, DiffersAtFirst c (attempts j)) ∧ Agrees c (attempts i)

/-- **The loop succeeds** when some attempt that is made agrees, or none is left. -/
theorem runLoop_eq_ok (n : Nat) : ∀ attempts : Nat → Attempt,
    runLoop c n attempts = .ok () ↔
      (∀ i < n, DiffersAtFirst c (attempts i)) ∨ ∃ i < n, AgreesAt c attempts i := by
  induction n with
  | zero =>
      intro attempts
      exact ⟨fun _ => .inl fun i hi => absurd hi (Nat.not_lt_zero i), fun _ => rfl⟩
  | succ n ih =>
      intro attempts
      constructor
      · intro h
        obtain ⟨r, hr, h⟩ := bind_eq_ok.mp h
        cases r with
        | pass =>
            refine .inr ⟨0, Nat.succ_pos n, ?_, (execute_eq_pass _).mp hr⟩
            intro j hj
            exact absurd hj (Nat.not_lt_zero j)
        | fail => cases h
        -- the attempt counts for nothing, and the others are numbered one lower
        | failFirstLine =>
            have hfirst := (execute_eq_failFirstLine _).mp hr
            rcases (ih _).mp h with hall | ⟨i, hi, hbefore, hagrees⟩
            · refine .inl fun i hi => ?_
              cases i with
              | zero => exact hfirst
              | succ i => exact hall i (by omega)
            · refine .inr ⟨i + 1, by omega, ?_, hagrees⟩
              intro j hj
              cases j with
              | zero => exact hfirst
              | succ j => exact hbefore j (by omega)
      · intro h
        by_cases hfirst : DiffersAtFirst c (attempts 0)
        · show (execute c (attempts 0) >>= _) = _
          rw [(execute_eq_failFirstLine _).mpr hfirst]
          refine (ih _).mpr ?_
          rcases h with hall | ⟨i, hi, hbefore, hagrees⟩
          · exact .inl fun i hi => hall (i + 1) (by omega)
          · cases i with
            | zero => exact absurd hagrees hfirst.not_agrees
            | succ i =>
                exact .inr ⟨i, by omega, fun j hj => hbefore (j + 1) (by omega), hagrees⟩
        · -- the first attempt is the one that agrees
          rcases h with hall | ⟨i, hi, hbefore, hagrees⟩
          · exact absurd (hall 0 (Nat.succ_pos n)) hfirst
          · cases i with
            | zero =>
                show (execute c (attempts 0) >>= _) = _
                rw [(execute_eq_pass _).mpr hagrees]
                rfl
            | succ i => exact absurd (hbefore 0 (Nat.succ_pos i)) hfirst

/-- **Success means agreement** exactly when the three attempts do not all
differ in the first thing the programs show. -/
theorem run_sound_iff (c : TraceCommand τ) (attempts : Nat → Attempt) :
    (run c attempts = .ok () → ∃ i < 3, AgreesAt c attempts i) ↔
      ¬ ∀ i < 3, DiffersAtFirst c (attempts i) := by
  constructor
  · intro hsound hall
    obtain ⟨i, hi, -, hagrees⟩ := hsound ((runLoop_eq_ok 3 attempts).mpr (.inl hall))
    exact (hall i hi).not_agrees hagrees
  · intro hnot hrun
    exact ((runLoop_eq_ok 3 attempts).mp hrun).resolve_left hnot

end Command

/-- `compare_instruction_traces`: success means agreement exactly when the three
attempts do not all differ in the first thing the programs show.  So does
`compare_call_traces`. -/
theorem runs_pass_iff_agree (parseEntry : List Char → Option InstructionTraceEntry)
    (parseCall : List Char → Option CallTrace) (attempts : Nat → Attempt) :
    ((run (instructionTraces parseEntry) attempts = .ok () →
        ∃ i < 3, AgreesAt (instructionTraces parseEntry) attempts i) ↔
      ¬ ∀ i < 3, DiffersAtFirst (instructionTraces parseEntry) (attempts i)) ∧
    ((run (callTraces parseCall) attempts = .ok () →
        ∃ i < 3, AgreesAt (callTraces parseCall) attempts i) ↔
      ¬ ∀ i < 3, DiffersAtFirst (callTraces parseCall) (attempts i)) :=
  ⟨run_sound_iff _ attempts, run_sound_iff _ attempts⟩

/-- The entry of an instruction trace, and the line it is printed on. -/
def constEntry : InstructionTraceEntry where
  location := .bytecode ⟨0, 0⟩ .const0
  accu := .value 1
  env := 1
  extraArgs := 0
  sp := 4096
  trapSp := 4096
  stackSize := 0
  topOfStack := []

def constLine : Line where
  chars := '!' :: 'T' :: '!' :: ("\x7b\"location\":\x7b\"Bytecode\":\x7b\"pc\":\x7b\"section_number\":0," ++
    "\"offset\":0\x7d,\"opcode\":\"Const0\"\x7d\x7d,\"accu\":\x7b\"Value\":1\x7d,\"env\":1," ++
    "\"extra_args\":0,\"sp\":4096,\"trap_sp\":4096,\"stack_size\":0,\"top_of_stack\":[]\x7d\n").toList
  nonempty := List.cons_ne_nil _ _

/-- The line of a call trace's `Return(1)`. -/
def returnLine : Line where
  chars := '!' :: 'C' :: '!' :: "\x7b\"Return\":1\x7d\n".toList
  nonempty := List.cons_ne_nil _ _

/-- In each attempt one program shows an entry and the other one exits without
any: both commands succeed, and no attempt agrees. -/
theorem runs_pass_disagreeing :
    (run (instructionTraces fun _ => some constEntry) (fun _ => ⟨[some constLine], []⟩) = .ok () ∧
      ¬ Agrees (instructionTraces fun _ => some constEntry) ⟨[some constLine], []⟩) ∧
    (run (callTraces fun _ => some (.return_ 1)) (fun _ => ⟨[some returnLine], []⟩) = .ok () ∧
      ¬ Agrees (callTraces fun _ => some (.return_ 1)) ⟨[some returnLine], []⟩) := by
  have hinstr : DiffersAtFirst (instructionTraces fun _ => some constEntry)
      ⟨[some constLine], []⟩ := ⟨.trace constEntry, .exited, rfl, rfl, rfl⟩
  have hcall : DiffersAtFirst (callTraces fun _ => some (.return_ 1))
      ⟨[some returnLine], []⟩ := ⟨.trace (.return_ 1), .exited, rfl, rfl, rfl⟩
  exact ⟨⟨(runLoop_eq_ok 3 _).mpr (.inl fun _ _ => hinstr), hinstr.not_agrees⟩,
    (runLoop_eq_ok 3 _).mpr (.inl fun _ _ => hcall), hcall.not_agrees⟩

end OcamlJit.Traces

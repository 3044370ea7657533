/-
  OcamlJit.Bytecode.Runs
  ──────────────────────
  **RUNS OF THE INTERPRETER AND RUNS OVER THE DECODED STREAM.**

  `interpFetch` fetches the opcode at `pc` from the words.  `streamFetch` looks
  `pc` up among the `labelDef`s of the decoded stream and runs the instructions
  behind it, without a look at the words.  A code pointer read from a return
  frame, a trap frame or a closure is an address; it is turned into the offset it
  has in the code.

    • `opcodeIn_eq` — the stream has at each `labelDef` what decodes there,
    • `interpRun_agrees` — runs of any length, through calls, returns, partial
      applications and exceptions, as long as control stays at opcodes of the
      stream.
-/
import OcamlJit.Bytecode.DecoderAgrees

namespace OcamlJit.Bytecode

open OcamlJit.Lib OcamlJit.Instructions OcamlJit.Interp Exec

/-! ## §1. The two machines. -/

/-- The offset a code pointer has in the code. -/
def fetchOffset (im : Image) : CodePtr → Option Nat
  | .here off => if 0 ≤ off then some off.toNat else none
  | .loaded addr =>
      let d := (addr - im.code).toNat
      if d % 4 = 0 then some (d / 4) else none

/-- Not the start of an opcode. -/
def isPlain : Instruction Nat → Bool
  | .labelDef _ => false
  | _ => true

/-- The offset of the first `labelDef`, or the end of the code. -/
def firstLabel (fin : Nat) : List (Instruction Nat) → Nat
  | .labelDef l :: _ => l
  | _ => fin

/-- The instructions behind `labelDef off` and the offset after them. -/
def opcodeIn (fin off : Nat) : List (Instruction Nat) → Option (List (Instruction Nat) × Nat)
  | [] => none
  | i :: rest =>
      if i = .labelDef off then
        some (rest.takeWhile isPlain, firstLabel fin (rest.dropWhile isPlain))
      else opcodeIn fin off rest

section Machines

variable {O : Oracle Effect Value} (im : Image)

/-- An opcode of the words, at an offset that starts an opcode of the stream. -/
def interpFetch (code : List Word) (stream : List (Instruction Nat)) : Exec O Next := do
  let off ← demand fun r => fetchOffset im r.pc
  require (.labelDef off ∈ stream)
  setPc (.here off)
  interpStep im code

/-- An opcode of the stream of `fin` words. -/
def streamFetch (fin : Nat) (stream : List (Instruction Nat)) : Exec O Next := do
  let off ← demand fun r => fetchOffset im r.pc
  let p ← demand fun _ => opcodeIn fin off stream
  runOpcode im off p.2 p.1

/-- At most `n` opcodes. -/
def runFor (step : Exec O Next) : Nat → Exec O Next
  | 0 => pure .fetch
  | n + 1 => do
      match ← step with
      | .fetch => runFor step n
      | ended => pure ended

end Machines

/-! ## §2. The stream at a label. -/

section Stream

variable {code : List Word} {start off off' : Nat} {is rest stream : List (Instruction Nat)}

/-- What is left of a stream starts with a label, or is over. -/
theorem Decodes.firstLabel_eq (h : Decodes code start stream) :
    stream.takeWhile isPlain = [] ∧ stream.dropWhile isPlain = stream ∧
      firstLabel code.length stream = start := by
  cases h with
  | done => exact ⟨rfl, rfl, rfl⟩
  | step hd hrest => exact ⟨rfl, rfl, rfl⟩

theorem isPlain_of_queueOk : ∀ {is : List (Instruction Nat)}, QueueOk is →
    ∀ i ∈ is, isPlain i = true
  | j :: is, h, i, hi => by
      rcases List.mem_cons.mp hi with rfl | hi
      · cases i with
        | labelDef l => exact absurd rfl (h.1 l)
        | _ => rfl
      · exact isPlain_of_queueOk h.2.2.2 i hi

/-- The opcode at the head of a stream. -/
theorem opcodeIn_self (hd : decodeAt code off = .ok (is, off'))
    (hrest : Decodes code off' rest) :
    opcodeIn code.length off (.labelDef off :: is ++ rest) = some (is, off') := by
  have hplain := isPlain_of_queueOk (decodeAt_queueOk hd)
  obtain ⟨htake, hdrop, hfirst⟩ := Decodes.firstLabel_eq hrest
  rw [List.cons_append, opcodeIn, if_pos rfl, List.takeWhile_append_of_pos hplain,
    List.dropWhile_append_of_pos hplain, htake, hdrop, hfirst, List.append_nil]

/-- The opcodes before are passed over. -/
theorem opcodeIn_append {fin : Nat} :
    ∀ {is : List (Instruction Nat)}, .labelDef off ∉ is →
      opcodeIn fin off (is ++ rest) = opcodeIn fin off rest
  | [], _ => rfl
  | i :: is, h => by
      obtain ⟨hne, hnot⟩ := not_or.mp (List.mem_cons.not.mp h)
      rw [List.cons_append, opcodeIn, if_neg (Ne.symm hne), opcodeIn_append hnot]

/-- **At each of its labels the stream has what decodes there.** -/
theorem opcodeIn_eq (h : Decodes code start stream) (hmem : .labelDef off ∈ stream)
    (hfit : OperandsFit code start) :
    Reaches code start off ∧ ∃ is off', decodeAt code off = .ok (is, off') ∧
      opcodeIn code.length off stream = some (is, off') := by
  induction h with
  | done => cases hmem
  | @step start off' is rest hd hrest ih =>
      by_cases hoff : off = start
      · subst hoff
        exact ⟨.start, is, off', hd, opcodeIn_self hd hrest⟩
      · have hskip : .labelDef off ∉ (.labelDef start :: is : List (Instruction Nat)) := by
          intro hi
          rcases List.mem_cons.mp hi with hi | hi
          · exact hoff (Instruction.labelDef.inj hi)
          · exact (decodeAt_queueOk hd).not_mem_labelDef hi
        obtain ⟨hn, -, -⟩ := (exists_decodeAt (hfit _ .start).1).mp ⟨is, hd⟩
        have hmem' := (List.mem_append.mp hmem).resolve_left hskip
        obtain ⟨hreach, js, off'', hjs, hin⟩ := ih hmem' (hfit.next hn)
        refine ⟨(Reaches.start.next hn).trans hreach, js, off'', hjs, ?_⟩
        rw [opcodeIn_append hskip, hin]

end Stream

/-! ## §3. Runs. -/

section Runs

variable {O : Oracle Effect Value} {im : Image} {code : List Word}
  {stream : List (Instruction Nat)}

/-- One opcode. -/
theorem interpFetch_agrees (hdec : decodeAll code = .ok stream) (hfit : OperandsFit code 0)
    (r : Regs) :
    Sim (O := O) Eq (interpFetch im code stream r) (streamFetch im code.length stream r) := by
  rw [interpFetch, streamFetch, exec_bind, exec_bind]
  refine Sim.same_bind fun ⟨off, r'⟩ => ?_
  by_cases hmem : .labelDef off ∈ stream
  · obtain ⟨hreach, is, off', hd, hin⟩ := opcodeIn_eq (decodeAll_eq_ok.mp hdec) hmem hfit
    obtain ⟨hlabels, htags⟩ := hfit off hreach
    have hfound : (demand (fun _ => opcodeIn code.length off stream) : Exec O _) r' =
        pure ((is, off'), r') := demand_apply _ hin
    rw [exec_bind, require_apply (decide_eq_true hmem), Act.pure_bind,
      exec_bind r' (demand _), hfound, Act.pure_bind]
    exact interpStep_agrees hlabels htags hd r'
  · rw [exec_bind, require_stuck (decide_eq_false hmem), Act.stuck_bind]
    exact Sim.stuck

/-- **Runs of any length agree.**  As long as the interpreter fetches opcodes of
the stream, the decoded instructions make the same requests in the same order and
leave the same registers and the same stack, whatever memory and the primitives
answer, unless the interpreter comes to a case that has no meaning.  A request that
raises ends the run in both: what the interpreter does then, at its `sigsetjmp`, is
left out. -/
theorem interpRun_agrees (hdec : decodeAll code = .ok stream) (hfit : OperandsFit code 0) :
    ∀ (n : Nat) (r : Regs),
      Sim (O := O) Eq (runFor (interpFetch im code stream) n r)
        (runFor (streamFetch im code.length stream) n r)
  | 0, r => Sim.same _
  | n + 1, r => by
      rw [runFor, runFor, exec_bind, exec_bind]
      refine (interpFetch_agrees hdec hfit r).bind fun a b hab => ?_
      subst hab
      obtain ⟨ended, r'⟩ := a
      cases ended with
      | fetch => exact interpRun_agrees hdec hfit n r'
      | restart => exact Sim.same _
      | returned v => exact Sim.same _
      | exceptionResult v => exact Sim.same _

/-- Every request is answered with `0`. -/
def zeroOracle : Oracle Effect Value := ⟨Unit, fun _ w => (.ok 0, w)⟩

theorem decodeAll_atomBranchStop :
    decodeAll atomBranchStop =
      .ok [.labelDef 0, .push, .makeBlock 0 5, .labelDef 2, .branch 4, .labelDef 4, .stop] := by
  have hatom : decodeAt atomBranchStop 0 = .ok ([.push, .makeBlock 0 5], 2) := rfl
  have hbranch : decodeAt atomBranchStop 2 = .ok ([.branch 4], 4) := rfl
  have hstop : decodeAt atomBranchStop 4 = .ok ([.stop], 5) := rfl
  exact decodeAll_eq_ok.mpr (.step hatom (.step hbranch (.step hstop .done)))

/-- Three steps of `PUSHATOM 5; BRANCH; STOP`. -/
theorem interpRun_agrees_atomBranchStop :
    Sim (O := zeroOracle) Eq
      (runFor (interpFetch ⟨0, 0, 0, 0, 0⟩ atomBranchStop
        [.labelDef 0, .push, .makeBlock 0 5, .labelDef 2, .branch 4, .labelDef 4, .stop]) 3
        ⟨.here 0, 1, 1, 0, [], 0⟩)
      (runFor (streamFetch ⟨0, 0, 0, 0, 0⟩ atomBranchStop.length
        [.labelDef 0, .push, .makeBlock 0 5, .labelDef 2, .branch 4, .labelDef 4, .stop]) 3
        ⟨.here 0, 1, 1, 0, [], 0⟩) :=
  interpRun_agrees decodeAll_atomBranchStop operandsFit_atomBranchStop 3 _

end Runs

end OcamlJit.Bytecode

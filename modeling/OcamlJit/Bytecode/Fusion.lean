/-
  OcamlJit.Bytecode.Fusion
  ────────────────────────
  **STREAMS OF FUSED INSTRUCTIONS.**

  Two streams are parallel when they have the same `labelDef`s and behind each of
  them the same instructions, but for two things: a comparison with a constant and
  the branch after it may be one instruction, and a `RETURN` need not push what it
  returns.

    • `Fuses.runOpcode_sim`   what stands behind one `labelDef`,
    • `fusedRun_sim`          runs of any length.

  A comparison leaves its truth value in the accumulator, the fused branch leaves
  there what was compared.  So the runs agree where nothing depends on the
  accumulator after such a branch (`AccuDead`).
-/
import OcamlJit.Bytecode.Runs
import OcamlJit.Cranelift.Words

namespace OcamlJit.Bytecode

open OcamlJit.Lib OcamlJit.Instructions OcamlJit.Interp Exec
open OcamlJit.Cranelift (immediateOk isLong compHolds_valInt)

/-! ## §1. Fused instructions. -/

/-- The comparison that holds when `cmp` does not. -/
def negated : Comp → Comp
  | .eq => .ne
  | .ne => .eq
  | .lt => .ge
  | .le => .gt
  | .gt => .le
  | .ge => .lt
  | .uLt => .uGe
  | .uGe => .uLt

/-- `Fuses is is'`: the instructions `is'` stand for `is`. -/
inductive Fuses : List (Instruction Nat) → List (Instruction Nat) → Prop where
  | same (is : List (Instruction Nat)) : Fuses is is
  | branchIf {n : Int} (hn : immediateOk n = true) (cmp : Comp) (l : Nat) :
      Fuses [.push, .const n, .intCmp cmp, .branchIf l] [.branchCmp cmp n l]
  | branchIfNot {n : Int} (hn : immediateOk n = true) (cmp : Comp) (l : Nat) :
      Fuses [.push, .const n, .intCmp cmp, .branchIfNot l] [.branchCmp (negated cmp) n l]
  | return_ {m : Nat} (hm : m + 1 < 2 ^ 31) :
      Fuses [.push, .acc 0, .return_ (m + 1)] [.return_ m]

/-- Two streams with the same `labelDef`s. -/
inductive Parallel : List (Instruction Nat) → List (Instruction Nat) → Prop where
  | nil : Parallel [] []
  | cons {p : Nat} {is is' S T : List (Instruction Nat)} (his : ∀ i ∈ is, isPlain i = true)
      (his' : ∀ i ∈ is', isPlain i = true) (h : Fuses is is') (hrest : Parallel S T) :
      Parallel (.labelDef p :: is ++ S) (.labelDef p :: is' ++ T)

/-- A fused comparison is right: an address is not twice the constant. -/
def comparable (is : List (Instruction Nat)) (r : Regs) : Bool :=
  match is with
  | [.branchCmp _ n _] => isLong r.accu || longVal r.accu != BitVec.ofInt 64 n
  | _ => true

/-- The places where a fused branch goes, `q` being the place after it. -/
def AfterBranch (is : List (Instruction Nat)) (q l : Nat) : Prop :=
  ∃ cmp n l', is = [.branchCmp cmp n l'] ∧ (l = l' ∨ l = q)

/-- The same, or the same but for the accumulator after a fused branch. -/
def Parted (is : List (Instruction Nat)) (q : Nat) (a b : Next × Regs) : Prop :=
  a = b ∨ ∃ l v, AfterBranch is q l ∧ a.2.pc = .here l ∧ a.1 = .fetch ∧
    b = (.fetch, { a.2 with accu := v })

/-- The same but for the accumulator. -/
def SameButAccu (a b : Next × Regs) : Prop :=
  a.1 = b.1 ∧ ∃ v, b.2 = { a.2 with accu := v }

theorem SameButAccu.refl (a : Next × Regs) : SameButAccu a a := ⟨rfl, a.2.accu, rfl⟩

theorem SameButAccu.trans {a b c : Next × Regs} (h : SameButAccu a b) (h' : SameButAccu b c) :
    SameButAccu a c := by
  obtain ⟨hab, v, hv⟩ := h
  obtain ⟨hbc, w, hw⟩ := h'
  refine ⟨hab.trans hbc, w, ?_⟩
  rw [hw, hv]

section Streams

variable {S T is is' : List (Instruction Nat)} {fin off q : Nat}

/-- What is left of a stream starts with a label, or is over. -/
theorem Parallel.starts (h : Parallel S T) :
    (S.takeWhile isPlain = [] ∧ S.dropWhile isPlain = S) ∧
      (T.takeWhile isPlain = [] ∧ T.dropWhile isPlain = T) ∧
      firstLabel fin S = firstLabel fin T := by
  cases h with
  | nil => exact ⟨⟨rfl, rfl⟩, ⟨rfl, rfl⟩, rfl⟩
  | cons his his' h hrest => exact ⟨⟨rfl, rfl⟩, ⟨rfl, rfl⟩, rfl⟩

/-- The instructions behind the first label of a stream. -/
theorem opcodeIn_cons {p : Nat} (his : ∀ i ∈ is, isPlain i = true)
    (hS : S.takeWhile isPlain = [] ∧ S.dropWhile isPlain = S) :
    opcodeIn fin off (.labelDef p :: is ++ S) =
      if p = off then some (is, firstLabel fin S) else opcodeIn fin off S := by
  rw [List.cons_append, opcodeIn]
  by_cases hp : p = off
  · rw [if_pos (congrArg _ hp), if_pos hp, List.takeWhile_append_of_pos his,
      List.dropWhile_append_of_pos his, hS.1, hS.2, List.append_nil]
  · have hne : (Instruction.labelDef p : Instruction Nat) ≠ .labelDef off :=
      fun h => hp (Instruction.labelDef.inj h)
    have hskip : .labelDef off ∉ is := fun h => Bool.false_ne_true (his _ h)
    rw [if_neg hne, if_neg hp, opcodeIn_append hskip]

/-- **At each label** one stream has what the other's instructions stand for. -/
theorem Parallel.opcodeIn (h : Parallel S T) (hT : opcodeIn fin off T = some (is', q)) :
    ∃ is, opcodeIn fin off S = some (is, q) ∧ Fuses is is' := by
  induction h with
  | nil => cases hT
  | @cons p js js' S T hjs hjs' hfuses hrest ih =>
      obtain ⟨hS, hT', hfirst⟩ := @Parallel.starts _ _ fin hrest
      rw [opcodeIn_cons hjs' hT'] at hT
      rw [opcodeIn_cons hjs hS]
      by_cases hp : p = off
      · rw [if_pos hp] at hT ⊢
        cases hT
        exact ⟨js, by rw [hfirst], hfuses⟩
      · rw [if_neg hp] at hT ⊢
        exact ih hT

end Streams

/-! ## §2. What fused instructions do. -/

section Meaning

variable {O : Oracle Effect Value} {im : Image} {own q : Nat} {is is' : List (Instruction Nat)}

theorem compHolds_negated (cmp : Comp) (x y : BitVec 64) :
    compHolds (negated cmp) x y = !compHolds cmp x y := by
  cases cmp <;>
    simp [negated, compHolds, BitVec.sle_eq_not_slt, BitVec.ule_eq_not_ult, bne]

/-- An immediate is a number of an `int`. -/
theorem intRange_of_immediateOk {n : Int} (hn : immediateOk n = true) :
    -2 ^ 31 ≤ n ∧ n < 2 ^ 31 := by
  obtain ⟨hlow, hhigh⟩ := of_decide_eq_true hn
  omega

theorem pushThen_apply (x : Exec O Next) (r : Regs) :
    pushThen x r = x { r with stack := .val r.accu :: r.stack } := rfl

/-- `RETURN` of what was pushed. -/
theorem meanings_push_return {m : Nat} (hm : m + 1 < 2 ^ 31) :
    (meanings im own [.push, .acc 0, .return_ (m + 1)] : Exec O Next) =
      meanings im own [.return_ m] := by
  have hword (k : Nat) (hk : k < 2 ^ 31) : (ofU32 k).toInt = k := by
    unfold ofU32
    rw [BitVec.toInt_eq_toNat_cond, BitVec.toNat_ofNat]
    omega
  -- the word that was pushed is the first of those that are popped
  have hmove (r : Regs) :
      (moveSp (m + 1 : Nat) : Exec O Unit) { r with stack := .val r.accu :: r.stack } =
        moveSp (m : Nat) r := by
    by_cases hlen : m ≤ r.stack.length
    · rw [moveSp_apply hlen, moveSp_apply (Nat.succ_le_succ hlen)]
      rfl
    · have hpushed : ((r.stack.length + 1 : Nat) : Int) < (m + 1 : Nat) := by omega
      rw [moveSp_stuck (.inr hpushed), moveSp_stuck (.inr (by omega))]
  funext r
  rw [meanings_singleton, meanings_push, pushThen_apply, meanings, meanings_singleton]
  show (meaning im own (.return_ (m + 1)) : Exec O Next)
    { r with stack := .val r.accu :: r.stack } = _
  simp only [meaning, next, doReturn, exec_bind, hword m (by omega), hword (m + 1) hm, hmove]

theorem setAccu_bind {α : Type} (v : Value) (f : Unit → Exec O α) (r : Regs) :
    (setAccu v >>= f) r = f () { r with accu := v } := rfl

theorem doIntCmp_apply (cmp : Comp) (r : Regs) (v : Value) :
    (doIntCmp cmp : Exec O Unit) { r with accu := v, stack := .val r.accu :: r.stack } =
      pure ((), { r with accu := if compHolds cmp v r.accu then valTrue else valFalse }) := by
  have hpop : (moveSp (1 : Nat) : Exec O Unit)
      { r with accu := v, stack := .val r.accu :: r.stack } = pure ((), { r with accu := v }) := by
    have hlen : 1 ≤ (StackWord.val r.accu :: r.stack).length := Nat.succ_le_succ (Nat.zero_le _)
    exact moveSp_apply hlen
  rw [doIntCmp, exec_bind, value, demand_apply (a := r.accu) _ rfl, Act.pure_bind, exec_bind]
  show ((moveSp (1 : Nat) : Exec O Unit) _ >>= _) = _
  rw [hpop]
  rfl

/-- A comparison with a constant, and what comes after it. -/
theorem meanings_push_const_cmp {n : Int} (hn : immediateOk n = true) (cmp : Comp)
    (i : Instruction Nat) (r : Regs) :
    (meanings im own [.push, .const n, .intCmp cmp, i] : Exec O Next) r =
      meaning im own i { r with
        accu := if compHolds cmp (valInt n) r.accu then valTrue else valFalse } := by
  rw [meanings_push, pushThen_apply, meanings, meanings, meanings_singleton, meaning, meaning,
    next_bind, doConst, signExtend_ofI32 (intRange_of_immediateOk hn), setAccu_bind]
  show (next (doIntCmp cmp) >>= _ : Exec O Next) _ = _
  rw [next_bind, exec_bind]
  show ((doIntCmp cmp : Exec O Unit)
    { r with accu := valInt n, stack := .val r.accu :: r.stack } >>= _) = _
  rw [doIntCmp_apply]
  rfl

theorem branchWhen_apply (b : Regs → Bool) (l : Int) (r : Regs) :
    (next (branchWhen b l) : Exec O Next) r =
      pure (.fetch, { r with pc := if b r then .here l else r.pc }) := by
  rw [next, exec_bind, branchWhen, exec_bind]
  show ((if b r then setPc (.here l) else pure () : Exec O Unit) r >>= _) = _
  cases b r <;> rfl

/-- The truth value that a comparison leaves is what the branch after it asks for. -/
theorem isTrue_truth (b : Bool) (r : Regs) :
    isTrue { r with accu := if b then valTrue else valFalse } = b := by
  cases b <;> rfl

/-- A branch that has its outcome in the accumulator, and one that has not. -/
theorem parted_branch {n : Int} {cmp : Comp} {l : Nat} {r : Regs} (hpc : r.pc = .here q)
    (b : Bool) (v : Value) :
    Parted [.branchCmp cmp n l] q (.fetch, { r with pc := if b then .here l else r.pc })
      (.fetch, { r with accu := v, pc := if b then .here l else r.pc }) := by
  cases b with
  | true => exact .inr ⟨l, v, ⟨cmp, n, l, rfl, .inl rfl⟩, rfl, rfl, rfl⟩
  | false => exact .inr ⟨q, v, ⟨cmp, n, l, rfl, .inr rfl⟩, hpc, rfl, rfl⟩

/-- **What stands behind one label.** -/
theorem Fuses.runOpcode_sim (h : Fuses is is') {r : Regs} (hr : comparable is' r = true) :
    Sim (O := O) (Parted is' q) (runOpcode im own q is' r) (runOpcode im own q is r) := by
  have hpc : (r.atOffset q).pc = .here q := rfl
  show Sim _ (meanings im own is' (r.atOffset q)) (meanings im own is (r.atOffset q))
  cases h with
  | same =>
      refine (Sim.same _).mono ?_
      rintro a b rfl
      exact .inl rfl
  | @branchIf n hn cmp l =>
      have heq := compHolds_valInt hn (by simpa [comparable] using hr) cmp
      rw [meanings_singleton, meanings_push_const_cmp hn, meaning, meaning, branchWhen_apply,
        branchWhen_apply, compares, signExtend_ofI32 (intRange_of_immediateOk hn), isTrue_truth]
      rw [show (r.atOffset q).accu = r.accu from rfl, heq]
      exact Sim.pure (parted_branch hpc _ _)
  | @branchIfNot n hn cmp l =>
      have heq := compHolds_valInt hn (by simpa [comparable] using hr) cmp
      rw [meanings_singleton, meanings_push_const_cmp hn, meaning, meaning, branchWhen_apply,
        branchWhen_apply, compares, signExtend_ofI32 (intRange_of_immediateOk hn), isTrue_truth, compHolds_negated]
      rw [show (r.atOffset q).accu = r.accu from rfl, heq]
      exact Sim.pure (parted_branch hpc _ _)
  | return_ hm =>
      rw [meanings_push_return hm]
      refine (Sim.same _).mono ?_
      rintro a b rfl
      exact .inl rfl

end Meaning

/-! ## §3. Runs. -/

/-- An opcode, unless a fused comparison is wrong there. -/
def comparingFetch {O : Oracle Effect Value} (im : Image) (fin : Nat)
    (stream : List (Instruction Nat)) (step : Exec O Next) : Exec O Next := do
  let off ← demand fun r => fetchOffset im r.pc
  let p ← demand fun _ => opcodeIn fin off stream
  require (← reg (comparable p.1))
  step

/-- Nothing but the accumulator depends on the accumulator from an offset on. -/
def AccuDead (O : Oracle Effect Value) (im : Image) (fin : Nat)
    (stream : List (Instruction Nat)) (off : Nat) : Prop :=
  ∀ (n : Nat) (r : Regs) (v : Value), r.pc = .here off →
    Sim (O := O) SameButAccu (runFor (streamFetch im fin stream) n r)
      (runFor (streamFetch im fin stream) n { r with accu := v })

/-- The accumulator is dead where fused branches go. -/
def BranchesDead (O : Oracle Effect Value) (im : Image) (fin : Nat)
    (S T : List (Instruction Nat)) : Prop :=
  ∀ off is q l, opcodeIn fin off T = some (is, q) → AfterBranch is q l → AccuDead O im fin S l

/-- An instruction that loads the accumulator without a look at it. -/
def loadsAccu : Instruction Nat → Bool
  | .acc _ | .envAcc _ | .const _ | .getGlobal _ | .offsetClosure _ | .makeBlock 0 _ => true
  | _ => false

section Runs

variable {O : Oracle Effect Value} {im : Image} {code : List Word} {fin : Nat}
  {S T : List (Instruction Nat)}

/-- The accumulator is dead where it is loaded. -/
theorem accuDead_of_loadsAccu {off q : Nat} {i : Instruction Nat} {is : List (Instruction Nat)}
    (h : opcodeIn fin off S = some (i :: is, q)) (hi : loadsAccu i = true) :
    AccuDead O im fin S off := by
  intro n r v hpc
  cases n with
  | zero => exact Sim.pure ⟨rfl, v, rfl⟩
  | succ n =>
      have hload (r : Regs) (v : Value) : (meaning im off i : Exec O Next) { r with accu := v } =
          meaning im off i r := by
        cases i with
        | acc n =>
            simp only [meaning, next, doAcc, value, demand, setAccu, update, exec_bind,
              Act.bind_assoc, Act.pure_bind]
            rfl
        | envAcc n =>
            simp only [meaning, next, doEnvAcc, loadField, ask, perform, reg, setAccu, update,
              exec_bind, Act.bind_assoc, Act.pure_bind]
        | getGlobal n =>
            simp only [meaning, next, doGetGlobal, loadField, ask, perform, setAccu, update,
              exec_bind, Act.bind_assoc, Act.pure_bind]
        | const n => rfl
        | offsetClosure n => rfl
        | makeBlock size tag =>
            cases size with
            | zero => rfl
            | succ size => cases hi
        | _ => cases hi
      have hfetch (r : Regs) (hpc : r.pc = .here off) :
          (streamFetch im fin S : Exec O Next) r =
            meanings im off (i :: is) { r with pc := .here q } := by
        have hoff : fetchOffset im r.pc = some off := by rw [hpc]; rfl
        rw [streamFetch, exec_bind, demand_apply _ hoff, Act.pure_bind, exec_bind,
          demand_apply _ h, Act.pure_bind]
        rfl
      have hsame : (streamFetch im fin S : Exec O Next) { r with accu := v } =
          streamFetch im fin S r := by
        have hpc' : { r with accu := v }.pc = .here off := hpc
        rw [hfetch r hpc, hfetch _ hpc', meanings, exec_bind, exec_bind]
        exact congrArg (· >>= _) (hload { r with pc := .here q } v)
      rw [runFor, exec_bind, exec_bind, hsame]
      refine (Sim.same _).mono ?_
      rintro a b rfl
      exact .refl a

/-- One opcode of the words, and what stands in the parallel stream. -/
theorem comparingFetch_sim (h : Parallel S T) (hdec : decodeAll code = .ok T)
    (hfit : OperandsFit code 0) (r : Regs) :
    Sim (O := O) (fun a b => ∃ off is q, opcodeIn code.length off T = some (is, q) ∧
        Parted is q a b)
      (comparingFetch im code.length T (interpFetch im code T) r)
      (streamFetch im code.length S r) := by
  rw [comparingFetch, exec_bind]
  cases hoff : fetchOffset im r.pc with
  | none =>
      rw [demand_none r hoff, Act.stuck_bind]
      exact Sim.stuck
  | some off =>
      rw [demand_apply r hoff, Act.pure_bind, exec_bind]
      cases hT : opcodeIn code.length off T with
      | none =>
          rw [demand_none r rfl, Act.stuck_bind]
          exact Sim.stuck
      | some p =>
          obtain ⟨is', q⟩ := p
          obtain ⟨is, hS, hfuses⟩ := h.opcodeIn hT
          rw [demand_apply (a := (is', q)) r rfl, Act.pure_bind, exec_bind]
          show Sim _ ((require (comparable is' r) : Exec O Unit) r >>= _) _
          cases hcmp : comparable is' r with
          | false =>
              rw [require_stuck rfl, Act.stuck_bind]
              exact Sim.stuck
          -- the words do what their own stream does, and the parallel one what it fuses into
          | true =>
              have hstep := @interpFetch_agrees O im _ _ hdec hfit r
              have htarget : (streamFetch im code.length T : Exec O Next) r =
                  runOpcode im off q is' r := by
                rw [streamFetch, exec_bind, demand_apply _ hoff, Act.pure_bind, exec_bind,
                  demand_apply _ hT, Act.pure_bind]
              have hsource : (streamFetch im code.length S : Exec O Next) r =
                  runOpcode im off q is r := by
                rw [streamFetch, exec_bind, demand_apply _ hoff, Act.pure_bind, exec_bind,
                  demand_apply _ hS, Act.pure_bind]
              rw [require_apply rfl, Act.pure_bind, hsource]
              rw [htarget] at hstep
              refine (hstep.trans (hfuses.runOpcode_sim hcmp)).mono ?_
              rintro a b ⟨c, rfl, hparted⟩
              exact ⟨off, is', q, hT, hparted⟩

/-- **Runs of any length.**  The words do what the stream does whose instructions
they stand for: the same requests in the same order, the same registers but for the
accumulator, and the same stack. -/
theorem fusedRun_sim (h : Parallel S T) (hdec : decodeAll code = .ok T)
    (hfit : OperandsFit code 0) (hdead : BranchesDead O im code.length S T) :
    ∀ (n : Nat) (r : Regs),
      Sim (O := O) SameButAccu
        (runFor (comparingFetch im code.length T (interpFetch im code T)) n r)
        (runFor (streamFetch im code.length S) n r)
  | 0, r => Sim.pure (.refl _)
  | n + 1, r => by
      rw [runFor, runFor, exec_bind, exec_bind]
      refine (comparingFetch_sim h hdec hfit r).bind fun a b hab => ?_
      obtain ⟨off, is, q, hT, rfl | ⟨l, v, hafter, hpc, hfetch, rfl⟩⟩ := hab
      · obtain ⟨ended, r'⟩ := a
        cases ended with
        | fetch => exact fusedRun_sim h hdec hfit hdead n r'
        | restart => exact Sim.pure (.refl _)
        | returned v => exact Sim.pure (.refl _)
        | exceptionResult v => exact Sim.pure (.refl _)
      · -- from here the stream goes on with another accumulator
        obtain ⟨ended, r'⟩ := a
        obtain rfl : ended = .fetch := hfetch
        have hrest := fusedRun_sim h hdec hfit hdead n r'
        refine (hrest.trans (hdead off is q l hT hafter n r' v hpc)).mono ?_
        rintro a b ⟨c, hac, hcb⟩
        exact hac.trans hcb

end Runs

end OcamlJit.Bytecode

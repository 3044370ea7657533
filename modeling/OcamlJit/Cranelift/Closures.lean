/-
  OcamlJit.Cranelift.Closures
  ───────────────────────────
  **NEW CLOSURES, THREE WAYS.**

  The interpreter, the baseline compiler and the Cranelift translation make the
  same requests for `Closure` and `ClosureRec` and leave the same stack.  The
  translation of `ClosureRec` never sets the accumulator (`keepsAcc_closureRec`),
  so the accumulators agree after `Closure` only (`closures_agree_iff`).
-/
import OcamlJit.Baseline.Closures
import OcamlJit.Cranelift.Applications
import OcamlJit.Cranelift.Emits
import OcamlJit.Interp.ClosureLayout

namespace OcamlJit.Cranelift

open OcamlJit.Lib OcamlJit.Instructions OcamlJit.Interp OcamlJit.BasicBlocks OcamlJit.Baseline

/-! ## §1. Methods that leave the accumulator alone. -/

section KeepsAcc

variable {α : Type} {k : TranslatorEnv}

/-- No operation that `m` emits defines the accumulator. -/
def KeepsAcc (m : Emit α) : Prop :=
  ∀ τ a τ' ops, m τ = .ok (a, τ', ops) → ∀ op ∈ ops, op.definesAcc = false

/-- Any fault, but no new accumulator. -/
def anyFault : Permit := ⟨fun _ => True, False⟩

/-- What emits without the accumulator keeps it. -/
theorem Emits.keepsAcc {m : Emit α} {after : Nat → Nat}
    (h : ∀ s, Emits anyFault m s (after s)) : KeepsAcc m := by
  intro τ a τ' ops hm op hop
  have hnot := ((h τ.stackSize τ rfl).2 a τ' ops hm).2 op hop
  exact Bool.eq_false_iff.mpr hnot

/-- The translation of `ClosureRec` reads the accumulator and never sets it. -/
theorem keepsAcc_closureRec (ls : List Nat) (nvars : Nat) :
    KeepsAcc (translateInstruction k (.closureRec ls nvars)) :=
  Emits.keepsAcc fun _ => translateClosureRec_emits k (fun _ _ => trivial) trivial
    (fun _ => trivial) (fun _ => trivial) fun _ => trivial

end KeepsAcc

section Run

variable {O : Oracle Request Value} {rt : Layout}

/-- An operation that does not define the accumulator leaves it. -/
theorem runOp_acc {op : Op} {σ σ' : IrState} {l l' : Log O} (hop : op.definesAcc = false)
    (h : runOp rt σ op l = (.ok σ', l')) : σ'.vars .acc = σ.vars .acc := by
  cases op with
  | useVar dst x => cases h; rfl
  | defVar x v =>
      cases h
      cases x with
      | acc => cases hop
      | stack i => rfl
      | returnExtraArgs => rfl
  | ins dst e => cases h; rfl
  -- a trap has no result
  | sdiv dst a b =>
      simp only [runOp] at h
      split at h <;> cases h
      rfl
  | srem dst a b =>
      simp only [runOp] at h
      split at h <;> cases h
      rfl
  -- after a request only the register changes
  | load dst ty base offset =>
      obtain ⟨w, l₁, -, h⟩ := Act.bind_eq_ok h
      cases h; rfl
  | loadComplex dst ty a b =>
      obtain ⟨w, l₁, -, h⟩ := Act.bind_eq_ok h
      cases h; rfl
  | store v base offset =>
      obtain ⟨w, l₁, -, h⟩ := Act.bind_eq_ok h
      cases h; rfl
  | storeComplex8 v a b =>
      obtain ⟨w, l₁, -, h⟩ := Act.bind_eq_ok h
      cases h; rfl
  | call f dst args =>
      obtain ⟨w, l₁, -, h⟩ := Act.bind_eq_ok h
      cases h
      cases dst <;> rfl
  | cCall dst id args =>
      obtain ⟨w, l₁, -, h⟩ := Act.bind_eq_ok h
      cases h; rfl
  | allocSmall dst wosize tag =>
      obtain ⟨w, l₁, -, h⟩ := Act.bind_eq_ok h
      cases h; rfl
  | apply dst f args =>
      obtain ⟨w, l₁, -, h⟩ := Act.bind_eq_ok h
      cases h; rfl
  | pushOcamlStack vs => cases h; rfl
  | callIfNonzero cond f noReturn =>
      simp only [runOp] at h
      split at h
      · cases h; rfl
      · obtain ⟨w, l₁, -, h⟩ := Act.bind_eq_ok h
        split at h <;> cases h
        rfl

/-- So does a row of them. -/
theorem runOps_acc : ∀ {ops : List Op} {σ σ' : IrState} {l l' : Log O},
    (∀ op ∈ ops, op.definesAcc = false) → runOps rt ops σ l = (.ok σ', l') →
    σ'.vars .acc = σ.vars .acc
  | [], _, _, _, _, _, h => by
      cases h
      rfl
  | op :: ops, σ, σ', l, l', hops, h => by
      obtain ⟨σ₁, l₁, h₁, h₂⟩ := Act.bind_eq_ok h
      rw [runOps_acc (fun o ho => hops o (List.mem_cons_of_mem _ ho)) h₂,
        runOp_acc (hops op (List.mem_cons_self ..)) h₁]

end Run

/-! ## §2. The three implementations. -/

/-- `CLOSURE`, or `CLOSUREREC` with one function at least. -/
inductive ClosureInstruction where
  | closure (l nvars : Nat)
  | closureRec (l : Nat) (rest : List Nat) (nvars : Nat)
  deriving Repr, DecidableEq

namespace ClosureInstruction

def funcs : ClosureInstruction → List Nat
  | .closure l _ => [l]
  | .closureRec l rest _ => l :: rest

def nvars : ClosureInstruction → Nat
  | .closure _ nvars => nvars
  | .closureRec _ _ nvars => nvars

/-- How many closures the instruction pushes. -/
def pushed : ClosureInstruction → Nat
  | .closure _ _ => 0
  | .closureRec _ rest _ => rest.length + 1

def isClosure : ClosureInstruction → Bool
  | .closure _ _ => true
  | .closureRec _ _ _ => false

/-- The instruction of a basic block. -/
def translated : ClosureInstruction → BasicBlockInstruction
  | .closure l nvars => .closure l nvars
  | .closureRec l rest nvars => .closureRec (l :: rest) nvars

section Meaning

variable {O : Oracle Request Value} (rt : Layout)

/-- `caml_interprete`. -/
def interp : ClosureInstruction → State → Act O State
  | .closure l nvars => doClosure rt l nvars
  | .closureRec l rest nvars => doClosureRec rt (l :: rest) nvars

/-- `emit_instruction`. -/
def baseline : ClosureInstruction → JitState → Act O JitState
  | .closure l nvars => emitClosure rt l nvars
  | .closureRec l rest nvars => emitClosureRec rt (l :: rest) nvars

end Meaning

end ClosureInstruction

/-- The interpreter makes the closures of `i`, and the two compilers do the same
and leave corresponding states.  `ops` is what the translation emitted. -/
structure SameClosures (O : Oracle Request Value) (rt : Layout) (i : ClosureInstruction)
    (vars : List Value) (s : State) (extraArgs : Value) (τ' : Translator) (ops : List Op)
    (σ : IrState) : Prop where
  made : Logs (i.interp rt s : Act O State) (MadeClosures rt O i.funcs i.nvars i.pushed vars s)
  baseline : Sim (O := O) (fun s' r => r = JitState.ofState s' extraArgs) (i.interp rt s)
    (i.baseline rt (JitState.ofState s extraArgs))
  cranelift : Sim (O := O) (fun s' σ' => Matches s' False τ'.stackSize σ') (i.interp rt s)
    (runOps rt ops σ)

section Agree

variable {rt : Layout} {k : TranslatorEnv} {s : State} {vars : List Value} {τ τ' : Translator}
  {ops : List Op} {σ : IrState}

/-- **The interpreter makes the closures**: their code, their environment and the
slots. -/
theorem made_closures {O : Oracle Request Value} (i : ClosureInstruction)
    (hnvars : i.nvars < 2 ^ 31) (hfuncs : i.funcs.length < 2 ^ 31)
    (hvars : (spillAccu i.nvars s).picks? i.nvars = some vars) :
    Logs (i.interp rt s : Act O State)
      (MadeClosures rt O i.funcs i.nvars i.pushed vars s) := by
  cases i with
  | closure l nvars =>
      have hle : nvars ≤ 2 ^ 59 := Nat.le_of_lt (Nat.lt_trans hnvars (by decide))
      exact doClosure_logs hvars hle
  | closureRec l rest nvars =>
      have hle : nvars ≤ 2 ^ 59 := Nat.le_of_lt (Nat.lt_trans hnvars (by decide))
      have hlen : (l :: rest).length ≤ 2 ^ 59 := Nat.le_of_lt (Nat.lt_trans hfuncs (by decide))
      exact doClosureRec_logs hvars hlen hle

/-- The C helper does what the interpreter does. -/
theorem baseline_closures {O : Oracle Request Value} (i : ClosureInstruction) (s : State)
    (extraArgs : Value) :
    Sim (O := O) (fun s' r => r = JitState.ofState s' extraArgs) (i.interp rt s)
      (i.baseline rt (JitState.ofState s extraArgs)) := by
  cases i with
  | closure l nvars => exact emitClosure_sim s extraArgs l nvars
  | closureRec l rest nvars => exact emitClosureRec_sim s extraArgs (l :: rest) nvars

/-- An oracle that answers every request with `v`. -/
def answering (v : Value) : Oracle Request Value := ⟨Unit, fun _ w => (.ok v, w)⟩

/-- After `ClosureRec` the accumulator of the translation is the old one. -/
theorem not_sameClosures_closureRec {l nvars : Nat} {rest : List Nat} {extraArgs : Value}
    (hM : Matches s False τ.stackSize σ)
    (hops : translateInstruction k (.closureRec (l :: rest) nvars) τ = .ok ((), τ', ops)) :
    ¬ SameClosures (answering (s.accu + 1)) rt (.closureRec l rest nvars) vars s extraArgs τ' ops
      σ := by
  intro h
  rcases h.made ⟨(), []⟩ with ⟨v, l', -, e, w, w', hraised⟩ | ⟨s', l', es, hrun, -, hmade⟩
  · cases hraised
  obtain ⟨-, -, ⟨w, w', hanswer⟩, -⟩ := hmade.block
  have haccu : s'.accu = s.accu + 1 := by
    injection hanswer with hanswer _
    injection hanswer with hanswer
    exact hanswer.symm
  rcases h.cranelift ⟨(), []⟩ with hstuck | ⟨-, hrel⟩
  · rw [hrun] at hstuck
    cases hstuck
  · rw [hrun] at hrel
    cases hir : runOps (O := answering (s.accu + 1)) rt ops σ ⟨(), []⟩ with
    | mk r l₂ =>
        rw [hir] at hrel
        cases r with
        | error e => exact hrel
        | ok σ' =>
            have hM' : Matches s' False τ'.stackSize σ' := hrel
            have hkept := runOps_acc (keepsAcc_closureRec (l :: rest) nvars τ () τ' ops hops) hir
            rw [hM'.accu id, hM.accu id, haccu] at hkept
            simp at hkept

/-- **The three implementations agree exactly on `CLOSURE`.** -/
theorem closures_agree_iff (i : ClosureInstruction) (hnvars : i.nvars < 2 ^ 31)
    (hfuncs : i.funcs.length < 2 ^ 31) (extraArgs : Value)
    (hlookup : ∀ l p, k.lookupClosureCode l = some p → p = rt.codePointer l)
    (hvars : (spillAccu i.nvars s).picks? i.nvars = some vars)
    (hM : Matches s False τ.stackSize σ)
    (hops : translateInstruction k i.translated τ = .ok ((), τ', ops)) :
    (∀ O, SameClosures O rt i vars s extraArgs τ' ops σ) ↔ i.isClosure = true := by
  refine ⟨fun h => ?_, fun h O => ?_⟩
  · cases i with
    | closure l nvars => rfl
    | closureRec l rest nvars => exact (not_sameClosures_closureRec hM hops (h _)).elim
  · refine ⟨made_closures i hnvars hfuncs hvars, baseline_closures i s extraArgs, ?_⟩
    cases i with
    | closure l nvars =>
        refine (closure_sim hM hlookup l nvars (fun _ => id) hnvars () τ' ops hops).mono ?_
        exact fun _ _ hM' => hM'.mono fun hstale => hstale.1
    | closureRec l rest nvars => cases h

/-- The accumulator is all that `ClosureRec` gets wrong. -/
theorem closureRec_agrees_otherwise {O : Oracle Request Value} {l nvars : Nat} {rest : List Nat}
    (hlookup : ∀ l p, k.lookupClosureCode l = some p → p = rt.codePointer l)
    (hnvars : nvars < 2 ^ 30) (hfuncs : (l :: rest).length ≤ 2 ^ 27)
    (hM : Matches s False τ.stackSize σ)
    (hops : translateInstruction k (.closureRec (l :: rest) nvars) τ = .ok ((), τ', ops)) :
    Sim (O := O) (fun s' σ' => Matches s' True τ'.stackSize σ')
      (doClosureRec rt (l :: rest) nvars s) (runOps rt ops σ) := by
  have hoperands : operandsOk (.closureRec (l :: rest) nvars) s = true := by
    simp only [operandsOk, immediates, immediateOk, List.all_cons, List.all_nil, Bool.and_true,
      Bool.and_eq_true, decide_eq_true_eq]
    omega
  exact closureRec_sim hM hlookup (l :: rest) nvars (fun _ => id) hoperands () τ' ops hops

end Agree

/-! ## §3. A small function. -/

section Small

/-- Everything is somewhere, and every function at 64. -/
def smallLayout : Layout := ⟨0, 8, 16, fun _ => 64⟩

def smallEnv : TranslatorEnv := ⟨2, 1, fun _ => some 64, 24, false⟩

/-- The accumulator and the environment are `Val_unit`. -/
def smallState : State := ⟨valUnit, valUnit, []⟩

def smallIrState : IrState := ⟨fun _ => valUnit, fun x => if x = .acc then valUnit else 0, []⟩

def smallTranslator : Translator := ⟨0, 0, [], []⟩

/-- The states of the example match. -/
theorem small_matches : Matches smallState False smallTranslator.stackSize smallIrState :=
  ⟨rfl, fun _ _ h => (nomatch h), rfl, fun _ => rfl, rfl, rfl⟩

/-- `CLOSURE` over the accumulator. -/
theorem closures_agree_iff_closure : ∃ τ' ops,
    translateInstruction smallEnv (.closure 0 1) smallTranslator = .ok ((), τ', ops) ∧
    ∀ O, SameClosures O smallLayout (.closure 0 1) [valUnit] smallState valUnit τ' ops
      smallIrState := by
  have hvars : (spillAccu 1 smallState).picks? 1 = some [valUnit] := rfl
  have hlookup : ∀ l p, smallEnv.lookupClosureCode l = some p → p = smallLayout.codePointer l :=
    fun _ _ h => (Option.some.inj h).symm
  have hops : ∃ τ' ops,
      translateInstruction smallEnv (.closure 0 1) smallTranslator = .ok ((), τ', ops) :=
    ⟨_, _, rfl⟩
  obtain ⟨τ', ops, hops⟩ := hops
  exact ⟨τ', ops, hops, Iff.mpr (closures_agree_iff (.closure 0 1) (by decide) (by decide) valUnit
    hlookup hvars small_matches hops) rfl⟩

/-- `CLOSUREREC` of one function without variables, if the new block is not
what the accumulator was. -/
theorem closureRec_loses_accu : ∃ τ' ops,
    translateInstruction smallEnv (.closureRec [0] 0) smallTranslator = .ok ((), τ', ops) ∧
    (spillAccu 0 smallState).picks? 0 = some [] ∧
    Matches smallState False smallTranslator.stackSize smallIrState ∧
    ¬ SameClosures (answering (smallState.accu + 1)) smallLayout (.closureRec 0 [] 0) []
      smallState valUnit τ' ops smallIrState := by
  have hops : ∃ τ' ops,
      translateInstruction smallEnv (.closureRec [0] 0) smallTranslator = .ok ((), τ', ops) :=
    ⟨_, _, rfl⟩
  obtain ⟨τ', ops, hops⟩ := hops
  exact ⟨τ', ops, hops, rfl, small_matches, not_sameClosures_closureRec small_matches hops⟩

end Small

end OcamlJit.Cranelift

/-
  OcamlJit.Cranelift.StackDepth
  ─────────────────────────────
  **THE TRANSLATOR'S STACK SIZE IS THE CONVERSION'S.**

  `Tracks m s s'` says that a method started at tracked size `s` ends at `s'` or
  fails for a reason that is not the stack.  It is `Emits` with the permit
  `offStack`; `recordInstr_emits` is about what the conversion records for an
  instruction, and `compileClosure_depth` follows the scan of every block with it.
-/
import OcamlJit.BasicBlocks.StackSizes
import OcamlJit.Cranelift.Emits

namespace OcamlJit.Cranelift

open OcamlJit.Lib OcamlJit.Instructions OcamlJit.Interp OcamlJit.BasicBlocks

/-! ## §1. Methods that keep track. -/

/-- The errors about the size of the stack. -/
def TranslateError.isStackError : TranslateError → Bool
  | .stackOverflow | .underflowOnPick | .underflowOnAssign | .underflowOnPop
  | .expectedStackSize _ _ => true
  | _ => false

/-- A translation that does not fail over the stack. -/
def NoStackError {α : Type} (r : Rust TranslateError α) : Prop :=
  ∀ e, r = .error (.error e) → e.isStackError = false

/-- From tracked size `s` to `s'`, unless it fails for another reason. -/
def Tracks {α : Type} (m : Emit α) (s s' : Nat) : Prop :=
  ∀ τ, τ.stackSize = s →
    NoStackError (m τ) ∧ ∀ a τ' ops, m τ = .ok (a, τ', ops) → τ'.stackSize = s'

/-- Any fault but an error about the size of the stack. -/
def offStack : Permit := ⟨fun f => ∀ e, f = .error e → e.isStackError = false, True⟩

section Rules

variable {α β : Type} {s s' : Nat} (k : TranslatorEnv)

/-- A sequence fails over the stack in one of its halves. -/
theorem NoStackError.bind {r : Rust TranslateError α} {f : α → Rust TranslateError β}
    (hr : NoStackError r) (hf : ∀ a, r = .ok a → NoStackError (f a)) :
    NoStackError (r >>= f) := by
  cases r with
  | error e =>
      intro e' h
      rw [error_bind] at h
      cases h
      exact hr e' rfl
  | ok a => exact hf a rfl

/-- An error that is no stack error. -/
theorem offStack_error {e : TranslateError} (he : e.isStackError = false) :
    offStack.fault (.error e) := by
  intro e' h
  cases h
  exact he

/-- A panic is no stack error. -/
theorem offStack_panic : offStack.fault .panic := fun _ h => (nomatch h)

/-- The size is tracked by the rules for methods. -/
theorem tracks_iff {m : Emit α} : Tracks m s s' ↔ Emits offStack m s s' := by
  constructor
  · intro h τ hτ
    obtain ⟨herr, hok⟩ := h τ hτ
    exact ⟨fun f hf e he => herr e (he ▸ hf), fun a τ' ops hm =>
      ⟨hok a τ' ops hm, fun _ _ _ => trivial⟩⟩
  · intro h τ hτ
    obtain ⟨hfault, hok⟩ := h τ hτ
    exact ⟨fun e he => hfault _ he e rfl, fun a τ' ops hm => (hok a τ' ops hm).1⟩

/-- `n as i32 * 8` may overflow. -/
theorem emits_fieldOffset (n : Nat) : Emits offStack (fieldOffset n) s s :=
  emits_ite (fun _ => emits_pure _) fun _ => emits_panics offStack_panic

/-- A slot of the stack. -/
theorem emits_slot {n : Nat} (h : n < s) : Emits offStack (pickRef k n) s s :=
  emits_pickRef k (fun hle => by omega) fun _ => offStack_panic

/-- Slots of the stack. -/
theorem emits_slots {count i : Nat} (h : i + count ≤ s) : Emits offStack (pickRefs k i count) s s :=
  emits_pickRefs k (fun _ => offStack_panic) fun hlt => by omega

/-- A pop of what is there. -/
theorem emits_popped {n : Nat} (h : n ≤ s) : Emits offStack (pop n) s (s - n) :=
  emits_pop fun hlt => by omega

end Rules

/-! ## §2. Instructions. -/

section Instructions

variable {s s' : Nat} (k : TranslatorEnv)

/-- `count as i32` is `count`, or the loop over it does nothing. -/
theorem asI32_toNat_le (count : Nat) : (asI32 count).toNat ≤ count := by
  unfold asI32
  rw [BitVec.toInt_eq_toNat_cond, BitVec.toNat_ofNat]
  have hmod := Nat.mod_le count (2 ^ 32)
  split <;> omega

/-- What is copied is there. -/
theorem pushLastNItemsForReal_emits {count : Nat} (h : count ≤ s) :
    Emits offStack (pushLastNItemsForReal k count) s s := by
  have hcount := asI32_toNat_le count
  exact (emits_slots k (by omega)).bind fun _ => emits_emit rfl

/-- `emit_apply` pops its arguments. -/
theorem emitApply_emits {numArgs : Nat} (h : numArgs ≤ s) :
    Emits offStack (emitApply k numArgs) s (s - numArgs) := by
  have htrace (v : Val) : Emits offStack (emitApplyTrace k v numArgs) s s := by
    have hcount := asI32_toNat_le numArgs
    exact emits_traced k ((emits_slots k (by omega)).bind fun _ => emits_callPrimitiveUnit _ _)
  exact emits_getAccRef.bind fun closure => (htrace closure).bind fun _ =>
    (emits_panicIf fun _ => offStack_panic).bind fun _ => (emits_slots k (by omega)).bind fun _ =>
      (emits_popped h).bind fun _ => (emits_define fun _ => rfl).bind fun _ =>
        emits_setAccRef trivial _

/-- Declaring a C function leaves the stack alone. -/
theorem declareCCall_emits (id : Nat) (arity : Arity) :
    Emits offStack (declareCCall id arity) s s := by
  have hget : Emits offStack (getOrInitialiseCCall id arity) s s := by
    refine emits_current fun τ hτ => ?_
    cases τ.cCalls.lookup id with
    | none => exact emits_update fun _ hτ => hτ
    | some known => exact emits_bailIf fun _ => offStack_error rfl
  refine emits_current fun τ _ => emits_ite (fun _ => emits_pure _) fun _ => ?_
  exact hget.bind fun _ => emits_update fun τ hτ => hτ

/-- `c_call` pops what it takes from the stack. -/
theorem cCall_emits {id : Nat} {arity : Arity} (h : arity.fromStack ≤ s) :
    Emits offStack (cCall k id arity) s (s - arity.fromStack) := by
  refine (declareCCall_emits id arity).bind fun _ => ?_
  cases arity with
  | varArgs nargs => exact emits_bail (offStack_error rfl)
  | _ =>
      exact emits_getAccRef.bind fun _ => (emits_slots k (by omega)).bind fun _ =>
        (emits_popped h).bind fun _ => (emits_traced k (emits_callPrimitiveUnit _ _)).bind fun _ =>
          (emits_define fun _ => rfl).bind fun _ => (emits_setAccRef trivial _).bind fun _ =>
            emits_traced k (emits_callPrimitiveUnit _ _)

/-- `CLOSURE` pops its variables but for the one in the accumulator. -/
theorem translateClosure_emits {l nvars : Nat} (hs : s < k.stackVars) (h : nvars - 1 ≤ s) :
    Emits offStack (translateClosure k l nvars) s (s - (nvars - 1)) := by
  have hsize : s + min nvars 1 - nvars = s - (nvars - 1) := by omega
  rw [← hsize]
  exact (emits_spillAcc k fun hle => by omega).bind fun _ =>
    (emits_slots k (by omega)).bind fun _ => (emits_popped (by omega)).bind fun _ =>
    (emits_alloc _ _).bind fun _ => (emits_lookupCode k (offStack_error rfl)).bind fun _ =>
    (emits_ins _).bind fun _ => (emits_ins _).bind fun _ => (emits_emit rfl).bind fun _ =>
      emits_setAccRef trivial _

/-- An instruction has the stack effect that is recorded for it. -/
theorem translateInstruction_offStack {i : BasicBlockInstruction}
    (heff : applyEffect s i.stackEffect = some s') (hs : s < k.stackVars)
    (hs' : s' < k.stackVars) (hacc : ∀ n, i = .acc n → n < s)
    (hassign : ∀ n, i = .assign n → n < s) (hdyn : i = .getDynMet → 0 < s) :
    Emits offStack (translateInstruction k i) s s' := by
  obtain ⟨hle, rfl⟩ : i.stackEffect.1 ≤ s ∧ s - i.stackEffect.1 + i.stackEffect.2 = s' := by
    unfold applyEffect at heff
    split at heff
    · rename_i hle
      injection heff with heff
      exact ⟨hle, heff⟩
    · cases heff
  have hload (ty : Ty) (base : Val) (offset : Int) (s : Nat) :
      Emits offStack (define (.load · ty base offset)) s s := emits_define fun _ => rfl
  have hcall (f : PrimitiveFunction) (args : List Val) (s : Nat) :
      Emits offStack (callPrimitiveValue f args) s s := emits_define fun _ => rfl
  have hdata {n : Nat} (hi : dataPops i = some n) (hn : n ≤ s) :
      Emits offStack (translateInstruction k i) s (s - n) :=
    translateInstruction_emits k trivial hi hn (fun _ => offStack_panic)
      fun _ _ _ => offStack_panic
  -- each instruction pops and pushes what `stack_effect` says, one operation after the other
  cases i with
  | const | negInt | boolNot | isInt | offsetInt | offsetRef | arithInt | intCmp | getVecTItem
    | getBytesChar | setVecTItem | setBytesChar | makeBlock => exact hdata rfl hle
  | acc n => exact (emits_slot k (hacc n rfl)).bind fun _ => emits_setAccRef trivial _
  | envAcc n =>
      exact (emits_fieldOffset n).bind fun _ => (hload _ _ _ _).bind fun _ =>
        emits_setAccRef trivial _
  | push => exact emits_getAccRef.bind fun _ => emits_pushRef k fun hle => by omega
  | pop n => exact emits_popped hle
  | assign n =>
      have hslot (v : Val) : Emits offStack (assignRef k n v) s s :=
        emits_assignRef k (fun hle => absurd (hassign n rfl) (Nat.not_lt.mpr hle))
          fun _ => offStack_panic
      exact emits_getAccRef.bind fun _ => (hslot _).bind fun _ => emits_setAccUnit trivial
  | apply1 | apply2 | apply3 => exact emitApply_emits k hle
  | pushRetAddr =>
      have hs' : s + 3 < k.stackVars := hs'
      exact (emits_ins _).bind fun _ => emits_pushTimes k fun hlt => by omega
  -- the arguments, then the three words of the frame
  | apply nargs =>
      have hle : nargs + 3 ≤ s := hle
      show Emits offStack _ s (s - (nargs + 3))
      rw [← Nat.sub_sub]
      exact (emits_bailIf fun _ => offStack_error rfl).bind fun _ =>
        (emitApply_emits k (by omega)).bind fun _ => emits_popped (by omega)
  | closure l nvars => exact translateClosure_emits k hs hle
  -- `nvars - 1` words go, and a word for each function comes
  | closureRec ls nvars =>
      have hle : nvars - 1 ≤ s := hle
      have hs' : s - (nvars - 1) + ls.length < k.stackVars := hs'
      have hsize : s + min nvars 1 - nvars + ls.length = s - (nvars - 1) + ls.length := by omega
      show Emits offStack (translateClosureRec k ls nvars) s (s - (nvars - 1) + ls.length)
      rw [← hsize]
      exact translateClosureRec_emits k (fun _ _ => offStack_error rfl) offStack_panic
        (fun hover => by omega) (fun hlt => by omega) fun hlt => by omega
  | offsetClosure n =>
      exact (emits_ins _).bind fun _ => (emits_ins _).bind fun _ => emits_setAccInt trivial _
  | getGlobal n =>
      exact (emits_ins _).bind fun _ => (hload _ _ _ _).bind fun _ =>
        (emits_fieldOffset n).bind fun _ => (hload _ _ _ _).bind fun _ => emits_setAccRef trivial _
  | getField n =>
      exact emits_getAccRef.bind fun _ => (emits_fieldOffset n).bind fun _ =>
        (hload _ _ _ _).bind fun _ => emits_setAccRef trivial _
  | setField n =>
      have hpointer (v : Val) : Emits offStack (pointerAt v (n * 8)) s s :=
        emits_ite (fun _ => emits_ins _) fun _ => emits_pure _
      exact (emits_panicIf fun _ => offStack_panic).bind fun _ => emits_getAccInt.bind fun _ =>
        (hpointer _).bind fun _ => (emits_slot k hle).bind fun _ => (emits_popped hle).bind fun _ =>
          (emits_callPrimitiveUnit _ _).bind fun _ => emits_setAccUnit trivial
  | cCall1 id | cCall2 id | cCall3 id | cCall4 id | cCall5 id => exact cCall_emits k hle
  | cCallN nargs id => exact cCall_emits k hle
  | vecTLength =>
      exact emits_getAccRef.bind fun _ => (hcall _ _ _).bind fun _ => emits_setAccRef trivial _
  | checkSignals =>
      exact (emits_ins _).bind fun _ => (hload _ _ _ _).bind fun _ => emits_emit rfl
  | getDynMet =>
      exact emits_getAccRef.bind fun _ => (emits_slot k (hdyn rfl)).bind fun _ =>
        (hcall _ _ _).bind fun _ => emits_setAccRef trivial _
  -- not translated: the failure is not one over the stack
  | makeFloatBlock | setGlobal | getFloatField | setFloatField | popTrap | getMethod
    | setupForPubMet => exact emits_bail (offStack_error rfl)

end Instructions

/-! ## §3. Blocks. -/

section Blocks

variable {s s' s'' : Nat} (k : TranslatorEnv)

/-- Instructions in two parts. -/
theorem translateInstructions_append (is js : List BasicBlockInstruction) :
    translateInstructions k (is ++ js)
      = translateInstructions k is >>= fun _ => translateInstructions k js := by
  induction is with
  | nil => exact (Emit.pure_bind () fun _ => translateInstructions k js).symm
  | cons i is ih =>
      show (translateInstruction k i >>= fun _ => translateInstructions k (is ++ js)) = _
      rw [ih, ← Emit.bind_assoc]
      rfl

/-- One instruction after the other. -/
theorem emits_append {is js : List BasicBlockInstruction}
    (his : Emits offStack (translateInstructions k is) s s')
    (hjs : Emits offStack (translateInstructions k js) s' s'') :
    Emits offStack (translateInstructions k (is ++ js)) s s'' := by
  rw [translateInstructions_append]
  exact his.bind fun _ => hjs

/-- One instruction. -/
theorem emits_single {i : BasicBlockInstruction}
    (h : Emits offStack (translateInstruction k i) s s') :
    Emits offStack (translateInstructions k [i]) s s' :=
  h.bind fun _ => emits_pure _

/-- What the conversion records for an instruction, and what it checks before
recording an `assign` or a `getDynMet`. -/
theorem recordInstr_pushed {size size' : Nat} {i : Instruction Nat}
    {pushed : List BasicBlockInstruction} (h : recordInstr size i = .ok (size', pushed)) :
    pushed = [] ∨ (∃ n, pushed = [.push, .const n]) ∨ ∃ b, pushed = [b] ∧
      (∀ n, b = .assign n → n < size) ∧ (b = .getDynMet → 0 < size) := by
  cases i
  case assign n =>
    obtain ⟨_, hn, h⟩ := bind_eq_ok.mp h
    cases h
    refine .inr (.inr ⟨_, rfl, fun m hm => ?_, fun hd => (nomatch hd)⟩)
    cases hm
    exact ensure_eq_ok.mp hn
  case getDynMet =>
    obtain ⟨_, hn, h⟩ := bind_eq_ok.mp h
    cases h
    exact .inr (.inr ⟨_, rfl, fun m hm => (nomatch hm), fun _ => ensure_eq_ok.mp hn⟩)
  case setupForPubMet n =>
    obtain ⟨_, -, h⟩ := bind_eq_ok.mp h
    cases h
    exact .inr (.inl ⟨n, rfl⟩)
  case closureRec | apply | cCallN =>
    obtain ⟨_, -, h⟩ := bind_eq_ok.mp h
    obtain ⟨_, -, h⟩ := bind_eq_ok.mp h
    cases h
    exact .inr (.inr ⟨_, rfl, fun m hm => (nomatch hm), fun hd => (nomatch hd)⟩)
  all_goals
    first
      | cases h
        exact .inl rfl
      | obtain ⟨_, -, h⟩ := bind_eq_ok.mp h
        cases h
        exact .inl rfl
      | cases h
        exact .inr (.inr ⟨_, rfl, fun m hm => (nomatch hm), fun hd => (nomatch hd)⟩)
      | obtain ⟨_, -, h⟩ := bind_eq_ok.mp h
        cases h
        exact .inr (.inr ⟨_, rfl, fun m hm => (nomatch hm), fun hd => (nomatch hd)⟩)

/-- The translator follows the conversion over what an instruction records. -/
theorem recordInstr_emits {i : Instruction Nat} {pushed : List BasicBlockInstruction}
    (h : recordInstr s i = .ok (s', pushed)) (hi : i ≠ .popTrap)
    (hrec : ∀ ls n, i = .closureRec ls n → ls.length < 2 ^ 32) (hs : s < k.stackVars)
    (hs' : s' < k.stackVars) (hacc : ∀ n, pushed = [.acc n] → n < s) :
    Emits offStack (translateInstructions k pushed) s s' := by
  obtain ⟨hreplay, -⟩ := recordInstr_replay h hi hrec
  rcases recordInstr_pushed h with rfl | ⟨n, rfl⟩ | ⟨b, rfl, hassign, hdyn⟩
  · injection hreplay with hreplay
    subst hreplay
    exact emits_pure _
  · injection hreplay with hreplay
    subst hreplay
    have hpush : Emits offStack (translateInstruction k .push) s (s + 1) :=
      emits_getAccRef.bind fun _ => emits_pushRef k fun hle => by omega
    have hconst : Emits offStack (translateInstruction k (.const n)) (s + 1) (s + 1) :=
      (emits_ins _).bind fun _ => (emits_ins _).bind fun _ => emits_setAccRef trivial _
    exact hpush.bind fun _ => emits_single k hconst
  · obtain ⟨r, heff, hr⟩ := Option.bind_eq_some_iff.mp hreplay
    injection hr with hr
    subst hr
    refine emits_single k (translateInstruction_offStack k heff hs hs' ?_ hassign hdyn)
    rintro n rfl
    exact hacc n rfl

/-- Every `Acc(n)` occurs at a depth greater than `n`. -/
def AccsInRange (start : Nat) (is : List BasicBlockInstruction) : Prop :=
  ∀ pre n post s, is = pre ++ .acc n :: post → replay start pre = some s → n < s

section Scan

variable {code : List Word} {bs : List Nat} {entry e bound start pos size : Nat}
  {q : List (Instruction Nat)} {pre is : List BasicBlockInstruction} {x : BlockExit}

/-- **The translator follows the conversion through a block.** -/
theorem emits_passes (h : Passes code bs e start q pos size pre)
    (hscan : Scan code bs e bound [] e start is x) (hr : Reached code entry [] e)
    (hno : ¬ ReachesInstr code entry .popTrap) (hacc : AccsInRange start is)
    (hbound : bound < k.stackVars) : Emits offStack (translateInstructions k pre) start size := by
  induction h with
  | start => exact emits_pure _
  | fetch _ _ _ ih => exact ih
  | @more i q pos size size' pre pushed h hstay hrec ih =>
      have hi : i ≠ .popTrap := by
        rintro rfl
        exact hno ⟨q, pos, h.reached hr⟩
      obtain ⟨_, -, hs⟩ := h.scan hscan
      obtain ⟨rest, his, hs'⟩ := (h.more hstay hrec).scan hscan
      refine emits_append k ih (recordInstr_emits k hrec hi h.queueOk.2.2.1
        (hs.size_le.trans_lt hbound) (hs'.size_le.trans_lt hbound) fun n hn => ?_)
      refine hacc pre n rest size ?_ (h.replay_eq hr hno)
      rw [his, hn, List.append_assoc]
      rfl

end Scan

/-- A trace takes nothing from the stack. -/
theorem returnTrace_emits : Emits offStack (returnTrace k) s s :=
  emits_traced k (emits_getAccRef.bind fun _ => emits_callPrimitiveUnit _ _)

/-- An exit has the stack effect that is recorded for it. -/
theorem translateExit_offStack {x : BasicBlockExit}
    (heff : applyEffect s x.stackEffect = some s')
    (htail : ∀ args toPop, x = .tailCall args toPop → args ≤ toPop) :
    Emits offStack (translateExit k x) s s' := by
  obtain ⟨hle, rfl⟩ : x.stackEffect.1 ≤ s ∧ s - x.stackEffect.1 + x.stackEffect.2 = s' := by
    unfold applyEffect at heff
    split at heff
    · rename_i hle
      injection heff with heff
      exact ⟨hle, heff⟩
    · cases heff
  have hblock (l : Nat) : Emits offStack (blockRef k l) s s :=
    emits_blockRef k fun _ => offStack_panic
  cases x with
  | branch l => exact (hblock l).bind fun _ => emits_pure _
  | branchIf thenBlock elseBlock =>
      exact emits_getAccInt.bind fun _ => (emits_ins _).bind fun _ =>
        (hblock _).bind fun _ => (hblock _).bind fun _ => emits_pure _
  | branchCmp cmp constant thenBlock elseBlock =>
      exact branchCmp_emits k cmp constant (fun _ => offStack_panic) fun _ => offStack_panic
  | switch ints tags =>
      exact switch_emits k (fun _ _ => offStack_error rfl) fun _ _ _ => offStack_panic
  | return_ toPop =>
      exact (returnTrace_emits k).bind fun _ => (emits_popped hle).bind fun _ => emits_pure _
  | tailCall args toPop =>
      have hargs : args ≤ s := (htail args toPop rfl).trans hle
      exact (returnTrace_emits k).bind fun _ =>
        (pushLastNItemsForReal_emits k hargs).bind fun _ => (emits_ins _).bind fun _ =>
          (emits_emit rfl).bind fun _ => (emits_popped hle).bind fun _ => emits_pure _
  | raise kind => exact emits_getAccRef.bind fun _ => emits_pure _
  | pushTrap | stop => exact emits_bail (offStack_error rfl)

/-- A block is translated from its start size to its end size. -/
theorem translateBlock_emits {b : BasicBlock}
    (hinstrs : Emits offStack (translateInstructions k b.instructions) b.startStackSize s')
    (hexit : Emits offStack (translateExit k b.exit) s' b.endStackSize) :
    Emits offStack (translateBlock k b) s b.endStackSize := by
  have hstart : Emits offStack (update fun τ => { τ with stackSize := b.startStackSize }) s
      b.startStackSize := emits_update fun _ _ => rfl
  refine hstart.bind fun _ => hinstrs.bind fun _ => hexit.bind fun _ =>
    emits_current fun τ hτ => emits_bailIf_bind (fun hne => absurd hτ hne) fun _ => emits_pure _

/-- A list of blocks fails over the stack when one of the blocks does. -/
theorem translateBlocks_noStackError : ∀ {bs : List BasicBlock} {τ : Translator},
    (∀ b ∈ bs, ∀ s, Emits offStack (translateBlock k b) s b.endStackSize) →
    NoStackError (translateBlocks k bs τ)
  | [], _, _ => fun _ h => (nomatch h)
  | b :: bs, τ, h => by
      have hb := (tracks_iff.mpr (h b List.mem_cons_self τ.stackSize) τ rfl).1
      refine hb.bind fun p _ => NoStackError.bind ?_ fun _ _ _ h => (nomatch h)
      exact translateBlocks_noStackError fun b' hb' => h b' (List.mem_cons_of_mem _ hb')

/-- The arguments are on the tracked stack. -/
theorem defineArgs_emits (arity : Nat) : ∀ n : Nat, Emits offStack (defineArgs k arity n) s s
  | 0 => emits_pure _
  | n + 1 => emits_stackVar k (fun _ => offStack_panic)
      ((emits_emit rfl).bind fun _ => defineArgs_emits arity n)

/-- The slots that are zeroed are not on it yet. -/
theorem zeroStack_emits (v : Val) : ∀ count i : Nat, Emits offStack (zeroStack k v i count) s s
  | 0, _ => emits_pure _
  | count + 1, i => emits_stackVar k (fun _ => offStack_panic)
      ((emits_emit rfl).bind fun _ => zeroStack_emits v count (i + 1))

/-- The prologue leaves the size alone. -/
theorem createTranslator_emits (c : BasicClosure) : Emits offStack (createTranslator k c) s s :=
  (defineArgs_emits k _ _).bind fun _ => (emits_ins _).bind fun _ =>
    (emits_ins _).bind fun _ => (emits_setAccRef trivial _).bind fun _ =>
      (zeroStack_emits k _ _ _).bind fun _ => emits_emit rfl

end Blocks

/-! ## §4. Closures. -/

section Closure

variable {code : List Word} {entry : Nat} {c : BasicClosure}

/-- The hypotheses about single instructions and exits: every `Acc(i)` occurs at
a recorded depth greater than `i`, and every `TailCall` has `args <= to_pop`. -/
structure DepthsInRange (c : BasicClosure) : Prop where
  accs : ∀ (i : Nat) (b : BasicBlock), c.blocks[i]? = some b →
    AccsInRange b.startStackSize b.instructions
  tailCalls : ∀ (i : Nat) (b : BasicBlock) (args toPop : Nat), c.blocks[i]? = some b →
    b.exit = .tailCall args toPop → args ≤ toPop

/-- A block is translated without a stack error. -/
theorem origin_emits {bs : List Nat} {st : SearchState} {b : BasicBlock} {i o : Nat}
    {x : BlockExit} {k : TranslatorEnv} (horigin : Origin code bs entry st b o x)
    (hno : ¬ ReachesInstr code entry .popTrap) (hranges : DepthsInRange c)
    (hb : c.blocks[i]? = some b) (hk : st.maxStackSize < k.stackVars) (s : Nat) :
    Emits offStack (translateBlock k b) s b.endStackSize := by
  obtain ⟨q, pos, size, hpass, hend⟩ := horigin.scan.passes_end [] .start
  refine translateBlock_emits k
    (emits_passes k hpass horigin.scan horigin.reached hno (hranges.accs i b hb) hk) ?_
  refine translateExit_offStack k ?_ fun args toPop => hranges.tailCalls i b args toPop hb
  rw [horigin.exit, horigin.endStackSize, stackEffect_mapLabels]
  rcases hend with rfl | ⟨instr, hexit⟩
  · simp [jumpTo, applyEffect, BasicBlockExit.stackEffect]
  · exact (exitOf_sizes hexit).1

/-- **The tracked stack size is the depth the conversion computed** at every
boundary of every block, so that `max_stack_size + 1` variables are enough and
translating a closure never fails over the stack. -/
theorem compileClosure_depth (code : List Word) (entry : Nat) (c : BasicClosure)
    (h : parseToBasicBlocks code entry = .ok c)
    (hpop : ¬ ReachesInstr code entry .popTrap) (hranges : DepthsInRange c)
    (lookup : Nat → Option Value) (atomTable : Value) (traces : Bool)
    (cCalls : List (Nat × Arity)) :
    NoStackError (compileClosure lookup atomTable traces cCalls c) ∧
    ∃ bs arity st, findBlockStartsDfs code (searchFuel code) [entry] entry = .ok bs ∧
      visit code bs (searchFuel code) .initial entry none (arity % 2 ^ 32) .first = .ok st ∧
      ∀ (i : Nat) (b : BasicBlock), c.blocks[i]? = some b →
        ∃ o, st.offsets[i]? = some o ∧ ∀ q pos size pre,
          Passes code bs o b.startStackSize q pos size pre →
          (∃ post, b.instructions = pre ++ post) ∧
            Tracks (translateInstructions (translatorEnv lookup atomTable traces c) pre)
              b.startStackSize size := by
  obtain ⟨arity, st, ⟨bs, hbs, -, hv⟩, hn⟩ := parseToBasicBlocks_eq_ok h
  have hs := visit_searched hv
  let k := translatorEnv lookup atomTable traces c
  have hk : st.maxStackSize < k.stackVars := by
    show st.maxStackSize < c.maxStackSize + 1
    rw [hn.maxStackSize]
    exact Nat.lt_succ_self _
  refine ⟨?_, bs, arity, st, hbs, hv, fun i b hb => ?_⟩
  -- no block fails over the stack, so neither does the closure
  · have hblocks : ∀ b ∈ c.blocks, ∀ s, Emits offStack (translateBlock k b) s b.endStackSize := by
      intro b hb
      obtain ⟨i, hi⟩ := List.mem_iff_getElem?.mp hb
      obtain ⟨o, x, -, horigin, -⟩ := hn.origin_of_block hs hi
      exact origin_emits horigin hpop hranges hi hk
    unfold compileClosure
    split
    · intro e he
      cases he
    · have harity : NoStackError (ensure (c.arity ≤ 5) TranslateError.arityAboveFive) := by
        intro e he
        unfold ensure err at he
        split at he <;> cases he
        rfl
      refine harity.bind fun _ _ => NoStackError.bind ?_ fun _ _ => ?_
      · split
        all_goals
          intro e he
          cases he
      · have hpro := tracks_iff.mpr (createTranslator_emits k c) ⟨c.arity, c.arity, [], cCalls⟩ rfl
        refine hpro.1.bind fun p _ => (translateBlocks_noStackError k hblocks).bind ?_
        intro _ _ e he
        cases he
  -- at a boundary the tracked size is that of the scan
  · obtain ⟨o, x, hid, horigin, ty, hseen⟩ := hn.origin_of_block hs hb
    refine ⟨o, ?_, fun q pos size pre hp => ⟨?_, ?_⟩⟩
    · obtain ⟨p, hp, -⟩ := hseen
      have hmem : o ∈ st.offsets := (Numbered.mem_offsets hs).mpr (by simp [hp])
      rw [← hid]
      exact List.getElem?_idxOf hmem
    · obtain ⟨post, hpost, -⟩ := hp.scan horigin.scan
      exact ⟨post, hpost⟩
    · exact tracks_iff.mpr <| emits_passes k hp horigin.scan horigin.reached hpop (hranges.accs i b hb) hk

end Closure

/-- `PUSHACC0`, the loop `CHECK_SIGNALS; BRANCHIF` and `POP 1; RETURN 1`. -/
def pushingLoop : List Word := [10, 92, 85, -2, 19, 1, 40, 1]

/-- Its blocks. -/
def pushingLoopClosure : BasicClosure :=
  ⟨1, [⟨0, [], .first, [.push, .acc 0], .branch 1, 1, 2, []⟩,
    ⟨1, [1, 0], .normal, [.checkSignals], .branchIf 1 2, 2, 2, [1, 2]⟩,
    ⟨2, [1], .normal, [.pop 1], .return_ 1, 2, 0, []⟩], [], 2, false⟩

/-- The stack of the example stays in range. -/
theorem depthsInRange_pushingLoop : DepthsInRange pushingLoopClosure := by
  constructor
  · intro i b hb pre n post s his hs
    match i, hb with
    | 0, hb =>
        cases hb
        match pre, his with
        | [], his => cases his
        | [_], his =>
            cases his
            cases hs
            exact Nat.zero_lt_two
        | _ :: _ :: pre, his => simp at his
    | 1, hb | 2, hb =>
        cases hb
        cases pre <;> simp at his
  · intro i b args toPop hb hx
    match i, hb with
    | 0, hb | 1, hb | 2, hb =>
        cases hb
        cases hx

/-- No stack message for the loop, and in its first block the size after `PUSH` and
after `ACC 0`. -/
theorem compileClosure_depth_loop :
    ∃ c, parseToBasicBlocks pushingLoop 0 = .ok c ∧
      NoStackError (compileClosure (fun _ => none) 0 false [] c) ∧
      Tracks (translateInstructions (translatorEnv (fun _ => none) 0 false c) [.push]) 1 2 ∧
      Tracks (translateInstructions (translatorEnv (fun _ => none) 0 false c) [.push, .acc 0])
        1 2 := by
  have hc : parseToBasicBlocks pushingLoop 0 = .ok pushingLoopClosure := by decide
  have hpop : ¬ ReachesInstr pushingLoop 0 .popTrap :=
    not_reachesInstr_of_closed [([], 0), ([.labelDef 0, .push, .acc 0], 1), ([.push, .acc 0], 1),
      ([.acc 0], 1), ([], 1), ([.labelDef 1, .checkSignals], 2), ([.checkSignals], 2), ([], 2),
      ([.labelDef 2, .branchIf 1], 4), ([.branchIf 1], 4), ([], 4),
      ([.labelDef 4, .pop 1], 6), ([.pop 1], 6), ([], 6),
      ([.labelDef 6, .return_ 1], 8), ([.return_ 1], 8)] (by decide) (by decide) (by decide)
  obtain ⟨hno, bs, arity, st, hbs, hv, htracks⟩ :=
    compileClosure_depth _ 0 _ hc hpop depthsInRange_pushingLoop (fun _ => none) 0 false []
  obtain ⟨o, ho, hpasses⟩ := htracks 0 _ rfl
  -- the first block is the one at the entry
  obtain ⟨fs, e, hfin, he⟩ := (visit_searched hv).last
  have hentry : st.offsets[0]? = some 0 := by simp [SearchState.offsets, hfin, he]
  obtain rfl : o = 0 := Option.some.inj (ho.symm.trans hentry)
  have hstart : ¬ SplitAt bs 0 0 := fun hsplit => hsplit.1 rfl
  have hfetch : Passes pushingLoop bs 0 1 [.push, .acc 0] 1 1 [] := .fetch .start hstart rfl
  have hpush : Passes pushingLoop bs 0 1 [.acc 0] 1 2 [.push] := hfetch.more rfl rfl
  have hacc : Passes pushingLoop bs 0 1 [] 1 2 [.push, .acc 0] := hpush.more rfl rfl
  exact ⟨_, hc, hno, (hpasses _ _ _ _ hpush).2, (hpasses _ _ _ _ hacc).2⟩

end OcamlJit.Cranelift

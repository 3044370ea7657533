/-
  OcamlJit.Cranelift.Emits
  ────────────────────────
  **WHAT A METHOD OF THE TRANSLATOR MAY DO.**

  `Emits P m s s'` says that a method started at tracked size `s` leaves the size
  at `s'`, or stops with a fault that `P` permits, and that it defines the
  accumulator only if `P` permits that.  There is one rule for each helper; where
  the source checks something, the rule asks that `P` permits the fault if the
  check fails.

  Three permits are in use: any fault but one about the stack (`Tracks`), no fault
  at all (`Succeeds`), and any fault but no new accumulator (`KeepsAcc`).

    • `translateInstruction_emits`   instructions that only compute or access data,
    • `translateClosureRec_emits`    `CLOSUREREC`,
    • `branchCmp_emits`, `switch_emits`   the exits that choose a block.
-/
import OcamlJit.Cranelift.Translate

namespace OcamlJit.Cranelift

open OcamlJit.Lib OcamlJit.Instructions OcamlJit.Interp OcamlJit.BasicBlocks

/-! ## §1. Permits. -/

/-- `def_var` of the accumulator. -/
def Op.definesAcc : Op → Bool
  | .defVar .acc _ => true
  | _ => false

/-- What is permitted: to stop with a fault, and to define the accumulator. -/
structure Permit where
  fault : Fault TranslateError → Prop
  setsAcc : Prop

/-- From tracked size `s` to `s'`, with what `P` permits. -/
def Emits (P : Permit) {α : Type} (m : Emit α) (s s' : Nat) : Prop :=
  ∀ τ, τ.stackSize = s → (∀ f, m τ = .error f → P.fault f) ∧
    ∀ a τ' ops, m τ = .ok (a, τ', ops) →
      τ'.stackSize = s' ∧ ∀ op ∈ ops, op.definesAcc = true → P.setsAcc

section Monad

variable {α β : Type} {m : Emit α} {f : α → Emit β} {τ : Translator}

/-- A sequence fails in its first half or in its second. -/
theorem Emit.bind_eq_error {e : Fault TranslateError} (h : (m >>= f) τ = .error e) :
    m τ = .error e ∨ ∃ a τ₁ ops₁, m τ = .ok (a, τ₁, ops₁) ∧ f a τ₁ = .error e := by
  have hdef : (m >>= f) τ =
      m τ >>= fun p => f p.1 p.2.1 >>= fun r => .ok (r.1, r.2.1, p.2.2 ++ r.2.2) := rfl
  rw [hdef] at h
  cases hm : m τ with
  | error e' =>
      rw [hm, error_bind] at h
      cases h
      exact .inl rfl
  | ok p =>
      rw [hm, ok_bind] at h
      refine .inr ⟨p.1, p.2.1, p.2.2, rfl, ?_⟩
      cases hf : f p.1 p.2.1 with
      | error e' =>
          rw [hf, error_bind] at h
          exact h
      | ok r =>
          rw [hf] at h
          cases h

/-- Reading the state changes nothing. -/
theorem Emit.current_bind {g : Translator → Emit α} : (current >>= g) τ = g τ τ := by
  show (g τ τ >>= fun r => .ok (r.1, r.2.1, [] ++ r.2.2)) = g τ τ
  cases g τ τ <;> rfl

end Monad

/-! ## §2. Rules. -/

section Rules

variable {P : Permit} {α β : Type} {s s' s'' : Nat} (k : TranslatorEnv)

/-- Nothing is done. -/
theorem emits_pure (a : α) : Emits P (pure a) s s := by
  intro τ hτ
  refine ⟨fun f h => (nomatch h), fun a' τ' ops h => ?_⟩
  cases h
  exact ⟨hτ, fun op hop => absurd hop List.not_mem_nil⟩

/-- One method after the other; what the first one returned may be used. -/
theorem Emits.bind_of {m : Emit α} {f : α → Emit β} (hm : Emits P m s s')
    (hf : ∀ a τ τ' ops, m τ = .ok (a, τ', ops) → Emits P (f a) s' s'') :
    Emits P (m >>= f) s s'' := by
  intro τ hτ
  obtain ⟨hfault, hok⟩ := hm τ hτ
  constructor
  · intro e he
    rcases Emit.bind_eq_error he with he | ⟨a, τ₁, ops₁, hm', he⟩
    · exact hfault e he
    · exact (hf a _ _ _ hm' τ₁ (hok a τ₁ ops₁ hm').1).1 e he
  · intro b τ' ops h
    obtain ⟨a, τ₁, ops₁, ops₂, hm', hf', rfl⟩ := Emit.bind_eq_ok.mp h
    obtain ⟨hsize, hops₁⟩ := hok a τ₁ ops₁ hm'
    obtain ⟨hsize', hops₂⟩ := (hf a _ _ _ hm' τ₁ hsize).2 b τ' ops₂ hf'
    refine ⟨hsize', fun op hop => ?_⟩
    rcases List.mem_append.mp hop with hop | hop
    · exact hops₁ op hop
    · exact hops₂ op hop

/-- One method after the other. -/
theorem Emits.bind {m : Emit α} {f : α → Emit β} (hm : Emits P m s s')
    (hf : ∀ a, Emits P (f a) s' s'') : Emits P (m >>= f) s s'' :=
  hm.bind_of fun a _ _ _ _ => hf a

/-- `bail!` with an error that is permitted. -/
theorem emits_bail {e : TranslateError} (h : P.fault (.error e)) :
    Emits P (bail e : Emit α) s s' := by
  intro τ _
  refine ⟨fun f hf => ?_, fun a τ' ops h => (nomatch h)⟩
  cases hf
  exact h

/-- A panic that is permitted. -/
theorem emits_panics (h : P.fault .panic) : Emits P (panics : Emit α) s s' := by
  intro τ _
  refine ⟨fun f hf => ?_, fun a τ' ops h => (nomatch h)⟩
  cases hf
  exact h

/-- Both branches of a conditional. -/
theorem emits_ite {c : Prop} [Decidable c] {m n : Emit α} (hm : c → Emits P m s s')
    (hn : ¬ c → Emits P n s s') : Emits P (if c then m else n) s s' := by
  by_cases h : c
  · rw [if_pos h]
    exact hm h
  · rw [if_neg h]
    exact hn h

/-- A check, and then a method for which what was checked is known. -/
theorem emits_bailIf_bind {c : Prop} [Decidable c] {e : TranslateError} {f : Unit → Emit α}
    (h : c → P.fault (.error e)) (hf : ¬ c → Emits P (f ()) s s') :
    Emits P (bailIf c e >>= f) s s' := by
  unfold bailIf
  by_cases hc : c
  · rw [if_pos hc]
    show Emits P (bail e) s s'
    exact emits_bail (h hc)
  · rw [if_neg hc, Emit.pure_bind]
    exact hf hc

/-- A check. -/
theorem emits_bailIf {c : Prop} [Decidable c] {e : TranslateError}
    (h : c → P.fault (.error e)) : Emits P (bailIf c e) s s :=
  emits_ite (fun hc => emits_bail (h hc)) fun _ => emits_pure ()

/-- A check that panics. -/
theorem emits_panicIf {c : Prop} [Decidable c] (h : c → P.fault .panic) :
    Emits P (panicIf c) s s :=
  emits_ite (fun hc => emits_panics (h hc)) fun _ => emits_pure ()

/-- An operation with a result. -/
theorem emits_define {op : Val → Op} (h : ∀ v, (op v).definesAcc = false) :
    Emits P (define op) s s := by
  intro τ hτ
  refine ⟨fun f hf => (nomatch hf), fun a τ' ops hm => ?_⟩
  cases hm
  refine ⟨hτ, fun o ho hacc => ?_⟩
  rw [List.mem_singleton.mp ho, h] at hacc
  cases hacc

/-- An operation without a result, unless it defines the accumulator. -/
theorem emits_emit {op : Op} (h : op.definesAcc = false) : Emits P (emit op) s s := by
  intro τ hτ
  refine ⟨fun f hf => (nomatch hf), fun a τ' ops hm => ?_⟩
  cases hm
  refine ⟨hτ, fun o ho hacc => ?_⟩
  rw [List.mem_singleton.mp ho, h] at hacc
  cases hacc

/-- An instruction that only computes. -/
theorem emits_ins (e : Expr) : Emits P (ins e) s s := emits_define fun _ => rfl

/-- A method that looks at the state. -/
theorem emits_current {f : Translator → Emit α}
    (hf : ∀ τ, τ.stackSize = s → Emits P (f τ) s s') : Emits P (current >>= f) s s' := by
  intro τ hτ
  rw [Emit.current_bind]
  exact hf τ hτ τ hτ

/-- A change of the state. -/
theorem emits_update {f : Translator → Translator}
    (h : ∀ τ, τ.stackSize = s → (f τ).stackSize = s') : Emits P (update f) s s' := by
  intro τ hτ
  refine ⟨fun f hf => (nomatch hf), fun a τ' ops hm => ?_⟩
  cases hm
  exact ⟨h τ hτ, fun op hop => absurd hop List.not_mem_nil⟩

/-- The variable of a slot. -/
theorem emits_stackVar {i : Nat} {f : Var → Emit α} (h : k.stackVars ≤ i → P.fault .panic)
    (hf : Emits P (f (.stack i)) s s') : Emits P (stackVar k i >>= f) s s' := by
  unfold stackVar
  by_cases hi : i < k.stackVars
  · rw [if_pos hi, Emit.pure_bind]
    exact hf
  · rw [if_neg hi]
    show Emits P panics s s'
    exact emits_panics (h (Nat.le_of_not_lt hi))

/-- `push_ref`; the check leaves no panic. -/
theorem emits_pushRef {v : Val} (h : k.stackVars ≤ s → P.fault (.error .stackOverflow)) :
    Emits P (pushRef k v) s (s + 1) := by
  refine emits_current fun τ hτ => emits_bailIf_bind (fun hge => h (hτ ▸ hge)) fun hlt => ?_
  refine emits_stackVar k (fun hge => absurd hge hlt) ?_
  exact (emits_emit rfl).bind fun _ => emits_update fun τ hτ => by simp [hτ]

/-- `push_ref` several times. -/
theorem emits_pushTimes {v : Val} : ∀ {n s : Nat},
    (k.stackVars < s + n → P.fault (.error .stackOverflow)) →
    Emits P (pushTimes k v n) s (s + n)
  | 0, _, _ => emits_pure ()
  | n + 1, s, h => by
      have hrest := @emits_pushTimes v n (s + 1) fun hlt => h (by omega)
      rw [show s + (n + 1) = s + 1 + n by omega]
      exact (emits_pushRef k fun hle => h (by omega)).bind fun _ => hrest

/-- `push_int`. -/
theorem emits_pushInt {v : Val} (h : k.stackVars ≤ s → P.fault (.error .stackOverflow)) :
    Emits P (pushInt k v) s (s + 1) :=
  (emits_ins _).bind fun _ => emits_pushRef k h

/-- `pick_ref`; without room the index into the variables is out of range. -/
theorem emits_pickRef {n : Nat} (hdeep : s ≤ n → P.fault (.error .underflowOnPick))
    (hroom : k.stackVars < s → P.fault .panic) : Emits P (pickRef k n) s s := by
  refine emits_current fun τ hτ => emits_bailIf_bind (fun hge => hdeep (hτ ▸ hge)) fun hlt => ?_
  refine emits_stackVar k (fun hge => hroom (by omega)) ?_
  exact emits_define fun _ => rfl

/-- The slots from `i` on. -/
theorem emits_pickRefs (hroom : k.stackVars < s → P.fault .panic) : ∀ {count i : Nat},
    (s < i + count → P.fault (.error .underflowOnPick)) → Emits P (pickRefs k i count) s s
  | 0, _, _ => emits_pure []
  | count + 1, i, h => by
      have hrest := @emits_pickRefs hroom count (i + 1) fun hlt => h (by omega)
      have hfirst : Emits P (pickRef k i) s s :=
        emits_pickRef k (fun hle => h (by omega)) hroom
      exact hfirst.bind fun _ => hrest.bind fun _ => emits_pure _

/-- `assign_ref`. -/
theorem emits_assignRef {n : Nat} {v : Val} (hdeep : s ≤ n → P.fault (.error .underflowOnAssign))
    (hroom : k.stackVars < s → P.fault .panic) : Emits P (assignRef k n v) s s := by
  refine emits_current fun τ hτ => emits_bailIf_bind (fun hge => hdeep (hτ ▸ hge)) fun hlt => ?_
  refine emits_stackVar k (fun hge => hroom (by omega)) ?_
  exact emits_emit rfl

/-- `pop`. -/
theorem emits_pop {n : Nat} (h : s < n → P.fault (.error .underflowOnPop)) :
    Emits P (pop n) s (s - n) := by
  refine emits_current fun τ hτ => emits_bailIf_bind (fun hgt => h (hτ ▸ hgt)) fun _ => ?_
  exact emits_update fun τ hτ => by simp [hτ]

/-- `set_acc_ref`. -/
theorem emits_setAccRef (hacc : P.setsAcc) (v : Val) : Emits P (setAccRef v) s s := by
  intro τ hτ
  refine ⟨fun f hf => (nomatch hf), fun a τ' ops hm => ?_⟩
  cases hm
  exact ⟨hτ, fun _ _ _ => hacc⟩

/-- `set_acc_int`. -/
theorem emits_setAccInt (hacc : P.setsAcc) (v : Val) : Emits P (setAccInt v) s s :=
  (emits_ins _).bind fun _ => emits_setAccRef hacc _

/-- `set_acc_unit`. -/
theorem emits_setAccUnit (hacc : P.setsAcc) : Emits P setAccUnit s s :=
  (emits_ins _).bind fun _ => emits_setAccInt hacc _

/-- `get_acc_ref`. -/
theorem emits_getAccRef : Emits P getAccRef s s := emits_define fun _ => rfl

/-- `get_acc_int`. -/
theorem emits_getAccInt : Emits P getAccInt s s := emits_getAccRef.bind fun _ => emits_ins _

/-- `long_to_value`. -/
theorem emits_longToValue (v : Val) : Emits P (longToValue v) s s :=
  (emits_ins _).bind fun _ => emits_ins _

/-- A call of a primitive. -/
theorem emits_callPrimitiveUnit (f : PrimitiveFunction) (args : List Val) :
    Emits P (callPrimitiveUnit f args) s s := emits_emit rfl

/-- A method that is only there with call traces. -/
theorem emits_traced {m : Emit Unit} (hm : Emits P m s s) : Emits P (traced k m) s s :=
  emits_ite (fun _ => hm) fun _ => emits_pure ()

/-- A method for each element of a list. -/
theorem emits_mapM {f : β → Emit α} : ∀ {xs : List β}, (∀ x ∈ xs, Emits P (f x) s s) →
    Emits P (xs.mapM f) s s
  | [], _ => by
      rw [List.mapM_nil]
      exact emits_pure []
  | x :: xs, h => by
      rw [List.mapM_cons]
      have hrest := emits_mapM fun y hy => h y (List.mem_cons_of_mem x hy)
      exact (h x List.mem_cons_self).bind fun _ => hrest.bind fun _ => emits_pure _

/-! ## §3. Blocks of the heap. -/

/-- The stores into a small block. -/
theorem emits_storeContents (block : Val) : ∀ (i : Nat) (contents : List (Option Val)),
    Emits P (storeContents block i contents) s s
  | _, [] => emits_pure ()
  | i, none :: contents => emits_storeContents block (i + 1) contents
  | i, some _ :: contents =>
      (emits_emit rfl).bind fun _ => emits_storeContents block (i + 1) contents

/-- The calls that fill a large block. -/
theorem emits_initializeContents (block : Val) : ∀ (i : Nat) (contents : List (Option Val)),
    Emits P (initializeContents block i contents) s s
  | _, [] => emits_pure ()
  | i, none :: contents => emits_initializeContents block (i + 1) contents
  | i, some _ :: contents =>
      (emits_ins _).bind fun _ => (emits_callPrimitiveUnit _ _).bind fun _ =>
        emits_initializeContents block (i + 1) contents

/-- `alloc`, in the minor and in the major heap. -/
theorem emits_alloc (contents : List (Option Val)) (tag : Nat) :
    Emits P (alloc contents tag) s s := by
  refine emits_ite (fun _ => ?_) fun _ => ?_
  · have hsmall : Emits P (define (.allocSmall · contents.length tag)) s s :=
      emits_define fun _ => rfl
    exact hsmall.bind fun _ => (emits_storeContents _ 0 contents).bind fun _ => emits_pure _
  · have hshr (args : List Val) : Emits P (callPrimitiveValue .camlAllocShr args) s s :=
      emits_define fun _ => rfl
    exact (emits_ins _).bind fun _ => (emits_ins _).bind fun _ => (hshr _).bind fun _ =>
      (emits_ins _).bind fun _ => (emits_initializeContents _ 0 contents).bind fun _ =>
        emits_pure _

/-- The code pointer of a function. -/
theorem emits_lookupCode {l : Nat} (h : P.fault (.error (.couldNotFindClosure l))) :
    Emits P (lookupCode k l) s s := by
  unfold lookupCode
  cases k.lookupClosureCode l with
  | none => exact emits_bail h
  | some p => exact emits_pure p

/-- There is one code pointer for each function. -/
theorem lookupCodes_length : ∀ {ls : List Nat} {ps : List Value} {τ τ' : Translator}
    {ops : List Op}, ls.mapM (lookupCode k) τ = .ok (ps, τ', ops) → ps.length = ls.length
  | [], _, _, _, _, h => by
      cases h
      rfl
  | l :: ls, ps, τ, τ', ops, h => by
      rw [List.mapM_cons] at h
      obtain ⟨p, τ₁, _, _, -, h, -⟩ := Emit.bind_eq_ok.mp h
      obtain ⟨ps', τ₂, _, _, hps, h, -⟩ := Emit.bind_eq_ok.mp h
      cases h
      rw [List.length_cons, List.length_cons, lookupCodes_length hps]

/-- The accumulator goes onto the stack when there are variables. -/
theorem emits_spillAcc {nvars : Nat} (h : k.stackVars ≤ s → P.fault (.error .stackOverflow)) :
    Emits P (spillAcc k nvars) s (s + min nvars 1) := by
  unfold spillAcc
  by_cases hpos : nvars > 0
  · rw [if_pos hpos, Nat.min_eq_right hpos]
    exact emits_getAccRef.bind fun _ => emits_pushRef k h
  · rw [if_neg hpos, Nat.eq_zero_of_not_pos hpos]
    exact emits_pure ()

/-- The loop of `ClosureRec` pushes one closure for each code pointer. -/
theorem emits_storeInfixPointers {base : Val} : ∀ {i s : Nat} {ps : List Value},
    (k.stackVars < s + ps.length → P.fault (.error .stackOverflow)) →
    Emits P (storeInfixPointers k base i ps) s (s + ps.length)
  | _, _, [], _ => emits_pure ()
  | i, s, p :: ps, h => by
      rw [List.length_cons] at h ⊢
      have hrest : Emits P (storeInfixPointers k base (i + 1) ps) (s + 1) (s + 1 + ps.length) :=
        emits_storeInfixPointers fun hlt => h (by omega)
      have hstore (v : Val) (offset : Int) : Emits P (emit (.store v base offset)) s s :=
        emits_emit rfl
      rw [show s + (ps.length + 1) = s + 1 + ps.length by omega]
      exact (emits_ins _).bind fun _ => (emits_ins _).bind fun _ => (hstore _ _).bind fun _ =>
        (hstore _ _).bind fun _ => (emits_ins _).bind fun _ =>
          (emits_pushInt k fun hle => h (by omega)).bind fun _ => hrest

/-- **`CLOSUREREC`.**  The size is right after it whatever is permitted, and it never
asks for a new accumulator. -/
theorem translateClosureRec_emits {ls : List Nat} {nvars : Nat}
    (hlookup : ∀ l ∈ ls, P.fault (.error (.couldNotFindClosure l))) (hpanic : P.fault .panic)
    (hover : k.stackVars ≤ s ∨ k.stackVars < s + min nvars 1 - nvars + ls.length →
      P.fault (.error .stackOverflow))
    (hpick : s + min nvars 1 < nvars → P.fault (.error .underflowOnPick))
    (hpop : s + min nvars 1 < nvars → P.fault (.error .underflowOnPop)) :
    Emits P (translateClosureRec k ls nvars) s (s + min nvars 1 - nvars + ls.length) := by
  have hcodes : Emits P (ls.mapM (lookupCode k)) s s :=
    emits_mapM fun l hl => emits_lookupCode k (hlookup l hl)
  refine hcodes.bind_of fun ps _ _ _ hps => ?_
  -- how many closures are pushed depends on how many code pointers were found
  have hlen := lookupCodes_length k hps
  cases ps with
  | nil => exact emits_panics hpanic
  | cons first rest =>
      rw [List.length_cons] at hlen
      have hstore (v base : Val) (s : Nat) : Emits P (emit (.store v base 0)) s s :=
        emits_emit rfl
      rw [← hlen, show s + min nvars 1 - nvars + (rest.length + 1) =
        s + min nvars 1 - nvars + 1 + rest.length by omega]
      exact (emits_spillAcc k fun hle => hover (.inl hle)).bind fun _ =>
        (emits_pickRefs k (fun _ => hpanic) fun hlt => hpick (by omega)).bind fun _ =>
        (emits_pop hpop).bind fun _ => (emits_alloc _ _).bind fun _ =>
        (emits_ins _).bind fun _ => (emits_ins _).bind fun _ => (hstore _ _ _).bind fun _ =>
        (emits_pushInt k fun hle => hover (.inr (by omega))).bind fun _ =>
          emits_storeInfixPointers k fun hlt => hover (.inr (by omega))

/-! ## §4. Data instructions. -/

/-- The operators of arithmetic. -/
theorem emits_translateArith (op : ArithOp) (a b : Val) : Emits P (translateArith op a b) s s := by
  have hcheck : Emits P (checkDivZero b) s s :=
    (emits_ins _).bind fun _ => emits_emit rfl
  cases op with
  | and | or => exact emits_ins _
  | add | sub | xor => exact (emits_ins _).bind fun _ => emits_ins _
  | lsr | asr => exact (emits_ins _).bind fun _ => (emits_ins _).bind fun _ => emits_ins _
  | lsl =>
      exact (emits_ins _).bind fun _ => (emits_ins _).bind fun _ =>
        (emits_ins _).bind fun _ => emits_ins _
  | mul =>
      exact (emits_ins _).bind fun _ => (emits_ins _).bind fun _ =>
        (emits_ins _).bind fun _ => emits_longToValue _
  | div =>
      have hdiv (x y : Val) : Emits P (define (.sdiv · x y)) s s :=
        emits_define fun _ => rfl
      exact hcheck.bind fun _ => (emits_ins _).bind fun _ => (emits_ins _).bind fun _ =>
        (hdiv _ _).bind fun _ => emits_longToValue _
  | mod =>
      have hrem (x y : Val) : Emits P (define (.srem · x y)) s s :=
        emits_define fun _ => rfl
      exact hcheck.bind fun _ => (emits_ins _).bind fun _ => (emits_ins _).bind fun _ =>
        (hrem _ _).bind fun _ => emits_longToValue _

/-- How many words of the stack an instruction pops, of those that only compute,
access a vector or bytes, or allocate a block. -/
def dataPops : BasicBlockInstruction → Option Nat
  | .const _ | .negInt | .boolNot | .isInt | .offsetInt _ | .offsetRef _ => some 0
  | .arithInt _ | .intCmp _ | .getVecTItem | .getBytesChar => some 1
  | .setVecTItem | .setBytesChar => some 2
  | .makeBlock size _ => some (size - 1)
  | _ => none

/-- **Data instructions**, with their operands on the stack: without room for the
stack the index of a variable is out of range, and the address of an atom may not fit
a word. -/
theorem translateInstruction_emits {i : BasicBlockInstruction} {n : Nat} (hacc : P.setsAcc)
    (hi : dataPops i = some n) (hn : n ≤ s) (hroom : k.stackVars < s → P.fault .panic)
    (hatom : ∀ tag, i = .makeBlock 0 tag → 2 ^ 64 ≤ k.atomTableAddr.toNat + 8 * tag →
      P.fault .panic) : Emits P (translateInstruction k i) s (s - n) := by
  have hload (ty : Ty) (base : Val) (offset : Int) (s : Nat) :
      Emits P (define (.load · ty base offset)) s s := emits_define fun _ => rfl
  have hloadComplex (ty : Ty) (a b : Val) (s : Nat) :
      Emits P (define (.loadComplex · ty a b)) s s := emits_define fun _ => rfl
  have hpick {j : Nat} (hj : j < n) : Emits P (pickRef k j) s s :=
    emits_pickRef k (fun hle => by omega) hroom
  have hpickInt {j : Nat} (hj : j < n) : Emits P (pickInt k j) s s :=
    (hpick hj).bind fun _ => emits_ins _
  have hpop : Emits P (pop n) s (s - n) := emits_pop fun hlt => by omega
  -- in each case the emitted steps one after the other
  cases i <;> try cases hi
  case const n =>
    exact (emits_ins _).bind fun _ => (emits_ins _).bind fun _ => emits_setAccRef hacc _
  case negInt =>
    exact (emits_ins _).bind fun _ => emits_getAccInt.bind fun _ =>
      (emits_ins _).bind fun _ => emits_setAccInt hacc _
  case boolNot | offsetInt n =>
    exact emits_getAccInt.bind fun _ => (emits_ins _).bind fun _ => emits_setAccInt hacc _
  case isInt =>
    exact emits_getAccInt.bind fun _ => (emits_ins _).bind fun _ =>
      (emits_longToValue _).bind fun _ => emits_setAccInt hacc _
  case offsetRef n =>
    exact emits_getAccRef.bind fun _ => (hload _ _ _ _).bind fun _ => (emits_ins _).bind fun _ =>
      (emits_emit rfl).bind fun _ => emits_setAccUnit hacc
  case arithInt op =>
    exact emits_getAccInt.bind fun _ => (hpickInt Nat.one_pos).bind fun _ => hpop.bind fun _ =>
      (emits_translateArith op _ _).bind fun _ => emits_setAccInt hacc _
  case intCmp cmp =>
    exact emits_getAccInt.bind fun _ => (hpickInt Nat.one_pos).bind fun _ => hpop.bind fun _ =>
      (emits_ins _).bind fun _ => (emits_ins _).bind fun _ => (emits_ins _).bind fun _ =>
        emits_setAccInt hacc _
  case getVecTItem =>
    exact (hpickInt Nat.one_pos).bind fun _ => hpop.bind fun _ => (emits_ins _).bind fun _ =>
      (emits_ins _).bind fun _ => emits_getAccRef.bind fun _ =>
        (hloadComplex _ _ _ _).bind fun _ => emits_setAccRef hacc _
  case getBytesChar =>
    exact (hpickInt Nat.one_pos).bind fun _ => hpop.bind fun _ => (emits_ins _).bind fun _ =>
      emits_getAccRef.bind fun _ => (hloadComplex _ _ _ _).bind fun _ =>
        (emits_ins _).bind fun _ => (emits_longToValue _).bind fun _ => emits_setAccInt hacc _
  case setVecTItem =>
    exact (hpickInt Nat.two_pos).bind fun _ => (hpick Nat.one_lt_two).bind fun _ =>
      hpop.bind fun _ => (emits_ins _).bind fun _ => (emits_ins _).bind fun _ =>
        emits_getAccInt.bind fun _ => (emits_ins _).bind fun _ =>
          (emits_callPrimitiveUnit _ _).bind fun _ => emits_setAccUnit hacc
  case setBytesChar =>
    exact (hpickInt Nat.two_pos).bind fun _ => (hpickInt Nat.one_lt_two).bind fun _ =>
      hpop.bind fun _ => (emits_ins _).bind fun _ => emits_getAccRef.bind fun _ =>
        (emits_ins _).bind fun _ => (emits_ins _).bind fun _ =>
          (emits_emit rfl).bind fun _ => emits_setAccUnit hacc
  case makeBlock size tag =>
    refine emits_ite (fun hzero => ?_) fun _ => ?_
    · -- an atom
      subst hzero
      refine emits_ite (fun _ => ?_) fun h => emits_panics (hatom tag rfl (Nat.le_of_not_lt h))
      exact (emits_ins _).bind fun _ => emits_setAccInt hacc _
    · exact emits_getAccRef.bind fun _ =>
        (emits_pickRefs k hroom fun hlt => by omega).bind fun _ => (emits_alloc _ tag).bind fun _ =>
          (emits_setAccRef hacc _).bind fun _ => hpop.bind fun _ =>
            emits_traced k (emits_callPrimitiveUnit _ _)

/-! ## §5. Exits that choose a block. -/

/-- The block of a label. -/
theorem emits_blockRef {l : Nat} (h : k.blocks ≤ l → P.fault .panic) :
    Emits P (blockRef k l) s s :=
  emits_ite (fun _ => emits_pure l) fun hlt => emits_panics (h (Nat.le_of_not_lt hlt))

/-- The blocks of a table. -/
theorem emits_blockRefs {ls : List Nat} (h : ∀ l ∈ ls, k.blocks ≤ l → P.fault .panic) :
    Emits P (ls.mapM (blockRef k)) s s :=
  emits_mapM fun l hl => emits_blockRef k (h l hl)

/-- What goes into a side block is not emitted here. -/
theorem emits_inSideBlock {m : Emit Val} (hm : Emits P m s s) (entries : List Nat) :
    Emits P (inSideBlock m entries) s s := by
  intro τ hτ
  obtain ⟨hfault, hok⟩ := hm τ hτ
  unfold inSideBlock
  cases hres : m τ with
  | error f =>
      refine ⟨fun f' hf' => ?_, fun a τ' ops h => (nomatch h)⟩
      cases hf'
      exact hfault f hres
  | ok p =>
      obtain ⟨key, τ₁, ops₁⟩ := p
      refine ⟨fun f' hf' => (nomatch hf'), fun a τ' ops h => ?_⟩
      cases h
      exact ⟨(hok key τ₁ ops₁ hres).1, fun op hop => absurd hop List.not_mem_nil⟩

/-- `emit_int_switch`. -/
theorem emits_emitIntSwitch {ints : List Nat} (h : ∀ l ∈ ints, k.blocks ≤ l → P.fault .panic) :
    Emits P (emitIntSwitch k ints) s s :=
  (emits_blockRefs k h).bind fun entries => emits_inSideBlock
    (emits_getAccInt.bind fun _ => (emits_ins _).bind fun _ => emits_ins _) entries

/-- `emit_tag_switch`. -/
theorem emits_emitTagSwitch {tags : List Nat} (h : ∀ l ∈ tags, k.blocks ≤ l → P.fault .panic) :
    Emits P (emitTagSwitch k tags) s s :=
  (emits_blockRefs k h).bind fun entries => emits_inSideBlock
    (emits_getAccRef.bind fun _ => emits_define fun _ => rfl) entries

/-- **A branch on a comparison.** -/
theorem branchCmp_emits {l l' : Nat} (cmp : Comp) (n : Int) (hl : k.blocks ≤ l → P.fault .panic)
    (hl' : k.blocks ≤ l' → P.fault .panic) :
    Emits P (translateExit k (.branchCmp cmp n l l')) s s :=
  (emits_ins _).bind fun _ => emits_getAccInt.bind fun _ => (emits_blockRef k hl).bind fun _ =>
    (emits_blockRef k hl').bind fun _ => emits_pure _

/-- **A switch**, on integers and tags, on integers or on tags only. -/
theorem switch_emits {ints tags : List Nat}
    (hnone : ints = [] → tags = [] → P.fault (.error .emptySwitch))
    (h : ∀ l ∈ ints ++ tags, k.blocks ≤ l → P.fault .panic) :
    Emits P (translateExit k (.switch ints tags)) s s := by
  have hints : Emits P (emitIntSwitch k ints) s s :=
    emits_emitIntSwitch k fun l hl => h l (List.mem_append_left _ hl)
  have htags : Emits P (emitTagSwitch k tags) s s :=
    emits_emitTagSwitch k fun l hl => h l (List.mem_append_right _ hl)
  refine emits_ite (fun _ => ?_) fun _ => emits_ite (fun _ => ?_) fun hempty => ?_
  · exact emits_getAccInt.bind fun _ => (emits_ins _).bind fun _ => hints.bind fun _ =>
      htags.bind fun _ => emits_pure _
  · exact hints.bind fun _ => emits_pure _
  · have hints' : ints = [] := of_not_not hempty
    exact (emits_bailIf (hnone hints')).bind fun _ => htags.bind fun _ => emits_pure _

end Rules

end OcamlJit.Cranelift

/-
  OcamlJit.Cranelift.Logic
  ────────────────────────
  **RULES FOR A TRANSLATION AGAINST A MEANING.**

  `EmitSim x m τ σ Q`: if the translator method `m` succeeds from `τ`, then the
  operations it emits, run from `σ`, simulate `x`, and `Q` holds at the end.  A
  method that only computes needs nothing of `x` (`emitSim_calc`); an operation
  that makes a request needs the same one at the front of `x`
  (`emitSim_define_request`, `emitSim_emit_request`).
-/
import OcamlJit.Cranelift.Words

namespace OcamlJit.Cranelift

open OcamlJit.Lib OcamlJit.Instructions OcamlJit.Interp OcamlJit.BasicBlocks

section Logic

variable {O : Oracle Request Value} {rt : Layout} {α β γ δ : Type}

/-! ## §1. The judgement. -/

/-- Operations run one after the other. -/
theorem runOps_append (ops₁ ops₂ : List Op) (σ : IrState) :
    (runOps rt (ops₁ ++ ops₂) σ : Act O IrState) = runOps rt ops₁ σ >>= runOps rt ops₂ := by
  induction ops₁ generalizing σ with
  | nil => rfl
  | cons op ops ih =>
      show (runOp rt σ op >>= fun σ' => runOps rt (ops ++ ops₂) σ') = _
      simp only [ih, ← Act.bind_assoc]
      rfl

/-- What `m` emits from `τ` simulates `x` from `σ`. -/
def EmitSim (rt : Layout) (x : Act O β) (m : Emit α) (τ : Translator) (σ : IrState)
    (Q : β → α → Translator → IrState → Prop) : Prop :=
  ∀ a τ' ops, m τ = .ok (a, τ', ops) → Sim (fun b σ' => Q b a τ' σ') x (runOps rt ops σ)

variable {Q : β → α → Translator → IrState → Prop} {R : δ → γ → Translator → IrState → Prop}
  {τ τ₁ : Translator} {σ σ₁ : IrState} {x : Act O β} {m : Emit α}

/-- Nothing is emitted, and the interpreter does nothing. -/
theorem EmitSim.pure {b : β} {a : α} (h : Q b a τ σ) :
    EmitSim rt (pure b : Act O β) (pure a) τ σ Q := by
  intro a' τ' ops hm
  cases hm
  exact Sim.pure h

/-- **The rule of sequence**: the second part starts where the first one has come to. -/
theorem EmitSim.bind {y : β → Act O δ} {k : α → Emit γ}
    (h : EmitSim rt x m τ σ fun b a τ' σ' => EmitSim rt (y b) (k a) τ' σ' R) :
    EmitSim rt (x >>= y) (m >>= k) τ σ R := by
  intro c τ' ops hk
  obtain ⟨a, τ₁, ops₁, ops₂, hm, hrest, rfl⟩ := Emit.bind_eq_ok.mp hk
  rw [runOps_append]
  exact (h a τ₁ ops₁ hm).bind fun b σ' hb => hb c τ' ops₂ hrest

/-- A weaker description of the end. -/
theorem EmitSim.mono {Q' : β → α → Translator → IrState → Prop} (h : EmitSim rt x m τ σ Q)
    (hQ : ∀ b a τ' σ', Q b a τ' σ' → Q' b a τ' σ') : EmitSim rt x m τ σ Q' :=
  fun a τ' ops hm => (h a τ' ops hm).mono fun b σ' hb => hQ b a τ' σ' hb

/-- A method in front that `x` knows nothing of. -/
theorem EmitSim.seq {z : Act O δ} {k : α → Emit γ}
    (h : EmitSim rt (Pure.pure () : Act O Unit) m τ σ
      fun _ a τ' σ' => EmitSim rt z (k a) τ' σ' R) : EmitSim rt z (m >>= k) τ σ R := by
  have := EmitSim.bind (y := fun _ => z) h
  rwa [Act.pure_bind] at this

/-- The last method of a sequence. -/
theorem EmitSim.last (h : EmitSim rt x (m >>= Pure.pure) τ σ Q) : EmitSim rt x m τ σ Q := by
  rwa [Emit.bind_pure] at h

/-- Where the interpreter is stuck there is nothing to simulate. -/
theorem emitSim_stuck {y : δ → Act O β} :
    EmitSim rt ((Act.stuck : Act O δ) >>= y) m τ σ Q :=
  fun _ _ _ _ => Sim.stuck

/-- The interpreter goes on with what it demands. -/
theorem emitSim_ofOption {o : Option δ} {y : δ → Act O β}
    (h : ∀ a, o = some a → EmitSim rt (y a) m τ σ Q) :
    EmitSim rt (Act.ofOption o >>= y) m τ σ Q := by
  cases o with
  | none => exact emitSim_stuck
  | some a => exact h a rfl

/-- The interpreter goes on when its demand holds. -/
theorem emitSim_require {b : Bool} {y : Unit → Act O β}
    (h : b = true → EmitSim rt (y ()) m τ σ Q) : EmitSim rt (Act.require b >>= y) m τ σ Q := by
  cases b with
  | false => exact emitSim_stuck
  | true => exact h rfl

/-! ## §2. Methods that succeed under a condition. -/

variable {k : γ → Emit α}

/-- A translation that gives up promises nothing. -/
theorem emitSim_bail {e : TranslateError} : EmitSim rt x (bail e : Emit α) τ σ Q :=
  fun _ _ _ hm => (nomatch hm)

/-- Nor does one that panics. -/
theorem emitSim_panics : EmitSim rt x (panics : Emit α) τ σ Q := fun _ _ _ hm => (nomatch hm)

/-- A branch of the translator. -/
theorem emitSim_ite {c : Prop} [Decidable c] {m n : Emit α}
    (hm : c → EmitSim rt x m τ σ Q) (hn : ¬ c → EmitSim rt x n τ σ Q) :
    EmitSim rt x (if c then m else n) τ σ Q := by
  by_cases h : c
  · rw [if_pos h]
    exact hm h
  · rw [if_neg h]
    exact hn h

/-- After a check the translator knows that it has passed. -/
theorem emitSim_bailIf {c : Prop} [Decidable c] {e : TranslateError} {k : Unit → Emit α}
    (h : ¬ c → EmitSim rt x (k ()) τ σ Q) : EmitSim rt x (bailIf c e >>= k) τ σ Q :=
  EmitSim.seq (emitSim_ite (fun _ => emitSim_bail) fun hc => EmitSim.pure (h hc))

/-- After an assertion the translator knows that it holds. -/
theorem emitSim_panicIf {c : Prop} [Decidable c] {k : Unit → Emit α}
    (h : ¬ c → EmitSim rt x (k ()) τ σ Q) : EmitSim rt x (panicIf c >>= k) τ σ Q :=
  EmitSim.seq (emitSim_ite (fun _ => emitSim_panics) fun hc => EmitSim.pure (h hc))

/-- The translator looks at its own state. -/
theorem emitSim_current {k : Translator → Emit α} (h : EmitSim rt x (k τ) τ σ Q) :
    EmitSim rt x (current >>= k) τ σ Q := by
  refine EmitSim.seq fun a τ' ops hm => ?_
  cases hm
  exact Sim.pure h

/-- The translator changes its own state and emits nothing. -/
theorem emitSim_update {f : Translator → Translator} {k : Unit → Emit α}
    (h : EmitSim rt x (k ()) (f τ) σ Q) : EmitSim rt x (update f >>= k) τ σ Q := by
  refine EmitSim.seq fun a τ' ops hm => ?_
  cases hm
  exact Sim.pure h

/-- The variable of a stack slot that exists. -/
theorem emitSim_stackVar {env : TranslatorEnv} {i : Nat} {k : Var → Emit α}
    (h : EmitSim rt x (k (.stack i)) τ σ Q) : EmitSim rt x (stackVar env i >>= k) τ σ Q :=
  EmitSim.seq (emitSim_ite (fun _ => EmitSim.pure h) fun _ => emitSim_panics)

/-- The offset of a field, which fits its type. -/
theorem emitSim_fieldOffset {n : Nat} {k : Int → Emit α}
    (h : EmitSim rt x (k (asI32 n * 8)) τ σ Q) :
    EmitSim rt x (fieldOffset n >>= k) τ σ Q :=
  EmitSim.seq (emitSim_ite (fun _ => EmitSim.pure h) fun _ => emitSim_panics)

/-- The code pointer of a closure that has one. -/
theorem emitSim_lookupCode {env : TranslatorEnv} {l : Nat} {k : Value → Emit α}
    (h : ∀ p, env.lookupClosureCode l = some p → EmitSim rt x (k p) τ σ Q) :
    EmitSim rt x (lookupCode env l >>= k) τ σ Q := by
  refine EmitSim.seq ?_
  unfold lookupCode
  cases hl : env.lookupClosureCode l with
  | none => exact emitSim_bail
  | some p => exact EmitSim.pure (h p hl)

/-! ## §3. Operations. -/

/-- The translator at another stack size. -/
def Translator.resize (τ : Translator) (size : Nat) : Translator := { τ with stackSize := size }

@[simp] theorem stackSize_resize (n : Nat) : (τ.resize n).stackSize = n := rfl

@[simp] theorem lastValue_resize (n : Nat) : (τ.resize n).lastValue = τ.lastValue := rfl

/-- The later state has more values and is otherwise the same. -/
structure Later (τ : Translator) (σ : IrState) (τ' : Translator) (σ' : IrState) : Prop where
  stackSize : τ'.stackSize = τ.stackSize
  lastValue : τ.lastValue ≤ τ'.lastValue
  vals : ∀ v : Nat, v ≤ τ.lastValue → σ'.vals v = σ.vals v
  vars : σ'.vars = σ.vars
  ocamlStack : σ'.ocamlStack = σ.ocamlStack

namespace Later

variable {τ₂ : Translator} {σ₂ : IrState}

/-- No time has passed. -/
theorem refl : Later τ σ τ σ := ⟨rfl, Nat.le_refl _, fun _ _ => rfl, rfl, rfl⟩

/-- One stretch after another. -/
theorem trans (h : Later τ σ τ₁ σ₁) (h' : Later τ₁ σ₁ τ₂ σ₂) : Later τ σ τ₂ σ₂ :=
  ⟨h'.stackSize.trans h.stackSize, h.lastValue.trans h'.lastValue,
    fun v hv => (h'.vals v (hv.trans h.lastValue)).trans (h.vals v hv), h'.vars.trans h.vars,
    h'.ocamlStack.trans h.ocamlStack⟩

/-- One more value. -/
theorem next (τ : Translator) (σ : IrState) (w : Value) :
    Later τ σ { τ with lastValue := τ.lastValue + 1 } (σ.setVal (τ.lastValue + 1) w) := by
  refine ⟨rfl, Nat.le_succ _, fun v hv => ?_, rfl, rfl⟩
  rw [IrState.vals_setVal, if_neg (Nat.ne_of_lt (Nat.lt_succ_of_le hv))]

end Later

/-- `v` is one of the values there are, and it is `w`. -/
structure Holds (v : Val) (w : Value) (τ : Translator) (σ : IrState) : Prop where
  last : v ≤ τ.lastValue
  eq : σ.vals v = w

/-- **What a value holds it holds for good**: a value is defined once. -/
theorem Holds.later {v : Val} {w : Value} (hv : Holds v w τ σ) (h : Later τ σ τ₁ σ₁) :
    Holds v w τ₁ σ₁ :=
  ⟨hv.last.trans h.lastValue, (h.vals v hv.last).trans hv.eq⟩

/-- A change of the tracked size leaves the values alone. -/
theorem Holds.resize {v : Val} {w : Value} (hv : Holds v w τ σ) (n : Nat) :
    Holds v w (τ.resize n) σ := ⟨hv.last, hv.eq⟩

/-- So does a definition of a variable. -/
theorem Holds.setVar {v : Val} {w : Value} (hv : Holds v w τ σ) (n : Nat) (x : Var) (u : Value) :
    Holds v w (τ.resize n) (σ.setVar x u) := ⟨hv.last, hv.eq⟩

/-- The value that was defined last holds what it was defined as. -/
theorem Holds.next (τ : Translator) (σ : IrState) (w : Value) :
    Holds (τ.lastValue + 1) w { τ with lastValue := τ.lastValue + 1 }
      (σ.setVal (τ.lastValue + 1) w) :=
  ⟨Nat.le_refl _, if_pos rfl⟩

/-- Both sides take the same answer. -/
theorem sim_answer {z : Act O Value} {σ₂ : Value → IrState} {P : Value → IrState → Prop}
    (h : ∀ w, P w (σ₂ w)) : Sim P z (z >>= fun w => Pure.pure (σ₂ w)) := by
  have hsim : Sim P (z >>= Pure.pure) (z >>= fun w => Pure.pure (σ₂ w)) := by
    refine (Sim.same z).bind fun w w' hw => ?_
    subst hw
    exact Sim.pure (h w)
  rwa [Act.bind_pure] at hsim

variable {y : Value → Act O β} {z : Act O Value} {w : Value}

/-- An operation that only computes a value. -/
theorem emitSim_define {op : Val → Op} {k : Val → Emit α}
    (hrun : ∀ v, (runOp rt σ (op v) : Act O IrState) = Pure.pure (σ.setVal v w))
    (h : ∀ v τ' σ', Later τ σ τ' σ' → Holds v w τ' σ' → EmitSim rt x (k v) τ' σ' Q) :
    EmitSim rt x (define op >>= k) τ σ Q := by
  refine EmitSim.seq fun v τ' ops hm => ?_
  cases hm
  show Sim _ _ (runOp rt σ (op (τ.lastValue + 1)) >>= Pure.pure)
  rw [hrun]
  exact Sim.pure (h _ _ _ (Later.next ..) (Holds.next ..))

/-- An operation that makes a request and keeps something of the answer. -/
theorem emitSim_define_map {op : Val → Op} {k : Val → Emit α} (g : Value → Value)
    (hrun : ∀ v, (runOp rt σ (op v) : Act O IrState)
      = z >>= fun w => Pure.pure (σ.setVal v (g w)))
    (h : ∀ w v τ' σ', Later τ σ τ' σ' → Holds v (g w) τ' σ' → EmitSim rt (y w) (k v) τ' σ' Q) :
    EmitSim rt (z >>= y) (define op >>= k) τ σ Q := by
  refine EmitSim.bind fun v τ' ops hm => ?_
  cases hm
  show Sim _ z (runOp rt σ (op (τ.lastValue + 1)) >>= Pure.pure)
  rw [Act.bind_pure, hrun]
  exact sim_answer fun w => h w _ _ _ (Later.next ..) (Holds.next ..)

/-- An operation that makes a request and keeps the answer. -/
theorem emitSim_define_request {op : Val → Op} {k : Val → Emit α}
    (hrun : ∀ v, (runOp rt σ (op v) : Act O IrState) = z >>= fun w => Pure.pure (σ.setVal v w))
    (h : ∀ w v τ' σ', Later τ σ τ' σ' → Holds v w τ' σ' → EmitSim rt (y w) (k v) τ' σ' Q) :
    EmitSim rt (z >>= y) (define op >>= k) τ σ Q := emitSim_define_map id hrun h

/-- An operation that makes a request and drops the answer. -/
theorem emitSim_emit_request {op : Op} {k : Unit → Emit α}
    (hrun : (runOp rt σ op : Act O IrState) = z >>= fun _ => Pure.pure σ)
    (h : ∀ w, EmitSim rt (y w) (k ()) τ σ Q) :
    EmitSim rt (z >>= y) (emit op >>= k) τ σ Q := by
  refine EmitSim.bind fun v τ' ops hm => ?_
  cases hm
  show Sim _ z (runOp rt σ op >>= Pure.pure)
  rw [Act.bind_pure, hrun]
  exact sim_answer h

/-- An operation that only changes the state of the IR. -/
theorem emitSim_emit {op : Op} {k : Unit → Emit α}
    (hrun : (runOp rt σ op : Act O IrState) = Pure.pure σ₁)
    (h : EmitSim rt x (k ()) τ σ₁ Q) : EmitSim rt x (emit op >>= k) τ σ Q := by
  refine EmitSim.seq fun v τ' ops hm => ?_
  cases hm
  show Sim _ _ (runOp rt σ op >>= Pure.pure)
  rw [hrun]
  exact Sim.pure h

/-- An operation that does not come back. -/
theorem emitSim_emit_stuck {op : Op} {k : Unit → Emit α}
    (hrun : (runOp rt σ op : Act O IrState) = z >>= fun _ => Act.stuck) :
    EmitSim rt (z >>= fun _ => Act.stuck) (emit op >>= k) τ σ Q := by
  intro a τ' ops hm
  obtain ⟨_, _, _, _, hop, -, rfl⟩ := Emit.bind_eq_ok.mp hm
  cases hop
  rw [runOps_append]
  show Sim _ _ (runOp rt σ op >>= Pure.pure >>= _)
  rw [hrun, Act.bind_pure, Act.bind_assoc]
  exact (Sim.same z).bind fun _ _ _ => Sim.stuck

/-! ## §4. Helpers of the translator. -/

section Helpers

variable {env : TranslatorEnv} {k : Val → Emit α} {j : Unit → Emit α} {v : Val} {n : Nat}

/-- An instruction defines a value that holds what it computes. -/
theorem emitSim_ins {e : Expr} (hw : e.eval rt σ.vals = w)
    (h : ∀ v τ' σ', Later τ σ τ' σ' → Holds v w τ' σ' → EmitSim rt x (k v) τ' σ' Q) :
    EmitSim rt x (ins e >>= k) τ σ Q :=
  emitSim_define (fun v => congrArg (fun w => Pure.pure (σ.setVal v w)) hw) h

/-- Reading the accumulator as a reference. -/
theorem emitSim_getAccRef
    (h : ∀ v τ' σ', Later τ σ τ' σ' → Holds v (σ.vars .acc) τ' σ' → EmitSim rt x (k v) τ' σ' Q) :
    EmitSim rt x (getAccRef >>= k) τ σ Q := emitSim_define (fun _ => rfl) h

/-- A reference as an integer is the same word. -/
theorem emitSim_refToInt (hv : Holds v w τ σ)
    (h : ∀ v τ' σ', Later τ σ τ' σ' → Holds v w τ' σ' → EmitSim rt x (k v) τ' σ' Q) :
    EmitSim rt x (refToInt v >>= k) τ σ Q := emitSim_ins hv.eq h

/-- Reading the accumulator as an integer. -/
theorem emitSim_getAccInt
    (h : ∀ v τ' σ', Later τ σ τ' σ' → Holds v (σ.vars .acc) τ' σ' → EmitSim rt x (k v) τ' σ' Q) :
    EmitSim rt x (getAccInt >>= k) τ σ Q := by
  unfold getAccInt
  rw [Emit.bind_assoc]
  exact emitSim_getAccRef fun _ _ _ h₁ hv => emitSim_refToInt hv fun _ _ _ h₂ =>
    h _ _ _ (h₁.trans h₂)

/-- Writing the accumulator. -/
theorem emitSim_setAccRef (hv : Holds v w τ σ) (h : EmitSim rt x (j ()) τ (σ.setVar .acc w) Q) :
    EmitSim rt x (setAccRef v >>= j) τ σ Q :=
  emitSim_emit (congrArg (fun w => Pure.pure (σ.setVar .acc w)) hv.eq) h

/-- Reading a stack slot, which the translator has checked to be there. -/
theorem emitSim_pickRef
    (h : n < τ.stackSize → ∀ v τ' σ', Later τ σ τ' σ' →
      Holds v (σ.vars (.stack (τ.stackSize - n - 1))) τ' σ' → EmitSim rt x (k v) τ' σ' Q) :
    EmitSim rt x (pickRef env n >>= k) τ σ Q := by
  unfold pickRef
  rw [Emit.bind_assoc]
  refine emitSim_current ?_
  rw [Emit.bind_assoc]
  refine emitSim_bailIf fun hlt => ?_
  rw [Emit.bind_assoc]
  exact emitSim_stackVar (emitSim_define (fun _ => rfl) (h (Nat.not_le.mp hlt)))

/-- Reading a stack slot as an integer. -/
theorem emitSim_pickInt
    (h : n < τ.stackSize → ∀ v τ' σ', Later τ σ τ' σ' →
      Holds v (σ.vars (.stack (τ.stackSize - n - 1))) τ' σ' → EmitSim rt x (k v) τ' σ' Q) :
    EmitSim rt x (pickInt env n >>= k) τ σ Q := by
  unfold pickInt
  rw [Emit.bind_assoc]
  exact emitSim_pickRef fun hlt _ _ _ h₁ hv => emitSim_refToInt hv fun _ _ _ h₂ =>
    h hlt _ _ _ (h₁.trans h₂)

/-- Popping only changes the tracked size. -/
theorem emitSim_pop
    (h : n ≤ τ.stackSize → EmitSim rt x (j ()) (τ.resize (τ.stackSize - n)) σ Q) :
    EmitSim rt x (pop n >>= j) τ σ Q := by
  unfold pop
  rw [Emit.bind_assoc]
  refine emitSim_current ?_
  rw [Emit.bind_assoc]
  exact emitSim_bailIf fun hle => emitSim_update (h (Nat.not_lt.mp hle))

/-- Pushing defines the variable above the tracked size. -/
theorem emitSim_pushRef (hv : Holds v w τ σ)
    (h : EmitSim rt x (j ()) (τ.resize (τ.stackSize + 1))
      (σ.setVar (.stack τ.stackSize) w) Q) :
    EmitSim rt x (pushRef env v >>= j) τ σ Q := by
  unfold pushRef
  rw [Emit.bind_assoc]
  refine emitSim_current ?_
  rw [Emit.bind_assoc]
  refine emitSim_bailIf fun _ => ?_
  rw [Emit.bind_assoc]
  refine emitSim_stackVar ?_
  rw [Emit.bind_assoc]
  exact emitSim_emit (congrArg (fun w => Pure.pure (σ.setVar _ w)) hv.eq) (emitSim_update h)

/-- Pushing an integer casts it first. -/
theorem emitSim_pushInt (hv : Holds v w τ σ)
    (h : ∀ τ' σ', Later τ σ τ' σ' → EmitSim rt x (j ()) (τ'.resize (τ'.stackSize + 1))
      (σ'.setVar (.stack τ'.stackSize) w) Q) :
    EmitSim rt x (pushInt env v >>= j) τ σ Q := by
  unfold pushInt
  rw [Emit.bind_assoc]
  exact emitSim_ins hv.eq fun _ τ' σ' hl hv' => emitSim_pushRef hv' (h τ' σ' hl)

/-- Writing a stack slot, which the translator has checked to be there. -/
theorem emitSim_assignRef (hv : Holds v w τ σ)
    (h : n < τ.stackSize → EmitSim rt x (j ()) τ
      (σ.setVar (.stack (τ.stackSize - n - 1)) w) Q) :
    EmitSim rt x (assignRef env n v >>= j) τ σ Q := by
  unfold assignRef
  rw [Emit.bind_assoc]
  refine emitSim_current ?_
  rw [Emit.bind_assoc]
  refine emitSim_bailIf fun hlt => ?_
  rw [Emit.bind_assoc]
  exact emitSim_stackVar (emitSim_emit (congrArg (fun w => Pure.pure (σ.setVar _ w)) hv.eq)
    (h (Nat.not_le.mp hlt)))

/-- Untagging is an arithmetic shift. -/
theorem emitSim_valueToLong (hv : Holds v w τ σ)
    (h : ∀ v τ' σ', Later τ σ τ' σ' → Holds v (longVal w) τ' σ' → EmitSim rt x (k v) τ' σ' Q) :
    EmitSim rt x (valueToLong v >>= k) τ σ Q := emitSim_ins (congrArg longVal hv.eq) h

/-- Tagging is a shift and an addition. -/
theorem emitSim_longToValue (hv : Holds v w τ σ)
    (h : ∀ v τ' σ', Later τ σ τ' σ' → Holds v (valLong w) τ' σ' → EmitSim rt x (k v) τ' σ' Q) :
    EmitSim rt x (longToValue v >>= k) τ σ Q := by
  unfold longToValue
  rw [Emit.bind_assoc]
  refine emitSim_ins (w := w + w) (congrArg (fun w => w + w) hv.eq) fun _ _ _ h₁ hd => ?_
  refine emitSim_ins ?_ fun _ _ _ h₂ => h _ _ _ (h₁.trans h₂)
  rw [← add_self_add_one, ← hd.eq]
  rfl

/-- An 8-byte load. -/
theorem emitSim_load {a : Val} {base addr : Value} {offset : Int} (ha : Holds a base τ σ)
    (haddr : base + BitVec.ofInt 64 offset = addr)
    (h : ∀ w v τ' σ', Later τ σ τ' σ' → Holds v w τ' σ' → EmitSim rt (y w) (k v) τ' σ' Q) :
    EmitSim rt (Act.perform (.load addr) >>= y)
      (define (fun v => .load v .i64 a offset) >>= k) τ σ Q := by
  refine emitSim_define_request (fun v => ?_) h
  rw [← haddr, ← ha.eq]
  rfl

/-- An 8-byte store. -/
theorem emitSim_store {a : Val} {base addr : Value} {offset : Int} {y : Value → Act O β}
    (hv : Holds v w τ σ) (ha : Holds a base τ σ) (haddr : base + BitVec.ofInt 64 offset = addr)
    (h : ∀ u, EmitSim rt (y u) (j ()) τ σ Q) :
    EmitSim rt (Act.perform (.store addr w) >>= y) (emit (.store v a offset) >>= j) τ σ Q := by
  refine emitSim_emit_request ?_ h
  rw [← haddr, ← ha.eq, ← hv.eq]
  rfl

/-- A call that answers: both sides ask the same and take the same answer. -/
theorem emitSim_callPrimitiveValue {f : PrimitiveFunction} {args : List Val} {e : Request}
    (hf : (callPrimitive f (args.map σ.vals) : Act O Value) = Act.perform e)
    (h : ∀ w v τ' σ', Later τ σ τ' σ' → Holds v w τ' σ' → EmitSim rt (y w) (k v) τ' σ' Q) :
    EmitSim rt (Act.perform e >>= y) (callPrimitiveValue f args >>= k) τ σ Q :=
  emitSim_define_request (fun v => congrArg (· >>= fun w => Pure.pure (σ.setVal v w)) hf) h

/-- A call whose answer is dropped. -/
theorem emitSim_callPrimitiveUnit {f : PrimitiveFunction} {args : List Val} {e : Request}
    (hf : (callPrimitive f (args.map σ.vals) : Act O Value) = Act.perform e)
    (h : ∀ w, EmitSim rt (y w) (j ()) τ σ Q) :
    EmitSim rt (Act.perform e >>= y) (callPrimitiveUnit f args >>= j) τ σ Q :=
  emitSim_emit_request (congrArg (· >>= fun _ => Pure.pure σ) hf) h

/-- A trace does nothing. -/
theorem emitSim_trace {f : PrimitiveFunction} {args : List Val}
    (hf : (callPrimitive f (args.map σ.vals) : Act O Value) = Pure.pure 0)
    (h : EmitSim rt x (j ()) τ σ Q) :
    EmitSim rt x (traced env (callPrimitiveUnit f args) >>= j) τ σ Q := by
  unfold traced
  split
  · exact emitSim_emit (congrArg (· >>= fun _ => Pure.pure σ) hf) h
  · rwa [Emit.pure_bind]

end Helpers

/-! ## §5. Loops over values. -/

/-- The values `vs` are `ws`. -/
structure HoldsAll (vs : List Val) (ws : List Value) (τ : Translator) (σ : IrState) : Prop where
  last : ∀ v ∈ vs, v ≤ τ.lastValue
  eq : vs.map σ.vals = ws

section HoldsAll

variable {vs : List Val} {ws : List Value}

/-- What a row of values holds it holds for good. -/
theorem HoldsAll.later (hvs : HoldsAll vs ws τ σ) (h : Later τ σ τ₁ σ₁) :
    HoldsAll vs ws τ₁ σ₁ :=
  ⟨fun v hv => (hvs.last v hv).trans h.lastValue,
    (List.map_congr_left fun v hv => h.vals v (hvs.last v hv)).trans hvs.eq⟩

/-- A change of the tracked size leaves them alone. -/
theorem HoldsAll.resize (hvs : HoldsAll vs ws τ σ) (n : Nat) : HoldsAll vs ws (τ.resize n) σ :=
  ⟨hvs.last, hvs.eq⟩

theorem HoldsAll.nil : HoldsAll [] [] τ σ := ⟨fun _ hv => (nomatch hv), rfl⟩

/-- One more value in front. -/
theorem HoldsAll.cons {v : Val} {w : Value} (hv : Holds v w τ σ) (hvs : HoldsAll vs ws τ σ) :
    HoldsAll (v :: vs) (w :: ws) τ σ := by
  refine ⟨fun u hu => ?_, ?_⟩
  · rcases List.mem_cons.mp hu with rfl | hu
    · exact hv.last
    · exact hvs.last u hu
  · rw [List.map_cons, hv.eq, hvs.eq]

/-- As many values as words. -/
theorem HoldsAll.length (hvs : HoldsAll vs ws τ σ) : vs.length = ws.length := by
  rw [← hvs.eq, List.length_map]

end HoldsAll

section Loops

variable {env : TranslatorEnv}

/-- What the slots from word `i` of the stack on hold. -/
def slotValues (σ : IrState) (size i count : Nat) : List Value :=
  (List.range' i count).map fun n => σ.vars (.stack (size - n - 1))

/-- Reading a row of slots, from the top down. -/
theorem emitSim_pickRefs : ∀ {count i : Nat} {τ : Translator} {σ : IrState}
    {k : List Val → Emit α},
    (∀ vs τ' σ', Later τ σ τ' σ' → HoldsAll vs (slotValues σ τ.stackSize i count) τ' σ' →
      EmitSim rt x (k vs) τ' σ' Q) →
    EmitSim rt x (pickRefs env i count >>= k) τ σ Q
  | 0, i, τ, σ, k, h => by
      rw [pickRefs, Emit.pure_bind]
      exact h [] τ σ Later.refl HoldsAll.nil
  | count + 1, i, τ, σ, k, h => by
      rw [pickRefs, Emit.bind_assoc]
      refine emitSim_pickRef fun _ v τ₁ σ₁ h₁ hv => ?_
      rw [Emit.bind_assoc]
      refine emitSim_pickRefs fun vs τ' σ' h₂ hvs => ?_
      rw [Emit.pure_bind]
      have hrest : slotValues σ₁ τ₁.stackSize (i + 1) count
          = slotValues σ τ.stackSize (i + 1) count := by
        unfold slotValues
        rw [h₁.vars, h₁.stackSize]
      rw [hrest] at hvs
      exact h (v :: vs) τ' σ' (h₁.trans h₂) (HoldsAll.cons (hv.later h₂) hvs)

/-- Fields without contents are not stored to. -/
theorem storeContents_skip (block : Val) (contents : List (Option Val)) :
    ∀ n i : Nat, storeContents block i (List.replicate n none ++ contents)
      = storeContents block (i + n) contents
  | 0, _ => rfl
  | n + 1, i => by
      rw [List.replicate_succ, List.cons_append, storeContents, storeContents_skip block contents n,
        Nat.add_assoc, Nat.add_comm 1]

/-- Nor are they initialised. -/
theorem initializeContents_skip (block : Val) (contents : List (Option Val)) :
    ∀ n i : Nat, initializeContents block i (List.replicate n none ++ contents)
      = initializeContents block (i + n) contents
  | 0, _ => rfl
  | n + 1, i => by
      rw [List.replicate_succ, List.cons_append, initializeContents,
        initializeContents_skip block contents n, Nat.add_assoc, Nat.add_comm 1]

/-- Plain stores to the fields of a small block, one after the other. -/
theorem emitSim_storeContents {block : Val} : ∀ (vs : List Val) (i : Nat),
    EmitSim (O := O) rt (storeFields .store (σ.vals block) i (vs.map σ.vals))
      (storeContents block i (vs.map some)) τ σ fun _ _ τ' σ' => Later τ σ τ' σ'
  | [], _ => EmitSim.pure Later.refl
  | v :: vs, i => by
      refine emitSim_emit_request ?_ fun _ => emitSim_storeContents vs (i + 1)
      show (Act.perform _ >>= _) = _
      rw [fieldN_eq]

/-- The fields of a large block are initialised through the runtime. -/
theorem emitSim_initializeContents {block : Val} {b : Value} :
    ∀ {vs : List Val} {ws : List Value} (i : Nat) {τ : Translator} {σ : IrState},
    Holds block b τ σ → HoldsAll vs ws τ σ →
    EmitSim (O := O) rt (storeFields .camlInitialize b i ws)
      (initializeContents block i (vs.map some)) τ σ fun _ _ τ' σ' => Later τ σ τ' σ'
  | [], _, i, τ, σ, hb, hvs => by
      obtain ⟨-, rfl⟩ := hvs
      exact EmitSim.pure Later.refl
  | v :: vs, _, i, τ, σ, hb, hvs => by
      obtain ⟨hlast, rfl⟩ := hvs
      have hv : Holds v (σ.vals v) τ σ := ⟨hlast v (List.mem_cons_self ..), rfl⟩
      have hvs : HoldsAll vs (vs.map σ.vals) τ σ :=
        ⟨fun u hu => hlast u (List.mem_cons_of_mem _ hu), rfl⟩
      refine emitSim_ins (w := fieldN b i) (by rw [← fieldN_eq, ← hb.eq]; rfl)
        fun addr τ₁ σ₁ h₁ haddr => ?_
      refine emitSim_callPrimitiveUnit ?_ fun _ =>
        (emitSim_initializeContents (i + 1) (hb.later h₁) (hvs.later h₁)).mono
          fun _ _ _ _ h₂ => h₁.trans h₂
      rw [← haddr.eq, ← (hv.later h₁).eq]
      rfl

/-- `alloc` is a block and its initialising stores. -/
theorem emitSim_alloc {contents : List (Option Val)} {tag start : Nat} {vs : List Val}
    {ws : List Value} (hcontents : contents = List.replicate start none ++ vs.map some)
    (hsize : contents.length < 2 ^ 64) (htag : tag < 2 ^ 64) (hvs : HoldsAll vs ws τ σ) :
    EmitSim (O := O) rt (allocBlock contents.length tag start ws)
      (alloc contents tag) τ σ fun b v τ' σ' => Later τ σ τ' σ' ∧ Holds v b τ' σ' := by
  have hskip : ∀ b, storeContents b 0 contents = storeContents b start (vs.map some)
      ∧ initializeContents b 0 contents = initializeContents b start (vs.map some) := by
    intro b
    rw [hcontents, storeContents_skip, initializeContents_skip, Nat.zero_add]
    exact ⟨rfl, rfl⟩
  unfold allocBlock alloc
  split
  · -- the minor heap
    refine emitSim_define_request (fun _ => rfl) fun b vb τ₁ σ₁ h₁ hvb => EmitSim.bind ?_
    rw [(hskip vb).1, ← hvb.eq, ← (hvs.later h₁).eq]
    refine (emitSim_storeContents vs start).mono fun _ _ τ' σ' h => ?_
    exact EmitSim.pure ⟨h₁.trans h, (Holds.mk hvb.last rfl).later h⟩
  · -- the major heap
    refine emitSim_ins (w := BitVec.ofNat 64 contents.length) rfl fun vsize τ₁ σ₁ h₁ hvsize => ?_
    refine emitSim_ins (w := BitVec.ofNat 64 tag) rfl fun vtag τ₂ σ₂ h₂ hvtag => ?_
    refine emitSim_callPrimitiveValue ?_ fun b vb τ₃ σ₃ h₃ hvb => ?_
    · have hsizeNat : (σ₂.vals vsize).toNat = contents.length := by
        rw [(hvsize.later h₂).eq]
        exact (BitVec.toNat_ofNat ..).trans (Nat.mod_eq_of_lt hsize)
      have htagNat : (σ₂.vals vtag).toNat = tag := by
        rw [hvtag.eq]
        exact (BitVec.toNat_ofNat ..).trans (Nat.mod_eq_of_lt htag)
      rw [← hsizeNat, ← htagNat]
      rfl
    · refine emitSim_refToInt hvb fun vint τ₄ σ₄ h₄ hvint => EmitSim.bind ?_
      have hlater := ((h₁.trans h₂).trans h₃).trans h₄
      rw [(hskip vint).2]
      refine (emitSim_initializeContents start hvint (hvs.later hlater)).mono fun _ _ τ' σ' h => ?_
      exact EmitSim.pure ⟨hlater.trans h, (hvb.later h₄).later h⟩

end Loops

end Logic

end OcamlJit.Cranelift

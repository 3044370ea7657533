/-
  OcamlJit.Lib.Rust
  ─────────────────
  **RUST COMPUTATIONS AS `Except`.**

  A Rust function of type `Result<T, E>` ends in one of three ways: `Ok`, an
  `Err` handed on by `?`, or a panic (a bound, an assertion, an arithmetic
  overflow check).  Recursion whose depth is only bounded by an argument about
  the data runs on fuel, and running dry is the fourth constructor, so that it
  can never be mistaken for one of the other three.
-/
import Mathlib.Algebra.Ring.Int.Defs
import Mathlib.Algebra.Ring.Nat
import Mathlib.Data.List.Basic

namespace OcamlJit.Lib

/-! ## §1. Faults. -/

/-- How a computation stops without a value. -/
inductive Fault (ε : Type) where
  /-- An `Err(e)` returned to the caller. -/
  | error (e : ε)
  /-- A panic: index out of range, overflow check, failed `unwrap` or `assert!`. -/
  | panic
  /-- The model's recursion bound was too small. -/
  | outOfFuel
  deriving Repr, DecidableEq

/-- A Rust computation with error type `ε`. -/
abbrev Rust (ε : Type) := Except (Fault ε)

/-- `Err(e)`. -/
def err {ε α : Type} (e : ε) : Rust ε α := .error (.error e)

/-- A panic. -/
def panicked {ε α : Type} : Rust ε α := .error .panic

/-- `ensure!(c)` with the error `e`. -/
def ensure {ε : Type} (c : Prop) [Decidable c] (e : ε) : Rust ε Unit :=
  if c then .ok () else err e

/-- `a + b` on an unsigned type of `w` bits, with overflow checks. -/
def addU {ε : Type} (w a b : Nat) : Rust ε Nat :=
  if a + b < 2 ^ w then .ok (a + b) else panicked

/-- `a - b` on an unsigned type, with overflow checks. -/
def subU {ε : Type} (a b : Nat) : Rust ε Nat :=
  if b ≤ a then .ok (a - b) else panicked

/-! ## §2. Peeling successful computations apart. -/

/-- An option forgets why it failed. -/
theorem toOption_eq_some {ε α : Type} {x : Rust ε α} {a : α} :
    x.toOption = some a ↔ x = .ok a := by
  cases x with
  | error e => exact ⟨nofun, nofun⟩
  | ok b =>
      constructor
      · rintro ⟨⟩
        rfl
      · rintro ⟨⟩
        rfl

/-- A bind succeeds when both of its parts do. -/
theorem bind_eq_ok {ε α β : Type} {x : Rust ε α} {f : α → Rust ε β} {r : β} :
    (x >>= f) = .ok r ↔ ∃ a, x = .ok a ∧ f a = .ok r := by
  cases x with
  | error e => exact ⟨fun h => (nomatch h), fun ⟨a, h, _⟩ => (nomatch h)⟩
  | ok a =>
      constructor
      · intro h
        exact ⟨a, rfl, h⟩
      · rintro ⟨b, hb, hf⟩
        injection hb with hb
        subst hb
        exact hf

/-- The same with a state: the second part starts in the one that the first leaves. -/
theorem stateT_bind_eq_ok {ε σ α β : Type} {x : StateT σ (Rust ε) α} {f : α → StateT σ (Rust ε) β}
    {s s'' : σ} {b : β} :
    (x >>= f) s = .ok (b, s'') ↔ ∃ a s', x s = .ok (a, s') ∧ f a s' = .ok (b, s'') := by
  show (x s >>= fun p => f p.1 p.2) = _ ↔ _
  rw [bind_eq_ok]
  constructor
  · rintro ⟨⟨a, s'⟩, hx, hf⟩
    exact ⟨a, s', hx, hf⟩
  · rintro ⟨a, s', hx, hf⟩
    exact ⟨(a, s'), hx, hf⟩

/-- Nothing happens to the state. -/
theorem stateT_pure_eq_ok {ε σ α : Type} {a b : α} {s s' : σ} :
    (pure a : StateT σ (Rust ε) α) s = .ok (b, s') ↔ a = b ∧ s = s' := by
  show (Except.ok (a, s) : Rust _ _) = .ok (b, s') ↔ _
  rw [Except.ok.injEq, Prod.mk.injEq]

/-- `Err(e)?` and panics. -/
theorem stateT_lift_error {ε σ α : Type} {e : Fault ε} {s s' : σ} {a : α} :
    (StateT.lift (.error e : Rust ε α) : StateT σ (Rust ε) α) s ≠ .ok (a, s') := by
  intro h
  cases h

@[simp] theorem ok_bind {ε α β : Type} (a : α) (f : α → Rust ε β) :
    ((.ok a : Rust ε α) >>= f) = f a := rfl

@[simp] theorem error_bind {ε α β : Type} (e : Fault ε) (f : α → Rust ε β) :
    ((.error e : Rust ε α) >>= f) = .error e := rfl

/-- A check passes when its condition holds. -/
theorem ensure_eq_ok {ε : Type} {c : Prop} [Decidable c] {e : ε} {u : Unit} :
    ensure c e = .ok u ↔ c := by
  unfold ensure err
  by_cases h : c <;> simp [h]

/-- An addition that does not overflow. -/
theorem addU_eq_ok {ε : Type} {w a b r : Nat} :
    (addU w a b : Rust ε Nat) = .ok r ↔ a + b < 2 ^ w ∧ r = a + b := by
  unfold addU panicked
  by_cases h : a + b < 2 ^ w <;> simp [h, eq_comm]

/-- A subtraction that does not underflow. -/
theorem subU_eq_ok {ε : Type} {a b r : Nat} :
    (subU a b : Rust ε Nat) = .ok r ↔ b ≤ a ∧ r = a - b := by
  unfold subU panicked
  by_cases h : b ≤ a <;> simp [h, eq_comm]

/-! ## §3. Computations that do not run dry. -/

/-- The fuel was enough. -/
def Ends {ε α : Type} (x : Rust ε α) : Prop := x ≠ .error .outOfFuel

/-- A result is no want of fuel. -/
theorem ends_ok {ε α : Type} (a : α) : Ends (.ok a : Rust ε α) := fun h => (nomatch h)

/-- Nor is an error. -/
theorem ends_err {ε α : Type} (e : ε) : Ends (err e : Rust ε α) := fun h => (nomatch h)

/-- Nor is a panic. -/
theorem ends_panicked {ε α : Type} : Ends (panicked : Rust ε α) := fun h => (nomatch h)

/-- Two parts that end. -/
theorem Ends.bind {ε α β : Type} {x : Rust ε α} {f : α → Rust ε β} (hx : Ends x)
    (hf : ∀ a, x = .ok a → Ends (f a)) : Ends (x >>= f) := by
  cases x with
  | error e =>
      intro h
      rw [error_bind, Except.error.injEq] at h
      exact hx (congrArg _ h)
  | ok a => exact hf a rfl

/-- A check ends. -/
theorem ends_ensure {ε : Type} (c : Prop) [Decidable c] (e : ε) : Ends (ensure c e) := by
  unfold ensure
  split
  · exact ends_ok ()
  · exact ends_err e

/-- An addition ends. -/
theorem ends_addU {ε : Type} (w a b : Nat) : Ends (addU w a b : Rust ε Nat) := by
  unfold addU
  split
  · exact ends_ok _
  · exact ends_panicked

/-- A subtraction ends. -/
theorem ends_subU {ε : Type} (a b : Nat) : Ends (subU a b : Rust ε Nat) := by
  unfold subU
  split
  · exact ends_ok _
  · exact ends_panicked

/-! ## §4. How a computation may come out. -/

/-- The computation comes to a value satisfying `P` or to one of the faults `E`. -/
def Outcome {ε α : Type} (E : Fault ε → Prop) (P : α → Prop) : Rust ε α → Prop
  | .ok a => P a
  | .error f => E f

section Outcome

variable {ε α β : Type} {E : Fault ε → Prop} {P : α → Prop} {Q : β → Prop}

/-- **The rule of sequence**: the faults of both parts, the result of the second. -/
theorem Outcome.bind {x : Rust ε α} {f : α → Rust ε β} (hx : Outcome E P x)
    (hf : ∀ a, P a → Outcome E Q (f a)) : Outcome E Q (x >>= f) := by
  cases x with
  | error e => exact hx
  | ok a => exact hf a hx

/-- A weaker description of the result. -/
theorem Outcome.mono {x : Rust ε α} {P' : α → Prop} (hx : Outcome E P x)
    (h : ∀ a, P a → P' a) : Outcome E P' x := by
  cases x with
  | error e => exact hx
  | ok a => exact h a hx

/-- A check passes with its condition, or fails with its error. -/
theorem outcome_ensure {c : Prop} [Decidable c] {e : ε} (h : c ∨ E (.error e)) :
    Outcome E (fun _ => c) (ensure c e) := by
  unfold ensure
  by_cases hc : c
  · rw [if_pos hc]
    exact hc
  · rw [if_neg hc]
    exact h.resolve_left hc

/-- A checked addition is the sum, or panics. -/
theorem outcome_addU {w a b : Nat} (h : a + b < 2 ^ w ∨ E .panic) :
    Outcome E (· = a + b) (addU w a b : Rust ε Nat) := by
  unfold addU
  by_cases hlt : a + b < 2 ^ w
  · rw [if_pos hlt]
    rfl
  · rw [if_neg hlt]
    exact h.resolve_left hlt

end Outcome

end OcamlJit.Lib

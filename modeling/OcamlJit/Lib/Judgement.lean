/-
  OcamlJit.Lib.Judgement
  ──────────────────────
  **WHAT IS SHOWN OF A COMPUTATION STEP BY STEP.**

  A function that is written for any monad with the results of `Rust ε` is the
  composition of its steps.  A `Judgement` is a property of computations,
  between what holds before and what holds after, that composes in the same
  way.  So what the steps of such a function do to a judgement is shown once,
  for all of them.

  `terminating` is the judgement about plain results: neither runs out of fuel.
-/
import OcamlJit.Lib.Rust

namespace OcamlJit.Lib

/-- `Holds s x t`: from `s`, the computation `x` comes to `t`, which may depend
on its result. -/
structure Judgement (ε : Type) (m : Type → Type) [Monad m] [MonadLiftT (Rust ε) m]
    (σ : Type) where
  Holds : {α : Type} → σ → m α → (α → σ) → Prop
  /-- A value changes nothing. -/
  value : ∀ {α : Type} {t : α → σ} (a : α), Holds (t a) (pure a) t
  /-- One computation after another. -/
  andThen : ∀ {α β : Type} {s : σ} {x : m α} {t : α → σ} {f : α → m β} {u : β → σ},
    Holds s x t → (∀ a, Holds (t a) (f a) u) → Holds s (x >>= f) u
  /-- A result that took enough fuel: its value, if it has one, changes nothing
  either. -/
  result : ∀ {α : Type} {s : σ} {x : Rust ε α} {t : α → σ}, Ends x →
    (∀ a, x = .ok a → t a = s) → Holds s (liftM x) t

namespace Judgement

variable {ε σ : Type} {m : Type → Type} [Monad m] [MonadLiftT (Rust ε) m]

/-- A step that is a plain result, and what comes after it. -/
theorem resultThen (J : Judgement ε m σ) {α β : Type} {s : σ} {x : Rust ε α} {f : α → m β}
    {u : β → σ} (hx : Ends x) (hf : ∀ a, J.Holds s (f a) u) :
    J.Holds s (liftM x >>= f) u :=
  J.andThen (J.result hx fun _ _ => rfl) hf

/-- Enough fuel: if `P` holds, the computation ends, and a value it comes to is
one for which `Q` holds. -/
def terminating (ε : Type) : Judgement ε (Rust ε) Prop where
  Holds P x Q := P → Ends x ∧ ∀ a, x = .ok a → Q a
  value a h := ⟨ends_ok a, fun a' ha => by cases ha; exact h⟩
  andThen hx hf hs := by
    obtain ⟨hends, ht⟩ := hx hs
    refine ⟨hends.bind fun a ha => (hf a (ht a ha)).1, ?_⟩
    intro b hb
    obtain ⟨a, ha, hb⟩ := bind_eq_ok.mp hb
    exact (hf a (ht a ha)).2 b hb
  result hx ht hs := ⟨hx, fun a ha => by rw [ht a ha]; exact hs⟩

end Judgement

end OcamlJit.Lib

/-
  OcamlJit.Lib.Across
  ───────────────────
  **COMPUTATIONS OVER TWO ORACLES.**

  Two models of one computation may ask for different things: what is one request
  of the first may be several of the second.  A `Bridge` says which states of the
  two oracles belong together, and which values.

    • `Across` — from states that belong together both computations come to such
      states and to related results, unless one of them is stuck,
    • `Across.bind` — the rule of sequence.
-/
import OcamlJit.Lib.Effects

namespace OcamlJit.Lib

variable {E F U V : Type}

/-- What belongs together of two oracles. -/
structure Bridge (P : Oracle E V) (Q : Oracle F U) where
  worlds : P.World → Q.World → Prop
  values : V → U → Prop

variable {P : Oracle E V} {Q : Oracle F U} {α β γ δ : Type}

/-- Related values, or exceptions that belong together. -/
def Bridge.Alike (B : Bridge P Q) (R : α → β → Prop) : Except (Halt V) α → Except (Halt U) β → Prop
  | .ok a, .ok b => R a b
  | .error (.raised v), .error (.raised u) => B.values v u
  | _, _ => False

/-- Two results belong together, unless one of them is stuck. -/
def Bridge.Meets (B : Bridge P Q) (R : α → β → Prop) (p : Except (Halt V) α × Log P)
    (q : Except (Halt U) β × Log Q) : Prop :=
  p.1 = .error .stuck ∨ q.1 = .error .stuck ∨
    (B.worlds p.2.world q.2.world ∧ B.Alike R p.1 q.1)

/-- Both computations end alike, unless one of them is stuck. -/
def Across (B : Bridge P Q) (R : α → β → Prop) (x : Act P α) (y : Act Q β) : Prop :=
  ∀ l k, B.worlds l.world k.world → B.Meets R (x l) (y k)

namespace Across

variable {B : Bridge P Q} {R : α → β → Prop}

/-- Nothing is asked on either side. -/
theorem pure {a : α} {b : β} (h : R a b) : Across B R (Pure.pure a) (Pure.pure b) :=
  fun _ _ hw => .inr (.inr ⟨hw, h⟩)

/-- What ends without a value ends the sequence. -/
theorem bind_error {O : Oracle E V} {x : Act O α} {f : α → Act O γ} {l : Log O} {e : Halt V}
    (h : (x l).1 = .error e) : ((x >>= f) l).1 = .error e := by
  rw [Act.bind_apply]
  cases hx : x l with
  | mk r l' =>
      rw [hx] at h
      obtain rfl : r = .error e := h
      rfl

/-- A sequence, from two logs. -/
theorem bind_at {S : γ → δ → Prop} {x : Act P α} {y : Act Q β} {f : α → Act P γ} {g : β → Act Q δ}
    {l : Log P} {k : Log Q} (h : B.Meets R (x l) (y k))
    (hfg : ∀ a b l' k', x l = (.ok a, l') → R a b → B.worlds l'.world k'.world →
      B.Meets S (f a l') (g b k')) : B.Meets S ((x >>= f) l) ((y >>= g) k) := by
  rcases h with hx | hy | ⟨hw, halike⟩
  · exact .inl (bind_error hx)
  · exact .inr (.inl (bind_error hy))
  · rw [Act.bind_apply, Act.bind_apply]
    cases hx : x l with
    | mk r l' =>
        cases hy : y k with
        | mk r' k' =>
            rw [hx, hy] at hw halike
            cases r with
            | ok a =>
                cases r' with
                | ok b => exact hfg a b l' k' hx halike hw
                | error e => exact halike.elim
            | error e =>
                cases e with
                | stuck => exact .inl rfl
                | raised v =>
                    cases r' with
                    | ok b => exact halike.elim
                    | error e =>
                        cases e with
                        | stuck => exact halike.elim
                        | raised u => exact .inr (.inr ⟨hw, halike⟩)

/-- **The rule of sequence.** -/
theorem bind {S : γ → δ → Prop} {x : Act P α} {y : Act Q β} {f : α → Act P γ} {g : β → Act Q δ}
    (h : Across B R x y) (hfg : ∀ a b, R a b → Across B S (f a) (g b)) :
    Across B S (x >>= f) (y >>= g) := fun l k hw =>
  bind_at (h l k hw) fun a b l' k' _ hR hw' => hfg a b hR l' k' hw'

end Across

end OcamlJit.Lib

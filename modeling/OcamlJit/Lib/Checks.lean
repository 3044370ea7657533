/-
  OcamlJit.Lib.Checks
  ───────────────────
  **CHECKS IN THEIR ORDER.**

  A machine whose every step is a check: it is passed and the machine goes on, or
  it fails with an error, or it panics.  A procedure that makes the same checks
  in the same order (`Keeps`) panics exactly if the machine comes to a check that
  panics.

    • `Keeps.bind`    one part after the other;
    • `noPanic_iff`   when a procedure does not panic.
-/
import OcamlJit.Lib.Rust
import Mathlib.Logic.Relation

namespace OcamlJit.Lib.Checks

variable {ε σ α β : Type}

/-! ## §1. Machines. -/

/-- How the next check comes out. -/
inductive Verdict (σ : Type) where
  | passes (s : σ)
  /-- Nothing is left to be checked. -/
  | done
  | fails
  | panics

section Machine

variable (check : σ → Verdict σ)

/-- One check is passed. -/
def Next (s s' : σ) : Prop := check s = .passes s'

/-- **The machine comes from `s` to `s'`**, all checks before `s'` being passed. -/
abbrev Comes : σ → σ → Prop := Relation.ReflTransGen (Next check)

/-- The procedure makes the checks of the machine from `s` on.  Where it returns, the
machine has come to a state that `post` describes. -/
def Keeps (s : σ) (post : α → σ → Prop) : Rust ε α → Prop
  | .ok a => ∃ s', Comes check s s' ∧ post a s'
  | .error (.error _) => ∃ s', Comes check s s' ∧ check s' = .fails
  | .error .panic => ∃ s', Comes check s s' ∧ check s' = .panics
  | .error .outOfFuel => True

end Machine

/-! ## §2. Procedures. -/

section Procedures

variable {check : σ → Verdict σ} {s s' : σ} {post : α → σ → Prop} {x : Rust ε α}

theorem keeps_ok {a : α} (h : post a s) : Keeps check s post (.ok a : Rust ε α) :=
  ⟨s, .refl, h⟩

theorem keeps_err {e : ε} (h : check s = .fails) : Keeps check s post (err e : Rust ε α) :=
  ⟨s, .refl, h⟩

theorem keeps_panicked (h : check s = .panics) :
    Keeps check s post (panicked : Rust ε α) :=
  ⟨s, .refl, h⟩

/-- After the checks up to `s'`. -/
theorem Keeps.after (hs : Comes check s s') (h : Keeps check s' post x) :
    Keeps check s post x := by
  cases x with
  | ok a =>
      obtain ⟨t, ht, hpost⟩ := h
      exact ⟨t, hs.trans ht, hpost⟩
  | error f =>
      cases f with
      | outOfFuel => trivial
      | error e =>
          obtain ⟨t, ht, hfails⟩ := h
          exact ⟨t, hs.trans ht, hfails⟩
      | panic =>
          obtain ⟨t, ht, hpanics⟩ := h
          exact ⟨t, hs.trans ht, hpanics⟩

/-- A check that is passed. -/
theorem Keeps.passed (hs : check s = .passes s') (h : Keeps check s' post x) :
    Keeps check s post x :=
  h.after (.single hs)

/-- One part after the other. -/
theorem Keeps.bind {post' : β → σ → Prop} {f : α → Rust ε β} (hx : Keeps check s post x)
    (hf : ∀ a s', post a s' → Keeps check s' post' (f a)) :
    Keeps check s post' (x >>= f) := by
  cases x with
  | ok a =>
      obtain ⟨t, ht, hpost⟩ := hx
      exact (hf a t hpost).after ht
  | error f =>
      cases f with
      | outOfFuel => trivial
      | error e => exact hx
      | panic => exact hx

/-- `ensure!`, when the machine makes the check in the same place. -/
theorem keeps_ensure_bind {c : Prop} [Decidable c] {e : ε} {f : Unit → Rust ε α}
    (hfails : ¬ c → check s = .fails) (hf : c → Keeps check s post (f ())) :
    Keeps check s post (ensure c e >>= f) := by
  unfold ensure
  by_cases hc : c
  · rw [if_pos hc]
    exact hf hc
  · rw [if_neg hc]
    exact keeps_err (hfails hc)

/-! ## §3. The first check that is not passed. -/

/-- The machine stops in one place. -/
theorem Comes.unique {t : σ} (hs : Comes check s s') (ht : Comes check s t)
    (hstop : ∀ u, check s' ≠ .passes u) (hstop' : ∀ u, check t ≠ .passes u) : s' = t := by
  have hright : Relator.RightUnique (Next check) := by
    intro a b c hab hac
    unfold Next at hab hac
    rw [hab] at hac
    exact (Verdict.passes.inj hac)
  have hstays {a b : σ} (h : Comes check a b) (ha : ∀ u, check a ≠ .passes u) : a = b := by
    rcases Relation.ReflTransGen.cases_head h with heq | ⟨u, hu, -⟩
    · exact heq
    · exact absurd hu (ha u)
  rcases Relation.ReflTransGen.total_of_right_unique hright hs ht with h | h
  · exact hstays h hstop
  · exact (hstays h hstop').symm

/-- The machine comes to no check that panics. -/
def NoPanic (check : σ → Verdict σ) (s : σ) : Prop := ∀ s', Comes check s s' → check s' ≠ .panics

/-- **When a procedure does not panic.** -/
theorem noPanic_iff (h : Keeps check s (fun _ s' => check s' = .done) x) (hends : Ends x) :
    NoPanic check s ↔ x ≠ .error .panic := by
  -- the place where the procedure stops is the only one
  have honly {s' : σ} (hs : Comes check s s') (hstop : ∀ u, check s' ≠ .passes u)
      (hne : check s' ≠ .panics) : NoPanic check s := by
    intro t ht hpanics
    have hstop' (u : σ) : check t ≠ .passes u := by
      rw [hpanics]
      exact nofun
    rw [hs.unique ht hstop hstop'] at hne
    exact hne hpanics
  cases x with
  | ok a =>
      obtain ⟨s', hs, hdone⟩ := h
      refine ⟨fun _ => nofun, fun _ => honly hs ?_ ?_⟩ <;> rw [hdone] <;> exact nofun
  | error f =>
      cases f with
      | outOfFuel => exact absurd rfl hends
      | error e =>
          obtain ⟨s', hs, hfails⟩ := h
          refine ⟨fun _ => nofun, fun _ => honly hs ?_ ?_⟩ <;> rw [hfails] <;> exact nofun
      | panic =>
          obtain ⟨s', hs, hpanics⟩ := h
          exact ⟨fun hno => absurd hpanics (hno s' hs), fun hne => absurd rfl hne⟩

end Procedures

end OcamlJit.Lib.Checks

/-
  OcamlJit.Lib.Transition
  ───────────────────────
  **RUNS OF A MACHINE, AND WHEN TWO MACHINES HAVE THE SAME ONES.**

  A machine is a step function into `Act`; `iterate` runs it for a number of
  steps.  Two machines have the same runs (`SameRuns`) when whatever one shows
  after some number of steps the other shows after some number of its own: the
  observable part of the state, the outcome, an exception or getting stuck,
  each with the same trace of requests.

  `sameRuns_of_simulation` is the rule used to show it: the first machine may
  take steps the second one does not see, as long as a measure goes down.
-/
import OcamlJit.Lib.Effects

namespace OcamlJit.Lib

variable {E V : Type} {O : Oracle E V} {σ σ₁ σ₂ τ ο : Type}

/-- A state to go on from, or the outcome. -/
inductive Progress (σ ο : Type) where
  | running (s : σ)
  | done (o : ο)
  deriving Repr, DecidableEq

namespace Progress

/-- The same outcome, or related states. -/
def Rel (R : σ₁ → σ₂ → Prop) : Progress σ₁ ο → Progress σ₂ ο → Prop
  | .running s, .running t => R s t
  | .done o, .done o' => o = o'
  | _, _ => False

/-- What is seen of the state. -/
def observe (obs : σ → τ) : Progress σ ο → Progress τ ο
  | .running s => .running (obs s)
  | .done o => .done o

end Progress

/-- At most `n` steps. -/
def iterate (step : σ → Act O (Progress σ ο)) : Nat → σ → Act O (Progress σ ο)
  | 0, s => pure (.running s)
  | n + 1, s => do
      match ← step s with
      | .running s' => iterate step n s'
      | .done o => pure (.done o)

/-- **Two machines in lockstep stay so** for any number of steps. -/
theorem Sim.iterate {step₁ : σ₁ → Act O (Progress σ₁ ο)} {step₂ : σ₂ → Act O (Progress σ₂ ο)}
    {R : σ₁ → σ₂ → Prop} (hstep : ∀ s t, R s t → Sim (Progress.Rel R) (step₁ s) (step₂ t)) :
    ∀ (n : Nat) (s : σ₁) (t : σ₂), R s t →
      Sim (Progress.Rel R) (iterate step₁ n s) (iterate step₂ n t)
  | 0, _, _, hR => Sim.pure hR
  | n + 1, s, t, hR => by
      refine (hstep s t hR).bind fun p q hpq => ?_
      cases p with
      | running s' =>
          cases q with
          | running t' => exact Sim.iterate hstep n s' t' hpq
          | done o => exact hpq.elim
      | done o =>
          cases q with
          | running t' => exact hpq.elim
          | done o' => exact Sim.pure hpq

/-- What is seen of a result. -/
def observeResult (obs : σ → τ) (r : Except (Halt V) (Progress σ ο) × Log O) :
    Except (Halt V) (Progress τ ο) × Log O :=
  (r.1.map (Progress.observe obs), r.2)

/-- **Whatever one machine shows from `l` on, the other one shows, too.** -/
def SameRuns (step₁ : σ₁ → Act O (Progress σ₁ ο)) (obs₁ : σ₁ → τ) (s : σ₁)
    (step₂ : σ₂ → Act O (Progress σ₂ ο)) (obs₂ : σ₂ → τ) (t : σ₂) (l : Log O) : Prop :=
  (∀ n, ∃ m, observeResult obs₁ (iterate step₁ n s l) = observeResult obs₂ (iterate step₂ m t l))
    ∧ ∀ m, ∃ n, observeResult obs₁ (iterate step₁ n s l)
        = observeResult obs₂ (iterate step₂ m t l)

section Simulation

variable {step₁ : σ₁ → Act O (Progress σ₁ ο)} {step₂ : σ₂ → Act O (Progress σ₂ ο)}
  {obs₁ : σ₁ → τ} {obs₂ : σ₂ → τ}

theorem iterate_succ_running {n : Nat} {s s' : σ₁} {l l' : Log O}
    (h : step₁ s l = (.ok (.running s'), l')) :
    iterate step₁ (n + 1) s l = iterate step₁ n s' l' := by
  simp only [iterate, Act.bind_apply, h]

theorem iterate_succ_done {n : Nat} {s : σ₁} {o : ο} {l l' : Log O}
    (h : step₁ s l = (.ok (.done o), l')) :
    iterate step₁ (n + 1) s l = (.ok (.done o), l') := by
  simp only [iterate, Act.bind_apply, h]
  rfl

theorem iterate_succ_halt {n : Nat} {s : σ₁} {e : Halt V} {l l' : Log O}
    (h : step₁ s l = (.error e, l')) :
    iterate step₁ (n + 1) s l = (.error e, l') := by
  simp only [iterate, Act.bind_apply, h]

/-- A step of the first machine that the second one does not see. -/
def Stutters (step₁ : σ₁ → Act O (Progress σ₁ ο)) (R : σ₁ → σ₂ → Prop) (μ : σ₁ → Nat)
    (s : σ₁) (t : σ₂) (l : Log O) : Prop :=
  ∃ s', step₁ s l = (.ok (.running s'), l) ∧ R s' t ∧ μ s' < μ s

/-- The two machines step together, or the first one stutters. -/
def Simulates (step₁ : σ₁ → Act O (Progress σ₁ ο)) (step₂ : σ₂ → Act O (Progress σ₂ ο))
    (R : σ₁ → σ₂ → Prop) (μ : σ₁ → Nat) (Ok : σ₁ → Log O → Prop) : Prop :=
  ∀ s t l, R s t → Ok s l →
    Stutters step₁ R μ s t l ∨ RelResult (Progress.Rel R) (step₁ s l) (step₂ t l)

/-- Every state of the run satisfies `Ok`. -/
def AlwaysOk (step₁ : σ₁ → Act O (Progress σ₁ ο)) (Ok : σ₁ → Log O → Prop) (s : σ₁)
    (l : Log O) : Prop :=
  ∀ n s' l', iterate step₁ n s l = (.ok (.running s'), l') → Ok s' l'

theorem AlwaysOk.now {Ok : σ₁ → Log O → Prop} {s : σ₁} {l : Log O}
    (h : AlwaysOk step₁ Ok s l) : Ok s l := h 0 s l rfl

theorem AlwaysOk.step {Ok : σ₁ → Log O → Prop} {s s' : σ₁} {l l' : Log O}
    (h : AlwaysOk step₁ Ok s l) (hs : step₁ s l = (.ok (.running s'), l')) :
    AlwaysOk step₁ Ok s' l' := by
  intro n s'' l'' hn
  refine h (n + 1) s'' l'' ?_
  rw [iterate_succ_running hs, hn]

/-- What a joint step can look like. -/
theorem relResult_cases {R : σ₁ → σ₂ → Prop} {s : σ₁} {t : σ₂} {l : Log O}
    (h : RelResult (Progress.Rel R) (step₁ s l) (step₂ t l)) :
    (∃ s' t' l', step₁ s l = (.ok (.running s'), l') ∧ step₂ t l = (.ok (.running t'), l') ∧
        R s' t') ∨
      (∃ o l', step₁ s l = (.ok (.done o), l') ∧ step₂ t l = (.ok (.done o), l')) ∨
      ∃ e l', step₁ s l = (.error e, l') ∧ step₂ t l = (.error e, l') := by
  cases h₁ : step₁ s l with
  | mk r₁ l₁ =>
      cases h₂ : step₂ t l with
      | mk r₂ l₂ =>
          rw [h₁, h₂] at h
          obtain ⟨hlog, hr⟩ := h
          obtain rfl : l₁ = l₂ := hlog
          cases r₁ with
          -- both fail in the same way
          | error e =>
              cases r₂ with
              | error e' =>
                  obtain rfl : e = e' := hr
                  exact .inr (.inr ⟨e, l₁, rfl, rfl⟩)
              | ok p => exact hr.elim
          | ok p =>
              cases r₂ with
              | error e' => exact hr.elim
              | ok p' =>
                  cases p with
                  | running s' =>
                      cases p' with
                      | running t' => exact .inl ⟨s', t', l₁, rfl, rfl, hr⟩
                      | done o => exact hr.elim
                  | done o =>
                      cases p' with
                      | running t' => exact hr.elim
                      | done o' =>
                          obtain rfl : o = o' := hr
                          exact .inr (.inl ⟨o, l₁, rfl, rfl⟩)

variable {R : σ₁ → σ₂ → Prop} {μ : σ₁ → Nat} {Ok : σ₁ → Log O → Prop}
  (hobs : ∀ s t, R s t → obs₁ s = obs₂ t) (hsim : Simulates step₁ step₂ R μ Ok)

include hobs hsim

/-- Every run of the first machine is matched. -/
theorem simulation_forward :
    ∀ (n : Nat) (s : σ₁) (t : σ₂) (l : Log O), R s t → AlwaysOk step₁ Ok s l →
      ∃ m, observeResult obs₁ (iterate step₁ n s l)
        = observeResult obs₂ (iterate step₂ m t l)
  | 0, s, t, l, hR, _ => by
      refine ⟨0, ?_⟩
      show (Except.ok (Progress.running (obs₁ s)), l) = (Except.ok (Progress.running (obs₂ t)), l)
      rw [hobs s t hR]
  | n + 1, s, t, l, hR, hok => by
      rcases hsim s t l hR hok.now with ⟨s', hs, hR', -⟩ | hrel
      · obtain ⟨m, hm⟩ := simulation_forward n s' t l hR' (hok.step hs)
        exact ⟨m, by rw [iterate_succ_running hs, hm]⟩
      · rcases relResult_cases hrel with
          ⟨s', t', l', hs, ht, hR'⟩ | ⟨o, l', hs, ht⟩ | ⟨e, l', hs, ht⟩
        · obtain ⟨m, hm⟩ := simulation_forward n s' t' l' hR' (hok.step hs)
          exact ⟨m + 1, by rw [iterate_succ_running hs, iterate_succ_running ht, hm]⟩
        · exact ⟨1, by rw [iterate_succ_done hs, iterate_succ_done ht]; rfl⟩
        · exact ⟨1, by rw [iterate_succ_halt hs, iterate_succ_halt ht]; rfl⟩

/-- Every run of the second machine is matched: before each of its steps the
first one can only stutter as often as the measure allows. -/
theorem simulation_backward :
    ∀ (m : Nat) (s : σ₁) (t : σ₂) (l : Log O), R s t → AlwaysOk step₁ Ok s l →
      ∃ n, observeResult obs₁ (iterate step₁ n s l)
        = observeResult obs₂ (iterate step₂ m t l)
  | 0, s, t, l, hR, _ => by
      refine ⟨0, ?_⟩
      show (Except.ok (Progress.running (obs₁ s)), l) = (Except.ok (Progress.running (obs₂ t)), l)
      rw [hobs s t hR]
  | m + 1, s, t, l, hR, hok => by
      rcases hsim s t l hR hok.now with ⟨s', hs, hR', hlt⟩ | hrel
      · obtain ⟨n, hn⟩ := simulation_backward (m + 1) s' t l hR' (hok.step hs)
        exact ⟨n + 1, by rw [iterate_succ_running hs, hn]⟩
      · rcases relResult_cases hrel with
          ⟨s', t', l', hs, ht, hR'⟩ | ⟨o, l', hs, ht⟩ | ⟨e, l', hs, ht⟩
        · obtain ⟨n, hn⟩ := simulation_backward m s' t' l' hR' (hok.step hs)
          exact ⟨n + 1, by rw [iterate_succ_running hs, iterate_succ_running ht, hn]⟩
        · exact ⟨1, by rw [iterate_succ_done hs, iterate_succ_done ht]; rfl⟩
        · exact ⟨1, by rw [iterate_succ_halt hs, iterate_succ_halt ht]; rfl⟩
termination_by m s => (m, μ s)

/-- **Simulation gives the same runs.** -/
theorem sameRuns_of_simulation {s : σ₁} {t : σ₂} {l : Log O} (hR : R s t)
    (hok : AlwaysOk step₁ Ok s l) : SameRuns step₁ obs₁ s step₂ obs₂ t l :=
  ⟨fun n => simulation_forward hobs hsim n s t l hR hok,
    fun m => simulation_backward hobs hsim m s t l hR hok⟩

end Simulation

end OcamlJit.Lib

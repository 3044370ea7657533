/-
  OcamlJit.Lib.Effects
  ────────────────────
  **COMPUTATIONS OVER UNINTERPRETED EFFECTS.**

  Memory accesses, allocations and calls out of the modelled code are requests
  to an `Oracle`: nothing is assumed about its answers, only that the same
  requests in the same order get the same answers.  A computation `Act` threads
  the oracle's state together with the trace of requests made so far, so equal
  results carry equal traces.

    • `Act` — the monad: a value, an exception from a request, or stuck,
    • `Sim` — a relation between computations that make the same requests, with
      the rules `Sim.pure`, `Sim.bind` and `Sim.perform`,
    • `Logs` — what one computation returns and which requests it makes for it,
    • `Act.Begins` — its first request, which no later one takes back.
-/
import Mathlib.Algebra.Ring.Int.Defs
import Mathlib.Algebra.Ring.Nat
import Mathlib.Data.List.Basic

namespace OcamlJit.Lib

variable {E V : Type}

/-! ## §1. The monad. -/

/-- Something that answers requests `E` with a value or an exception in `V`. -/
structure Oracle (E V : Type) where
  World : Type
  perform : E → World → Except V V × World

/-- The oracle's state and the requests made so far. -/
structure Log (O : Oracle E V) where
  world : O.World
  trace : List E

/-- How a computation ends without a value. -/
inductive Halt (V : Type) where
  /-- No meaning is given to what comes next. -/
  | stuck
  /-- A request raised an exception. -/
  | raised (v : V)
  deriving Repr, DecidableEq

/-- A computation that makes requests. -/
def Act (O : Oracle E V) (α : Type) : Type := Log O → Except (Halt V) α × Log O

namespace Act

variable {O : Oracle E V} {α β γ : Type}

instance : Monad (Act O) where
  pure a := fun l => (.ok a, l)
  bind x f := fun l =>
    match x l with
    | (.ok a, l') => f a l'
    | (.error e, l') => (.error e, l')

/-- No meaning. -/
def stuck : Act O α := fun l => (.error .stuck, l)

/-- One request. -/
def perform (e : E) : Act O V := fun l =>
  match O.perform e l.world with
  | (.ok v, w) => (.ok v, ⟨w, l.trace ++ [e]⟩)
  | (.error x, w) => (.error (.raised x), ⟨w, l.trace ++ [e]⟩)

/-- The value if there is one. -/
def ofOption : Option α → Act O α
  | some a => pure a
  | none => stuck

/-- No meaning unless `b`. -/
def require (b : Bool) : Act O Unit := if b then pure () else stuck

/-- The second part runs from the log that the first one leaves. -/
theorem bind_apply (x : Act O α) (f : α → Act O β) (l : Log O) :
    (x >>= f) l = match x l with
      | (.ok a, l') => f a l'
      | (.error e, l') => (.error e, l') := rfl

/-- A successful sequence is two successful halves. -/
theorem bind_eq_ok {x : Act O α} {f : α → Act O β} {l l' : Log O} {b : β}
    (h : (x >>= f) l = (.ok b, l')) : ∃ a l₁, x l = (.ok a, l₁) ∧ f a l₁ = (.ok b, l') := by
  rw [bind_apply] at h
  cases hx : x l with
  | mk r l₁ =>
      rw [hx] at h
      cases r with
      | error e => cases h
      | ok a => exact ⟨a, l₁, rfl, h⟩

@[simp] theorem pure_bind (a : α) (f : α → Act O β) : (pure a >>= f) = f a := rfl

@[simp] theorem stuck_bind (f : α → Act O β) : ((stuck : Act O α) >>= f) = stuck := rfl

/-- Doing nothing at the end. -/
@[simp] theorem bind_pure (x : Act O α) : (x >>= pure) = x := by
  funext l
  rw [bind_apply]
  cases x l with
  | mk r l' => cases r <;> rfl

/-- It does not matter how parts are grouped. -/
@[simp] theorem bind_assoc (x : Act O α) (f : α → Act O β) (g : β → Act O γ) :
    (x >>= f >>= g) = x >>= fun a => f a >>= g := by
  funext l
  simp only [bind_apply]
  cases x l with
  | mk r l' => cases r <;> rfl

@[simp] theorem ofOption_some (a : α) : (ofOption (some a) : Act O α) = pure a := rfl

@[simp] theorem ofOption_none : (ofOption none : Act O α) = stuck := rfl

end Act

/-! ## §2. Computations that make the same requests. -/

section Sim

variable {O : Oracle E V} {α β γ δ : Type}

/-- Two results agree: the same log, related values or the same halt. -/
def RelResult (R : α → β → Prop) (p : Except (Halt V) α × Log O)
    (q : Except (Halt V) β × Log O) : Prop :=
  p.2 = q.2 ∧ match p.1, q.1 with
    | .ok a, .ok b => R a b
    | .error e, .error e' => e = e'
    | _, _ => False

/-- Related results are related outcomes. -/
theorem relResult_pure {R : α → β → Prop} {a : α} {b : β} (hab : R a b) (l : Log O) :
    RelResult R ((pure a : Act O α) l) ((pure b : Act O β) l) :=
  ⟨rfl, hab⟩

/-- A computation made on both sides, followed by related results. -/
theorem relResult_bind {R : β → γ → Prop} (x : Act O α) (l : Log O) {f : α → Act O β}
    {g : α → Act O γ}
    (hfg : ∀ a l', x l = (.ok a, l') → RelResult R (f a l') (g a l')) :
    RelResult R ((x >>= f) l) ((x >>= g) l) := by
  rw [Act.bind_apply, Act.bind_apply]
  cases hx : x l with
  | mk r l' =>
      cases r with
      | error e => exact ⟨rfl, rfl⟩
      | ok a => exact hfg a l' hx

/-- For equality the outcomes are equal. -/
theorem relResult_eq_iff {p q : Except (Halt V) α × Log O} : RelResult Eq p q ↔ p = q := by
  obtain ⟨r, l⟩ := p
  obtain ⟨r', l'⟩ := q
  constructor
  · rintro ⟨rfl, h⟩
    cases r <;> cases r' <;> simp only at h <;> subst h <;> rfl
  · rintro ⟨⟩
    refine ⟨rfl, ?_⟩
    cases r <;> rfl

/-- A larger relation. -/
theorem RelResult.mono {R S : α → β → Prop} {p : Except (Halt V) α × Log O}
    {q : Except (Halt V) β × Log O} (h : RelResult R p q)
    (hRS : ∀ a b l, q = (.ok b, l) → R a b → S a b) : RelResult S p q := by
  obtain ⟨r, l⟩ := p
  obtain ⟨r', l'⟩ := q
  obtain ⟨hlog, hr⟩ := h
  refine ⟨hlog, ?_⟩
  cases r <;> cases r' <;> simp only at hr ⊢
  · exact hr
  · exact hRS _ _ l' rfl hr

/-- What a successful result is related to. -/
theorem RelResult.of_ok {R : α → β → Prop} {p : Except (Halt V) α × Log O}
    {q : Except (Halt V) β × Log O} (h : RelResult R p q) {b : β} {l : Log O}
    (hq : q = (.ok b, l)) : ∃ a, p = (.ok a, l) ∧ R a b := by
  subst hq
  obtain ⟨r, l'⟩ := p
  obtain ⟨rfl, hr⟩ := h
  cases r with
  | error e => exact hr.elim
  | ok a => exact ⟨a, rfl, hr⟩

/-- Related results, followed by related results. -/
theorem RelResult.bind {R : α → β → Prop} {S : γ → δ → Prop} {x : Act O α} {y : Act O β}
    {f : α → Act O γ} {g : β → Act O δ} {l : Log O} (h : RelResult R (x l) (y l))
    (hfg : ∀ a b l', y l = (.ok b, l') → R a b → RelResult S (f a l') (g b l')) :
    RelResult S ((x >>= f) l) ((y >>= g) l) := by
  obtain ⟨hlog, hr⟩ := h
  rw [Act.bind_apply, Act.bind_apply]
  cases hx : x l with
  | mk r l₁ =>
      cases hy : y l with
      | mk r' l₂ =>
          rw [hx, hy] at hlog hr
          obtain rfl : l₁ = l₂ := hlog
          cases r <;> cases r' <;> simp only at hr
          · subst hr
            exact ⟨rfl, rfl⟩
          · exact hfg _ _ _ hy hr

/-- `y` makes the requests of `x` and ends like `x`, unless `x` gets stuck. -/
def Sim (R : α → β → Prop) (x : Act O α) (y : Act O β) : Prop :=
  ∀ l, (x l).1 = .error .stuck ∨ RelResult R (x l) (y l)

/-- Nothing is done on either side. -/
theorem Sim.pure {R : α → β → Prop} {a : α} {b : β} (h : R a b) :
    Sim (O := O) R (pure a) (pure b) :=
  fun _ => .inr ⟨rfl, h⟩

/-- A left side that is stuck is simulated by anything. -/
theorem Sim.stuck {R : α → β → Prop} {y : Act O β} : Sim R (Act.stuck : Act O α) y :=
  fun _ => .inl rfl

/-- Both sides perform the same effect and take the same answer. -/
theorem Sim.perform (e : E) : Sim (O := O) Eq (Act.perform e) (Act.perform e) := by
  intro l
  refine .inr ⟨rfl, ?_⟩
  cases ((Act.perform e : Act O V) l).1 <;> rfl

/-- A larger relation. -/
theorem Sim.mono {R S : α → β → Prop} {x : Act O α} {y : Act O β} (h : Sim R x y)
    (hRS : ∀ a b, R a b → S a b) : Sim S x y := by
  intro l
  rcases h l with hs | ⟨hlog, hr⟩
  · exact .inl hs
  · refine .inr ⟨hlog, ?_⟩
    cases hx : (x l).1 <;> cases hy : (y l).1 <;> simp only [hx, hy] at hr ⊢
    · exact hr
    · exact hRS _ _ hr

/-- **The rule of sequence.** -/
theorem Sim.bind {R : α → β → Prop} {S : γ → δ → Prop} {x : Act O α} {y : Act O β}
    {f : α → Act O γ} {g : β → Act O δ} (h : Sim R x y)
    (hfg : ∀ a b, R a b → Sim S (f a) (g b)) : Sim S (x >>= f) (y >>= g) := by
  intro l
  rw [Act.bind_apply, Act.bind_apply]
  rcases h l with hs | ⟨hlog, hr⟩
  · cases hx : x l with
    | mk r l' =>
        rw [hx] at hs
        obtain rfl : r = .error .stuck := hs
        exact .inl rfl
  · cases hx : x l with
    | mk r l₁ =>
        cases hy : y l with
        | mk r' l₂ =>
            rw [hx, hy] at hlog hr
            obtain rfl : l₁ = l₂ := hlog
            cases r <;> cases r' <;> simp only at hr
            · subst hr
              exact .inr ⟨rfl, rfl⟩
            · exact hfg _ _ hr l₁

/-- A function of the result, taken off. -/
theorem Sim.of_map {R : γ → β → Prop} {x : Act O α} {y : Act O β} {f : α → γ}
    (h : Sim R (x >>= fun a => Pure.pure (f a)) y) : Sim (fun a b => R (f a) b) x y := by
  intro l
  have hl := h l
  rw [Act.bind_apply] at hl
  cases hx : x l with
  | mk r l' =>
      rw [hx] at hl
      rcases hl with hs | ⟨hlog, hr⟩
      · cases r with
        | ok a => cases hs
        | error e =>
            cases hs
            exact .inl rfl
      · refine .inr ⟨by cases r <;> exact hlog, ?_⟩
        cases r <;> cases hy : (y l).1 <;> rw [hy] at hr <;> exact hr

/-- The left side goes on with what it demands. -/
theorem Sim.ofOption_bind {ε : Type} {o : Option ε} {S : γ → δ → Prop} {f : ε → Act O γ}
    {y : Act O δ} (h : ∀ a, o = some a → Sim S (f a) y) : Sim S (Act.ofOption o >>= f) y := by
  cases o with
  | none => exact Sim.stuck
  | some a => exact h a rfl

/-- Two simulations one after the other. -/
theorem Sim.trans {R : α → β → Prop} {S : β → γ → Prop} {x : Act O α} {y : Act O β}
    {z : Act O γ} (hxy : Sim R x y) (hyz : Sim S y z) : Sim (fun a c => ∃ b, R a b ∧ S b c) x z := by
  intro l
  rcases hxy l with hs | ⟨hlog, hr⟩
  · exact .inl hs
  · rcases hyz l with hs | ⟨hlog', hr'⟩
    · rw [hs] at hr
      cases hx : (x l).1 with
      | ok a =>
          rw [hx] at hr
          exact hr.elim
      | error e =>
          rw [hx] at hr
          exact .inl (congrArg _ hr)
    · refine .inr ⟨hlog.trans hlog', ?_⟩
      cases hx : (x l).1 <;> cases hy : (y l).1 <;> cases hz : (z l).1 <;>
        simp only [hx, hy, hz] at hr hr' ⊢
      · exact hr.trans hr'
      · exact ⟨_, hr, hr'⟩

/-- The same computation on both sides. -/
theorem Sim.same (x : Act O α) : Sim Eq x x := by
  intro l
  refine .inr ⟨rfl, ?_⟩
  cases (x l).1 <;> rfl

/-- Both sides begin with the same. -/
theorem Sim.same_bind {S : γ → δ → Prop} {x : Act O α} {f : α → Act O γ} {g : α → Act O δ}
    (hfg : ∀ a, Sim S (f a) (g a)) : Sim S (x >>= f) (x >>= g) :=
  (Sim.same x).bind fun a _ h => h ▸ hfg a

/-- The same request on both sides. -/
theorem Sim.perform_bind {S : γ → δ → Prop} {e : E} {f : V → Act O γ} {g : V → Act O δ}
    (hfg : ∀ v, Sim S (f v) (g v)) :
    Sim S (Act.perform e >>= f) (Act.perform e >>= g) :=
  (Sim.perform e).bind fun a _ h => h ▸ hfg a

end Sim

/-! ## §3. The requests of one computation. -/

section Logs

variable {O : Oracle E V} {α β : Type}

/-- The oracle answers `e` with `v` at some time. -/
def Oracle.Answers (O : Oracle E V) (e : E) (v : V) : Prop := ∃ w w', O.perform e w = (.ok v, w')

/-- The oracle raises `v` at some time. -/
def Oracle.Raises (O : Oracle E V) (v : V) : Prop := ∃ e w w', O.perform e w = (.error v, w')

/-- `x` returns some `a` after requests `es` with `P a es`, unless one of its
requests raises an exception. -/
def Logs (x : Act O α) (P : α → List E → Prop) : Prop :=
  ∀ l, (∃ v l', x l = (.error (.raised v), l') ∧ O.Raises v) ∨
    ∃ a l' es, x l = (.ok a, l') ∧ l'.trace = l.trace ++ es ∧ P a es

/-- Nothing is logged. -/
theorem Logs.pure {P : α → List E → Prop} {a : α} (h : P a []) :
    Logs (Pure.pure a : Act O α) P :=
  fun l => .inr ⟨a, l, [], rfl, (List.append_nil _).symm, h⟩

/-- What is logged first, and then what is logged after it. -/
theorem Logs.bind {P : α → List E → Prop} {Q : β → List E → Prop} {x : Act O α}
    {f : α → Act O β} (hx : Logs x P)
    (hf : ∀ a es, P a es → Logs (f a) fun b fs => Q b (es ++ fs)) : Logs (x >>= f) Q := by
  intro l
  rw [Act.bind_apply]
  rcases hx l with ⟨v, l', hrun, hv⟩ | ⟨a, l', es, hrun, htrace, ha⟩
  · rw [hrun]
    exact .inl ⟨v, l', rfl, hv⟩
  · rw [hrun]
    rcases hf a es ha l' with hraised | ⟨b, l'', fs, hrun', htrace', hb⟩
    · exact .inl hraised
    · refine .inr ⟨b, l'', es ++ fs, hrun', ?_, hb⟩
      rw [htrace', htrace, List.append_assoc]

/-- One effect is logged, and its answer is one the oracle gives. -/
theorem Logs.perform (e : E) :
    Logs (Act.perform e : Act O V) fun v es => es = [e] ∧ O.Answers e v := by
  intro l
  unfold Act.perform
  cases h : O.perform e l.world with
  | mk r w =>
      cases r with
      | error v => exact .inl ⟨v, _, rfl, e, l.world, w, h⟩
      | ok v => exact .inr ⟨v, _, [e], rfl, rfl, rfl, l.world, w, h⟩

/-- A weaker description. -/
theorem Logs.mono {P Q : α → List E → Prop} {x : Act O α} (h : Logs x P)
    (hPQ : ∀ a es, P a es → Q a es) : Logs x Q := by
  intro l
  rcases h l with hraised | ⟨a, l', es, hrun, htrace, ha⟩
  · exact .inl hraised
  · exact .inr ⟨a, l', es, hrun, htrace, hPQ a es ha⟩

end Logs

/-! ## §4. Requests are never taken back. -/

namespace Act

variable {O : Oracle E V} {α β : Type}

/-- However `x` ends, the requests before it are still there. -/
def Extends (x : Act O α) : Prop := ∀ l, l.trace <+: (x l).2.trace

/-- The first request of `x` is `e`. -/
def Begins (e : E) (x : Act O α) : Prop := ∀ l, l.trace ++ [e] <+: (x l).2.trace

/-- Doing nothing logs nothing. -/
theorem extends_pure (a : α) : Extends (pure a : Act O α) := fun l => l.trace.prefix_refl

/-- Nor does being stuck. -/
theorem extends_stuck : Extends (stuck : Act O α) := fun l => l.trace.prefix_refl

/-- Nor does a demand. -/
theorem extends_ofOption (o : Option α) : Extends (ofOption o : Act O α) := by
  cases o with
  | none => exact extends_stuck
  | some a => exact extends_pure a

/-- An effect is the first thing logged. -/
theorem begins_perform (e : E) : Begins e (perform e : Act O V) := by
  intro l
  unfold perform
  cases O.perform e l.world with
  | mk r w => cases r <;> exact List.prefix_refl _

/-- What begins with an effect extends the log. -/
theorem Begins.extends {e : E} {x : Act O α} (h : Begins e x) : Extends x :=
  fun l => (List.prefix_append _ _).trans (h l)

/-- Two parts that only add to the log. -/
theorem Extends.bind {x : Act O α} {f : α → Act O β} (hx : Extends x)
    (hf : ∀ a, Extends (f a)) : Extends (x >>= f) := by
  intro l
  have hl := hx l
  rw [bind_apply]
  cases h : x l with
  | mk r l' =>
      rw [h] at hl
      cases r with
      | error e => exact hl
      | ok a => exact hl.trans (hf a l')

/-- What begins the first part begins the whole. -/
theorem Begins.bind {e : E} {x : Act O α} {f : α → Act O β} (hx : Begins e x)
    (hf : ∀ a, Extends (f a)) : Begins e (x >>= f) := by
  intro l
  have hl := hx l
  rw [bind_apply]
  cases h : x l with
  | mk r l' =>
      rw [h] at hl
      cases r with
      | error e => exact hl
      | ok a => exact hl.trans (hf a l')

/-- **Other first requests, other results.** -/
theorem Begins.ne {e e' : E} {x y : Act O α} (hx : Begins e x) (hy : Begins e' y) (hne : e ≠ e')
    (l : Log O) : x l ≠ y l := by
  intro h
  obtain ⟨t, ht⟩ := hx l
  obtain ⟨t', ht'⟩ := hy l
  rw [h, ← ht', List.append_assoc, List.append_assoc] at ht
  exact hne (List.cons.inj (List.append_cancel_left ht)).1

end Act

end OcamlJit.Lib

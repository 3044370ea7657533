/-
  OcamlJit.Lib.Logged
  ───────────────────
  **COMPUTATIONS THAT NOTE WHAT THEY DO.**

  The log is there also when the computation fails.  `Fresh` says that nothing
  is noted twice, and nothing that was seen before; it composes along `>>=`
  when what was seen only grows (`Fresh.bind`), so it is a judgement (`fresh`).
-/
import OcamlJit.Lib.Judgement
import Mathlib.Data.List.Nodup

namespace OcamlJit.Lib

variable {ε β α γ : Type}

/-! ## §1. Logs. -/

/-- How a computation comes out, and what it has noted until then. -/
structure Logged (ε β α : Type) where
  result : Rust ε α
  log : List β

namespace Logged

instance : Monad (Logged ε β) where
  pure a := ⟨.ok a, []⟩
  bind x f := match x.result with
    | .ok a => ⟨(f a).result, x.log ++ (f a).log⟩
    | .error e => ⟨.error e, x.log⟩

/-- Nothing is noted. -/
def silently (x : Rust ε α) : Logged ε β α := ⟨x, []⟩

instance : MonadLift (Rust ε) (Logged ε β) := ⟨silently⟩

/-- An entry of the log. -/
def note (b : β) : Logged ε β Unit := ⟨.ok (), [b]⟩

@[simp] theorem result_pure (a : α) : (pure a : Logged ε β α).result = .ok a := rfl

@[simp] theorem result_silently (x : Rust ε α) : (silently x : Logged ε β α).result = x := rfl

@[simp] theorem result_liftM (x : Rust ε α) : (liftM x : Logged ε β α).result = x := rfl

@[simp] theorem result_note (b : β) : (note b : Logged ε β Unit).result = .ok () := rfl

/-- The result of two parts does not depend on the notes. -/
@[simp] theorem result_bind (x : Logged ε β α) (f : α → Logged ε β γ) :
    (x >>= f).result = x.result >>= fun a => (f a).result := by
  obtain ⟨r, l⟩ := x
  cases r with
  | error e => rfl
  | ok a => rfl

/-- The notes of the first part, and those of the second. -/
theorem log_bind_ok {x : Logged ε β α} {f : α → Logged ε β γ} {a : α} (h : x.result = .ok a) :
    (x >>= f).log = x.log ++ (f a).log := by
  obtain ⟨r, l⟩ := x
  cases h
  rfl

/-- Nothing is noted after a fault. -/
theorem log_bind_error {x : Logged ε β α} {f : α → Logged ε β γ} {e : Fault ε}
    (h : x.result = .error e) : (x >>= f).log = x.log := by
  obtain ⟨r, l⟩ := x
  cases h
  rfl

end Logged

/-! ## §2. Nothing is noted twice. -/

/-- Every entry of the log is a new one: it was not seen before, and is after. -/
structure Fresh (seen : β → Prop) (x : Logged ε β α) (after : α → β → Prop) : Prop where
  nodup : x.log.Nodup
  new : ∀ b ∈ x.log, ¬ seen b
  after : ∀ a, x.result = .ok a → ∀ b, seen b ∨ b ∈ x.log → after a b

section Fresh

variable {seen : β → Prop}

/-- A part that notes nothing notes nothing twice. -/
theorem fresh_silently {x : Rust ε α} {after : α → β → Prop}
    (h : ∀ a, x = .ok a → ∀ b, seen b → after a b) : Fresh seen (Logged.silently x) after := by
  refine ⟨List.nodup_nil, fun b hb => absurd hb List.not_mem_nil, ?_⟩
  intro a ha b hb
  exact h a ha b (hb.resolve_right List.not_mem_nil)

/-- So does a value. -/
theorem fresh_pure {a : α} {after : α → β → Prop} (h : ∀ b, seen b → after a b) :
    Fresh seen (pure a : Logged ε β α) after := by
  refine fresh_silently (x := .ok a) ?_
  intro a' ha
  cases ha
  exact h

/-- What is noted is seen from then on. -/
theorem fresh_note {b : β} (h : ¬ seen b) :
    Fresh seen (Logged.note b : Logged ε β Unit) fun _ b' => seen b' ∨ b' = b := by
  refine ⟨List.nodup_singleton b, ?_, ?_⟩
  · intro b' hb
    rw [List.mem_singleton.mp hb]
    exact h
  · intro _ _ b' hb
    exact hb.imp_right List.mem_singleton.mp

/-- **The rule of sequence**: what the first part saw is not noted by the second. -/
theorem Fresh.bind {x : Logged ε β α} {f : α → Logged ε β γ} {middle : α → β → Prop}
    {after : γ → β → Prop} (hx : Fresh seen x middle)
    (hf : ∀ a, x.result = .ok a → Fresh (middle a) (f a) after) : Fresh seen (x >>= f) after := by
  cases hr : x.result with
  | error e =>
      refine ⟨?_, ?_, ?_⟩
      · rw [Logged.log_bind_error hr]
        exact hx.nodup
      · rw [Logged.log_bind_error hr]
        exact hx.new
      · intro c hc
        rw [Logged.result_bind, hr] at hc
        cases hc
  | ok a =>
      have hfa := hf a hr
      have hmiddle := hx.after a hr
      refine ⟨?_, ?_, ?_⟩
      · rw [Logged.log_bind_ok hr, List.nodup_append]
        refine ⟨hx.nodup, hfa.nodup, ?_⟩
        intro b hb b' hb' heq
        exact hfa.new b' hb' (hmiddle b' (.inr (heq ▸ hb)))
      · rw [Logged.log_bind_ok hr]
        intro b hb hseen
        rcases List.mem_append.mp hb with hb | hb
        · exact hx.new b hb hseen
        · exact hfa.new b hb (hmiddle b (.inl hseen))
      · intro c hc b hb
        rw [Logged.log_bind_ok hr, List.mem_append] at hb
        rw [Logged.result_bind, hr] at hc
        refine hfa.after c hc b ?_
        rcases hb with hb | hb | hb
        · exact .inl (hmiddle b (.inl hb))
        · exact .inl (hmiddle b (.inr hb))
        · exact .inr hb

/-- A weaker description of what was seen. -/
theorem Fresh.mono {x : Logged ε β α} {seen' : β → Prop} {after after' : α → β → Prop}
    (hx : Fresh seen x after) (hseen : ∀ b, seen' b ↔ seen b)
    (hafter : ∀ a b, after a b → after' a b) : Fresh seen' x after' := by
  refine ⟨hx.nodup, fun b hb h => hx.new b hb ((hseen b).mp h), ?_⟩
  intro a ha b hb
  exact hafter a b (hx.after a ha b (hb.imp_left (hseen b).mp))

end Fresh

/-- Everything is noted for the first time. -/
def Judgement.fresh (ε β : Type) : Judgement ε (Logged ε β) (β → Prop) where
  Holds := Fresh
  value _ := fresh_pure fun _ h => h
  andThen hx hf := hx.bind fun a _ => hf a
  result _ ht := fresh_silently fun a ha b hb => by rw [ht a ha]; exact hb

end OcamlJit.Lib

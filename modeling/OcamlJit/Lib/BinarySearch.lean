/-
  OcamlJit.Lib.BinarySearch
  ─────────────────────────
  **BINARY SEARCH FOR A KEY THAT IS THERE.**

  The positions `a, …, b` hold increasing keys, one of them the key looked for.
  `search` probes the upper middle and goes on below it or from it on; it needs
  no more rounds than `b - a` can be halved (`search_finds`).
-/
import Mathlib.Algebra.Ring.Int.Defs
import Mathlib.Algebra.Ring.Nat
import Mathlib.Order.Lattice
import Mathlib.Tactic.Common

namespace OcamlJit.Lib.BinarySearch

variable {κ : Type} [LinearOrder κ]

/-- The middle of `a, …, b`, the upper one of two. -/
def middle (a b : Nat) : Nat := (a + b + 1) / 2

/-- The position of the key `x` among `a, …, b`, and the positions probed. -/
def search (key : Nat → κ) (x : κ) : Nat → Nat → Nat → Option (Nat × List Nat)
  | 0, _, _ => none
  | fuel + 1, a, b =>
      if a < b then
        (if x < key (middle a b) then search key x fuel a (middle a b - 1)
          else search key x fuel (middle a b) b).map fun r => (r.1, middle a b :: r.2)
      else some (a, [])

/-- Later positions hold greater keys. -/
def Increasing (key : Nat → κ) (a b : Nat) : Prop :=
  ∀ i j, a ≤ i → i < j → j ≤ b → key i < key j

variable {key : Nat → κ} {x : κ} {a b k fuel : Nat}

theorem lt_middle (h : a < b) : a < middle a b := by unfold middle; omega

theorem middle_le (h : a < b) : middle a b ≤ b := by unfold middle; omega

/-- The key is not above the middle exactly if the middle is not below its position. -/
theorem Increasing.lt_key_iff (hinc : Increasing key a b) (ha : a ≤ k) (hb : k ≤ b)
    {m : Nat} (hm : a ≤ m) (hm' : m ≤ b) : key k < key m ↔ k < m := by
  constructor
  · intro hlt
    by_contra hge
    rcases Nat.lt_or_eq_of_le (Nat.le_of_not_lt hge) with hmk | hmk
    · exact lt_asymm hlt (hinc m k hm hmk hb)
    · rw [hmk] at hlt
      exact lt_irrefl _ hlt
  · intro hlt
    exact hinc k m ha hlt hm'

/-- A part of the positions. -/
theorem Increasing.mono (hinc : Increasing key a b) {a' b' : Nat} (ha : a ≤ a') (hb : b' ≤ b) :
    Increasing key a' b' := by
  intro i j hi hij hj
  exact hinc i j (by omega) hij (by omega)

/-- **The key is found**, by probing positions among `a + 1, …, b`. -/
theorem search_finds (hinc : Increasing key a b) (ha : a ≤ k) (hb : k ≤ b)
    (hfuel : b - a < 2 ^ fuel) :
    ∃ probes, search key (key k) (fuel + 1) a b = some (k, probes) ∧
      ∀ p ∈ probes, a < p ∧ p ≤ b := by
  induction fuel generalizing a b with
  | zero =>
      -- one position is left
      have hab : ¬ a < b := by omega
      refine ⟨[], ?_, nofun⟩
      unfold search
      rw [if_neg hab, show a = k by omega]
  | succ fuel ih =>
      unfold search
      by_cases hab : a < b
      · rw [if_pos hab]
        have hlo := lt_middle hab
        have hhi := middle_le hab
        have hside := hinc.lt_key_iff ha hb (Nat.le_of_lt hlo) hhi
        rw [Nat.pow_succ] at hfuel
        -- the middle and what is probed on one side of it
        have hprobed : ∀ (a' b' : Nat) (probes : List Nat), a ≤ a' → b' ≤ b →
            (∀ p ∈ probes, a' < p ∧ p ≤ b') → ∀ p ∈ middle a b :: probes, a < p ∧ p ≤ b := by
          intro a' b' probes ha' hb' hprobes p hp
          rcases List.mem_cons.mp hp with rfl | hp
          · exact ⟨hlo, hhi⟩
          · have := hprobes p hp
            omega
        -- the half that holds the key is at most half as long
        by_cases hk : k < middle a b
        · rw [if_pos (hside.mpr hk)]
          obtain ⟨probes, hfound, hprobes⟩ := ih (b := middle a b - 1)
            (hinc.mono (Nat.le_refl a) (by omega)) ha (by omega) (by unfold middle; omega)
          rw [hfound]
          exact ⟨_, rfl, hprobed a _ probes (Nat.le_refl a) (by omega) hprobes⟩
        · rw [if_neg (fun h => hk (hside.mp h))]
          obtain ⟨probes, hfound, hprobes⟩ := ih (a := middle a b)
            (hinc.mono (Nat.le_of_lt hlo) (Nat.le_refl b)) (by omega) hb (by unfold middle; omega)
          rw [hfound]
          exact ⟨_, rfl, hprobed _ b probes (Nat.le_of_lt hlo) (Nat.le_refl b) hprobes⟩
      · rw [if_neg hab]
        exact ⟨[], by rw [show a = k by omega], nofun⟩

end OcamlJit.Lib.BinarySearch

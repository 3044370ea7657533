/-
  OcamlJit.Cranelift.Succeeds
  ───────────────────────────
  **INSTRUCTIONS WHOSE TRANSLATION CANNOT FAIL.**

  `Succeeds m s s'` says that a method started at tracked size `s` succeeds and
  leaves the size at `s'`: it is `Emits` with no fault permitted.  So arithmetic,
  comparisons, vector and bytes accesses, small and large blocks, and the branches on
  a comparison and on a switch are always translated.
-/
import OcamlJit.Cranelift.Simulation
import OcamlJit.Cranelift.Emits

namespace OcamlJit.Cranelift

open OcamlJit.Lib OcamlJit.Instructions OcamlJit.Interp OcamlJit.BasicBlocks

/-! ## §1. Methods that cannot fail. -/

/-- From tracked size `s` the method succeeds, at size `s'`. -/
def Succeeds {α : Type} (m : Emit α) (s s' : Nat) : Prop :=
  ∀ τ, τ.stackSize = s → ∃ a τ' ops, m τ = .ok (a, τ', ops) ∧ τ'.stackSize = s'

/-- No fault. -/
def noFault : Permit := ⟨fun _ => False, True⟩

/-- With no fault permitted a method succeeds. -/
theorem succeeds_iff {α : Type} {m : Emit α} {s s' : Nat} :
    Succeeds m s s' ↔ Emits noFault m s s' := by
  constructor
  · intro h τ hτ
    obtain ⟨a, τ', ops, hm, hsize⟩ := h τ hτ
    refine ⟨fun f hf => ?_, fun a' τ₁ ops₁ hm' => ?_⟩
    · rw [hm] at hf
      cases hf
    · rw [hm] at hm'
      cases hm'
      exact ⟨hsize, fun _ _ _ => trivial⟩
  · intro h τ hτ
    obtain ⟨hfault, hok⟩ := h τ hτ
    cases hm : m τ with
    | error f => exact (hfault f hm).elim
    | ok p => exact ⟨p.1, p.2.1, p.2.2, rfl, (hok _ _ _ hm).1⟩

section Instructions

variable {s : Nat} (k : TranslatorEnv)

/-- **Data instructions are always translated**, if their operands are on the
stack (and the address of an atom fits a word). -/
theorem translateInstruction_succeeds {i : BasicBlockInstruction} {n : Nat}
    (hi : dataPops i = some n) (hn : n ≤ s) (hs : s ≤ k.stackVars)
    (hatom : ∀ tag, i = .makeBlock 0 tag → k.atomTableAddr.toNat + 8 * tag < 2 ^ 64) :
    Succeeds (translateInstruction k i) s (s - n) :=
  succeeds_iff.mpr <| translateInstruction_emits k trivial hi hn
    (fun hlt => absurd hs (Nat.not_le.mpr hlt))
    fun tag h hle => absurd (hatom tag h) (Nat.not_lt.mpr hle)

/-- A branch on a comparison is always translated. -/
theorem branchCmp_succeeds {l l' : Nat} (cmp : Comp) (n : Int) (hl : l < k.blocks)
    (hl' : l' < k.blocks) : Succeeds (translateExit k (.branchCmp cmp n l l')) s s :=
  succeeds_iff.mpr <| branchCmp_emits k cmp n (fun hle => absurd hl (Nat.not_lt.mpr hle))
    fun hle => absurd hl' (Nat.not_lt.mpr hle)

/-- A switch with a case is always translated. -/
theorem switch_succeeds {ints tags : List Nat} (hsome : ints ≠ [] ∨ tags ≠ [])
    (h : ∀ l ∈ ints ++ tags, l < k.blocks) :
    Succeeds (translateExit k (.switch ints tags)) s s :=
  succeeds_iff.mpr <| switch_emits k
    (fun hints htags => hsome.elim (absurd hints) (absurd htags))
    fun l hl hle => absurd (h l hl) (Nat.not_lt.mpr hle)

end Instructions

/-! ## §2. Success and simulation. -/

section Translated

variable {O : Oracle Request Value} (rt : Layout) {s : State}

/-- The recorded instruction is translated by `k`, and the IR does `x`: from every
state that corresponds to `s` at the tracked stack size. -/
def TranslatedBy (O : Oracle Request Value) (rt : Layout) (k : TranslatorEnv)
    (i : BasicBlockInstruction) (s : State) (x : Act O State) : Prop :=
  ∀ (τ : Translator) (σ : IrState), Matches s False τ.stackSize σ →
    τ.stackSize ≤ k.stackVars → ∃ τ' ops, translateInstruction k i τ = .ok ((), τ', ops) ∧
      Sim (fun s' σ' => Matches s' False τ'.stackSize σ') x (runOps rt ops σ)

/-- The recorded instruction is translated, and the IR does `x`: from every
state that corresponds to `s` at the tracked stack size. -/
def TranslatedTo (O : Oracle Request Value) (rt : Layout) (i : BasicBlockInstruction) (s : State)
    (x : Act O State) : Prop :=
  ∀ (k : TranslatorEnv) (τ : Translator) (σ : IrState), Matches s False τ.stackSize σ →
    τ.stackSize ≤ k.stackVars → ∃ τ' ops, translateInstruction k i τ = .ok ((), τ', ops) ∧
      Sim (fun s' σ' => Matches s' False τ'.stackSize σ') x (runOps rt ops σ)

/-- A translation that succeeds and simulates. -/
theorem TranslatedBy.of_sim {k : TranslatorEnv} {x : Act O State} {i : BasicBlockInstruction}
    {n : Nat} (hi : dataPops i = some n) (hn : n ≤ s.stack.length)
    (hatom : ∀ tag, i = .makeBlock 0 tag → k.atomTableAddr.toNat + 8 * tag < 2 ^ 64)
    (hafter : staleAfter False i = False) (hx : blockMeaning rt i s = x)
    (hsim : ∀ (τ : Translator) (σ : IrState), Matches s False τ.stackSize σ →
      InstructionSim O rt k i s False τ σ) : TranslatedBy O rt k i s x := by
  intro τ σ hM hroom
  have hdepth := hM.depth
  obtain ⟨⟨⟩, τ', ops, hτ', -⟩ := translateInstruction_succeeds k hi (by omega) hroom hatom τ rfl
  refine ⟨τ', ops, hτ', ?_⟩
  subst hx
  refine (hsim τ σ hM () τ' ops hτ').mono fun s' σ' hdone => ?_
  unfold Done at hdone
  rwa [hafter] at hdone

/-- A data instruction with a simulation is translated to what it means. -/
theorem TranslatedTo.of_sim {x : Act O State} {i : BasicBlockInstruction} {n : Nat}
    (hi : dataPops i = some n) (hn : n ≤ s.stack.length) (hatom : ∀ tag, i ≠ .makeBlock 0 tag)
    (hafter : staleAfter False i = False) (hx : blockMeaning rt i s = x)
    (hsim : ∀ (k : TranslatorEnv) (τ : Translator) (σ : IrState), Matches s False τ.stackSize σ →
      InstructionSim O rt k i s False τ σ) : TranslatedTo O rt i s x := fun k =>
  TranslatedBy.of_sim rt hi hn (fun tag h => (hatom tag h).elim) hafter hx (hsim k)

/-- The exit is translated, and the IR goes to the block `z` finds. -/
def ExitTranslatedTo (O : Oracle Request Value) (rt : Layout) (e : BasicBlockExit) (s : State)
    (z : Act O Nat) : Prop :=
  ∀ (k : TranslatorEnv) (τ : Translator) (σ : IrState), Matches s False τ.stackSize σ →
    (∀ l ∈ e.targets, l < k.blocks) → ∃ t τ' ops, translateExit k e τ = .ok (t, τ', ops) ∧
      Sim (fun j p => ∃ σ', p = .inl (σ', j) ∧ Matches s False τ'.stackSize σ') z
        (runOps rt ops σ >>= t.run rt)

/-- An exit to another block that succeeds and simulates. -/
theorem ExitTranslatedTo.of_sim {e : BasicBlockExit} {z : Act O Nat}
    (hok : ∀ (k : TranslatorEnv) (n : Nat), (∀ l ∈ e.targets, l < k.blocks) →
      Succeeds (translateExit k e) n n)
    (hz : runExit e s = do pure (.inl (← z)))
    (hsim : ∀ (k : TranslatorEnv) (τ : Translator) (σ : IrState), Matches s False τ.stackSize σ →
      ExitSim O rt k e s False τ σ) : ExitTranslatedTo O rt e s z := by
  intro k τ σ hM hblocks
  obtain ⟨t, τ', ops, hτ', -⟩ := hok k τ.stackSize hblocks τ rfl
  refine ⟨t, τ', ops, hτ', ?_⟩
  rw [← Act.pure_bind () fun _ => z]
  refine (hsim k τ σ hM t τ' ops hτ').bind fun _ σ' hdone => ?_
  unfold ExitDone at hdone
  rw [hz] at hdone
  refine hdone.of_map.mono fun j p hp => ?_
  cases p with
  | inl q =>
      obtain ⟨hj, -, hM'⟩ := hp
      exact ⟨q.1, by rw [hj], hM'⟩
  | inr r => exact hp.elim

end Translated

end OcamlJit.Cranelift

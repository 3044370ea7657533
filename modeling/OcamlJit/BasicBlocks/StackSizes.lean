/-
  OcamlJit.BasicBlocks.StackSizes
  ───────────────────────────────
  **THE RECORDED STACK SIZES AGAINST THE RECORDED INSTRUCTIONS.**

  The search tracks a stack size next to the instructions it records.  Here the
  recorded instructions are replayed by their own stack effects, and the result
  is compared with the recorded sizes (`SizesConsistent`).

  Two things can drive them apart.  `POPTRAP` takes four words off the tracked
  size and is not recorded, and a negative operand of the entry's `GRAB` is
  sign extended for `arity` and cut to 32 bits for the start size.
  `parseToBasicBlocks_sizes` says that nothing else does.
-/
import OcamlJit.BasicBlocks.Reach

namespace OcamlJit.BasicBlocks

open OcamlJit.Lib OcamlJit.Instructions

/-! ## §1. Stack effects. -/

namespace BasicBlockInstruction

/-- The words an instruction takes off the stack and then puts on it. -/
def stackEffect : BasicBlockInstruction → Nat × Nat
  | .push | .setupForPubMet _ => (0, 1)
  | .pop n => (n, 0)
  | .pushRetAddr => (0, 3)
  | .apply1 => (1, 0)
  | .apply2 => (2, 0)
  | .apply3 => (3, 0)
  -- the arguments and the return frame
  | .apply nargs => (nargs + 3, 0)
  -- one of the captured variables, or of the fields, is the accumulator
  | .closure _ nvars => (nvars - 1, 0)
  | .closureRec ls nvars => (nvars - 1, ls.length)
  | .makeBlock size _ | .makeFloatBlock size => (size - 1, 0)
  | .setField _ | .setFloatField _ | .getVecTItem | .getBytesChar => (1, 0)
  | .setVecTItem | .setBytesChar => (2, 0)
  | .arithInt _ | .intCmp _ => (1, 0)
  | .cCall2 _ => (1, 0)
  | .cCall3 _ => (2, 0)
  | .cCall4 _ => (3, 0)
  | .cCall5 _ => (4, 0)
  | .cCallN nargs _ => (nargs - 1, 0)
  | .popTrap => (4, 0)
  | _ => (0, 0)

end BasicBlockInstruction

/-- A stack of `size` words after an effect, unless it goes below the bottom. -/
def applyEffect (size : Nat) (effect : Nat × Nat) : Option Nat :=
  if effect.1 ≤ size then some (size - effect.1 + effect.2) else none

/-- The stack size after the recorded instructions. -/
def replay : Nat → List BasicBlockInstruction → Option Nat
  | size, [] => some size
  | size, i :: is => (applyEffect size i.stackEffect).bind (replay · is)

namespace BasicBlockExit

/-- The stack effect of an exit; for `pushTrap` that of the normal edge. -/
def stackEffect : BasicBlockExit → Nat × Nat
  | .return_ toPop | .tailCall _ toPop => (toPop, 0)
  | .pushTrap _ _ => (0, 4)
  | _ => (0, 0)

/-- The edges of an exit reached at `size`, with the size each successor starts
from. -/
def successors (size : Nat) : BasicBlockExit → List (Nat × Nat)
  | .pushTrap normal trap => [(normal, size + 4), (trap, size)]
  | x => x.targets.map (·, size)

end BasicBlockExit

/-- **The sizes recorded in a closure fit the instructions recorded in it.** -/
structure SizesConsistent (c : BasicClosure) : Prop where
  entry : ∃ b, c.blocks[0]? = some b ∧ b.startStackSize = c.arity
  /-- Replaying a block and its exit gives its end size; `size` is the size at
  the exit, which is what every successor and every return is entered with. -/
  block : ∀ (i : Nat) (b : BasicBlock), c.blocks[i]? = some b → ∃ size,
    replay b.startStackSize b.instructions = some size ∧
    applyEffect size b.exit.stackEffect = some b.endStackSize ∧
    (∀ j s, (j, s) ∈ b.exit.successors size →
      ∃ b', c.blocks[j]? = some b' ∧ b'.startStackSize = s) ∧
    (∀ n, b.exit = .return_ n → size = n) ∧
    (∀ args n, b.exit = .tailCall args n → size = n)
  /-- No size on the way is above the maximum. -/
  bounded : ∀ (i : Nat) (b : BasicBlock), c.blocks[i]? = some b →
    (∀ k s, replay b.startStackSize (b.instructions.take k) = some s →
      s ≤ c.maxStackSize) ∧ b.endStackSize ≤ c.maxStackSize

/-! ## §2. Replaying what a scan recorded. -/

/-- Two stretches are replayed one after the other. -/
theorem replay_append {size : Nat} (is js : List BasicBlockInstruction) :
    replay size (is ++ js) = (replay size is).bind (replay · js) := by
  induction is generalizing size with
  | nil => rfl
  | cons i is ih =>
      simp only [List.cons_append, replay]
      cases applyEffect size i.stackEffect with
      | none => rfl
      | some s => exact ih

/-- A deeper stack changes nothing. -/
theorem applyEffect_add {size size' : Nat} {effect : Nat × Nat}
    (h : applyEffect size effect = some size') (d : Nat) :
    applyEffect (size + d) effect = some (size' + d) := by
  unfold applyEffect at h ⊢
  split at h
  · injection h with h
    rw [if_pos (by omega)]
    congr 1
    omega
  · cases h

/-- The size before is known from the size after. -/
theorem applyEffect_inj {size₁ size₂ r : Nat} {effect : Nat × Nat}
    (h₁ : applyEffect size₁ effect = some r) (h₂ : applyEffect size₂ effect = some r) :
    size₁ = size₂ := by
  unfold applyEffect at h₁ h₂
  split at h₁
  · split at h₂
    · injection h₁ with h₁
      injection h₂ with h₂
      omega
    · cases h₂
  · cases h₁

/-- One instruction. -/
theorem replay_single {size size' : Nat} {i : BasicBlockInstruction}
    (hle : i.stackEffect.1 ≤ size) (hs : size' = size - i.stackEffect.1 + i.stackEffect.2) :
    replay size [i] = some size' := by
  simp only [replay, applyEffect, if_pos hle, Option.bind_some, hs]

/-- Words below those an instruction sequence touches change nothing. -/
theorem replay_add {is : List BasicBlockInstruction} {size size' : Nat}
    (h : replay size is = some size') (d : Nat) :
    replay (size + d) is = some (size' + d) := by
  induction is generalizing size with
  | nil =>
      injection h with h
      rw [← h]
      rfl
  | cons i is ih =>
      simp only [replay] at h ⊢
      obtain ⟨s, hs, h⟩ := Option.bind_eq_some_iff.mp h
      rw [applyEffect_add hs d]
      exact ih h

/-- A checked pop takes what is there. -/
theorem popChecked_eq_ok {size n r : Nat} {t : String} :
    popChecked size n t = .ok r ↔ n ≤ size ∧ r = size - n := by
  unfold popChecked
  rw [bind_eq_ok]
  constructor
  · rintro ⟨_, h, hr⟩
    injection hr with hr
    exact ⟨ensure_eq_ok.mp h, hr.symm⟩
  · rintro ⟨h, rfl⟩
    exact ⟨(), ensure_eq_ok.mpr h, rfl⟩

/-- A block takes one less than its size from the stack. -/
theorem popForBlock_eq_ok {size n r : Nat} {t : String} :
    popForBlock size n t = .ok r ↔ n - 1 ≤ size ∧ r = size - (n - 1) := by
  unfold popForBlock
  split
  · exact popChecked_eq_ok
  · rename_i h
    have hn : n - 1 = 0 := by omega
    simp [hn, pure, Except.pure, eq_comm]

/-- The size the search computes is the effect of what it records, `popTrap`
apart. -/
theorem recordInstr_replay {size size' : Nat} {i : Instruction Nat}
    {pushed : List BasicBlockInstruction} (h : recordInstr size i = .ok (size', pushed))
    (hi : i ≠ .popTrap) (hrec : ∀ ls n, i = .closureRec ls n → ls.length < 2 ^ 32) :
    replay size pushed = some size' ∧
      ∀ k s, replay size (pushed.take k) = some s → s ≤ max size size' := by
  -- an instruction pushes at most one entry, or a `push` and a constant
  suffices hone : replay size pushed = some size' ∧
      (pushed.length ≤ 1 ∨ ∃ n, pushed = [.push, .const n]) by
    obtain ⟨hr, hlen⟩ := hone
    refine ⟨hr, fun k s hs => ?_⟩
    rcases hlen with hlen | ⟨n, rfl⟩
    · cases k with
      | zero =>
          injection hs with hs
          omega
      | succ k =>
          rw [List.take_of_length_le (by omega), hr] at hs
          injection hs with hs
          omega
    · match k with
      | 0 =>
          injection hs with hs
          omega
      | 1 | k + 2 =>
          simp [replay, applyEffect, BasicBlockInstruction.stackEffect] at hs hr
          omega
  cases i
  case popTrap => exact absurd rfl hi
  -- the number of closures is cut to u32 in the effect
  case closureRec ls n =>
    simp only [recordInstr, bind_eq_ok, popForBlock_eq_ok, addU_eq_ok] at h
    obtain ⟨_, ⟨hle, rfl⟩, _, ⟨-, rfl⟩, h⟩ := h
    injection h with h
    simp only [Prod.mk.injEq] at h
    obtain ⟨rfl, rfl⟩ := h
    rw [Nat.mod_eq_of_lt (hrec ls n rfl)]
    exact ⟨replay_single hle rfl, .inl (by simp)⟩
  case setupForPubMet n =>
    simp only [recordInstr, bind_eq_ok, addU_eq_ok, pure, Except.pure, Except.ok.injEq,
      Prod.mk.injEq] at h
    obtain ⟨_, ⟨-, rfl⟩, rfl, rfl⟩ := h
    exact ⟨rfl, .inr ⟨n, rfl⟩⟩
  case apply nargs =>
    simp only [recordInstr, bind_eq_ok, addU_eq_ok, popChecked_eq_ok, pure, Except.pure,
      Except.ok.injEq, Prod.mk.injEq] at h
    obtain ⟨_, ⟨-, rfl⟩, _, ⟨hle, rfl⟩, rfl, rfl⟩ := h
    exact ⟨replay_single hle rfl, .inl (by simp)⟩
  case cCallN nargs id =>
    simp only [recordInstr, bind_eq_ok, subU_eq_ok, popChecked_eq_ok, pure, Except.pure,
      Except.ok.injEq, Prod.mk.injEq] at h
    obtain ⟨_, ⟨-, rfl⟩, _, ⟨hle, rfl⟩, rfl, rfl⟩ := h
    exact ⟨replay_single hle rfl, .inl (by simp)⟩
  case assign | getMethod | getDynMet =>
    simp only [recordInstr, bind_eq_ok, ensure_eq_ok, pure, Except.pure, Except.ok.injEq,
      Prod.mk.injEq] at h
    obtain ⟨_, -, rfl, rfl⟩ := h
    exact ⟨replay_single (Nat.zero_le _) rfl, .inl (by simp)⟩
  -- what is left only pops, only pushes or checks nothing
  all_goals
    simp only [recordInstr, bind_eq_ok, popForBlock_eq_ok, popChecked_eq_ok, addU_eq_ok,
      pure, Except.pure, Except.ok.injEq, Prod.mk.injEq] at h
    first
      | obtain ⟨rfl, rfl⟩ := h
        exact ⟨rfl, .inl (by simp)⟩
      | obtain ⟨_, ⟨hle, rfl⟩, rfl, rfl⟩ := h
        first
          | exact ⟨replay_single hle rfl, .inl (by simp)⟩
          | exact ⟨replay_single (Nat.zero_le _) rfl, .inl (by simp)⟩

/-- `POPTRAP` takes four slots and is not recorded. -/
theorem recordInstr_popTrap {size size' : Nat} {pushed : List BasicBlockInstruction}
    (h : recordInstr size .popTrap = .ok (size', pushed)) :
    size = size' + 4 ∧ pushed = [] := by
  simp only [recordInstr, bind_eq_ok, popChecked_eq_ok, pure, Except.pure, Except.ok.injEq,
    Prod.mk.injEq] at h
  obtain ⟨_, ⟨hle, rfl⟩, rfl, rfl⟩ := h
  exact ⟨by omega, rfl⟩

/-- At the exit instruction the sizes agree, whatever came before. -/
theorem exitOf_sizes {pos size : Nat} {i : Instruction Nat} {x : BlockExit}
    (h : exitOf pos size i = some x) :
    applyEffect size x.exit.stackEffect = some x.endStackSize ∧
      (∀ t s, (t, s) ∈ x.exit.successors size → (t, s) ∈ x.edges) ∧
      (∀ n, x.exit = .return_ n → size = n) ∧
      (∀ args n, x.exit = .tailCall args n → size = n) := by
  cases i <;> simp only [exitOf, Option.ite_none_right_eq_some, Option.some.injEq,
    reduceCtorEq] at h
  case applyTerm | return_ | pushTrap | stop =>
    obtain ⟨hsize, rfl⟩ := h
    simp_all [applyEffect, BasicBlockExit.stackEffect, BasicBlockExit.successors,
      BasicBlockExit.targets]
    try tauto
  all_goals
    subst h
    simp [applyEffect, BasicBlockExit.stackEffect, BasicBlockExit.successors,
      BasicBlockExit.targets]
    try tauto

section Scan

variable {code : List Word} {bs : List Nat} {entry e bound pos size : Nat}
  {q : List (Instruction Nat)} {is : List BasicBlockInstruction} {x : BlockExit}

/-- Where no `popTrap` is reached, replaying what a scan recorded gives the size
the scan had at the exit. -/
theorem Scan.replay_eq (h : Scan code bs e bound q pos size is x)
    (hr : Reached code entry q pos) (hno : ¬ ReachesInstr code entry .popTrap) :
    (∃ s, replay size is = some s ∧
      applyEffect s x.exit.stackEffect = some x.endStackSize ∧
      (∀ t s', (t, s') ∈ x.exit.successors s → (t, s') ∈ x.edges) ∧
      (∀ n, x.exit = .return_ n → s = n) ∧ (∀ args n, x.exit = .tailCall args n → s = n)) ∧
    (∀ k s, replay size (is.take k) = some s → s ≤ bound) ∧ x.endStackSize ≤ bound := by
  induction h with
  | fetch _ hd _ ih => exact ih (hr.fetch hd)
  -- the scan ends with the jump to the next block
  | split _ _ hbound =>
      refine ⟨⟨_, rfl, ?_, ?_, ?_, ?_⟩, ?_, hbound⟩
      · simp [jumpTo, applyEffect, BasicBlockExit.stackEffect]
      · simp [jumpTo, BasicBlockExit.successors, BasicBlockExit.targets]
      · intro n hn
        cases hn
      · intro args n hn
        cases hn
      · intro k s hs
        rw [List.take_nil] at hs
        injection hs with hs
        omega
  | @more i q pos size size' pushed is x hbound hstay hrec _ ih =>
      have hi : i ≠ .popTrap := by
        rintro rfl
        exact hno ⟨q, pos, hr⟩
      obtain ⟨hpushed, hmid⟩ := recordInstr_replay hrec hi hr.queueOk.2.2.1
      obtain ⟨⟨s, hs, hexit⟩, hbounded, hend⟩ :=
        ih (hr.next (fallsThrough_of_not_isControl hstay))
      have hsize' : size' ≤ bound := hbounded 0 size' (by rw [List.take_zero]; rfl)
      refine ⟨⟨s, by rw [replay_append, hpushed]; exact hs, hexit⟩, fun k r hk => ?_, hend⟩
      rw [List.take_append, replay_append] at hk
      obtain ⟨m, hm, hk⟩ := Option.bind_eq_some_iff.mp hk
      by_cases hle : k ≤ pushed.length
      · -- still inside what this instruction pushed
        rw [Nat.sub_eq_zero_of_le hle, List.take_zero] at hk
        injection hk with hk
        have := hmid k m hm
        omega
      -- past it: the sizes are those of the rest
      · rw [List.take_of_length_le (by omega), hpushed] at hm
        injection hm with hm
        rw [← hm] at hk
        exact hbounded _ r hk
  | exit hbound hexit hend =>
      refine ⟨⟨_, rfl, exitOf_sizes hexit⟩, fun k s hs => ?_, hend⟩
      rw [List.take_nil] at hs
      injection hs with hs
      omega

/-- In general the replay is four words high for every `popTrap` passed. -/
theorem Scan.replay_excess (h : Scan code bs e bound q pos size is x) (hq : QueueOk q) :
    ∃ s k, replay size is = some (s + 4 * k) ∧
      applyEffect s x.exit.stackEffect = some x.endStackSize := by
  induction h with
  | fetch _ hd _ ih => exact ih (decodeAt_queueOk hd)
  | @split _ _ _ size =>
      exact ⟨size, 0, rfl, by simp [jumpTo, applyEffect, BasicBlockExit.stackEffect]⟩
  | @more i q pos size size' pushed is x _ _ hrec _ ih =>
      obtain ⟨s, k, hs, hexit⟩ := ih hq.2.2.2
      by_cases hi : i = .popTrap
      · subst hi
        obtain ⟨rfl, rfl⟩ := recordInstr_popTrap hrec
        refine ⟨s, k + 1, ?_, hexit⟩
        rw [List.nil_append, replay_add hs]
        rfl
      · obtain ⟨hpushed, -⟩ := recordInstr_replay hrec hi hq.2.2.1
        refine ⟨s, k, ?_, hexit⟩
        rw [replay_append, hpushed]
        exact hs
  | @exit _ _ _ size _ _ hexit _ => exact ⟨size, 0, rfl, (exitOf_sizes hexit).1⟩

/-- Each `POPTRAP` on the way leaves the replay four too high. -/
theorem Passes.replay_excess {start : Nat} {pre : List BasicBlockInstruction}
    (h : Passes code bs e start q pos size pre) :
    ∃ k, replay start pre = some (size + 4 * k) := by
  induction h with
  | start => exact ⟨0, rfl⟩
  | fetch _ _ _ ih => exact ih
  | @more i q pos size size' pre pushed h _ hrec ih =>
      obtain ⟨k, hk⟩ := ih
      by_cases hi : i = .popTrap
      · subst hi
        obtain ⟨rfl, rfl⟩ := recordInstr_popTrap hrec
        refine ⟨k + 1, ?_⟩
        rw [List.append_nil, hk]
        congr 1
        omega
      · obtain ⟨hpushed, -⟩ := recordInstr_replay hrec hi h.queueOk.2.2.1
        refine ⟨k, ?_⟩
        rw [replay_append, hk]
        exact replay_add hpushed _

/-- Without any the replay is exact. -/
theorem Passes.replay_eq {start : Nat} {pre : List BasicBlockInstruction}
    (h : Passes code bs e start q pos size pre) (hr : Reached code entry [] e)
    (hno : ¬ ReachesInstr code entry .popTrap) : replay start pre = some size := by
  induction h with
  | start => rfl
  | fetch _ _ _ ih => exact ih
  | @more i q pos size size' pre pushed h _ hrec ih =>
      have hi : i ≠ .popTrap := by
        rintro rfl
        exact hno ⟨q, pos, h.reached hr⟩
      rw [replay_append, ih]
      exact (recordInstr_replay hrec hi h.queueOk.2.2.1).1

/-- A block that passes over a `popTrap` does not replay to its end size. -/
theorem Passes.replay_popTrap {start s : Nat} {pre is : List BasicBlockInstruction}
    (h : Passes code bs e start (.popTrap :: q) pos size pre)
    (hscan : Scan code bs e bound [] e start is x) (hs : replay start is = some s) :
    applyEffect s x.exit.stackEffect ≠ some x.endStackSize := by
  intro hend
  obtain ⟨is', rfl, hrest⟩ := h.scan hscan
  obtain ⟨k, hpre⟩ := h.replay_excess
  cases hrest with
  | @more _ _ _ _ size' _ is'' _ _ _ hrec hrest =>
      obtain ⟨rfl, rfl⟩ := recordInstr_popTrap hrec
      obtain ⟨a, m, ha, hexit⟩ := hrest.replay_excess h.queueOk.2.2.2
      rw [List.nil_append, replay_append, hpre, Option.bind_some,
        Nat.add_assoc, replay_add ha] at hs
      injection hs with hs
      have := applyEffect_inj hexit hend
      omega
  | exit _ hexit _ => cases isControl_of_exitOf hexit

end Scan

/-! ## §3. The arity. -/

/-- If the closure starts with `GRAB`, its operand is not negative. -/
def GrabNonneg (code : List Word) (entry : Nat) : Prop :=
  ∀ w n, code[entry]? = some w → Opcode.fromI32 w = some .grab →
    code[entry + 1]? = some n → 0 ≤ n.toInt

/-- The addition does not overflow for an operand that is not negative. -/
theorem usizeOfWord_lt_iff (n : Word) : usizeOfWord n + 1 < 2 ^ 32 ↔ 0 ≤ n.toInt := by
  have hset : (n.setWidth 64).toNat = n.toNat := by
    rw [BitVec.toNat_setWidth]
    exact Nat.mod_eq_of_lt (by omega)
  have htoInt := BitVec.toInt_eq_msb_cond n
  have hlt := n.isLt
  have hmsb := BitVec.msb_eq_decide n
  rw [usizeOfWord, BitVec.toNat_signExtend, hset]
  cases hm : n.msb with
  | false =>
      rw [hm] at htoInt hmsb
      have hsmall := of_decide_eq_false hmsb.symm
      simp only [Bool.false_eq_true, if_false] at htoInt ⊢
      omega
  | true =>
      rw [hm] at htoInt hmsb
      simp only [if_true] at htoInt ⊢
      omega

/-- The start size is the arity exactly when the operand is not negative. -/
theorem arityAt_mod_iff {code : List Word} {entry arity : Nat}
    (h : arityAt code entry = .ok arity) :
    arity % 2 ^ 32 = arity ↔ GrabNonneg code entry := by
  unfold arityAt at h
  cases hw : code[entry]? with
  | none => rw [hw] at h; cases h
  | some w =>
      rw [hw] at h
      simp only at h
      by_cases hg : Opcode.fromI32 w = some .grab
      · rw [if_pos hg] at h
        cases hn : code[entry + 1]? with
        | none => rw [hn] at h; cases h
        | some n =>
            rw [hn] at h
            obtain ⟨-, rfl⟩ := addU_eq_ok.mp h
            rw [Nat.mod_eq_iff_lt (by omega), usizeOfWord_lt_iff]
            constructor
            · rintro hpos w' n' - - hn'
              rw [hn] at hn'
              cases hn'
              exact hpos
            · intro hnn
              exact hnn w n hw hg hn
      · rw [if_neg hg] at h
        injection h with h
        subst h
        refine ⟨fun _ w' n hw' hg' => ?_, fun _ => rfl⟩
        rw [hw] at hw'
        cases hw'
        exact absurd hg' hg

/-! ## §4. The closure. -/

@[simp] theorem stackEffect_mapLabels (f : Nat → Nat) (x : BasicBlockExit) :
    (x.mapLabels f).stackEffect = x.stackEffect := by
  cases x <;> rfl

/-- Renaming the labels renames the successors. -/
theorem successors_mapLabels (f : Nat → Nat) (x : BasicBlockExit) (size : Nat) :
    (x.mapLabels f).successors size = (x.successors size).map fun p => (f p.1, p.2) := by
  cases x <;> simp [BasicBlockExit.mapLabels, BasicBlockExit.successors,
    BasicBlockExit.targets, Function.comp_def]

section Closure

variable {code : List Word} {bs : List Nat} {entry size arity : Nat} {st : SearchState}
  {c : BasicClosure}

/-- Nothing but `popTrap` and a negative arity can spoil the sizes. -/
theorem sizesConsistent_of (h : Searched code bs entry (arity % 2 ^ 32) st)
    (hn : Numbered arity st c) (harity : arity % 2 ^ 32 = arity)
    (hno : ¬ ReachesInstr code entry .popTrap) : SizesConsistent c := by
  constructor
  case entry =>
    obtain ⟨b, x, hb, hstart, -⟩ := hn.origin_of_seen h h.entrySeen
    rw [idOf_entry h] at hb
    exact ⟨b, hb, by rw [hstart, harity, hn.arity]⟩
  case block =>
    intro i b hb
    obtain ⟨o, x, -, horigin, -⟩ := hn.origin_of_block h hb
    obtain ⟨⟨s, hs, heff, hsucc, hret, htail⟩, -, -⟩ :=
      horigin.scan.replay_eq horigin.reached hno
    rw [horigin.exit, horigin.endStackSize]
    refine ⟨s, hs, by rw [stackEffect_mapLabels, heff], ?_, ?_, ?_⟩
    · intro j s' hj
      rw [successors_mapLabels, List.mem_map] at hj
      obtain ⟨⟨t, r⟩, ht, hjs⟩ := hj
      cases hjs
      obtain ⟨b', -, hb', hstart, -⟩ :=
        hn.origin_of_seen h (horigin.edges t r (hsucc t r ht))
      exact ⟨b', hb', hstart⟩
    · intro n hnn
      cases hx : x.exit <;> rw [hx] at hnn <;> cases hnn
      exact hret _ hx
    · intro args n hnn
      cases hx : x.exit <;> rw [hx] at hnn <;> cases hnn
      exact htail _ _ hx
  case bounded =>
    intro i b hb
    obtain ⟨o, x, -, horigin, -⟩ := hn.origin_of_block h hb
    obtain ⟨-, hbounded, hle⟩ := horigin.scan.replay_eq horigin.reached hno
    rw [hn.maxStackSize, horigin.endStackSize]
    exact ⟨hbounded, hle⟩

/-- The end size of a block is what it hands on to every target, unless it
installs a handler. -/
theorem mem_successors_endStackSize {x : BasicBlockExit} {t size' : Nat}
    (hx : ∀ normal trap, x ≠ .pushTrap normal trap)
    (heff : applyEffect size x.stackEffect = some size') (ht : t ∈ x.targets) :
    (t, size') ∈ x.successors size := by
  cases x with
  | pushTrap normal trap => exact absurd rfl (hx normal trap)
  | return_ | tailCall | raise | stop => cases ht
  | branch | branchIf | branchCmp | switch =>
      injection heff with heff
      subst heff
      exact List.mem_map_of_mem ht

/-- A jump goes to a block that starts with the size it has. -/
theorem Numbered.startStackSize_of_target (h : Searched code bs entry size st)
    (hn : Numbered arity st c) {i j : Nat} {b : BasicBlock} (hb : c.blocks[i]? = some b)
    (hx : ∀ normal trap, b.exit ≠ .pushTrap normal trap) (hj : j ∈ b.exit.targets) :
    ∃ b', c.blocks[j]? = some b' ∧ b'.startStackSize = b.endStackSize := by
  obtain ⟨o, x, -, horigin, -⟩ := hn.origin_of_block h hb
  rw [horigin.exit, BasicBlockExit.targets_mapLabels, List.mem_map] at hj
  obtain ⟨t, ht, rfl⟩ := hj
  have hx' : ∀ normal trap, x.exit ≠ .pushTrap normal trap := by
    intro normal trap hxe
    rw [horigin.exit, hxe] at hx
    exact hx _ _ rfl
  have hedge : (t, x.endStackSize) ∈ x.edges := by
    obtain ⟨q, pos, size', -, rfl | ⟨instr, hexit⟩⟩ := horigin.scan.passes_end [] .start
    · simp only [jumpTo, BasicBlockExit.targets, List.mem_singleton] at ht ⊢
      rw [ht]
    · obtain ⟨heff, hsucc, -⟩ := exitOf_sizes hexit
      exact hsucc _ _ (mem_successors_endStackSize hx' heff ht)
  obtain ⟨b', -, hb', hstart, -⟩ := hn.origin_of_seen h (horigin.edges _ _ hedge)
  exact ⟨b', hb', hstart.trans horigin.endStackSize.symm⟩

end Closure

/-- **The recorded sizes are consistent with the recorded instructions exactly
when** no `POPTRAP` is reached from the entry and the operand of the entry's
`GRAB`, if there is one, is not negative. -/
theorem parseToBasicBlocks_sizes (code : List Word) (entry : Nat) (c : BasicClosure)
    (h : parseToBasicBlocks code entry = .ok c) :
    SizesConsistent c ↔ ¬ ReachesInstr code entry .popTrap ∧ GrabNonneg code entry := by
  obtain ⟨arity, st, ⟨bs, -, harity, hv⟩, hn⟩ := parseToBasicBlocks_eq_ok h
  have hs := visit_searched hv
  constructor
  · intro hc
    refine ⟨?_, ?_⟩
    · rintro ⟨q, pos, hr⟩
      obtain ⟨f, hf, p, size, pre, hp, hpass⟩ := reached_passed hs hr
      obtain ⟨b, x, hb, hstart, horigin⟩ := hn.origin_of_seen hs ⟨p, hp, rfl, rfl⟩
      obtain ⟨s, hs', heff, -⟩ := hc.block _ b hb
      rw [horigin.exit, horigin.endStackSize, stackEffect_mapLabels] at heff
      rw [← hstart] at hpass
      exact hpass.replay_popTrap horigin.scan hs' heff
    · rw [← arityAt_mod_iff harity]
      obtain ⟨b, hb, hstart⟩ := hc.entry
      obtain ⟨b', -, hb', hstart', -⟩ := hn.origin_of_seen hs hs.entrySeen
      rw [idOf_entry hs, hb] at hb'
      cases hb'
      rw [← hstart', hstart, hn.arity]
  · rintro ⟨hno, hgrab⟩
    exact sizesConsistent_of hs hn ((arityAt_mod_iff harity).mpr hgrab) hno

/-- The loop `ACC0; CHECK_SIGNALS; BRANCHIF; RETURN 1` meets the condition. -/
theorem parseToBasicBlocks_sizes_loop :
    SizesConsistent ⟨1, [⟨0, [], .first, [.acc 0], .branch 1, 1, 1, []⟩,
        ⟨1, [1, 0], .normal, [.checkSignals], .branchIf 1 2, 1, 1, [1, 2]⟩,
        ⟨2, [1], .normal, [], .return_ 1, 1, 0, []⟩], [], 1, false⟩ ↔
      ¬ ReachesInstr [0, 92, 85, -2, 40, 1] 0 .popTrap ∧
        GrabNonneg [0, 92, 85, -2, 40, 1] 0 :=
  parseToBasicBlocks_sizes _ _ _ (by decide)

/-- **`PUSHTRAP; CONST0; POPTRAP; RETURN 1`**: the block after the trap starts at
size 5, records nothing that pops the trap frame, and returns from size 1. -/
theorem parseToBasicBlocks_popTrap_inconsistent :
    ∃ c, parseToBasicBlocks [89, 5, 99, 90, 40, 1, 40, 1] 0 = .ok c ∧
      ¬ SizesConsistent c := by
  refine ⟨⟨1, [⟨0, [], .first, [], .pushTrap 1 2, 1, 5, [1, 2]⟩,
    ⟨1, [0], .normal, [.const 0], .return_ 1, 5, 0, []⟩,
    ⟨2, [0], .normal, [], .return_ 1, 1, 0, []⟩], [], 5, true⟩, by decide, fun h => ?_⟩
  obtain ⟨s, hs, heff, -⟩ := h.block 1 _ rfl
  cases hs
  exact absurd heff (by decide)

end OcamlJit.BasicBlocks

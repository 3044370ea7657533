/-
  OcamlJit.BasicBlocks.Search
  ───────────────────────────
  **WHAT THE CONVERSION SEARCH DOES.**

  Two facts carry everything that is later proved about `parseToBasicBlocks`:

    • `Scan` — the loop of `visit` without the recursion: the instructions
      walked over from a block's offset, the stack size at each, what is
      recorded, and the exit with the edges it visits,
    • `Explored` — what a call of `visit` adds to the search state: the blocks
      it finishes, in order, each the result of a scan, and the predecessors,
      which are exactly the sources of the edges.

  `Explored` composes (`Explored.append`), so one induction on the fuel gives
  it for every call (`visit_explored`).
-/
import OcamlJit.BasicBlocks.Conversion
import Mathlib.Data.Finset.Card

namespace OcamlJit.BasicBlocks

open OcamlJit.Lib OcamlJit.Instructions

/-! ## §1. One block, without the recursion. -/

/-- An exit as data: the end size and the edges `(target, size)` in the order
they are visited. -/
structure BlockExit where
  exit : BasicBlockExit
  endStackSize : Nat
  edges : List (Nat × Nat)

/-- The exit a control instruction at stack size `size` gives its block;
`position` is the offset after it. -/
def exitOf (position size : Nat) : Instruction Nat → Option BlockExit
  | .applyTerm nargs slotSize =>
      if size = slotSize then some ⟨.tailCall nargs slotSize, 0, []⟩ else none
  | .return_ toPop => if size = toPop then some ⟨.return_ toPop, 0, []⟩ else none
  | .branch l => some ⟨.branch l, size, [(l, size)]⟩
  | .branchIf l => some ⟨.branchIf l position, size, [(position, size), (l, size)]⟩
  | .branchIfNot l => some ⟨.branchIf position l, size, [(l, size), (position, size)]⟩
  | .branchCmp cmp constant l =>
      some ⟨.branchCmp cmp constant l position, size, [(l, size), (position, size)]⟩
  | .switch ints tags => some ⟨.switch ints tags, size, (ints ++ tags).map (·, size)⟩
  | .pushTrap l =>
      if size + 4 < 2 ^ 32 then
        some ⟨.pushTrap position l, size + 4, [(l, size), (position, size + 4)]⟩
      else none
  | .raise kind => some ⟨.raise kind, size, []⟩
  | .stop => if size = 1 then some ⟨.stop, size, []⟩ else none
  | _ => none

/-- Only control instructions end blocks. -/
theorem isControl_of_exitOf {pos size : Nat} {instr : Instruction Nat} {x : BlockExit}
    (h : exitOf pos size instr = some x) : instr.isControl = true := by
  cases instr <;> simp_all [exitOf, Instruction.isControl]

/-- The edges of an exit lead to its labels. -/
theorem mem_targets_of_exitOf {pos size : Nat} {instr : Instruction Nat}
    {x : BlockExit} (h : exitOf pos size instr = some x) (t : Nat) :
    t ∈ x.exit.targets ↔ ∃ s, (t, s) ∈ x.edges := by
  cases instr <;> simp only [exitOf, Option.ite_none_right_eq_some, Option.some.injEq,
    reduceCtorEq] at h
  case applyTerm => obtain ⟨-, rfl⟩ := h; simp [BasicBlockExit.targets]
  case return_ => obtain ⟨-, rfl⟩ := h; simp [BasicBlockExit.targets]
  case stop => obtain ⟨-, rfl⟩ := h; simp [BasicBlockExit.targets]
  case pushTrap =>
    obtain ⟨-, rfl⟩ := h
    simp [BasicBlockExit.targets, or_comm, exists_or]
  all_goals
    subst h
    simp [BasicBlockExit.targets, or_comm, exists_or]

/-- The jump made where a block runs into the start of another one. -/
def jumpTo (l size : Nat) : BlockExit := ⟨.branch l, size, [(l, size)]⟩

/-- The block started at `e` ends before the opcode at `pos`. -/
abbrev SplitAt (bs : List Nat) (e pos : Nat) : Prop := pos ≠ e ∧ pos ∈ bs

/-- The loop of `visit` less the recursive calls, from a queue of instructions
and the offset after them: what is recorded and the exit.  No stack size on the
way is above `bound`. -/
inductive Scan (code : List Word) (bs : List Nat) (e bound : Nat) :
    List (Instruction Nat) → Nat → Nat → List BasicBlockInstruction → BlockExit → Prop where
  | fetch {q : List (Instruction Nat)} {pos pos' size : Nat}
      {is : List BasicBlockInstruction} {x : BlockExit}
      (hsplit : ¬ SplitAt bs e pos) (hd : decodeAt code pos = .ok (q, pos'))
      (hrest : Scan code bs e bound q pos' size is x) :
      Scan code bs e bound [] pos size is x
  | split {q : List (Instruction Nat)} {pos pos' size : Nat}
      (hsplit : SplitAt bs e pos) (hd : decodeAt code pos = .ok (q, pos'))
      (hbound : size ≤ bound) :
      Scan code bs e bound [] pos size [] (jumpTo pos size)
  | more {instr : Instruction Nat} {q : List (Instruction Nat)} {pos size size' : Nat}
      {pushed is : List BasicBlockInstruction} {x : BlockExit}
      (hbound : size ≤ bound) (hstay : instr.isControl = false)
      (hrec : recordInstr size instr = .ok (size', pushed))
      (hrest : Scan code bs e bound q pos size' is x) :
      Scan code bs e bound (instr :: q) pos size (pushed ++ is) x
  | exit {instr : Instruction Nat} {q : List (Instruction Nat)} {pos size : Nat}
      {x : BlockExit} (hbound : size ≤ bound) (hexit : exitOf pos size instr = some x)
      (hend : x.endStackSize ≤ bound) :
      Scan code bs e bound (instr :: q) pos size [] x

section Scan

variable {code : List Word} {bs : List Nat} {e bound pos size : Nat}
  {q : List (Instruction Nat)} {is : List BasicBlockInstruction} {x : BlockExit}

/-- The stack sizes of a scan are below its bound. -/
theorem Scan.size_le (h : Scan code bs e bound q pos size is x) : size ≤ bound := by
  induction h with
  | fetch _ _ _ ih => exact ih
  | split _ _ hbound => exact hbound
  | more hbound => exact hbound
  | exit hbound => exact hbound

/-- A larger bound. -/
theorem Scan.mono {bound' : Nat} (h : Scan code bs e bound q pos size is x)
    (hle : bound ≤ bound') : Scan code bs e bound' q pos size is x := by
  induction h with
  | fetch hsplit hd _ ih => exact .fetch hsplit hd ih
  | split hsplit hd hbound => exact .split hsplit hd (hbound.trans hle)
  | more hbound hstay hrec _ ih => exact .more (hbound.trans hle) hstay hrec ih
  | exit hbound hexit hend => exact .exit (hbound.trans hle) hexit (hend.trans hle)

/-- Every scan ends in an exit whose edges lead to its labels. -/
theorem Scan.mem_targets (h : Scan code bs e bound q pos size is x) (t : Nat) :
    t ∈ x.exit.targets ↔ ∃ s, (t, s) ∈ x.edges := by
  induction h with
  | fetch _ _ _ ih => exact ih
  | split => simp [jumpTo, BasicBlockExit.targets]
  | more _ _ _ _ ih => exact ih
  | exit _ hexit _ => exact mem_targets_of_exitOf hexit t

end Scan

/-! ## §2. What a turn of the loop does. -/

/-- The visits of an exit, one after the other. -/
def visitEdges (visit : Visitor) (entrypoint : Nat) :
    SearchState → List (Nat × Nat) → Conv SearchState
  | st, [] => pure st
  | st, (l, size) :: edges => do
      let st ← visit st l (some entrypoint) size .normal
      visitEdges visit entrypoint st edges

/-- The targets of an exit are visited at one size. -/
theorem visitTargets_eq (visit : Visitor) (e size : Nat) :
    ∀ (ls : List Nat) (st : SearchState),
      visitTargets visit e size st ls = visitEdges visit e st (ls.map (·, size))
  | [], _ => rfl
  | l :: ls, st => by
      simp only [visitTargets, List.map_cons, visitEdges]
      congr 1
      funext st'
      exact visitTargets_eq visit e size ls st'

/-- Visits one after the other. -/
theorem visitEdges_append (visit : Visitor) (e : Nat) :
    ∀ (xs ys : List (Nat × Nat)) (st : SearchState),
      visitEdges visit e st (xs ++ ys)
        = visitEdges visit e st xs >>= fun st => visitEdges visit e st ys
  | [], _, _ => rfl
  | (l, size) :: xs, ys, st => by
      simp only [visitEdges, List.cons_append]
      cases h : visit st l (some e) size .normal with
      | error f => rfl
      | ok st' =>
          simp only [ok_bind]
          exact visitEdges_append visit e xs ys st'

/-- `self.has_trap_handlers = true` in the `PushTrap` case. -/
def SearchState.noteExit (st : SearchState) : BasicBlockExit → SearchState
  | .pushTrap _ _ => { st with hasTrapHandlers := true }
  | _ => st

/-- A label either ends the block with a jump or is passed. -/
theorem turn_labelDef_eq_ok {visit : Visitor} {bs : List Nat} {e pos size l : Nat}
    {st : SearchState} {t : Turn}
    (h : turn visit bs e pos st size (.labelDef l) = .ok t) :
    (SplitAt bs e l ∧ ∃ st', visitEdges visit e st (jumpTo l size).edges = .ok st' ∧
        t = .exit st' size (.branch l)) ∨
      (¬ SplitAt bs e l ∧ t = .more st size []) := by
  simp only [turn] at h
  by_cases hl : SplitAt bs e l
  · rw [if_pos hl] at h
    obtain ⟨st', hv, h⟩ := bind_eq_ok.mp h
    injection h with h
    refine .inl ⟨hl, st', ?_, h.symm⟩
    simp only [jumpTo, visitEdges, hv]
    rfl
  · rw [if_neg hl] at h
    injection h with h
    exact .inr ⟨hl, h.symm⟩

/-- **A turn of the loop** either ends the block with the exit of its
instruction, visiting the edges, or records the instruction and goes on. -/
theorem turn_eq_ok {visit : Visitor} {bs : List Nat} {e pos size : Nat} {st : SearchState}
    {instr : Instruction Nat} {t : Turn} (hl : ∀ l, instr ≠ .labelDef l)
    (h : turn visit bs e pos st size instr = .ok t) :
    (∃ x st', exitOf pos size instr = some x ∧
        visitEdges visit e (st.noteExit x.exit) x.edges = .ok st' ∧
        t = .exit st' x.endStackSize x.exit) ∨
      (instr.isControl = false ∧ ∃ size' pushed,
        recordInstr size instr = .ok (size', pushed) ∧
        t = .more (st.useClosures instr.closureLabels) size' pushed) := by
  cases instr
  case labelDef l => exact absurd rfl (hl l)
  -- the exits that only check the size
  case applyTerm nargs slotSize =>
    obtain ⟨_, hc, h⟩ := bind_eq_ok.mp h
    injection h with h
    exact .inl ⟨_, st, if_pos (ensure_eq_ok.mp hc), rfl, h.symm⟩
  case return_ toPop =>
    obtain ⟨_, hc, h⟩ := bind_eq_ok.mp h
    injection h with h
    have hsize := ensure_eq_ok.mp hc
    refine .inl ⟨_, st, if_pos hsize, rfl, ?_⟩
    rw [← h, hsize, Nat.sub_self]
  -- one visit
  case branch l =>
    obtain ⟨st', hv, h⟩ := bind_eq_ok.mp h
    injection h with h
    refine .inl ⟨_, st', rfl, ?_, h.symm⟩
    simp only [SearchState.noteExit, visitEdges, hv]
    rfl
  -- the integer cases are visited before the tags
  case switch ints tags =>
    obtain ⟨st1, hv1, h⟩ := bind_eq_ok.mp h
    obtain ⟨st2, hv2, h⟩ := bind_eq_ok.mp h
    injection h with h
    refine .inl ⟨_, st2, rfl, ?_, h.symm⟩
    simp only [visitTargets_eq] at hv1 hv2
    simp only [SearchState.noteExit, List.map_append, visitEdges_append, hv1, ok_bind, hv2]
  -- `stack_size + 4` is computed between the two visits
  case pushTrap l =>
    obtain ⟨st1, hv1, h⟩ := bind_eq_ok.mp h
    obtain ⟨size', hsize, h⟩ := bind_eq_ok.mp h
    obtain ⟨hlt, rfl⟩ := addU_eq_ok.mp hsize
    obtain ⟨st2, hv2, h⟩ := bind_eq_ok.mp h
    injection h with h
    refine .inl ⟨_, st2, if_pos hlt, ?_, h.symm⟩
    simp only [SearchState.noteExit, visitEdges, hv1, ok_bind, hv2]
    rfl
  case raise kind =>
    injection h with h
    exact .inl ⟨_, st, rfl, rfl, h.symm⟩
  case stop =>
    obtain ⟨_, hc, h⟩ := bind_eq_ok.mp h
    injection h with h
    exact .inl ⟨_, st, if_pos (ensure_eq_ok.mp hc), rfl, h.symm⟩
  case branchIf | branchIfNot | branchCmp =>
    -- two visits, in the order of the edges
    obtain ⟨st1, hv1, h⟩ := bind_eq_ok.mp h
    obtain ⟨st2, hv2, h⟩ := bind_eq_ok.mp h
    injection h with h
    refine .inl ⟨_, st2, rfl, ?_, h.symm⟩
    simp only [SearchState.noteExit, visitEdges, hv1, ok_bind, hv2]
    rfl
  -- the other instructions are recorded
  all_goals
    obtain ⟨⟨size', pushed⟩, hrec, h⟩ := bind_eq_ok.mp h
    injection h with h
    exact .inr ⟨rfl, size', pushed, hrec, h.symm⟩

/-! ## §3. What a visit adds to the search. -/

/-- A visit to make: from a block or from outside, to an offset, at a stack
size, as a block of the given type. -/
structure Edge where
  source : Option Nat
  target : Nat
  size : Nat
  blockType : BasicBlockType

/-- The edges of a block's exit. -/
def edgesFrom (e : Nat) (edges : List (Nat × Nat)) : List Edge :=
  edges.map fun p => ⟨some e, p.1, p.2, .normal⟩

namespace SearchState

/-- The predecessors collected so far for an offset. -/
def predsOf (st : SearchState) (o : Nat) : List Nat :=
  match st.seen o with
  | some p => p.predecessors
  | none => []

/-- The offset is seen, with this start size and type. -/
def SeenAs (st : SearchState) (o size : Nat) (ty : BasicBlockType) : Prop :=
  ∃ p, st.seen o = some p ∧ p.startStackSize = size ∧ p.blockType = ty

end SearchState

/-- A finished block is the scan of the code from its offset, and the targets
of its edges are seen at the sizes of the edges. -/
structure BlockScanned (code : List Word) (bs : List Nat) (st : SearchState)
    (f : FinishedBlock) : Prop where
  scanned : ∃ p x, st.seen f.offset = some p ∧ f.offset ≤ code.length ∧
    Scan code bs f.offset st.maxStackSize [] f.offset p.startStackSize f.instructions x ∧
    x.exit = f.exit ∧ x.endStackSize = f.endStackSize ∧
    ∀ t s, (t, s) ∈ x.edges → st.SeenAs t s .normal

/-- **What the visits `E` add to the search state**: they finish the blocks
`new`, in this order. -/
structure Explored (code : List Word) (bs : List Nat) (st : SearchState) (E : List Edge)
    (st' : SearchState) (new : List FinishedBlock) : Prop where
  finished : st'.finished = st.finished ++ new
  /-- Seen afterwards: what was seen before and what was finished. -/
  seen_iff : ∀ o, (st'.seen o).isSome ↔ (st.seen o).isSome ∨ o ∈ new.map FinishedBlock.offset
  fresh : ∀ f ∈ new, st.seen f.offset = none
  nodup : (new.map FinishedBlock.offset).Nodup
  /-- Start size and type of a seen block never change. -/
  grows : ∀ o size ty, st.SeenAs o size ty → st'.SeenAs o size ty
  targets : ∀ d ∈ E, st'.SeenAs d.target d.size d.blockType
  /-- A block becomes a predecessor through an edge of `E` or of a new block. -/
  preds : ∀ o q, q ∈ st'.predsOf o ↔ q ∈ st.predsOf o ∨
    (∃ d ∈ E, d.source = some q ∧ d.target = o) ∨
    ∃ f ∈ new, f.offset = q ∧ o ∈ f.exit.targets
  preds_nodup : (∀ o, (st.predsOf o).Nodup) → ∀ o, (st'.predsOf o).Nodup
  blocks : ∀ f ∈ new, BlockScanned code bs st' f
  /-- A new block was reached by `E` or from a block that is finished later. -/
  tree : ∀ l f r, new = l ++ f :: r →
    (∃ d ∈ E, d.target = f.offset) ∨ ∃ g ∈ r, f.offset ∈ g.exit.targets
  types : ∀ f ∈ new, ∃ size ty, st'.SeenAs f.offset size ty ∧
    (ty = .normal ∨ ∃ d ∈ E, d.target = f.offset ∧ d.blockType = ty)
  maxSize : st.maxStackSize ≤ st'.maxStackSize
  traps : st'.hasTrapHandlers = false → st.hasTrapHandlers = false ∧
    ∀ f ∈ new, ∀ normal trap, f.exit ≠ .pushTrap normal trap

section Explored

variable {code : List Word} {bs : List Nat} {st st₁ st₂ : SearchState}
  {E E₁ E₂ : List Edge} {new new₁ new₂ : List FinishedBlock}

theorem Explored.refl : Explored code bs st [] st [] where
  finished := (List.append_nil _).symm
  seen_iff o := by simp
  fresh f hf := (nomatch hf)
  nodup := List.nodup_nil
  grows _ _ _ h := h
  targets d hd := (nomatch hd)
  preds o q := by simp
  preds_nodup h := h
  blocks f hf := (nomatch hf)
  tree l f r h := by simp at h
  types f hf := (nomatch hf)
  maxSize := le_refl _
  traps h := ⟨h, fun f hf => (nomatch hf)⟩

/-- A block stays scanned while what is known of the offsets only grows. -/
theorem BlockScanned.mono {f : FinishedBlock} (h : BlockScanned code bs st₁ f)
    (hgrows : ∀ o size ty, st₁.SeenAs o size ty → st₂.SeenAs o size ty)
    (hmax : st₁.maxStackSize ≤ st₂.maxStackSize) : BlockScanned code bs st₂ f := by
  obtain ⟨p, x, hp, hlen, hscan, hexit, hend, hedges⟩ := h.scanned
  obtain ⟨p', hp', hsize, -⟩ := hgrows f.offset _ _ ⟨p, hp, rfl, rfl⟩
  refine ⟨p', x, hp', hlen, ?_, hexit, hend, fun t s ht => hgrows _ _ _ (hedges t s ht)⟩
  rw [hsize]
  exact hscan.mono hmax

/-- **Visits compose.** -/
theorem Explored.append (h₁ : Explored code bs st E₁ st₁ new₁)
    (h₂ : Explored code bs st₁ E₂ st₂ new₂) :
    Explored code bs st (E₁ ++ E₂) st₂ (new₁ ++ new₂) where
  finished := by rw [h₂.finished, h₁.finished, List.append_assoc]
  seen_iff o := by
    rw [h₂.seen_iff, h₁.seen_iff, List.map_append, List.mem_append, or_assoc]
  -- a block of the second part was not seen after the first, so not before it either
  fresh f hf := by
    rcases List.mem_append.mp hf with hf | hf
    · exact h₁.fresh f hf
    · have hnone := h₂.fresh f hf
      have hiff := h₁.seen_iff f.offset
      rw [hnone] at hiff
      cases hs : st.seen f.offset with
      | none => rfl
      | some p => simp [hs] at hiff
  nodup := by
    rw [List.map_append]
    refine List.Nodup.append h₁.nodup h₂.nodup ?_
    intro o ho₁ ho₂
    obtain ⟨f, hf, rfl⟩ := List.mem_map.mp ho₂
    have hseen := (h₁.seen_iff f.offset).mpr (.inr ho₁)
    rw [h₂.fresh f hf] at hseen
    exact absurd hseen (by simp)
  grows o size ty h := h₂.grows o size ty (h₁.grows o size ty h)
  targets d hd := by
    rcases List.mem_append.mp hd with hd | hd
    · exact h₂.grows _ _ _ (h₁.targets d hd)
    · exact h₂.targets d hd
  -- the three sources of a predecessor: before, an edge given, an edge found
  preds o q := by
    rw [h₂.preds, h₁.preds]
    constructor
    · rintro ((h | ⟨d, hd, h⟩ | ⟨f, hf, h⟩) | ⟨d, hd, h⟩ | ⟨f, hf, h⟩)
      · exact .inl h
      · exact .inr (.inl ⟨d, List.mem_append_left _ hd, h⟩)
      · exact .inr (.inr ⟨f, List.mem_append_left _ hf, h⟩)
      · exact .inr (.inl ⟨d, List.mem_append_right _ hd, h⟩)
      · exact .inr (.inr ⟨f, List.mem_append_right _ hf, h⟩)
    · rintro (h | ⟨d, hd, h⟩ | ⟨f, hf, h⟩)
      · exact .inl (.inl h)
      · rcases List.mem_append.mp hd with hd | hd
        · exact .inl (.inr (.inl ⟨d, hd, h⟩))
        · exact .inr (.inl ⟨d, hd, h⟩)
      · rcases List.mem_append.mp hf with hf | hf
        · exact .inl (.inr (.inr ⟨f, hf, h⟩))
        · exact .inr (.inr ⟨f, hf, h⟩)
  preds_nodup h := h₂.preds_nodup (h₁.preds_nodup h)
  blocks f hf := by
    rcases List.mem_append.mp hf with hf | hf
    · exact (h₁.blocks f hf).mono h₂.grows h₂.maxSize
    · exact h₂.blocks f hf
  tree l f r h := by
    rcases List.append_eq_append_iff.mp h with ⟨m, rfl, hm⟩ | ⟨m, rfl, hm⟩
    · -- the block is one of the second part
      rcases h₂.tree m f r hm with ⟨d, hd, ht⟩ | hlater
      · exact .inl ⟨d, List.mem_append_right _ hd, ht⟩
      · exact .inr hlater
    -- the block is one of the first part, and a later one may be in either
    · cases m with
      | nil =>
          rcases h₂.tree [] f r (by simpa using hm.symm) with ⟨d, hd, ht⟩ | hlater
          · exact .inl ⟨d, List.mem_append_right _ hd, ht⟩
          · exact .inr hlater
      | cons g m =>
          rw [List.cons_append, List.cons.injEq] at hm
          obtain ⟨rfl, rfl⟩ := hm
          rcases h₁.tree l f m rfl with ⟨d, hd, ht⟩ | ⟨g, hg, ht⟩
          · exact .inl ⟨d, List.mem_append_left _ hd, ht⟩
          · exact .inr ⟨g, List.mem_append_left _ hg, ht⟩
  types f hf := by
    rcases List.mem_append.mp hf with hf | hf
    · obtain ⟨size, ty, hseen, h⟩ := h₁.types f hf
      refine ⟨size, ty, h₂.grows _ _ _ hseen, h.imp_right ?_⟩
      rintro ⟨d, hd, h⟩
      exact ⟨d, List.mem_append_left _ hd, h⟩
    · obtain ⟨size, ty, hseen, h⟩ := h₂.types f hf
      refine ⟨size, ty, hseen, h.imp_right ?_⟩
      rintro ⟨d, hd, h⟩
      exact ⟨d, List.mem_append_right _ hd, h⟩
  maxSize := h₁.maxSize.trans h₂.maxSize
  traps h := by
    obtain ⟨ht₁, hnew₂⟩ := h₂.traps h
    obtain ⟨ht, hnew₁⟩ := h₁.traps ht₁
    refine ⟨ht, fun f hf => ?_⟩
    rcases List.mem_append.mp hf with hf | hf
    · exact hnew₁ f hf
    · exact hnew₂ f hf

/-- Bookkeeping before the visits (used closures, the maximal size, the trap
flag) does not matter. -/
theorem Explored.of_bookkeeping (h : Explored code bs st₁ E st₂ new)
    (hseen : st₁.seen = st.seen) (hfin : st₁.finished = st.finished)
    (hmax : st.maxStackSize ≤ st₁.maxStackSize)
    (htrap : st₁.hasTrapHandlers = false → st.hasTrapHandlers = false) :
    Explored code bs st E st₂ new where
  finished := by rw [h.finished, hfin]
  seen_iff o := by rw [h.seen_iff, hseen]
  fresh f hf := by rw [← hseen]; exact h.fresh f hf
  nodup := h.nodup
  grows o size ty hs := h.grows o size ty (by
    unfold SearchState.SeenAs at hs ⊢
    rw [hseen]
    exact hs)
  targets := h.targets
  preds o q := by
    rw [h.preds]
    unfold SearchState.predsOf
    rw [hseen]
  preds_nodup hn := h.preds_nodup (by
    unfold SearchState.predsOf at hn ⊢
    rw [hseen]
    exact hn)
  blocks := h.blocks
  tree := h.tree
  types := h.types
  maxSize := hmax.trans h.maxSize
  traps ht := ⟨htrap (h.traps ht).1, (h.traps ht).2⟩

end Explored

/-! ## §4. Every visit. -/

section Visit

variable {code : List Word} {bs : List Nat} {visit : Visitor}

/-- What is to be shown of `visit`, and what its loop uses of the recursive
calls. -/
def VisitorSpec (code : List Word) (bs : List Nat) (visit : Visitor) : Prop :=
  ∀ st o p size ty st', visit st o p size ty = .ok st' →
    ∃ new, Explored code bs st [⟨p, o, size, ty⟩] st' new

/-- The edges of a block explore. -/
theorem visitEdges_explored (hv : VisitorSpec code bs visit) (e : Nat) :
    ∀ (edges : List (Nat × Nat)) (st st' : SearchState),
      visitEdges visit e st edges = .ok st' →
      ∃ new, Explored code bs st (edgesFrom e edges) st' new
  | [], st, st', h => by
      injection h with h
      subst h
      exact ⟨[], .refl⟩
  | (l, size) :: edges, st, st', h => by
      obtain ⟨st₁, h₁, h⟩ := bind_eq_ok.mp h
      obtain ⟨new₁, hex₁⟩ := hv _ _ _ _ _ _ h₁
      obtain ⟨new₂, hex₂⟩ := visitEdges_explored hv e edges st₁ st' h
      exact ⟨new₁ ++ new₂, hex₁.append hex₂⟩

/-- The edges of an exit, explored from the state the loop was in. -/
theorem exit_explored (hv : VisitorSpec code bs visit) {e size : Nat} {x : BlockExit}
    {st st₂ : SearchState}
    (h : visitEdges visit e ((st.noteStackSize size).noteExit x.exit) x.edges = .ok st₂) :
    ∃ new, Explored code bs st (edgesFrom e x.edges) st₂ new ∧ size ≤ st₂.maxStackSize ∧
      ∀ normal trap, x.exit = .pushTrap normal trap → st₂.hasTrapHandlers = true := by
  obtain ⟨new, hex⟩ := visitEdges_explored hv e _ _ _ h
  have hnoted : ((st.noteStackSize size).noteExit x.exit).maxStackSize
      = (st.noteStackSize size).maxStackSize := by
    cases x.exit <;> rfl
  have hmax := hex.maxSize
  rw [hnoted] at hmax
  refine ⟨new, ?_, (Nat.le_max_right _ _).trans hmax, ?_⟩
  · refine hex.of_bookkeeping (by cases x.exit <;> rfl) (by cases x.exit <;> rfl)
      (by rw [hnoted]; exact Nat.le_max_left _ _) ?_
    cases x.exit <;> simp [SearchState.noteExit, SearchState.noteStackSize]
  · intro normal trap hpt
    cases htrap : st₂.hasTrapHandlers with
    | true => rfl
    | false =>
        have := (hex.traps htrap).1
        simp [hpt, SearchState.noteExit] at this

/-- What the loop of `visit` comes to: a scan, the visits of its edges, one
finished block. -/
def LoopDone (code : List Word) (bs : List Nat) (e : Nat) (q : List (Instruction Nat))
    (pos : Nat) (st : SearchState) (size : Nat) (is : List BasicBlockInstruction)
    (st' : SearchState) : Prop :=
  ∃ js x st₂ new, Scan code bs e st'.maxStackSize q pos size js x ∧
    Explored code bs st (edgesFrom e x.edges) st₂ new ∧
    (∀ normal trap, x.exit = .pushTrap normal trap → st₂.hasTrapHandlers = true) ∧
    st' = (st₂.noteStackSize x.endStackSize).finish ⟨e, is ++ js, x.exit, x.endStackSize⟩

/-- What parses parses. -/
theorem liftParse_eq_ok {α : Type} {r : Rust InstructionParseError α} {a : α}
    (h : liftParse r = .ok a) : r = .ok a := by
  cases r with
  | ok b => exact congrArg _ (Except.ok.inj h)
  | error f => cases f <;> exact (nomatch h)

/-- **A run of the loop** is a scan, and the search that its exit makes. -/
theorem visitLoop_eq_ok (hv : VisitorSpec code bs visit) (e : Nat) :
    ∀ (items : List Item) (q : List (Instruction Nat)) (pos : Nat) (st : SearchState)
      (size : Nat) (is : List BasicBlockInstruction) (st' : SearchState),
      items = itemsAt code q pos → QueueOk q →
      visitLoop visit bs e items st size is = .ok st' →
      LoopDone code bs e q pos st size is st'
  | [], _, _, _, _, _, _, _, _, h => (nomatch h)
  | (r, p) :: items, q, pos, st, size, is, st', hitems, hq, h => by
      obtain ⟨instr, hinstr, h⟩ := bind_eq_ok.mp h
      obtain ⟨t, ht, h⟩ := bind_eq_ok.mp h
      obtain rfl := liftParse_eq_ok hinstr
      cases q with
      | nil =>
          -- a new opcode: its label comes first
          obtain ⟨q', pos', hd, rfl, hrest⟩ := itemsAt_nil_eq_cons hitems.symm
          -- a start of another block ends this one with a jump
          rcases turn_labelDef_eq_ok ht with ⟨hsplit, st₂, hedges, rfl⟩ | ⟨hsplit, rfl⟩
          · injection h with h
            obtain ⟨new, hex, hle, -⟩ :=
              exit_explored hv (x := jumpTo pos size) hedges
            refine ⟨[], jumpTo pos size, st₂, new, ?_, hex, ?_, ?_⟩
            · refine .split hsplit hd ?_
              rw [← h]
              exact hle.trans (Nat.le_max_left _ _)
            · exact fun _ _ hpt => (nomatch hpt)
            · rw [← h, List.append_nil]
              rfl
          · obtain ⟨js, x, st₂, new, hscan, hex, htrap, hst'⟩ :=
              visitLoop_eq_ok hv e items q' pos' _ size _ st' hrest (decodeAt_queueOk hd) h
            refine ⟨js, x, st₂, new, .fetch hsplit hd hscan, ?_, htrap, ?_⟩
            · exact hex.of_bookkeeping rfl rfl (Nat.le_max_left _ _) id
            · rw [hst', List.append_nil]
      | cons i q =>
          obtain ⟨hhead, hrest⟩ := List.cons.inj hitems
          simp only [Prod.mk.injEq, Except.ok.injEq] at hhead
          obtain ⟨rfl, rfl⟩ := hhead
          -- an exit ends the scan, anything else is pushed and the loop goes on
          rcases turn_eq_ok hq.1 ht with
            ⟨x, st₂, hx, hedges, rfl⟩ | ⟨hstay, size', pushed, hrec, rfl⟩
          · injection h with h
            obtain ⟨new, hex, hle, htrap⟩ := exit_explored hv hedges
            refine ⟨[], x, st₂, new, ?_, hex, htrap, by rw [← h, List.append_nil]⟩
            rw [← h]
            exact .exit (hle.trans (Nat.le_max_left _ _)) hx (Nat.le_max_right _ _)
          · obtain ⟨js, x, st₂, new, hscan, hex, htrap, hst'⟩ :=
              visitLoop_eq_ok hv e items q p _ size' (is ++ pushed) st' hrest hq.2.2.2 h
            have hmax : size ≤ st'.maxStackSize := by
              have hle := hex.maxSize
              rw [hst']
              exact ((Nat.le_max_right _ _).trans hle).trans (Nat.le_max_left _ _)
            refine ⟨pushed ++ js, x, st₂, new, .more hmax hstay hrec hscan, ?_, htrap, ?_⟩
            · exact hex.of_bookkeeping rfl rfl (Nat.le_max_left _ _) id
            · rw [hst', List.append_assoc]

end Visit

section SetSeen

variable {st : SearchState} {o : Nat} {p : PendingBlock}

/-- Only one offset is seen. -/
theorem setSeen_seen (o' : Nat) :
    (st.setSeen o p).seen o' = if o' = o then some p else st.seen o' := by
  simp [SearchState.setSeen, Function.update_apply]

/-- And only its predecessors change. -/
theorem setSeen_predsOf (o' : Nat) :
    (st.setSeen o p).predsOf o' = if o' = o then p.predecessors else st.predsOf o' := by
  unfold SearchState.predsOf
  rw [setSeen_seen]
  by_cases h : o' = o <;> simp [h]

/-- Replacing the entry of `o` keeps what is known of every seen offset. -/
theorem setSeen_seenAs {o' size : Nat} {ty : BasicBlockType} (h : st.SeenAs o' size ty)
    (hold : ∀ q, st.seen o = some q →
      p.startStackSize = q.startStackSize ∧ p.blockType = q.blockType) :
    (st.setSeen o p).SeenAs o' size ty := by
  obtain ⟨q, hq, hsize, hty⟩ := h
  unfold SearchState.SeenAs
  rw [setSeen_seen]
  by_cases ho : o' = o
  · subst ho
    obtain ⟨h₁, h₂⟩ := hold q hq
    exact ⟨p, if_pos rfl, h₁.trans hsize, h₂.trans hty⟩
  · exact ⟨q, by rw [if_neg ho, hq], hsize, hty⟩

/-- A predecessor more, if there is one. -/
theorem mem_insertPredecessor {ps : List Nat} {source : Option Nat} {q : Nat} :
    q ∈ insertPredecessor ps source ↔ q ∈ ps ∨ source = some q := by
  cases source with
  | none => simp [insertPredecessor]
  | some p =>
      simp only [insertPredecessor, List.mem_insert_iff, Option.some.injEq]
      tauto

/-- No predecessor is there twice. -/
theorem insertPredecessor_nodup {ps : List Nat} {source : Option Nat} (h : ps.Nodup) :
    (insertPredecessor ps source).Nodup := by
  cases source with
  | none => exact h
  | some p => exact h.insert

variable {source : Option Nat} (hp : p.predecessors = insertPredecessor (st.predsOf o) source)

include hp

/-- An entry that takes up a predecessor: nothing else becomes a predecessor. -/
theorem mem_predsOf_setSeen (o' q : Nat) :
    q ∈ (st.setSeen o p).predsOf o' ↔ q ∈ st.predsOf o' ∨ (source = some q ∧ o = o') := by
  rw [setSeen_predsOf]
  by_cases ho : o' = o
  · rw [if_pos ho, hp, mem_insertPredecessor, ho]
    simp
  · rw [if_neg ho]
    simp [Ne.symm ho]

/-- Seeing an offset keeps the predecessors apart. -/
theorem predsOf_setSeen_nodup (hn : ∀ o, (st.predsOf o).Nodup) (o' : Nat) :
    ((st.setSeen o p).predsOf o').Nodup := by
  rw [setSeen_predsOf]
  by_cases ho : o' = o
  · rw [if_pos ho, hp]
    exact insertPredecessor_nodup (hn o)
  · rw [if_neg ho]
    exact hn o'

end SetSeen

section Cases

variable {code : List Word} {bs : List Nat} {st : SearchState}

/-- A visit of a block seen before only adds a predecessor. -/
theorem explored_seen {e : Nat} {source : Option Nat} {existing : PendingBlock}
    (hseen : st.seen e = some existing) :
    Explored code bs st [⟨source, e, existing.startStackSize, existing.blockType⟩]
      (st.setSeen e { existing with
        predecessors := insertPredecessor existing.predecessors source }) [] := by
  have hpreds : insertPredecessor existing.predecessors source =
      insertPredecessor (st.predsOf e) source := by
    simp [SearchState.predsOf, hseen]
  have hold : ∀ q, st.seen e = some q →
      existing.startStackSize = q.startStackSize ∧ existing.blockType = q.blockType := by
    intro q hq
    rw [hseen] at hq
    cases hq
    exact ⟨rfl, rfl⟩
  constructor
  case finished => exact (List.append_nil _).symm
  case seen_iff =>
    intro o
    rw [setSeen_seen]
    by_cases ho : o = e <;> simp [ho, hseen]
  case fresh => exact fun f hf => (nomatch hf)
  case nodup => exact List.nodup_nil
  case grows => exact fun o size ty h => setSeen_seenAs h hold
  case targets =>
    intro d hd
    rw [List.mem_singleton] at hd
    subst hd
    exact setSeen_seenAs ⟨existing, hseen, rfl, rfl⟩ hold
  -- one more predecessor
  case preds =>
    intro o q
    rw [mem_predsOf_setSeen hpreds]
    simp
  case preds_nodup => exact predsOf_setSeen_nodup hpreds
  case blocks => exact fun f hf => (nomatch hf)
  case tree => exact fun l f r h => by simp at h
  case types => exact fun f hf => (nomatch hf)
  case maxSize => exact le_refl _
  case traps => exact fun h => ⟨h, fun f hf => (nomatch hf)⟩

/-- What comes before the last element of a list, and what comes after it. -/
theorem concat_eq_append_cons {α : Type} {xs l r : List α} {x y : α}
    (h : xs ++ [x] = l ++ y :: r) : (r = [] ∧ y = x) ∨ ∃ r', r = r' ++ [x] ∧ xs = l ++ y :: r' := by
  rcases List.eq_nil_or_concat r with rfl | ⟨r', z, rfl⟩
  · obtain ⟨-, hx⟩ := List.append_inj' h rfl
    exact .inl ⟨rfl, (List.cons.inj hx).1.symm⟩
  · rw [List.concat_eq_append, ← List.cons_append, ← List.append_assoc] at h
    obtain ⟨hxs, hx⟩ := List.append_inj' h rfl
    exact .inr ⟨r', by rw [List.concat_eq_append, (List.cons.inj hx).1], hxs⟩

/-- The edges of a block have it as their source. -/
theorem edgesFrom_source {e o q : Nat} {edges : List (Nat × Nat)} :
    (∃ d ∈ edgesFrom e edges, d.source = some q ∧ d.target = o) ↔
      e = q ∧ ∃ d ∈ edgesFrom e edges, d.target = o := by
  constructor
  · rintro ⟨d, hd, hq, ho⟩
    obtain ⟨p, -, rfl⟩ := List.mem_map.mp hd
    exact ⟨by simpa using hq, _, hd, ho⟩
  · rintro ⟨rfl, d, hd, ho⟩
    obtain ⟨p, -, rfl⟩ := List.mem_map.mp hd
    exact ⟨_, hd, rfl, ho⟩

/-- A visit of a new block: its scan, what its edges explore, and the block
itself, finished last. -/
theorem explored_new {e size : Nat} {source : Option Nat} {ty : BasicBlockType}
    {js : List BasicBlockInstruction} {x : BlockExit} {st₂ st' : SearchState}
    {new : List FinishedBlock} (hnone : st.seen e = none) (hlen : e ≤ code.length)
    (hscan : Scan code bs e st'.maxStackSize [] e size js x)
    (hex : Explored code bs
      (st.setSeen e ⟨ty, size, insertPredecessor [] source⟩) (edgesFrom e x.edges) st₂ new)
    (htrap : ∀ normal trap, x.exit = .pushTrap normal trap → st₂.hasTrapHandlers = true)
    (hst' : st' = (st₂.noteStackSize x.endStackSize).finish ⟨e, js, x.exit, x.endStackSize⟩) :
    Explored code bs st [⟨source, e, size, ty⟩] st'
      (new ++ [⟨e, js, x.exit, x.endStackSize⟩]) := by
  have hseen' : st'.seen = st₂.seen := by rw [hst']; rfl
  have hkeep : ∀ o s t, st₂.SeenAs o s t → st'.SeenAs o s t := by
    unfold SearchState.SeenAs
    rw [hseen']
    exact fun _ _ _ => id
  -- the visit records the block before it looks at an instruction
  have hentry : st'.SeenAs e size ty := by
    refine hkeep _ _ _ (hex.grows e size ty ⟨⟨ty, size, insertPredecessor [] source⟩, ?_, rfl, rfl⟩)
    rw [setSeen_seen, if_pos rfl]
  have hpred : ∀ o, st'.predsOf o = st₂.predsOf o := by
    intro o
    unfold SearchState.predsOf
    rw [hseen']
  have hnoPreds : insertPredecessor [] source = insertPredecessor (st.predsOf e) source := by
    simp [SearchState.predsOf, hnone]
  -- nothing below finishes the block itself
  have hnotIn : ∀ f ∈ new, f.offset ≠ e := by
    intro f hf he
    have := hex.fresh f hf
    rw [setSeen_seen, if_pos he] at this
    cases this
  have hmax : st₂.maxStackSize ≤ st'.maxStackSize := by
    rw [hst']
    exact Nat.le_max_left _ _
  have hedge : ∀ o, (∃ d ∈ edgesFrom e x.edges, d.target = o) ↔ o ∈ x.exit.targets := by
    intro o
    rw [hscan.mem_targets]
    simp [edgesFrom]
  constructor
  -- the block is finished after what its edges explore
  case finished =>
    rw [hst']
    show st₂.finished ++ _ = _
    rw [hex.finished, List.append_assoc]
    rfl
  case seen_iff =>
    intro o
    rw [hseen', hex.seen_iff, setSeen_seen]
    by_cases ho : o = e <;> simp [ho, hnone]
  case fresh =>
    intro f hf
    rcases List.mem_append.mp hf with hf | hf
    · have := hex.fresh f hf
      rwa [setSeen_seen, if_neg (hnotIn f hf)] at this
    · rw [List.mem_singleton.mp hf]
      exact hnone
  case nodup =>
    rw [List.map_append]
    refine List.Nodup.append hex.nodup (List.nodup_singleton _) ?_
    intro o ho ho'
    obtain ⟨f, hf, rfl⟩ := List.mem_map.mp ho
    exact hnotIn f hf (by simpa using ho')
  case grows =>
    intro o s t h
    refine hkeep _ _ _ (hex.grows o s t (setSeen_seenAs h fun q hq => ?_))
    rw [hnone] at hq
    cases hq
  case targets =>
    intro d hd
    rw [List.mem_singleton] at hd
    subst hd
    exact hentry
  -- the source of the visit is the first predecessor
  case preds =>
    intro o q
    rw [hpred, hex.preds, edgesFrom_source, hedge, mem_predsOf_setSeen hnoPreds]
    simp only [List.mem_singleton, exists_eq_left, List.mem_append, or_and_right, exists_or]
    exact or_assoc.trans (or_congr_right (or_congr_right or_comm))
  case preds_nodup =>
    intro hn o
    rw [hpred]
    exact hex.preds_nodup (predsOf_setSeen_nodup hnoPreds hn) o
  case blocks =>
    intro f hf
    rcases List.mem_append.mp hf with hf | hf
    · exact (hex.blocks f hf).mono hkeep hmax
    · rw [List.mem_singleton.mp hf]
      obtain ⟨p, hp, hsize, -⟩ := hentry
      refine ⟨p, x, hp, hlen, by rw [hsize]; exact hscan, rfl, rfl, fun t s ht => ?_⟩
      exact hkeep _ _ _ (hex.targets ⟨some e, t, s, .normal⟩ (List.mem_map.mpr ⟨(t, s), ht, rfl⟩))
  -- what its edges explore hangs on the block, which comes later
  case tree =>
    intro l f r h
    rcases concat_eq_append_cons h with ⟨-, rfl⟩ | ⟨r, rfl, hnew⟩
    · exact .inl ⟨_, List.mem_singleton_self _, rfl⟩
    · rcases hex.tree l f r hnew with hd | ⟨g, hg, ht⟩
      · exact .inr ⟨_, List.mem_append_right _ (List.mem_singleton_self _), (hedge f.offset).mp hd⟩
      · exact .inr ⟨g, List.mem_append_left _ hg, ht⟩
  case types =>
    intro f hf
    rcases List.mem_append.mp hf with hf | hf
    · obtain ⟨s, t, hseen, h⟩ := hex.types f hf
      refine ⟨s, t, hkeep _ _ _ hseen, .inl ?_⟩
      rcases h with h | ⟨d, hd, -, ht⟩
      · exact h
      · obtain ⟨p, -, rfl⟩ := List.mem_map.mp hd
        exact ht.symm
    · rw [List.mem_singleton.mp hf]
      exact ⟨size, ty, hentry, .inr ⟨_, List.mem_singleton_self _, rfl, rfl⟩⟩
  case maxSize => exact hex.maxSize.trans hmax
  case traps =>
    intro h
    have htrap₂ : st₂.hasTrapHandlers = false := by rw [hst'] at h; exact h
    obtain ⟨h₁, hnew⟩ := hex.traps htrap₂
    refine ⟨h₁, fun f hf normal trap hpt => ?_⟩
    rcases List.mem_append.mp hf with hf | hf
    · exact hnew f hf normal trap hpt
    · rw [List.mem_singleton.mp hf] at hpt
      rw [htrap normal trap hpt] at htrap₂
      cases htrap₂

end Cases

/-- **Every call of `visit` explores.** -/
theorem visit_explored (code : List Word) (bs : List Nat) :
    ∀ fuel, VisitorSpec code bs (visit code bs fuel)
  | 0, _, _, _, _, _, _, h => (nomatch h)
  | fuel + 1, st, e, source, size, ty, st', h => by
      cases hseen : st.seen e with
      | some existing =>
          rw [visit_of_seen hseen] at h
          obtain ⟨_, h₁, h⟩ := bind_eq_ok.mp h
          obtain ⟨_, h₂, h⟩ := bind_eq_ok.mp h
          injection h with h
          rw [← h, ← ensure_eq_ok.mp h₁, ← ensure_eq_ok.mp h₂]
          exact ⟨[], explored_seen hseen⟩
      | none =>
          rw [visit_of_new hseen] at h
          obtain ⟨items, hitems, h⟩ := bind_eq_ok.mp h
          obtain ⟨hlen, rfl⟩ := iterFrom_eq_ok.mp hitems
          obtain ⟨js, x, st₂, new, hscan, hex, htrap, hst'⟩ :=
            visitLoop_eq_ok (visit_explored code bs fuel) e _ [] e _ _ _ _ rfl trivial h
          exact ⟨_, explored_new hseen hlen hscan hex htrap hst'⟩

end OcamlJit.BasicBlocks

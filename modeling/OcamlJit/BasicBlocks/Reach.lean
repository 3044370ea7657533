/-
  OcamlJit.BasicBlocks.Reach
  ──────────────────────────
  **THE INSTRUCTIONS REACHED FROM AN ENTRY.**

  `Reached` follows the control flow of the decoded stream: fall through, or
  jump to a label.  The conversion search walks over exactly these
  instructions: what a finished block passes over is reached
  (`finished_reached`), and what is reached is passed over by some finished
  block (`reached_passed`).
-/
import OcamlJit.BasicBlocks.ControlFlow

namespace OcamlJit.BasicBlocks

open OcamlJit.Lib OcamlJit.Instructions

/-! ## §1. Control flow of the stream. -/

/-- The next instruction may run after this one. -/
def fallsThrough : Instruction Nat → Bool
  | .branch _ | .applyTerm _ _ | .return_ _ | .switch _ _ | .raise _ | .stop => false
  | _ => true

/-- The labels an instruction may jump to (for `pushTrap`, when an exception
comes). -/
def jumpLabels : Instruction Nat → List Nat
  | .branch l | .branchIf l | .branchIfNot l | .branchCmp _ _ l | .pushTrap l => [l]
  | .switch ints tags => ints ++ tags
  | _ => []

/-- A point of the stream: the instructions of an opcode still to run and the
offset after the opcode. -/
inductive Reached (code : List Word) (entry : Nat) : List (Instruction Nat) → Nat → Prop where
  | entry : Reached code entry [] entry
  | fetch {q : List (Instruction Nat)} {pos pos' : Nat} (h : Reached code entry [] pos)
      (hd : decodeAt code pos = .ok (q, pos')) : Reached code entry q pos'
  | next {i : Instruction Nat} {q : List (Instruction Nat)} {pos : Nat}
      (h : Reached code entry (i :: q) pos) (hf : fallsThrough i = true) :
      Reached code entry q pos
  | jump {i : Instruction Nat} {q : List (Instruction Nat)} {pos l : Nat}
      (h : Reached code entry (i :: q) pos) (hl : l ∈ jumpLabels i) :
      Reached code entry [] l

/-- The instruction is reached from the entry. -/
def ReachesInstr (code : List Word) (entry : Nat) (i : Instruction Nat) : Prop :=
  ∃ q pos, Reached code entry (i :: q) pos

/-- The points one step after `p` are among `pts`. -/
def stepsWithin (code : List Word) (pts : List (List (Instruction Nat) × Nat))
    (p : List (Instruction Nat) × Nat) : Bool :=
  match p with
  | ([], pos) =>
      match decodeAt code pos with
      | .ok r => decide (r ∈ pts)
      | .error _ => true
  | (i :: q, pos) =>
      (!fallsThrough i || decide ((q, pos) ∈ pts)) &&
        decide (∀ l ∈ jumpLabels i, (([], l) : List (Instruction Nat) × Nat) ∈ pts)

/-- A set of points that no step leaves has every reached point. -/
theorem Reached.mem_of_closed {code : List Word} {entry : Nat}
    {pts : List (List (Instruction Nat) × Nat)} (hentry : ([], entry) ∈ pts)
    (hclosed : ∀ p ∈ pts, stepsWithin code pts p = true) {q : List (Instruction Nat)}
    {pos : Nat} (h : Reached code entry q pos) : (q, pos) ∈ pts := by
  induction h with
  | entry => exact hentry
  | fetch _ hd ih =>
      have := hclosed _ ih
      simpa [stepsWithin, hd] using this
  | next _ hf ih =>
      have := hclosed _ ih
      simp only [stepsWithin, hf, Bool.not_true, Bool.false_or, Bool.and_eq_true,
        decide_eq_true_eq] at this
      exact this.1
  | jump _ hl ih =>
      have := hclosed _ ih
      simp only [stepsWithin, Bool.and_eq_true, decide_eq_true_eq] at this
      exact this.2 _ hl

theorem not_reachesInstr_of_closed {code : List Word} {entry : Nat} {i : Instruction Nat}
    (pts : List (List (Instruction Nat) × Nat)) (hentry : ([], entry) ∈ pts)
    (hclosed : ∀ p ∈ pts, stepsWithin code pts p = true)
    (hi : ∀ p ∈ pts, p.1.head? ≠ some i) : ¬ ReachesInstr code entry i := by
  rintro ⟨q, pos, hr⟩
  exact hi _ (hr.mem_of_closed hentry hclosed) rfl

theorem fallsThrough_of_not_isControl {i : Instruction Nat} (h : i.isControl = false) :
    fallsThrough i = true := by
  cases i <;> first | rfl | cases h

/-- The edges of a control instruction: its labels, and the next offset when it
may fall through. -/
theorem exitOf_edges {pos size : Nat} {i : Instruction Nat} {x : BlockExit}
    (h : exitOf pos size i = some x) (t : Nat) :
    (∃ s, (t, s) ∈ x.edges) ↔ t ∈ jumpLabels i ∨ (t = pos ∧ fallsThrough i = true) := by
  cases i <;> simp only [exitOf, Option.ite_none_right_eq_some, Option.some.injEq,
    reduceCtorEq] at h
  case applyTerm | return_ | stop =>
    obtain ⟨-, rfl⟩ := h
    simp [jumpLabels, fallsThrough]
  case pushTrap =>
    obtain ⟨-, rfl⟩ := h
    simp [jumpLabels, fallsThrough, exists_or]
  all_goals
    subst h
    simp [jumpLabels, fallsThrough, exists_or, or_comm]

section Reached

variable {code : List Word} {entry : Nat}

theorem Reached.queueOk {q : List (Instruction Nat)} {pos : Nat}
    (h : Reached code entry q pos) : QueueOk q := by
  induction h with
  | entry => trivial
  | fetch _ hd _ => exact decodeAt_queueOk hd
  | next _ _ ih => exact ih.2.2.2
  | jump => trivial

/-- The targets of a block's exit are reached when the exit instruction is. -/
theorem exitOf_reached {i : Instruction Nat} {q : List (Instruction Nat)}
    {pos size : Nat} {x : BlockExit} (h : Reached code entry (i :: q) pos)
    (hx : exitOf pos size i = some x) {t s : Nat} (ht : (t, s) ∈ x.edges) :
    Reached code entry [] t := by
  obtain rfl : q = [] := h.queueOk.2.1 (isControl_of_exitOf hx)
  rcases (exitOf_edges hx t).mp ⟨s, ht⟩ with hl | ⟨rfl, hf⟩
  · exact h.jump hl
  · exact h.next hf

/-- A scan from a reached point only has reached targets. -/
theorem Scan.reached {bs : List Nat} {e bound pos size : Nat} {q : List (Instruction Nat)}
    {is : List BasicBlockInstruction} {x : BlockExit}
    (h : Scan code bs e bound q pos size is x) (hr : Reached code entry q pos) {t s : Nat}
    (ht : (t, s) ∈ x.edges) : Reached code entry [] t := by
  induction h with
  | fetch _ hd _ ih => exact ih (hr.fetch hd) ht
  | split =>
      simp only [jumpTo, List.mem_singleton, Prod.mk.injEq] at ht
      rw [ht.1]
      exact hr
  | more _ hstay _ _ ih => exact ih (hr.next (fallsThrough_of_not_isControl hstay)) ht
  | exit _ hexit _ => exact exitOf_reached hr hexit ht

variable {bs : List Nat} {size : Nat} {st : SearchState}

/-- Every finished block starts at a reached offset. -/
theorem finished_reached (h : Searched code bs entry size st) :
    ∀ (n : Nat) (l : List FinishedBlock) (f : FinishedBlock) (r : List FinishedBlock),
      r.length < n → st.finished = l ++ f :: r → Reached code entry [] f.offset
  | 0, _, _, _, hn, _ => absurd hn (Nat.not_lt_zero _)
  | n + 1, l, f, r, hn, hl => by
      rcases h.tree l f r hl with hentry | ⟨g, hg, ht⟩
      · rw [hentry]
        exact .entry
      · -- the block was reached from one that is finished later
        obtain ⟨r₁, r₂, rfl⟩ := List.append_of_mem hg
        have hsplit : st.finished = (l ++ f :: r₁) ++ g :: r₂ := by
          rw [hl, List.append_assoc]
          rfl
        have hreach := finished_reached h n _ g r₂
          (by simp only [List.length_append, List.length_cons] at hn; omega) hsplit
        obtain ⟨p, x, -, -, hscan, hexit, -, -⟩ :=
          (h.blocks g (by rw [hsplit]; simp)).scanned
        rw [← hexit, hscan.mem_targets] at ht
        obtain ⟨s, hs⟩ := ht
        exact hscan.reached hreach hs

end Reached

/-! ## §2. What a block passes over. -/

/-- The points the scan of the block at `e`, started at size `start`, goes
through, with the stack size and the instructions recorded up to there. -/
inductive Passes (code : List Word) (bs : List Nat) (e start : Nat) :
    List (Instruction Nat) → Nat → Nat → List BasicBlockInstruction → Prop where
  | start : Passes code bs e start [] e start []
  | fetch {q : List (Instruction Nat)} {pos pos' size : Nat}
      {pre : List BasicBlockInstruction} (h : Passes code bs e start [] pos size pre)
      (hsplit : ¬ SplitAt bs e pos) (hd : decodeAt code pos = .ok (q, pos')) :
      Passes code bs e start q pos' size pre
  | more {i : Instruction Nat} {q : List (Instruction Nat)} {pos size size' : Nat}
      {pre pushed : List BasicBlockInstruction}
      (h : Passes code bs e start (i :: q) pos size pre)
      (hstay : i.isControl = false) (hrec : recordInstr size i = .ok (size', pushed)) :
      Passes code bs e start q pos size' (pre ++ pushed)

theorem Passes.queueOk {code : List Word} {bs : List Nat} {e start pos size : Nat}
    {q : List (Instruction Nat)} {pre : List BasicBlockInstruction}
    (h : Passes code bs e start q pos size pre) : QueueOk q := by
  induction h with
  | start => trivial
  | fetch _ _ hd _ => exact decodeAt_queueOk hd
  | more _ _ _ ih => exact ih.2.2.2

/-- The rest of a block's scan, from a point it passes over. -/
theorem Passes.scan {code : List Word} {bs : List Nat} {e start bound pos size : Nat}
    {q : List (Instruction Nat)} {pre is : List BasicBlockInstruction} {x : BlockExit}
    (h : Passes code bs e start q pos size pre)
    (hscan : Scan code bs e bound [] e start is x) :
    ∃ is', is = pre ++ is' ∧ Scan code bs e bound q pos size is' x := by
  induction h with
  | start => exact ⟨is, rfl, hscan⟩
  | fetch _ hsplit hd ih =>
      obtain ⟨is', his, hs⟩ := ih
      cases hs with
      | fetch _ hd' hrest =>
          rw [hd] at hd'
          cases hd'
          exact ⟨is', his, hrest⟩
      | split hsplit' => exact absurd hsplit' hsplit
  | more _ hstay hrec ih =>
      obtain ⟨is', his, hs⟩ := ih
      cases hs with
      | more _ _ hrec' hrest =>
          rw [hrec] at hrec'
          cases hrec'
          exact ⟨_, by rw [his, List.append_assoc], hrest⟩
      | exit _ hexit =>
          rw [isControl_of_exitOf hexit] at hstay
          cases hstay

theorem Passes.reached {code : List Word} {entry : Nat} {bs : List Nat}
    {e start pos size : Nat} {q : List (Instruction Nat)} {pre : List BasicBlockInstruction}
    (h : Passes code bs e start q pos size pre) (hr : Reached code entry [] e) :
    Reached code entry q pos := by
  induction h with
  | start => exact hr
  | fetch _ _ hd ih => exact ih.fetch hd
  | more _ hstay _ ih => exact ih.next (fallsThrough_of_not_isControl hstay)

/-- A scan passes over everything up to the point where it ends. -/
theorem Scan.passes_end {code : List Word} {bs : List Nat} {e start bound pos size : Nat}
    {q : List (Instruction Nat)} {is : List BasicBlockInstruction} {x : BlockExit}
    (h : Scan code bs e bound q pos size is x) :
    ∀ pre, Passes code bs e start q pos size pre →
      ∃ q' pos' size', Passes code bs e start q' pos' size' (pre ++ is) ∧
        (x = jumpTo pos' size' ∨ ∃ i, exitOf pos' size' i = some x) := by
  induction h with
  | fetch hsplit hd _ ih => exact fun pre hp => ih pre (hp.fetch hsplit hd)
  | split =>
      intro pre hp
      rw [List.append_nil]
      exact ⟨_, _, _, hp, .inl rfl⟩
  | more _ hstay hrec _ ih =>
      intro pre hp
      rw [← List.append_assoc]
      exact ih _ (hp.more hstay hrec)
  | exit _ hexit _ =>
      intro pre hp
      rw [List.append_nil]
      exact ⟨_, _, _, hp, .inr ⟨_, hexit⟩⟩

/-- Some finished block passes over the point. -/
def Passed (code : List Word) (bs : List Nat) (st : SearchState)
    (q : List (Instruction Nat)) (pos : Nat) : Prop :=
  ∃ f ∈ st.finished, ∃ p size pre, st.seen f.offset = some p ∧
    Passes code bs f.offset p.startStackSize q pos size pre

section Passed

variable {code : List Word} {bs : List Nat} {entry size : Nat} {st : SearchState}

theorem passed_of_edge (h : Searched code bs entry size st) {t s : Nat}
    {ty : BasicBlockType} (hs : st.SeenAs t s ty) : Passed code bs st [] t := by
  obtain ⟨p, hp, -⟩ := hs
  obtain ⟨f, hf, rfl⟩ := List.mem_map.mp ((h.seen_iff t).mp (by simp [hp]))
  exact ⟨f, hf, p, _, _, hp, .start⟩

/-- The targets of a passed control instruction are seen. -/
theorem seen_of_control (h : Searched code bs entry size st) {i : Instruction Nat}
    {q : List (Instruction Nat)} {pos : Nat} (hi : i.isControl = true)
    (hp : Passed code bs st (i :: q) pos) {t : Nat}
    (ht : t ∈ jumpLabels i ∨ (t = pos ∧ fallsThrough i = true)) :
    ∃ s, st.SeenAs t s .normal := by
  obtain ⟨f, hf, p, s, pre, hseen, hpass⟩ := hp
  obtain ⟨p', x, hseen', -, hscan, -, -, hedges⟩ := (h.blocks f hf).scanned
  rw [hseen] at hseen'
  cases hseen'
  obtain ⟨is', -, hs⟩ := hpass.scan hscan
  cases hs with
  | more _ hstay =>
      rw [hi] at hstay
      cases hstay
  | exit _ hexit _ =>
      obtain ⟨s, hs⟩ := (exitOf_edges hexit t).mpr ht
      exact ⟨s, hedges t s hs⟩

/-- A passed control instruction has its targets passed, too. -/
theorem passed_of_control (h : Searched code bs entry size st) {i : Instruction Nat}
    {q : List (Instruction Nat)} {pos : Nat} (hi : i.isControl = true)
    (hp : Passed code bs st (i :: q) pos) :
    q = [] ∧ ∀ t, t ∈ jumpLabels i ∨ (t = pos ∧ fallsThrough i = true) →
      Passed code bs st [] t := by
  refine ⟨?_, fun t ht => ?_⟩
  · obtain ⟨f, hf, p, s, pre, hseen, hpass⟩ := hp
    exact hpass.queueOk.2.1 hi
  · obtain ⟨s, hs⟩ := seen_of_control h hi hp ht
    exact passed_of_edge h hs

/-- **What is reached is passed over by a finished block.** -/
theorem reached_passed (h : Searched code bs entry size st) {q : List (Instruction Nat)}
    {pos : Nat} (hr : Reached code entry q pos) : Passed code bs st q pos := by
  induction hr with
  | entry => exact passed_of_edge h h.entrySeen
  | @fetch q pos pos' _ hd ih =>
      obtain ⟨f, hf, p, s, pre, hseen, hpass⟩ := ih
      by_cases hsplit : SplitAt bs f.offset pos
      · -- the block ends here and the one at `pos` goes on
        obtain ⟨p', x, hseen', -, hscan, -, -, hedges⟩ := (h.blocks f hf).scanned
        rw [hseen] at hseen'
        cases hseen'
        obtain ⟨is', -, hs⟩ := hpass.scan hscan
        cases hs with
        | fetch hno => exact absurd hsplit hno
        | split =>
            obtain ⟨p', hp', -, -⟩ := hedges pos s (by simp [jumpTo])
            obtain ⟨g, hg, hgo⟩ := List.mem_map.mp ((h.seen_iff pos).mp (by simp [hp']))
            rw [← hgo] at hp' hd
            exact ⟨g, hg, p', _, _, hp', Passes.start.fetch (fun hs => hs.1 rfl) hd⟩
      · exact ⟨f, hf, p, s, pre, hseen, hpass.fetch hsplit hd⟩
  -- after a control instruction another block begins, else this one goes on
  | @next i q pos _ hfall ih =>
      cases hi : i.isControl with
      | true =>
          obtain ⟨rfl, ht⟩ := passed_of_control h hi ih
          exact ht pos (.inr ⟨rfl, hfall⟩)
      | false =>
          obtain ⟨f, hf, p, s, pre, hseen, hpass⟩ := ih
          obtain ⟨p', x, hseen', -, hscan, -, -, -⟩ := (h.blocks f hf).scanned
          rw [hseen] at hseen'
          cases hseen'
          obtain ⟨is', -, hs⟩ := hpass.scan hscan
          cases hs with
          | more _ hstay hrec _ => exact ⟨f, hf, p, _, _, hseen, hpass.more hstay hrec⟩
          | exit _ hexit _ =>
              rw [isControl_of_exitOf hexit] at hi
              cases hi
  | @jump i q pos l _ hl ih =>
      have hi : i.isControl = true := by
        cases i <;> first | rfl | simp [jumpLabels] at hl
      exact (passed_of_control h hi ih).2 l (.inl hl)

end Passed

/-! ## §3. Where a block comes from. -/

/-- Block `b` of the finished closure is the scan of the code from offset `o`,
which ended in the exit `x`. -/
structure Origin (code : List Word) (bs : List Nat) (entry : Nat) (st : SearchState)
    (b : BasicBlock) (o : Nat) (x : BlockExit) : Prop where
  scan : Scan code bs o st.maxStackSize [] o b.startStackSize b.instructions x
  exit : b.exit = x.exit.mapLabels st.idOf
  endStackSize : b.endStackSize = x.endStackSize
  edges : ∀ t s, (t, s) ∈ x.edges → st.SeenAs t s .normal
  reached : Reached code entry [] o

section Origin

variable {code : List Word} {bs : List Nat} {entry size arity : Nat} {st : SearchState}
  {c : BasicClosure}

theorem Numbered.origin_of_block (h : Searched code bs entry size st)
    (hn : Numbered arity st c) {i : Nat} {b : BasicBlock} (hb : c.blocks[i]? = some b) :
    ∃ o x, st.idOf o = i ∧ Origin code bs entry st b o x ∧
      ∃ ty, st.SeenAs o b.startStackSize ty := by
  obtain ⟨f, p, hf, hp, hbeq⟩ := hn.block i b hb
  have hf' := List.mem_reverse.mp (List.mem_of_getElem? hf)
  obtain ⟨p', x, hp', -, hscan, hexit, hend, hedges⟩ := (h.blocks f hf').scanned
  rw [hp] at hp'
  cases hp'
  obtain ⟨l, r, hlr⟩ := List.append_of_mem hf'
  refine ⟨f.offset, x, Numbered.idOf_eq h (Numbered.getElem?_offsets hf), ?_, p.blockType, ?_⟩
  · rw [hbeq]
    exact ⟨hscan, by rw [hexit], hend.symm, hedges,
      finished_reached h _ l f r (Nat.lt_succ_self _) hlr⟩
  · rw [hbeq]
    exact ⟨p, hp, rfl, rfl⟩

/-- A seen offset starts a block, at the size it was seen with. -/
theorem Numbered.origin_of_seen (h : Searched code bs entry size st)
    (hn : Numbered arity st c) {t s : Nat} {ty : BasicBlockType} (hs : st.SeenAs t s ty) :
    ∃ b x, c.blocks[st.idOf t]? = some b ∧ b.startStackSize = s ∧
      Origin code bs entry st b t x := by
  obtain ⟨p, hp, rfl, -⟩ := hs
  have hmem := (h.seen_iff t).mp (by simp [hp])
  obtain ⟨f, hf, rfl⟩ := List.mem_map.mp hmem
  obtain ⟨b, hb, -⟩ := hn.block_of_finished h hf
  obtain ⟨o, x, hid, horigin, ty, p', hp', hsize, -⟩ := hn.origin_of_block h hb
  have ho : o = f.offset :=
    Numbered.idOf_inj ((Numbered.mem_offsets h).mpr (by simp [hp'])) hid
  subst ho
  rw [hp] at hp'
  cases hp'
  exact ⟨b, x, hb, hsize.symm, horigin⟩

theorem idOf_entry (h : Searched code bs entry size st) : st.idOf entry = 0 := by
  obtain ⟨fs, e, hfin, he⟩ := h.last
  refine Numbered.idOf_eq h (i := 0) ?_
  simp [SearchState.offsets, hfin, he]

end Origin

end OcamlJit.BasicBlocks

/-
  OcamlJit.BasicBlocks.Simulation
  ───────────────────────────────
  **THE BLOCKS RUN AS THE CODE DOES.**

  A point of the decoded stream and a point of a block correspond when the
  conversion's scan from the one records what is left of the other.  Along a
  scan every instruction is recorded with its meaning (`recordInstr_meaning`),
  and the exits lead to the blocks that start where the code goes
  (`related_enter`).  So the two machines step together, except that the
  stream also has opcodes to fetch and instructions that do nothing.
-/
import OcamlJit.BasicBlocks.Machine
import OcamlJit.BasicBlocks.Reach

namespace OcamlJit.BasicBlocks

open OcamlJit.Lib OcamlJit.Instructions OcamlJit.Interp

/-! ## §1. Recorded instructions keep their meaning. -/

section Meaning

variable {O : Oracle Request Value} (rt : Layout)

/-- An instruction that stays in the block is silent and not recorded, or is
recorded as one instruction with its meaning, or is `setupForPubMet`. -/
theorem recordInstr_meaning {size size' : Nat} {i : Instruction Nat}
    {pushed : List BasicBlockInstruction} (h : recordInstr size i = .ok (size', pushed))
    (hstay : i.isControl = false) (hpop : i ≠ .popTrap) :
    (isSilent i = true ∧ pushed = []) ∨
      (isSilent i = false ∧ (∀ n, i ≠ .setupForPubMet n) ∧ ∃ b, pushed = [b] ∧
        ∀ s, (instrMeaning rt i s : Act O State) = blockMeaning rt b s) ∨
      ∃ n, i = .setupForPubMet n ∧ pushed = [.push, .const n] := by
  cases i
  case popTrap => exact absurd rfl hpop
  case labelDef | restart | grab | break_ | event =>
    cases h
    exact .inl ⟨rfl, rfl⟩
  case setupForPubMet n =>
    obtain ⟨_, -, h⟩ := bind_eq_ok.mp h
    cases h
    exact .inr (.inr ⟨n, rfl, rfl⟩)
  case applyTerm | return_ | branch | branchIf | branchIfNot | branchCmp | switch | pushTrap
      | raise | stop => cases hstay
  case closureRec ls n =>
    obtain ⟨_, -, h⟩ := bind_eq_ok.mp h
    obtain ⟨_, -, h⟩ := bind_eq_ok.mp h
    cases h
    exact .inr (.inl ⟨rfl, fun _ hn => (nomatch hn), _, rfl, fun _ => rfl⟩)
  case apply | cCallN =>
    obtain ⟨_, -, h⟩ := bind_eq_ok.mp h
    obtain ⟨_, -, h⟩ := bind_eq_ok.mp h
    cases h
    exact .inr (.inl ⟨rfl, fun _ hn => (nomatch hn), _, rfl, fun _ => rfl⟩)
  all_goals
    first
      | cases h
        exact .inr (.inl ⟨rfl, fun _ hn => (nomatch hn), _, rfl, fun _ => rfl⟩)
      | obtain ⟨_, -, h⟩ := bind_eq_ok.mp h
        cases h
        exact .inr (.inl ⟨rfl, fun _ hn => (nomatch hn), _, rfl, fun _ => rfl⟩)

/-- Renaming the labels of a `SWITCH` renames its target. -/
theorem switchTarget_map (f : Nat → Nat) (ints tags : List Nat) (s : State) :
    (switchTarget (ints.map f) (tags.map f) s : Act O Nat)
      = switchTarget ints tags s >>= fun l => pure (f l) := by
  have hget : ∀ (ls : List Nat) (i : Nat),
      (Act.ofOption ((ls.map f)[i]?) : Act O Nat)
        = Act.ofOption (ls[i]?) >>= fun l => pure (f l) := by
    intro ls i
    rw [List.getElem?_map]
    cases ls[i]? <;> rfl
  unfold switchTarget
  split
  · simp only [Act.bind_assoc, hget]
  · exact hget _ _

/-- Renaming the labels of an exit renames the block it goes to. -/
theorem exitMeaning_mapLabels (f : Nat → Nat) (x : BasicBlockExit) (s : State) :
    (exitMeaning (x.mapLabels f) s : Act O (Nat ⊕ Outcome))
      = exitMeaning x s >>= fun r => pure (r.map f id) := by
  cases x
  case switch ints tags =>
    simp only [exitMeaning, BasicBlockExit.mapLabels, switchTarget_map, Act.bind_assoc]
    rfl
  case branchIf | branchCmp =>
    simp only [exitMeaning, BasicBlockExit.mapLabels, Act.pure_bind, Sum.map_inl]
    split <;> rfl
  case return_ | tailCall =>
    simp only [exitMeaning, BasicBlockExit.mapLabels, Act.bind_assoc]
    rfl
  all_goals rfl

theorem isJump_mapLabels (f : Nat → Nat) (x : BasicBlockExit) :
    (x.mapLabels f).isJump = x.isJump := by
  cases x <;> rfl

/-- An exit goes to one of its labels. -/
theorem exitMeaning_mem {x : BasicBlockExit} {s : State} {l l' : Log O} {t : Nat}
    (h : (exitMeaning x s : Act O (Nat ⊕ Outcome)) l = (.ok (.inl t), l')) :
    t ∈ x.targets := by
  have hopt : ∀ {ls : List Nat} {i t : Nat} {l l' : Log O},
      (Act.ofOption ls[i]? : Act O Nat) l = (.ok t, l') → t ∈ ls := by
    intro ls i t l l' ht
    cases hi : ls[i]? with
    | none => rw [hi] at ht; cases ht
    | some t' =>
        rw [hi] at ht
        cases ht
        exact List.mem_of_getElem? hi
  cases x with
  | switch ints tags =>
      obtain ⟨t', l₁, ht, hpure⟩ := Act.bind_eq_ok h
      cases hpure
      unfold switchTarget at ht
      split at ht
      · obtain ⟨tag, l₂, -, ht⟩ := Act.bind_eq_ok ht
        exact List.mem_append_right _ (hopt ht)
      · exact List.mem_append_left _ (hopt ht)
  | branchIf thenBlock elseBlock =>
      cases h
      split <;> simp [BasicBlockExit.targets]
  | branchCmp cmp constant thenBlock elseBlock =>
      cases h
      split <;> simp [BasicBlockExit.targets]
  | branch label =>
      cases h
      exact List.mem_singleton_self _
  | return_ toPop | tailCall args toPop =>
      obtain ⟨_, _, -, hpure⟩ := Act.bind_eq_ok h
      cases hpure
  | raise kind | stop | pushTrap normal trap => cases h

/-- The exit recorded for a control instruction goes where the instruction
does. -/
theorem exitOf_control {pos size : Nat} {i : Instruction Nat} {x : BlockExit}
    (h : exitOf pos size i = some x) (hno : ∀ normal trap, x.exit ≠ .pushTrap normal trap)
    (s : State) :
    (exitMeaning x.exit s : Act O (Nat ⊕ Outcome))
        = controlMeaning i s >>= (fun r => pure (r.map (Target.offset pos) id)) ∧
      x.exit.isJump = isJump i := by
  cases i <;> simp only [exitOf, Option.ite_none_right_eq_some, Option.some.injEq,
    reduceCtorEq] at h
  case applyTerm | return_ | stop =>
    obtain ⟨-, rfl⟩ := h
    simp only [exitMeaning, controlMeaning, Act.bind_assoc]
    exact ⟨rfl, rfl⟩
  case pushTrap =>
    obtain ⟨-, rfl⟩ := h
    exact absurd rfl (hno _ _)
  case switch =>
    subst h
    simp only [exitMeaning, controlMeaning, Act.bind_assoc]
    exact ⟨rfl, rfl⟩
  case branchIf | branchIfNot | branchCmp =>
    subst h
    simp only [exitMeaning, controlMeaning, Act.pure_bind, Sum.map_inl]
    refine ⟨?_, rfl⟩
    split <;> rfl
  all_goals
    subst h
    exact ⟨rfl, rfl⟩

end Meaning

/-! ## §2. Corresponding points. -/

/-- The queue is one the static control flow reaches, or the second half of
`setupForPubMet` before one. -/
def Follows (code : List Word) (entry : Nat) (q : List (Instruction Nat)) (pos : Nat) : Prop :=
  ∃ q₀, Reached code entry q₀ pos ∧ (q = q₀ ∨ ∃ n, q = .const n :: q₀)

/-- The scan of the code from `s` records what is left of the block at `t`. -/
structure Related (code : List Word) (bs : List Nat) (entry : Nat) (st : SearchState)
    (s : LinearConfig) (t : BlockConfig) : Prop where
  visible : s.visible = t.visible
  scan : ∃ o size x, Scan code bs o st.maxStackSize s.queue s.pos size t.rest x ∧
    t.exit = x.exit.mapLabels st.idOf ∧ ∀ l r, (l, r) ∈ x.edges → st.SeenAs l r .normal
  follows : Follows code entry s.queue s.pos
  noTrap : ∀ normal trap, t.exit ≠ .pushTrap normal trap

/-- Steps of the stream without a counterpart: fetching and skipping. -/
def fetchMeasure (code : List Word) (s : LinearConfig) : Nat :=
  4 * (code.length - s.pos) + s.queue.length

/-- A block does not end before its own first opcode. -/
theorem Scan.fetched {code : List Word} {bs : List Nat} {bound pos pos' size : Nat}
    {q : List (Instruction Nat)} {is : List BasicBlockInstruction} {x : BlockExit}
    (h : Scan code bs pos bound [] pos size is x) (hd : decodeAt code pos = .ok (q, pos')) :
    Scan code bs pos bound q pos' size is x := by
  cases h with
  | fetch _ hd' hrest =>
      rw [hd] at hd'
      cases hd'
      exact hrest
  | split hsplit => exact absurd rfl hsplit.1

section Related

variable {code : List Word} {bs : List Nat} {entry size arity : Nat} {st : SearchState}
  {c : BasicClosure}

theorem Follows.queueOk {q : List (Instruction Nat)} {pos : Nat}
    (h : Follows code entry q pos) : QueueOk q := by
  obtain ⟨q₀, hr, rfl | ⟨n, rfl⟩⟩ := h
  · exact hr.queueOk
  · exact ⟨fun _ hl => (nomatch hl), fun hc => (nomatch hc), fun _ _ hc => (nomatch hc),
      hr.queueOk⟩

theorem Follows.next {i : Instruction Nat} {q : List (Instruction Nat)} {pos : Nat}
    (h : Follows code entry (i :: q) pos) (hf : fallsThrough i = true) :
    Follows code entry q pos := by
  obtain ⟨q₀, hr, heq | ⟨n, heq⟩⟩ := h
  · subst heq
    exact ⟨q, hr.next hf, .inl rfl⟩
  · obtain ⟨-, rfl⟩ := List.cons.inj heq
    exact ⟨q, hr, .inl rfl⟩

/-- In front of a queue that is not a lone constant the static control flow
really is. -/
theorem Follows.reached {i : Instruction Nat} {q : List (Instruction Nat)} {pos : Nat}
    (h : Follows code entry (i :: q) pos) (hi : ∀ n, i ≠ .const n) :
    Reached code entry (i :: q) pos := by
  obtain ⟨q₀, hr, heq | ⟨n, heq⟩⟩ := h
  · rwa [heq]
  · exact absurd (List.cons.inj heq).1 (hi n)

theorem Follows.reached_nil {pos : Nat} (h : Follows code entry [] pos) :
    Reached code entry [] pos := by
  obtain ⟨q₀, hr, heq | ⟨n, heq⟩⟩ := h
  · rwa [heq]
  · cases heq

/-- No block of a closure without trap handlers ends in `pushTrap`. -/
theorem Numbered.no_pushTrap (h : Searched code bs entry size st) (hn : Numbered arity st c)
    (htrap : c.hasTrapHandlers = false) {i : Nat} {b : BasicBlock}
    (hb : c.blocks[i]? = some b) : ∀ normal trap, b.exit ≠ .pushTrap normal trap := by
  intro normal trap hx
  obtain ⟨f, p, hf, -, hbeq⟩ := hn.block i b hb
  rw [hn.hasTrapHandlers] at htrap
  rw [hbeq] at hx
  have hf' := List.mem_reverse.mp (List.mem_of_getElem? hf)
  cases hfx : f.exit <;> simp [hfx, BasicBlockExit.mapLabels] at hx
  exact h.traps htrap f hf' _ _ hfx

theorem related_of_origin {b : BasicBlock} {o : Nat} {x : BlockExit}
    (horigin : Origin code bs entry st b o x)
    (hno : ∀ normal trap, b.exit ≠ .pushTrap normal trap) (v : Visible) :
    Related code bs entry st ⟨[], o, v⟩ ⟨b.instructions, b.exit, v⟩ :=
  ⟨rfl, ⟨o, _, x, horigin.scan, horigin.exit, horigin.edges⟩,
    ⟨[], horigin.reached, .inl rfl⟩, hno⟩

/-- A seen offset and the start of its block correspond. -/
theorem related_enter (h : Searched code bs entry size st) (hn : Numbered arity st c)
    (htrap : c.hasTrapHandlers = false) {o r : Nat} {ty : BasicBlockType}
    (hs : st.SeenAs o r ty) (v : Visible) :
    ∃ b, c.blocks[st.idOf o]? = some b ∧
      Related code bs entry st ⟨[], o, v⟩ ⟨b.instructions, b.exit, v⟩ := by
  obtain ⟨b, x, hb, -, horigin⟩ := hn.origin_of_seen h hs
  exact ⟨b, hb, related_of_origin horigin (hn.no_pushTrap h htrap hb) v⟩

end Related

/-! ## §3. The machines step together. -/

section Step

variable {O : Oracle Request Value} {rt : Layout} {code : List Word} {bs : List Nat}
  {entry size arity : Nat} {st : SearchState} {c : BasicClosure}
  (h : Searched code bs entry size st) (hn : Numbered arity st c)
  (htrap : c.hasTrapHandlers = false)

/-- What one of the two machines does in a step that both take. -/
abbrev JointStep (rt : Layout) (code : List Word) (bs : List Nat) (entry : Nat)
    (st : SearchState) (c : BasicClosure) (s : LinearConfig) (t : BlockConfig)
    (l : Log O) : Prop :=
  RelResult (Progress.Rel (Related code bs entry st)) (linearStep rt code s l)
    (blockStep rt c t l)

include h hn htrap

/-- Going to a seen offset and entering its block. -/
theorem relResult_enter {o r : Nat} {ty : BasicBlockType} (hs : st.SeenAs o r ty)
    (v : Visible) (l : Log O) :
    RelResult (Progress.Rel (Related code bs entry st))
      ((pure (.running ⟨[], o, v⟩) : Act O (Progress LinearConfig Outcome)) l)
      ((enterBlock c (st.idOf o) v : Act O (Progress BlockConfig Outcome)) l) := by
  obtain ⟨b, hb, hrel⟩ := related_enter h hn htrap hs v
  unfold enterBlock
  rw [hb]
  exact relResult_pure hrel l

/-- Between two opcodes: the next one is fetched, or the block ends before it. -/
theorem step_fetch {s : LinearConfig} {t : BlockConfig} (l : Log O)
    (hrel : Related code bs entry st s t) (hq : s.queue = []) :
    Stutters (linearStep rt code) (Related code bs entry st) (fetchMeasure code) s t l ∨
      JointStep rt code bs entry st c s t l := by
  obtain ⟨queue, pos, v⟩ := s
  obtain ⟨rest, exit, v'⟩ := t
  obtain ⟨hvis, ⟨o, size, x, hscan, hexit, hedges⟩, hfollows, hno⟩ := hrel
  simp only at hq hvis hscan hexit hedges hfollows hno
  subst hq hvis
  have hreach := hfollows.reached_nil
  cases hscan with
  | @fetch q _ pos' _ _ _ hsplit hd hrest =>
      -- the linear machine fetches alone: the code before the block has become shorter
      refine .inl ⟨⟨q, pos', v⟩, ?_, ?_, ?_⟩
      · rw [linearStep_fetch rt hd]
        rfl
      · exact ⟨rfl, ⟨o, size, x, hrest, hexit, hedges⟩, ⟨q, hreach.fetch hd, .inl rfl⟩, hno⟩
      · have := decodeAt_bounds hd
        simp only [fetchMeasure, List.length_nil]
        omega
  | @split q _ pos' _ hsplit hd _ =>
      refine .inr ?_
      -- both go on at the start of the next block
      obtain ⟨b, y, hb, -, horigin⟩ :=
        hn.origin_of_seen h (hedges pos size (by simp [jumpTo]))
      have hlin : (linearStep rt code ⟨[], pos, v⟩ : Act O (Progress LinearConfig Outcome))
          = pure (.running ⟨q, pos', v⟩) := linearStep_fetch rt hd
      have hblk : (blockStep rt c ⟨[], exit, v⟩ : Act O (Progress BlockConfig Outcome))
          = pure (.running ⟨b.instructions, b.exit, v⟩) := by
        rw [hexit]
        show enterBlock c (st.idOf pos) v = _
        unfold enterBlock
        rw [hb]
        rfl
      unfold JointStep
      rw [hlin, hblk]
      refine relResult_pure ?_ l
      exact ⟨rfl, ⟨pos, _, y, horigin.scan.fetched hd, horigin.exit, horigin.edges⟩,
        ⟨q, hreach.fetch hd, .inl rfl⟩, hn.no_pushTrap h htrap hb⟩

omit h hn htrap in
/-- An instruction inside a block is skipped on one side, or run on both. -/
theorem step_more {i : Instruction Nat} {q : List (Instruction Nat)} {pos : Nat}
    {v : Visible} {t : BlockConfig} (l : Log O)
    (hrel : Related code bs entry st ⟨i :: q, pos, v⟩ t)
    (hpop : ¬ ReachesInstr code entry .popTrap) (hstay : i.isControl = false) :
    Stutters (linearStep rt code) (Related code bs entry st) (fetchMeasure code)
        ⟨i :: q, pos, v⟩ t l ∨
      JointStep rt code bs entry st c ⟨i :: q, pos, v⟩ t l := by
  obtain ⟨rest, exit, v'⟩ := t
  obtain ⟨hvis, ⟨o, size, x, hscan, hexit, hedges⟩, hfollows, hno⟩ := hrel
  simp only at hvis hscan hexit hedges hfollows hno
  subst hvis
  have hi : i ≠ .popTrap := by
    rintro rfl
    exact hpop ⟨q, pos, hfollows.reached fun n hn => by cases hn⟩
  have hnext : Follows code entry q pos := hfollows.next (fallsThrough_of_not_isControl hstay)
  cases hscan with
  | exit _ hx _ =>
      rw [isControl_of_exitOf hx] at hstay
      cases hstay
  | @more _ _ _ _ size' pushed is _ hbound _ hrec hrest =>
      -- nothing is recorded, or the same instruction, or the two halves of one
      rcases recordInstr_meaning (O := O) rt hrec hstay hi with
        ⟨hsilent, rfl⟩ | ⟨hloud, hsetup, b, rfl, hmean⟩ | ⟨n, rfl, rfl⟩
      · refine .inl ⟨⟨q, pos, v⟩, ?_, ?_, ?_⟩
        · simp only [linearStep, hsilent, if_true]
          rfl
        · exact ⟨rfl, ⟨o, size', x, hrest, hexit, hedges⟩, hnext, hno⟩
        · simp only [fetchMeasure, List.length_cons]
          omega
      · refine .inr ?_
        have hlin : (linearStep rt code ⟨i :: q, pos, v⟩ :
            Act O (Progress LinearConfig Outcome)) = instrMeaning rt i v.state >>= fun s =>
              pure (.running ⟨q, pos, v.after s⟩) := linearStep_instr rt hloud hstay hsetup
        unfold JointStep
        rw [hlin, hmean]
        refine relResult_bind _ l fun s l' _ => relResult_pure ?_ l'
        exact ⟨rfl, ⟨o, size', x, hrest, hexit, hedges⟩, hnext, hno⟩
      · -- `setupForPubMet` is run in two halves
        refine .inr (relResult_pure ?_ l)
        refine ⟨rfl, ⟨o, size', x, ?_, hexit, hedges⟩, ?_, hno⟩
        · exact Scan.more hrest.size_le rfl rfl hrest
        · have hr := hfollows.reached fun m hm => by cases hm
          exact ⟨q, hr.next rfl, .inr ⟨n, rfl⟩⟩

omit h hn htrap in
/-- The step of the blocks at the exit that records it. -/
theorem blockStep_control {i : Instruction Nat} {pos : Nat} {v : Visible}
    {exit exit' : BasicBlockExit} (hexit : exit = exit'.mapLabels st.idOf)
    (hcontrol : (exitMeaning exit' v.state : Act O _)
      = controlMeaning i v.state >>= fun r => pure (r.map (·.offset pos) id))
    (hjump : exit'.isJump = isJump i) :
    (blockStep rt c ⟨[], exit, v⟩ : Act O (Progress BlockConfig Outcome))
      = controlMeaning i v.state >>= fun r => match r with
        | .inr o => pure (.done o)
        | .inl t => enterBlock c (st.idOf (t.offset pos))
            (if isJump i then v else v.after v.state) := by
  have hw : (if exit.isJump then v else v.after v.state)
      = if isJump i then v else v.after v.state := by
    rw [hexit, isJump_mapLabels, hjump]
  simp only [blockStep, hw]
  rw [hexit, exitMeaning_mapLabels, hcontrol, Act.bind_assoc, Act.bind_assoc]
  congr 1
  funext r
  rcases r with t | o <;> rfl

/-- The exit of a block: the same end, or the block that starts at the target. -/
theorem step_exit {i : Instruction Nat} {q : List (Instruction Nat)} {pos : Nat}
    {v : Visible} {t : BlockConfig} (l : Log O)
    (hrel : Related code bs entry st ⟨i :: q, pos, v⟩ t) (hctl : i.isControl = true) :
    JointStep rt code bs entry st c ⟨i :: q, pos, v⟩ t l := by
  obtain ⟨rest, exit, v'⟩ := t
  obtain ⟨hvis, ⟨o, size, x, hscan, hexit, hedges⟩, hfollows, hno⟩ := hrel
  simp only at hvis hscan hexit hedges hfollows hno
  subst hvis
  obtain rfl : q = [] := hfollows.queueOk.2.1 hctl
  cases hscan with
  | more _ hstay =>
      rw [hctl] at hstay
      cases hstay
  | exit _ hx _ =>
      have hnox : ∀ normal trap, x.exit ≠ .pushTrap normal trap := by
        intro normal trap hx'
        rw [hexit, hx'] at hno
        exact hno _ _ rfl
      obtain ⟨hcontrol, hjump⟩ := exitOf_control (O := O) hx hnox v.state
      unfold JointStep
      rw [linearStep_control rt hctl, blockStep_control hexit hcontrol hjump]
      refine relResult_bind _ l fun r l' hr => ?_
      cases r with
      | inr o => exact ⟨rfl, rfl⟩
      | inl t =>
          have hmem : t.offset pos ∈ x.exit.targets := by
            have hexits : exitMeaning x.exit v.state l = (.ok (.inl (t.offset pos)), l') := by
              rw [hcontrol, Act.bind_apply, hr]
              rfl
            exact exitMeaning_mem hexits
          obtain ⟨r, hr⟩ := (mem_targets_of_exitOf hx _).mp hmem
          exact relResult_enter h hn htrap (hedges _ r hr) _ l'

/-- The stream simulates the blocks, up to fetching and skipping. -/
theorem linearStep_simulates (hpop : ¬ ReachesInstr code entry .popTrap) :
    Simulates (linearStep (O := O) rt code) (blockStep rt c) (Related code bs entry st)
      (fetchMeasure code) fun _ _ => True := by
  intro s t l hrel _
  obtain ⟨queue, pos, v⟩ := s
  cases queue with
  | nil => exact step_fetch h hn htrap l hrel rfl
  | cons i q =>
      cases hctl : i.isControl with
      | false => exact step_more l hrel hpop hctl
      | true => exact .inr (step_exit h hn htrap l hrel hctl)

end Step

/-! ## §4. Runs. -/

/-- **Running the blocks of a closure is running its code**: for every oracle,
every initial state and every number of steps, the same requests, the same
accumulator and stack after every instruction and the same end. -/
theorem parseToBasicBlocks_sameRuns {O : Oracle Request Value} (rt : Layout)
    (code : List Word) (entry : Nat) (c : BasicClosure)
    (h : parseToBasicBlocks code entry = .ok c) (htrap : c.hasTrapHandlers = false)
    (hpop : ¬ ReachesInstr code entry .popTrap) (s : State) (l : Log O) :
    ∃ t, BlockConfig.start c s = some t ∧
      SameRuns (linearStep rt code) LinearConfig.visible (LinearConfig.start entry s)
        (blockStep rt c) BlockConfig.visible t l := by
  obtain ⟨arity, st, hst, hn⟩ := parseToBasicBlocks_eq_ok h
  obtain ⟨bs, hs⟩ := hst.searched
  obtain ⟨b, hb, hrel⟩ := related_enter hs hn htrap hs.entrySeen ⟨s, []⟩
  rw [idOf_entry hs] at hb
  refine ⟨⟨b.instructions, b.exit, ⟨s, []⟩⟩, ?_, ?_⟩
  · unfold BlockConfig.start
    rw [hb]
    rfl
  · exact sameRuns_of_simulation (fun _ _ hr => hr.visible)
      (linearStep_simulates hs hn htrap hpop) hrel fun _ _ _ _ => trivial

/-- An oracle that answers every request with 1. -/
def unitOracle : Oracle Request Value := ⟨Unit, fun _ w => (.ok 1, w)⟩

/-- The loop `ACC0; CHECK_SIGNALS; BRANCHIF; RETURN 1`. -/
theorem parseToBasicBlocks_sameRuns_loop :
    ∃ c t, parseToBasicBlocks [0, 92, 85, -2, 40, 1] 0 = .ok c ∧
      BlockConfig.start c ⟨1, 1, [.val 3]⟩ = some t ∧
      SameRuns (linearStep (O := unitOracle) ⟨0, 0, 0, fun _ => 0⟩ [0, 92, 85, -2, 40, 1])
        LinearConfig.visible (LinearConfig.start 0 ⟨1, 1, [.val 3]⟩)
        (blockStep ⟨0, 0, 0, fun _ => 0⟩ c) BlockConfig.visible t ⟨(), []⟩ := by
  have hc : parseToBasicBlocks [0, 92, 85, -2, 40, 1] 0
      = .ok ⟨1, [⟨0, [], .first, [.acc 0], .branch 1, 1, 1, []⟩,
        ⟨1, [1, 0], .normal, [.checkSignals], .branchIf 1 2, 1, 1, [1, 2]⟩,
        ⟨2, [1], .normal, [], .return_ 1, 1, 0, []⟩], [], 1, false⟩ := by decide
  have hpop : ¬ ReachesInstr [0, 92, 85, -2, 40, 1] 0 .popTrap :=
    not_reachesInstr_of_closed [([], 0), ([.labelDef 0, .acc 0], 1), ([.acc 0], 1),
      ([], 1), ([.labelDef 1, .checkSignals], 2), ([.checkSignals], 2), ([], 2),
      ([.labelDef 2, .branchIf 1], 4), ([.branchIf 1], 4), ([], 4),
      ([.labelDef 4, .return_ 1], 6), ([.return_ 1], 6)] (by decide) (by decide)
      (by decide)
  obtain ⟨t, ht, hruns⟩ := parseToBasicBlocks_sameRuns (O := unitOracle)
    ⟨0, 0, 0, fun _ => 0⟩ _ 0 _ hc rfl hpop ⟨1, 1, [.val 3]⟩ ⟨(), []⟩
  exact ⟨_, t, hc, ht, hruns⟩

end OcamlJit.BasicBlocks

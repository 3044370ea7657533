/-
  OcamlJit.BasicBlocks.SearchRule
  ───────────────────────────────
  **A RULE FOR THE CONVERSION AS A WHOLE.**

  What a call of `visit` comes to depends on many local checks made in search
  order.  `Admits` collects what has to be known about each of them: a predicate
  on the points the search comes to that every step keeps, and a set of faults
  the checks may end in.  `parseToBasicBlocks_outcome` draws the conclusion for
  the conversion: it succeeds or ends in one of these faults.
-/
import OcamlJit.BasicBlocks.BlockStarts

namespace OcamlJit.BasicBlocks

open OcamlJit.Lib OcamlJit.Instructions

/-! ## §1. What instructions do with the stack. -/

/-- The words an instruction reads, writes or pops, those it pops, and those it
pushes. -/
structure StackUse where
  needs : Nat
  pops : Nat
  pushes : Nat

/-- The stack use of an instruction; for `pushTrap` that of the normal edge. -/
def stackUse : Instruction Nat → StackUse
  | .acc n | .assign n => ⟨n + 1, 0, 0⟩
  | .push | .setupForPubMet _ => ⟨0, 0, 1⟩
  | .pop n => ⟨n, n, 0⟩
  | .pushRetAddr _ => ⟨0, 0, 3⟩
  | .apply1 => ⟨1, 1, 0⟩
  | .apply2 => ⟨2, 2, 0⟩
  | .apply3 => ⟨3, 3, 0⟩
  -- the arguments and the return frame
  | .apply nargs => ⟨nargs + 3, nargs + 3, 0⟩
  -- one of the captured variables, or of the fields, is the accumulator
  | .closure _ nvars => ⟨nvars - 1, nvars - 1, 0⟩
  | .closureRec ls nvars => ⟨nvars - 1, nvars - 1, ls.length⟩
  | .makeBlock size _ | .makeFloatBlock size => ⟨size - 1, size - 1, 0⟩
  | .setField _ | .setFloatField _ | .getVecTItem | .getBytesChar => ⟨1, 1, 0⟩
  | .setVecTItem | .setBytesChar => ⟨2, 2, 0⟩
  | .arithInt _ | .intCmp _ | .cCall2 _ => ⟨1, 1, 0⟩
  | .cCall3 _ => ⟨2, 2, 0⟩
  | .cCall4 _ => ⟨3, 3, 0⟩
  | .cCall5 _ => ⟨4, 4, 0⟩
  | .cCallN nargs _ => ⟨nargs - 1, nargs - 1, 0⟩
  | .getMethod | .getDynMet => ⟨1, 0, 0⟩
  | .popTrap => ⟨4, 4, 0⟩
  | .pushTrap _ => ⟨0, 0, 4⟩
  | _ => ⟨0, 0, 0⟩

/-- The words that are checked to be on the stack: those of `ACC` are not. -/
def wordsChecked : Instruction Nat → Nat
  | .acc _ => 0
  | i => (stackUse i).needs

/-- The depth after an instruction. -/
def depthAfter (size : Nat) (i : Instruction Nat) : Nat :=
  size - (stackUse i).pops + (stackUse i).pushes

/-- The edges of a control instruction with the depth along each: the trap edge
keeps the depth. -/
def flowEdges (i : Instruction Nat) (pos size : Nat) : List (Nat × Nat) :=
  (jumpLabels i).map (·, size) ++ if fallsThrough i then [(pos, depthAfter size i)] else []

/-- The operands leave the checks of the conversion defined: `nargs - 1` and
`nargs + 3`. -/
def OperandsOk : Instruction Nat → Prop
  | .cCallN nargs _ => 1 ≤ nargs
  | .apply nargs => nargs + 3 < 2 ^ 32
  | _ => True

/-- The depths an exit may be reached at. -/
def ExitDepth (size : Nat) : Instruction Nat → Prop
  | .applyTerm _ slotSize => size = slotSize
  | .return_ toPop => size = toPop
  | .stop => size = 1
  | _ => True

/-- No more is popped than was checked, and no more is checked than is used. -/
theorem stackUse_checked (i : Instruction Nat) :
    (stackUse i).pops ≤ wordsChecked i ∧ wordsChecked i ≤ (stackUse i).needs := by
  cases i <;> simp [stackUse, wordsChecked]

/-- How `recordInstr` comes out: the operands first, then the words checked, then
the size after the instruction. -/
inductive Recorded (size : Nat) (i : Instruction Nat) : Conv (Nat × List BasicBlockInstruction) →
    Prop where
  | ok {pushed : List BasicBlockInstruction} (hops : OperandsOk i)
      (hchecked : wordsChecked i ≤ size) (hlt : size < 2 ^ 32 → depthAfter size i < 2 ^ 32) :
      Recorded size i (.ok (depthAfter size i, pushed))
  | error {e : ConversionError} (hops : OperandsOk i) (hchecked : ¬ wordsChecked i ≤ size) :
      Recorded size i (.error (.error e))
  | panic (h : OperandsOk i → wordsChecked i ≤ size ∧ 2 ^ 32 ≤ depthAfter size i) :
      Recorded size i (.error .panic)

section Recorded

variable {size n : Nat} {i : Instruction Nat} {pushed : List BasicBlockInstruction}

theorem recorded_keep (hchecked : wordsChecked i ≤ size) (hpops : (stackUse i).pops = 0)
    (hpushes : (stackUse i).pushes = 0) (hops : OperandsOk i) :
    Recorded size i (pure (size, pushed)) := by
  have hafter : depthAfter size i = size := by
    unfold depthAfter
    omega
  have hok : Recorded size i (.ok (depthAfter size i, pushed)) :=
    .ok hops hchecked (fun h => by omega)
  rwa [hafter] at hok

/-- `ensure!(stack_size >= n)`, and nothing is popped. -/
theorem recorded_check {c : Prop} [Decidable c] {e : ConversionError}
    (hcheck : c ↔ wordsChecked i ≤ size) (hpops : (stackUse i).pops = 0)
    (hpushes : (stackUse i).pushes = 0) (hops : OperandsOk i) :
    Recorded size i (do
      ensure c e
      pure (size, pushed)) := by
  unfold ensure
  by_cases hc : c
  · rw [if_pos hc]
    exact recorded_keep (hcheck.mp hc) hpops hpushes hops
  · rw [if_neg hc]
    exact .error hops fun h => hc (hcheck.mpr h)

/-- `ensure!(stack_size >= n); stack_size -= n`. -/
theorem recorded_pop {condition : String} (hchecked : wordsChecked i = n)
    (hpops : (stackUse i).pops = n) (hpushes : (stackUse i).pushes = 0) (hops : OperandsOk i) :
    Recorded size i (do pure (← popChecked size n condition, pushed)) := by
  have hafter : depthAfter size i = size - n := by
    unfold depthAfter
    rw [hpops, hpushes]
    rfl
  unfold popChecked ensure
  by_cases hn : n ≤ size
  · rw [if_pos hn]
    have hok : Recorded size i (.ok (depthAfter size i, pushed)) := by
      refine .ok hops ?_ (fun h => by omega)
      rw [hchecked]
      exact hn
    rwa [hafter] at hok
  · rw [if_neg hn]
    refine .error hops ?_
    rw [hchecked]
    exact hn

/-- `stack_size += n`. -/
theorem recorded_push (hchecked : wordsChecked i = 0) (huse : stackUse i = ⟨0, 0, n⟩)
    (hops : OperandsOk i) : Recorded size i (do pure (← addU 32 size n, pushed)) := by
  have hafter : depthAfter size i = size + n := by
    unfold depthAfter
    rw [huse]
    rfl
  have hle : wordsChecked i ≤ size := hchecked ▸ Nat.zero_le _
  unfold addU
  by_cases hn : size + n < 2 ^ 32
  · rw [if_pos hn]
    have hok : Recorded size i (.ok (depthAfter size i, pushed)) :=
      .ok hops hle (fun _ => by rw [hafter]; exact hn)
    rwa [hafter] at hok
  · rw [if_neg hn]
    exact .panic fun _ => ⟨hle, by rw [hafter]; exact Nat.le_of_not_lt hn⟩

/-- `if n > 0 { ensure!(stack_size >= n - 1); stack_size -= n - 1 }`. -/
theorem recorded_popForBlock {condition : String} (hchecked : wordsChecked i = n - 1)
    (hpops : (stackUse i).pops = n - 1) (hpushes : (stackUse i).pushes = 0)
    (hops : OperandsOk i) :
    Recorded size i (do pure (← popForBlock size n condition, pushed)) := by
  unfold popForBlock
  by_cases hn : n > 0
  · rw [if_pos hn]
    exact recorded_pop hchecked hpops hpushes hops
  · rw [if_neg hn]
    have hzero : n - 1 = 0 := by omega
    exact recorded_keep (by omega) (by omega) hpushes hops

theorem recorded_closureRec {ls : List Nat} {nvars : Nat} (hlen : ls.length < 2 ^ 32) :
    Recorded size (.closureRec ls nvars) (recordInstr size (.closureRec ls nvars)) := by
  have hmod : ls.length % 2 ^ 32 = ls.length := Nat.mod_eq_of_lt hlen
  have hafter : depthAfter size (.closureRec ls nvars) = size - (nvars - 1) + ls.length := rfl
  -- the words popped, and then the closures pushed
  have hpush : nvars - 1 ≤ size → Recorded size (.closureRec ls nvars)
      (addU 32 (size - (nvars - 1)) (ls.length % 2 ^ 32) >>= fun s =>
        pure (s, [.closureRec ls nvars])) := by
    intro hn
    rw [hmod]
    unfold addU
    by_cases hlt : size - (nvars - 1) + ls.length < 2 ^ 32
    · rw [if_pos hlt]
      exact .ok trivial hn fun _ => hlt
    · rw [if_neg hlt]
      exact .panic fun _ => ⟨hn, Nat.le_of_not_lt hlt⟩
  simp only [recordInstr, popForBlock]
  by_cases hn : nvars > 0
  · rw [if_pos hn]
    unfold popChecked ensure
    by_cases hle : nvars - 1 ≤ size
    · rw [if_pos hle]
      exact hpush hle
    · rw [if_neg hle]
      exact .error trivial hle
  · rw [if_neg hn]
    have hzero : nvars - 1 = 0 := by omega
    have hpush := hpush (by omega)
    rw [hzero] at hpush
    exact hpush

/-- **The checks on an instruction inside a block.** -/
theorem recordInstr_recorded (size : Nat) {q : List (Instruction Nat)} (hq : QueueOk (i :: q))
    (hi : i.isControl = false) : Recorded size i (recordInstr size i) := by
  cases i
  case labelDef l => exact absurd rfl (hq.1 l)
  case branch | branchIf | branchIfNot | branchCmp | switch | pushTrap | raise | stop | applyTerm
    | return_ => cases hi
  case push | setupForPubMet => exact recorded_push rfl rfl trivial
  case pushRetAddr => exact recorded_push rfl rfl trivial
  case closure | makeBlock | makeFloatBlock => exact recorded_popForBlock rfl rfl rfl trivial
  case closureRec ls nvars => exact recorded_closureRec (hq.2.2.1 ls nvars rfl)
  case assign n => exact recorded_check Nat.succ_le_iff.symm rfl rfl trivial
  case getMethod | getDynMet => exact recorded_check Iff.rfl rfl rfl trivial
  case apply nargs =>
    simp only [recordInstr, addU]
    by_cases hlt : nargs + 3 < 2 ^ 32
    · rw [if_pos hlt]
      exact recorded_pop rfl rfl rfl hlt
    · rw [if_neg hlt]
      exact .panic fun hops => absurd hops hlt
  case cCallN nargs id =>
    simp only [recordInstr, subU]
    by_cases hle : 1 ≤ nargs
    · rw [if_pos hle]
      exact recorded_pop rfl rfl rfl hle
    · rw [if_neg hle]
      exact .panic fun hops => absurd hops hle
  case pop | apply1 | apply2 | apply3 | setField | setFloatField | getVecTItem | setVecTItem
    | getBytesChar | setBytesChar | popTrap | cCall2 | cCall3 | cCall4 | cCall5 | arithInt
    | intCmp => exact recorded_pop rfl rfl rfl trivial
  all_goals exact recorded_keep (Nat.zero_le size) rfl rfl trivial

end Recorded

/-! ## §2. The rule for the search. -/

/-- What is seen stays seen. -/
def SeenGrows (st st' : SearchState) : Prop := ∀ o, (st.seen o).isSome → (st'.seen o).isSome

theorem SeenGrows.refl (st : SearchState) : SeenGrows st st := fun _ h => h

theorem SeenGrows.trans {st st' st'' : SearchState} (h : SeenGrows st st')
    (h' : SeenGrows st' st'') : SeenGrows st st'' := fun o ho => h' o (h o ho)

/-- A fault of the iterator as one of the conversion. -/
def liftFault : Fault InstructionParseError → Fault ConversionError
  | .error e => .error (.parse e)
  | .panic => .panic
  | .outOfFuel => .outOfFuel

theorem liftParse_error {α : Type} (f : Fault InstructionParseError) :
    liftParse (.error f : Rust InstructionParseError α) = .error (liftFault f) := by
  cases f <;> rfl

/-- **The rule.**  `Point st e q pos size`: the search, in state `st`, has come to
this point of the block at `e`.  `Arrives st o size ty`: it is about to visit `o`.
`Seen o size ty`: what the entry of a seen block may be.  `E`: the faults allowed. -/
structure Admits (code : List Word) (bs : List Nat) (E : Fault ConversionError → Prop)
    (Point : SearchState → Nat → List (Instruction Nat) → Nat → Nat → Prop)
    (Arrives : SearchState → Nat → Nat → BasicBlockType → Prop)
    (Seen : Nat → Nat → BasicBlockType → Prop) : Prop where
  fuel : E .outOfFuel
  queueOk : ∀ {st e q pos size}, Point st e q pos size → QueueOk q
  mono : ∀ {st st' e q pos size}, Point st e q pos size → SeenGrows st st' →
    Point st' e q pos size
  start : ∀ {st o size ty}, Arrives st o size ty → st.seen o = none →
    o ≤ code.length ∧ Seen o size ty ∧ ∀ p, Point (st.setSeen o p) o [] o size
  again : ∀ {st o size ty} {p : PendingBlock}, Arrives st o size ty → st.seen o = some p →
    Seen o p.startStackSize p.blockType →
    (p.startStackSize = size ∧ p.blockType = ty) ∨ ∀ e, E (.error e)
  ending : ∀ {st e pos size}, Point st e [] pos size → code.length ≤ pos →
    E (.error .expectedAnInstruction)
  fault : ∀ {st e pos size f}, Point st e [] pos size → pos < code.length →
    decodeAt code pos = .error f → E (liftFault f)
  fetch : ∀ {st e q pos pos' size}, Point st e [] pos size → decodeAt code pos = .ok (q, pos') →
    ¬ SplitAt bs e pos → Point st e q pos' size
  split : ∀ {st e q pos pos' size}, Point st e [] pos size → decodeAt code pos = .ok (q, pos') →
    SplitAt bs e pos → Arrives st pos size .normal
  more : ∀ {st e i q pos size}, Point st e (i :: q) pos size → i.isControl = false →
    Outcome E (fun r => Point st e q pos r.1) (recordInstr size i)
  exit : ∀ {st e i q pos size}, Point st e (i :: q) pos size → i.isControl = true →
    ExitDepth size i ∨ ∀ e, E (.error e)
  trap : ∀ {st e l q pos size}, Point st e (.pushTrap l :: q) pos size →
    size + 4 < 2 ^ 32 ∨ E .panic
  edges : ∀ {st e i q pos size}, Point st e (i :: q) pos size → i.isControl = true →
    ∀ t s, (t, s) ∈ flowEdges i pos size → Arrives st t s .normal

/-- The entries of the seen blocks. -/
def SeenAll (Seen : Nat → Nat → BasicBlockType → Prop) (st : SearchState) : Prop :=
  ∀ o p, st.seen o = some p → Seen o p.startStackSize p.blockType

section Rule

variable {code : List Word} {bs : List Nat} {E : Fault ConversionError → Prop}
  {Point : SearchState → Nat → List (Instruction Nat) → Nat → Nat → Prop}
  {Arrives : SearchState → Nat → Nat → BasicBlockType → Prop}
  {Seen : Nat → Nat → BasicBlockType → Prop}

/-- What a visit keeps. -/
def Kept (Seen : Nat → Nat → BasicBlockType → Prop) (st st' : SearchState) : Prop :=
  SeenAll Seen st' ∧ SeenGrows st st'

/-- What the loop uses of its visitor. -/
def VisitorKeeps (E : Fault ConversionError → Prop)
    (Arrives : SearchState → Nat → Nat → BasicBlockType → Prop)
    (Seen : Nat → Nat → BasicBlockType → Prop) (visit : Visitor) : Prop :=
  ∀ st o source size ty, SeenAll Seen st → Arrives st o size ty →
    Outcome E (Kept Seen st) (visit st o source size ty)

variable {visit : Visitor} (h : Admits code bs E Point Arrives Seen)
  (hv : VisitorKeeps E Arrives Seen visit)

include h hv

/-- An edge of a control instruction is visited, in a state reached since. -/
theorem Admits.visitEdge {st st' : SearchState} {e pos size : Nat} {i : Instruction Nat}
    {q : List (Instruction Nat)} (hp : Point st e (i :: q) pos size) (hi : i.isControl = true)
    (hkept : Kept Seen st st') {t s : Nat} (ht : (t, s) ∈ flowEdges i pos size)
    (source : Option Nat) : Outcome E (Kept Seen st) (visit st' t source s .normal) := by
  refine (hv st' t source s .normal hkept.1 ?_).mono fun st'' h' => ⟨h'.1, hkept.2.trans h'.2⟩
  exact h.edges (h.mono hp hkept.2) hi t s ht

theorem Admits.visitTargets {st : SearchState} {e pos size : Nat} {i : Instruction Nat}
    {q : List (Instruction Nat)} (hp : Point st e (i :: q) pos size) (hi : i.isControl = true) :
    ∀ (ls : List Nat) (st' : SearchState), Kept Seen st st' →
      (∀ l ∈ ls, (l, size) ∈ flowEdges i pos size) →
      Outcome E (Kept Seen st) (visitTargets visit e size st' ls)
  | [], _, hkept, _ => hkept
  | l :: ls, st', hkept, hls => by
      refine (h.visitEdge hv hp hi hkept (hls l List.mem_cons_self) (some e)).bind
        fun st'' hkept' => ?_
      exact Admits.visitTargets hp hi ls st'' hkept' fun m hm => hls m (List.mem_cons_of_mem _ hm)

/-- What a turn of the loop keeps. -/
def TurnKept (Point : SearchState → Nat → List (Instruction Nat) → Nat → Nat → Prop)
    (Seen : Nat → Nat → BasicBlockType → Prop) (st : SearchState) (e : Nat)
    (q : List (Instruction Nat)) (pos : Nat) : Turn → Prop
  | .more st' size' _ => st'.seen = st.seen ∧ Point st' e q pos size'
  | .exit st' _ _ => Kept Seen st st'

/-- **A turn of the loop** comes to the next point or leaves the block. -/
theorem Admits.turn {st : SearchState} {e pos size : Nat} {i : Instruction Nat}
    {q : List (Instruction Nat)} (hp : Point st e (i :: q) pos size) (hseen : SeenAll Seen st) :
    Outcome E (TurnKept Point Seen st e q pos) (turn visit bs e pos st size i) := by
  have hkept : Kept Seen st st := ⟨hseen, .refl st⟩
  have hedge : ∀ {st'} {t s : Nat}, i.isControl = true → Kept Seen st st' →
      (t, s) ∈ flowEdges i pos size → ∀ source,
      Outcome E (Kept Seen st) (visit st' t source s .normal) :=
    fun hi hkept ht source => h.visitEdge hv hp hi hkept ht source
  have hstay : i.isControl = false → Outcome E (TurnKept Point Seen st e q pos)
      (recordInstr size i >>= fun r => pure (.more (st.useClosures i.closureLabels) r.1 r.2)) :=
    fun hi => (h.more hp hi).bind fun r hr => ⟨rfl, h.mono hr (.refl st)⟩
  cases i
  case labelDef l => exact absurd rfl ((h.queueOk hp).1 l)
  case applyTerm | return_ | stop =>
    refine (outcome_ensure ?_).bind fun _ _ => hkept
    rcases h.exit hp rfl with hsize | herr
    · exact .inl hsize
    · exact .inr (herr _)
  case raise => exact hkept
  case branch l => exact (hedge rfl hkept (by simp [flowEdges, jumpLabels]) _).bind fun _ h' => h'
  case branchIf | branchIfNot | branchCmp =>
    refine (hedge rfl hkept (by simp [flowEdges, jumpLabels, fallsThrough, depthAfter, stackUse])
      _).bind fun st' hkept' => ?_
    refine (hedge rfl hkept' (by simp [flowEdges, jumpLabels, fallsThrough, depthAfter, stackUse])
      _).bind fun _ h' => h'
  case switch ints tags =>
    refine (h.visitTargets hv hp rfl ints st hkept ?_).bind fun st' hkept' => ?_
    · intro l hl
      simp [flowEdges, jumpLabels, hl]
    · refine (h.visitTargets hv hp rfl tags st' hkept' ?_).bind fun _ h' => h'
      intro l hl
      simp [flowEdges, jumpLabels, hl]
  case pushTrap l =>
    have hflag : Kept Seen st { st with hasTrapHandlers := true } := hkept
    refine (hedge rfl hflag (by simp [flowEdges, jumpLabels]) _).bind fun st' hkept' => ?_
    refine (outcome_addU (h.trap hp)).bind fun size' hsize' => ?_
    subst hsize'
    exact (hedge rfl hkept' (by simp [flowEdges, fallsThrough, depthAfter, stackUse]) _).bind
      fun _ h' => h'
  all_goals exact hstay rfl

/-- **The loop of `visit`.** -/
theorem Admits.visitLoop {e : Nat} (q : List (Instruction Nat)) (pos : Nat) :
    ∀ (st : SearchState) (size : Nat) (is : List BasicBlockInstruction),
      Point st e q pos size → SeenAll Seen st →
      Outcome E (Kept Seen st) (visitLoop visit bs e (itemsAt code q pos) st size is) := by
  have hnoted : ∀ {st q pos size}, Point st e q pos size →
      Point (st.noteStackSize size) e q pos size := fun {st} _ _ _ hp => h.mono hp (.refl st)
  induction q, pos using itemsAt_induct code with
  | ending pos hend => exact fun st size is hp _ => h.ending hp hend
  | fault pos f hlt hd =>
      intro st size is hp _
      show Outcome E _ (liftParse (.error f) >>= _)
      rw [liftParse_error]
      exact h.fault hp hlt hd
  | fetch q pos pos' _ hd ih =>
      intro st size is hp hseen
      show Outcome E _ (BasicBlocks.turn visit bs e pos' (st.noteStackSize size) size
        (.labelDef pos) >>= _)
      simp only [BasicBlocks.turn]
      -- the label: a jump to another block, or on into the opcode
      by_cases hsplit : SplitAt bs e pos
      · rw [if_pos hsplit, bind_assoc]
        exact (hv (st.noteStackSize size) pos (some e) size .normal hseen
          (h.split (hnoted hp) hd hsplit)).bind fun st' h' => h'
      · rw [if_neg hsplit]
        exact ih (st.noteStackSize size) size _ (h.fetch (hnoted hp) hd hsplit) hseen
  | next i q pos ih =>
      intro st size is hp hseen
      refine (h.turn hv (hnoted hp) hseen).bind fun t ht => ?_
      cases t with
      | exit st' size' x => exact ht
      | more st' size' pushed =>
          obtain ⟨hsame, hp'⟩ := ht
          have hseen' : SeenAll Seen st' := by
            intro o p ho
            rw [hsame] at ho
            exact hseen o p ho
          refine (ih st' size' _ hp' hseen').mono fun st'' h' => ⟨h'.1, fun o ho => h'.2 o ?_⟩
          rw [hsame]
          exact ho

end Rule

section Search

variable {code : List Word} {bs : List Nat} {E : Fault ConversionError → Prop}
  {Point : SearchState → Nat → List (Instruction Nat) → Nat → Nat → Prop}
  {Arrives : SearchState → Nat → Nat → BasicBlockType → Prop}
  {Seen : Nat → Nat → BasicBlockType → Prop}

theorem setSeen_grows (st : SearchState) (o : Nat) (p : PendingBlock) :
    SeenGrows st (st.setSeen o p) := by
  intro o' ho'
  rw [setSeen_seen]
  split
  · rfl
  · exact ho'

theorem setSeen_seenAll {st : SearchState} {o : Nat} {p : PendingBlock} (hseen : SeenAll Seen st)
    (hp : Seen o p.startStackSize p.blockType) : SeenAll Seen (st.setSeen o p) := by
  intro o' p' ho'
  rw [setSeen_seen] at ho'
  split at ho'
  case isTrue heq =>
      cases ho'
      rw [heq]
      exact hp
  case isFalse => exact hseen o' p' ho'

/-- **Every call of `visit` keeps to the rule.** -/
theorem Admits.visit (h : Admits code bs E Point Arrives Seen) :
    ∀ fuel, VisitorKeeps E Arrives Seen (visit code bs fuel)
  | 0, _, _, _, _, _, _, _ => h.fuel
  | fuel + 1, st, o, source, size, ty, hseen, harrives => by
      cases ho : st.seen o with
      | some existing =>
          rw [visit_of_seen ho]
          have hentry := hseen o existing ho
          have hagain := h.again harrives ho hentry
          refine (outcome_ensure ?_).bind fun _ _ => (outcome_ensure ?_).bind fun _ _ => ?_
          · exact hagain.imp And.left fun herr => herr _
          · exact hagain.imp And.right fun herr => herr _
          · exact ⟨setSeen_seenAll hseen hentry, setSeen_grows st o _⟩
      | none =>
          obtain ⟨hlen, hentry, hpoint⟩ := h.start harrives ho
          rw [visit_of_new ho, iterFrom, if_pos hlen, ok_bind]
          refine (h.visitLoop (Admits.visit h fuel) [] o _ size [] (hpoint _)
            (setSeen_seenAll hseen hentry)).mono fun st' h' => ?_
          exact ⟨h'.1, (setSeen_grows st o _).trans h'.2⟩

end Search

/-! ## §3. The rest of the conversion. -/

section FirstSearch

variable {code : List Word} {entry : Nat} {E : Fault ConversionError → Prop}

/-- **The first search** only fails where a reached opcode does not decode. -/
theorem blockStartsLoop_outcome
    (hfault : ∀ pos f, Reached code entry [] pos → pos < code.length →
      decodeAt code pos = .error f → E (liftFault f))
    {visit : List Nat → Nat → Conv (List Nat)}
    (hv : ∀ seen l, Continued code entry l → Outcome E (fun _ => True) (visit seen l))
    (q : List (Instruction Nat)) (pos : Nat) :
    ∀ seen, Reached code entry q pos →
      Outcome E (fun _ => True) (blockStartsLoop visit (itemsAt code q pos) seen) := by
  induction q, pos using itemsAt_induct code with
  | ending pos _ => exact fun _ _ => trivial
  | fault pos f hlt hd =>
      intro seen hr
      show Outcome E _ (liftParse (.error f) >>= _)
      rw [liftParse_error]
      exact hfault pos f hr hlt hd
  | fetch q pos pos' _ hd ih => exact fun seen hr => ih seen (hr.fetch hd)
  | next i q pos ih =>
      intro seen hr
      have htail : ∀ seen, i.isControl = false →
          Outcome E (fun _ => True) (blockStartsLoop visit (itemsAt code q pos) seen) :=
        fun seen hi => ih seen (hr.next (fallsThrough_of_not_isControl hi))
      show Outcome E _ (if isPlainReference i then _ else _)
      split
      case isTrue hplain => exact htail seen (isControl_of_isPlainReference hplain)
      case isFalse hplain =>
          have hlabels := visitLabels_eq (by simpa using hplain)
          -- the labels one after the other
          have heach : ∀ (ls : List Nat) (seen : List Nat),
              (∀ l ∈ ls, Continued code entry l) →
              Outcome E (fun _ => True) (visitEach visit seen ls) := by
            intro ls
            induction ls with
            | nil => exact fun _ _ => trivial
            | cons l ls ih =>
                intro seen hls
                exact (hv seen l (hls l List.mem_cons_self)).bind fun seen' _ =>
                  ih seen' fun m hm => hls m (List.mem_cons_of_mem _ hm)
          rw [hlabels, blockEnd_eq]
          cases hi : i.isControl with
          | false =>
              rw [jumpLabels_of_not_isControl hi]
              exact htail seen hi
          | true =>
              refine (heach _ seen fun l hl => ?_).bind fun seen' _ => ?_
              · exact .control hr hi (mem_controlTargets.mpr (.inl hl))
              · cases hf : fallsThrough i with
                | true =>
                    exact hv seen' pos (.control hr hi (mem_controlTargets.mpr (.inr ⟨rfl, hf⟩)))
                | false => trivial

theorem findBlockStartsDfs_outcome (hfuel : E .outOfFuel)
    (hfault : ∀ pos f, Reached code entry [] pos → pos < code.length →
      decodeAt code pos = .error f → E (liftFault f))
    (hlen : ∀ o, Continued code entry o → o ≤ code.length) :
    ∀ fuel seen start, Continued code entry start →
      Outcome E (fun _ => True) (findBlockStartsDfs code fuel seen start)
  | 0, _, _, _ => hfuel
  | fuel + 1, seen, start, hstart => by
      rw [findBlockStartsDfs_succ, iterFrom, if_pos (hlen start hstart), ok_bind]
      refine blockStartsLoop_outcome hfault (fun seen l hl => ?_) [] start seen hstart.reached
      unfold visitLabel
      split
      · trivial
      · exact findBlockStartsDfs_outcome hfuel hfault hlen fuel (l :: seen) l hl

/-- When the first search succeeds, the opcode at the entry has decoded. -/
theorem findBlockStartsDfs_decodes {fuel start : Nat} {seen bs : List Nat}
    (h : findBlockStartsDfs code fuel seen start = .ok bs) (hlt : start < code.length) :
    ∃ q pos', decodeAt code start = .ok (q, pos') := by
  cases fuel with
  | zero => cases h
  | succ fuel =>
      cases hd : decodeAt code start with
      | ok r => exact ⟨r.1, r.2, rfl⟩
      | error f =>
          rw [findBlockStartsDfs_succ, iterFrom, if_pos (Nat.le_of_lt hlt), ok_bind,
            instructionsFrom_eq, if_neg (Nat.not_le.mpr hlt), hd] at h
          obtain ⟨_, hitem, -⟩ := bind_eq_ok.mp h
          rw [liftParse_error] at hitem
          cases hitem

end FirstSearch

/-- The arity of the closure at an offset: the operand of its `GRAB` and one. -/
def closureArity (code : List Word) (entry : Nat) : Int :=
  match code[entry]? with
  | some w =>
      if Opcode.fromI32 w = some .grab then
        match code[entry + 1]? with
        | some n => n.toInt + 1
        | none => 1
      else 1
  | none => 1

/-- The size `visit` starts with: the arity cut to 32 bits. -/
def startDepth (code : List Word) (entry : Nat) : Nat := (closureArity code entry % 2 ^ 32).toNat

section Arity

variable {code : List Word} {entry : Nat}

/-- A `GRAB` that decodes has its operand. -/
theorem grab_operand {w : Word} {q : List (Instruction Nat)} {pos' : Nat}
    (hd : decodeAt code entry = .ok (q, pos')) (hw : code[entry]? = some w)
    (hg : Opcode.fromI32 w = some .grab) : ∃ n, code[entry + 1]? = some n := by
  have hread := decodeAt_cursor hd
  obtain ⟨op, c₁, hop, hops⟩ := reader_bind_ok.mp hread
  obtain ⟨hlt, hget⟩ := List.getElem?_eq_some_iff.mp hw
  have hdrop : code.drop entry = w :: code.drop (entry + 1) := by
    rw [← hget]
    exact List.drop_eq_getElem_cons hlt
  obtain ⟨v, c₂, hv, hmatch⟩ := reader_bind_ok.mp hop
  simp only [Reader.i32, hdrop, Except.ok.injEq, Prod.mk.injEq] at hv
  obtain ⟨rfl, rfl⟩ := hv
  rw [hg] at hmatch
  obtain ⟨rfl, rfl⟩ := reader_pure_ok.mp hmatch
  obtain ⟨n, c₃, hn, -⟩ := reader_bind_ok.mp hops
  obtain ⟨hle, -⟩ := Reader.u32_readsN _ _ _ hn
  simp only [List.length_drop] at hle
  exact ⟨_, List.getElem?_eq_getElem (show entry + 1 < code.length by omega)⟩

theorem usizeOfWord_eq (n : Word) :
    (usizeOfWord n : Int) = if 0 ≤ n.toInt then n.toInt else n.toInt + 2 ^ 64 := by
  unfold usizeOfWord
  have htoInt : (n.signExtend 64).toInt = n.toInt := BitVec.toInt_signExtend_of_le (by decide)
  have hcases := BitVec.toInt_eq_toNat_cond (n.signExtend 64)
  have hlt := (n.signExtend 64).isLt
  rw [htoInt] at hcases
  split at hcases <;> split <;> omega

/-- **The arity read by the conversion**: the addition overflows for `GRAB -1`. -/
theorem arityAt_outcome {E : Fault ConversionError → Prop} {q : List (Instruction Nat)} {pos' : Nat}
    (hd : decodeAt code entry = .ok (q, pos')) (hE : closureArity code entry ≠ 0 ∨ E .panic) :
    Outcome E (fun arity => closureArity code entry ≠ 0 ∧ arity % 2 ^ 32 = startDepth code entry)
      (arityAt code entry) := by
  have hlt := decodeAt_bounds hd
  have hw : code[entry]? = some code[entry] := List.getElem?_eq_getElem (by omega)
  unfold arityAt startDepth
  unfold closureArity at hE ⊢
  simp only [hw] at hE ⊢
  by_cases hg : Opcode.fromI32 code[entry] = some .grab
  · obtain ⟨n, hn⟩ := grab_operand hd hw hg
    have hu := usizeOfWord_eq n
    have hge := BitVec.le_toInt n
    have hlt := BitVec.toInt_lt (x := n)
    simp only [if_pos hg, hn] at hE ⊢
    unfold addU
    split
    case isTrue hfits =>
        refine ⟨?_, ?_⟩
        · split at hu <;> omega
        · show (usizeOfWord n + 1) % 2 ^ 32 = _
          split at hu <;> omega
    case isFalse hover =>
        refine hE.resolve_left fun hne => hne ?_
        split at hu <;> omega
  · simp only [if_neg hg] at hE ⊢
    exact ⟨by decide, rfl⟩

end Arity

/-- **The conversion keeps to the rule.** -/
theorem parseToBasicBlocks_outcome {code : List Word} {entry : Nat}
    {E : Fault ConversionError → Prop}
    {Point : SearchState → Nat → List (Instruction Nat) → Nat → Nat → Prop}
    {Arrives : SearchState → Nat → Nat → BasicBlockType → Prop}
    {Seen : Nat → Nat → BasicBlockType → Prop} (hlt : entry < code.length) (hfuel : E .outOfFuel)
    (hfault : ∀ pos f, Reached code entry [] pos → pos < code.length →
      decodeAt code pos = .error f → E (liftFault f))
    (hlen : ∀ o, Continued code entry o → o ≤ code.length)
    (harity : closureArity code entry ≠ 0 ∨ E .panic)
    (hadmits : ∀ bs, (∀ o, o ∈ bs ↔ Continued code entry o) →
      Admits code bs E Point Arrives Seen)
    (harrives : Arrives .initial entry (startDepth code entry) .first) :
    Outcome E (fun _ => True) (parseToBasicBlocks code entry) := by
  have hstarts := findBlockStartsDfs_outcome hfuel hfault hlen (searchFuel code) [entry] entry
    .entry
  unfold parseToBasicBlocks
  cases hbs : findBlockStartsDfs code (searchFuel code) [entry] entry with
  | error f =>
      rw [hbs] at hstarts
      exact hstarts
  | ok bs =>
      obtain ⟨q, pos', hd⟩ := findBlockStartsDfs_decodes hbs hlt
      have h := hadmits bs (findBlockStartsDfs_mem hbs)
      refine (arityAt_outcome hd harity).bind fun arity ⟨_, hmod⟩ => ?_
      rw [← hmod] at harrives
      have hvisit := h.visit (searchFuel code) .initial entry none _ .first nofun harrives
      cases hst : visit code bs (searchFuel code) .initial entry none (arity % 2 ^ 32) .first with
      | error f =>
          rw [hst] at hvisit
          exact hvisit
      | ok st =>
          obtain ⟨c, hc, -⟩ := buildClosure_numbered (visit_searched hst) arity
          show Outcome E _ (buildClosure arity st)
          rw [hc]
          trivial

end OcamlJit.BasicBlocks

/-
  OcamlJit.BasicBlocks.Acceptance
  ───────────────────────────────
  **WHEN THE CONVERSION ACCEPTS.**

  The rule of the search, with no fault at all (`parseToBasicBlocks_accepts`):
  closures whose stack depths fit together are accepted, unless control comes
  back to the entry.
-/
import OcamlJit.BasicBlocks.SearchRule

namespace OcamlJit.BasicBlocks

open OcamlJit.Lib OcamlJit.Instructions

/-! ## §1. Depths along the paths. -/

/-- The points of the stream with the depth and the offsets where control
continued on the way.  A path ends where an instruction pops too much. -/
inductive Flows (code : List Word) (entry : Nat) :
    List Nat → List (Instruction Nat) → Nat → Nat → Prop where
  | entry : Flows code entry [entry] [] entry (startDepth code entry)
  | fetch {path : List Nat} {q : List (Instruction Nat)} {pos pos' size : Nat}
      (h : Flows code entry path [] pos size) (hd : decodeAt code pos = .ok (q, pos')) :
      Flows code entry path q pos' size
  | more {path : List Nat} {i : Instruction Nat} {q : List (Instruction Nat)} {pos size : Nat}
      (h : Flows code entry path (i :: q) pos size) (hi : i.isControl = false)
      (hpops : (stackUse i).pops ≤ size) : Flows code entry path q pos (depthAfter size i)
  | control {path : List Nat} {i : Instruction Nat} {q : List (Instruction Nat)}
      {pos size t s : Nat} (h : Flows code entry path (i :: q) pos size)
      (hi : i.isControl = true) (ht : (t, s) ∈ flowEdges i pos size) :
      Flows code entry (path ++ [t]) [] t s

section Flows

variable {code : List Word} {entry : Nat} {path : List Nat} {q : List (Instruction Nat)}
  {pos size : Nat}

/-- Where the code goes on, and with what size. -/
theorem mem_flowEdges {i : Instruction Nat} {t s : Nat} :
    (t, s) ∈ flowEdges i pos size ↔ (t ∈ jumpLabels i ∧ s = size) ∨
      (t = pos ∧ fallsThrough i = true ∧ s = depthAfter size i) := by
  unfold flowEdges
  cases fallsThrough i <;> simp [eq_comm]

/-- The edges of an exit are those of its instruction. -/
theorem exitOf_flowEdges {i : Instruction Nat} {x : BlockExit} (hx : exitOf pos size i = some x)
    (e : Nat × Nat) : e ∈ x.edges ↔ e ∈ flowEdges i pos size := by
  cases i <;> simp only [exitOf, Option.ite_none_right_eq_some, Option.some.injEq,
    reduceCtorEq] at hx
  case applyTerm | return_ | stop | pushTrap =>
    obtain ⟨-, rfl⟩ := hx
    simp [flowEdges, jumpLabels, fallsThrough, depthAfter, stackUse]
  all_goals
    subst hx
    simp [flowEdges, jumpLabels, fallsThrough, depthAfter, stackUse, or_comm]

/-- What the code flows to is reached. -/
theorem Flows.reached (h : Flows code entry path q pos size) : Reached code entry q pos := by
  induction h with
  | entry => exact .entry
  | fetch _ hd ih => exact ih.fetch hd
  | more _ hi _ ih => exact ih.next (fallsThrough_of_not_isControl hi)
  | control _ hi ht ih =>
      obtain rfl := ih.queueOk.2.1 hi
      rcases mem_flowEdges.mp ht with ⟨hl, -⟩ | ⟨rfl, hf, -⟩
      · exact ih.jump hl
      · exact ih.next hf

/-- An instruction recorded by the conversion. -/
theorem recordInstr_eq_ok {i : Instruction Nat} {r : Nat × List BasicBlockInstruction}
    (hq : QueueOk (i :: q)) (hi : i.isControl = false) (h : recordInstr size i = .ok r) :
    OperandsOk i ∧ (stackUse i).pops ≤ size ∧ r.1 = depthAfter size i ∧
      (size < 2 ^ 32 → depthAfter size i < 2 ^ 32) := by
  have hrec := recordInstr_recorded size hq hi
  rw [h] at hrec
  cases hrec with
  | ok hops hchecked hlt => exact ⟨hops, (stackUse_checked i).1.trans hchecked, rfl, hlt⟩

variable {bs : List Nat} {st : SearchState}

/-- Some finished block passes over the point at this size. -/
def PassedAt (code : List Word) (bs : List Nat) (st : SearchState) (q : List (Instruction Nat))
    (pos size : Nat) : Prop :=
  ∃ f ∈ st.finished, ∃ p pre, st.seen f.offset = some p ∧
    Passes code bs f.offset p.startStackSize q pos size pre

/-- A block that was seen is passed at its size. -/
theorem passedAt_of_seenAs {start t s : Nat} {ty : BasicBlockType}
    (hs : Searched code bs entry start st) (h : st.SeenAs t s ty) : PassedAt code bs st [] t s := by
  obtain ⟨p, hp, rfl, -⟩ := h
  obtain ⟨f, hf, rfl⟩ := List.mem_map.mp ((hs.seen_iff t).mp (by simp [hp]))
  exact ⟨f, hf, p, _, hp, .start⟩

/-- **After a successful search the blocks are at the depth of every path.** -/
theorem flows_passedAt (hs : Searched code bs entry (startDepth code entry) st)
    (h : Flows code entry path q pos size) : size < 2 ^ 32 ∧ PassedAt code bs st q pos size := by
  induction h with
  | entry =>
      refine ⟨?_, passedAt_of_seenAs hs hs.entrySeen⟩
      unfold startDepth
      omega
  | @fetch path q pos pos' size _ hd ih =>
      obtain ⟨hsize, f, hf, p, pre, hseen, hpass⟩ := ih
      refine ⟨hsize, ?_⟩
      by_cases hsplit : SplitAt bs f.offset pos
      · -- the block ends here and the one at `pos` goes on
        obtain ⟨p', x, hseen', -, hscan, -, -, hedges⟩ := (hs.blocks f hf).scanned
        rw [hseen] at hseen'
        cases hseen'
        obtain ⟨is', -, hrest⟩ := hpass.scan hscan
        cases hrest with
        | fetch hno => exact absurd hsplit hno
        | split =>
            obtain ⟨p', hp', hstart, -⟩ := hedges pos size (by simp [jumpTo])
            obtain ⟨g, hg, rfl⟩ := List.mem_map.mp ((hs.seen_iff pos).mp (by simp [hp']))
            have hnext : Passes code bs g.offset p'.startStackSize q pos' size [] := by
              rw [hstart]
              exact Passes.start.fetch (fun hno => hno.1 rfl) hd
            exact ⟨g, hg, p', _, hp', hnext⟩
      · exact ⟨f, hf, p, pre, hseen, hpass.fetch hsplit hd⟩
  -- the block that passes `pos` records the instruction too
  | @more path i q pos size _ hi _ ih =>
      obtain ⟨hsize, f, hf, p, pre, hseen, hpass⟩ := ih
      obtain ⟨p', x, hseen', -, hscan, -, -, -⟩ := (hs.blocks f hf).scanned
      rw [hseen] at hseen'
      cases hseen'
      obtain ⟨is', -, hrest⟩ := hpass.scan hscan
      cases hrest with
      | more _ hstay hrec _ =>
          obtain ⟨-, -, heq, hlt⟩ := recordInstr_eq_ok hpass.queueOk hi hrec
          rw [← heq] at hlt ⊢
          exact ⟨hlt hsize, f, hf, p, _, hseen, hpass.more hstay hrec⟩
      | exit _ hexit _ =>
          rw [isControl_of_exitOf hexit] at hi
          cases hi
  -- the block that passes `pos` ends there, and its edges have been visited
  | @control path i q pos size t s _ hi ht ih =>
      obtain ⟨hsize, f, hf, p, pre, hseen, hpass⟩ := ih
      obtain ⟨p', x, hseen', -, hscan, -, -, hedges⟩ := (hs.blocks f hf).scanned
      rw [hseen] at hseen'
      cases hseen'
      obtain ⟨is', -, hrest⟩ := hpass.scan hscan
      cases hrest with
      | more _ hstay =>
          rw [hi] at hstay
          cases hstay
      | exit _ hexit _ =>
          refine ⟨?_, passedAt_of_seenAs hs
            (hedges t s ((exitOf_flowEdges hexit (t, s)).mpr ht))⟩
          rcases mem_flowEdges.mp ht with ⟨-, rfl⟩ | ⟨-, -, rfl⟩
          · exact hsize
          · cases i <;> simp only [exitOf, Option.ite_none_right_eq_some, reduceCtorEq] at hexit
            case pushTrap => exact hexit.1
            all_goals exact hsize

end Flows

/-! ## §2. Acceptance. -/

/-- The depth at a point inside an opcode, from an assignment of depths to
offsets. -/
inductive DepthAt (code : List Word) (entry : Nat) (depth : Nat → Nat) :
    List (Instruction Nat) → Nat → Nat → Prop where
  | fetch {q : List (Instruction Nat)} {pos pos' : Nat} (h : Reached code entry [] pos)
      (hd : decodeAt code pos = .ok (q, pos')) : DepthAt code entry depth q pos' (depth pos)
  | next {i : Instruction Nat} {q : List (Instruction Nat)} {pos size : Nat}
      (h : DepthAt code entry depth (i :: q) pos size) (hi : i.isControl = false) :
      DepthAt code entry depth q pos (depthAfter size i)

/-- **The stack discipline of a closure**: every reached instruction decodes, and
there are depths at the reached offsets, from the arity on, that every
instruction finds its words at and every control edge keeps to.  (A label outside
the array would be a reached offset that does not decode.) -/
structure Disciplined (code : List Word) (entry : Nat) (depth : Nat → Nat) : Prop where
  start : (depth entry : Int) = closureArity code entry
  decodes : ∀ pos, Reached code entry [] pos → ∃ q pos', decodeAt code pos = .ok (q, pos')
  cCallN : ∀ nargs id q pos, Reached code entry (.cCallN nargs id :: q) pos → 1 ≤ nargs
  enough : ∀ i q pos size, DepthAt code entry depth (i :: q) pos size →
    (stackUse i).needs ≤ size
  exits : ∀ i q pos size, DepthAt code entry depth (i :: q) pos size → ExitDepth size i
  next : ∀ pos size, DepthAt code entry depth [] pos size → depth pos = size
  edges : ∀ i q pos size, DepthAt code entry depth (i :: q) pos size → i.isControl = true →
    ∀ t s, (t, s) ∈ flowEdges i pos size → depth t = s

/-- No reached instruction jumps to the entry or runs on into it. -/
def NotReentered (code : List Word) (entry : Nat) : Prop :=
  ∀ i q pos, Reached code entry (i :: q) pos →
    entry ∉ jumpLabels i ∧ ¬ (q = [] ∧ fallsThrough i = true ∧ pos = entry)

section Disciplined

variable {code : List Word} {entry : Nat} {depth : Nat → Nat} {q : List (Instruction Nat)}
  {pos size : Nat}

/-- A place with a depth is reached. -/
theorem DepthAt.reached (h : DepthAt code entry depth q pos size) : Reached code entry q pos := by
  induction h with
  | fetch hr hd => exact hr.fetch hd
  | next _ hi ih => exact ih.next (fallsThrough_of_not_isControl hi)

/-- No instruction pops more than it needs. -/
theorem stackUse_pops_le (i : Instruction Nat) : (stackUse i).pops ≤ (stackUse i).needs :=
  (stackUse_checked i).1.trans (stackUse_checked i).2

namespace Disciplined

/-- Reached code is inside the code. -/
theorem lt (h : Disciplined code entry depth) (hr : Reached code entry [] pos) :
    pos < code.length := by
  obtain ⟨q, pos', hd⟩ := h.decodes pos hr
  have hbounds := decodeAt_bounds hd
  omega

/-- An arity is a `u32`. -/
theorem closureArity_le (code : List Word) (entry : Nat) : closureArity code entry < 2 ^ 32 := by
  have hone : (1 : Int) < 2 ^ 32 := by decide
  unfold closureArity
  cases code[entry]? with
  | none => exact hone
  | some w =>
      simp only
      split
      · cases code[entry + 1]? with
        | none => exact hone
        | some n =>
            have hlt := BitVec.toInt_lt (x := n)
            simp only
            omega
      · exact hone

/-- The depth at the start is that of the entry. -/
theorem startDepth_eq (h : Disciplined code entry depth) : startDepth code entry = depth entry := by
  have hlt := closureArity_le code entry
  have hstart := h.start
  unfold startDepth
  omega

/-- **Every reached point is on a path, at its depth.** -/
theorem flows (h : Disciplined code entry depth) (hr : Reached code entry q pos) :
    ∃ path size, Flows code entry path q pos size ∧
      (q ≠ [] → DepthAt code entry depth q pos size) ∧ (q = [] → size = depth pos) := by
  induction hr with
  | entry =>
      refine ⟨[entry], startDepth code entry, .entry, fun hne => absurd rfl hne, fun _ => ?_⟩
      exact h.startDepth_eq
  | @fetch q pos pos' hr hd ih =>
      obtain ⟨path, size, hflow, -, heq⟩ := ih
      obtain rfl := heq rfl
      have hlen := (decodeAt_bounds hd).2.2.1
      refine ⟨path, depth pos, hflow.fetch hd, fun _ => .fetch hr hd, ?_⟩
      rintro rfl
      exact absurd hlen (by decide)
  -- the path goes on inside the block, or along the edge to the next opcode
  | @next i q pos hr hf ih =>
      obtain ⟨path, size, hflow, hdepth, -⟩ := ih
      replace hdepth := hdepth (List.cons_ne_nil i q)
      cases hi : i.isControl with
      | true =>
          obtain rfl := hr.queueOk.2.1 hi
          have ht : (pos, depthAfter size i) ∈ flowEdges i pos size :=
            mem_flowEdges.mpr (.inr ⟨rfl, hf, rfl⟩)
          exact ⟨_, _, hflow.control hi ht, fun hne => absurd rfl hne,
            fun _ => (h.edges i [] pos size hdepth hi _ _ ht).symm⟩
      | false =>
          have hpops := (stackUse_pops_le i).trans (h.enough i q pos size hdepth)
          have hnext := hdepth.next hi
          refine ⟨path, _, hflow.more hi hpops, fun _ => hnext, ?_⟩
          rintro rfl
          exact (h.next pos _ hnext).symm
  | @jump i q pos l hr hl ih =>
      obtain ⟨path, size, hflow, hdepth, -⟩ := ih
      replace hdepth := hdepth (List.cons_ne_nil i q)
      have hi : i.isControl = true := by
        cases hi : i.isControl with
        | true => rfl
        | false =>
            rw [jumpLabels_of_not_isControl hi] at hl
            cases hl
      have ht : (l, size) ∈ flowEdges i pos size := mem_flowEdges.mpr (.inl ⟨hl, rfl⟩)
      exact ⟨_, _, hflow.control hi ht, fun hne => absurd rfl hne,
        fun _ => (h.edges i q pos size hdepth hi _ _ ht).symm⟩

/-- The depth is that along some path. -/
theorem flows_of_depthAt (h : Disciplined code entry depth)
    (hdepth : DepthAt code entry depth q pos size) : ∃ path, Flows code entry path q pos size := by
  induction hdepth with
  | fetch hr hd =>
      obtain ⟨path, size, hflow, -, heq⟩ := h.flows hr
      obtain rfl := heq rfl
      exact ⟨path, hflow.fetch hd⟩
  | @next i q pos size hdepth hi ih =>
      obtain ⟨path, hflow⟩ := ih
      exact ⟨path, hflow.more hi ((stackUse_pops_le i).trans (h.enough i q pos size hdepth))⟩

/-- The point of a block the search has come to. -/
structure Point (code : List Word) (entry : Nat) (depth : Nat → Nat) (e : Nat)
    (q : List (Instruction Nat)) (pos size : Nat) : Prop where
  reached : Reached code entry q pos
  inside : q ≠ [] → DepthAt code entry depth q pos size
  boundary : q = [] → size = depth pos ∧ (pos = entry → e = entry)

/-- The type a block is visited with. -/
def typeOf (entry o : Nat) : BasicBlockType := if o = entry then .first else .normal

/-- **Disciplined code is admitted**: no check of the search fails on it. -/
theorem admits (h : Disciplined code entry depth) (hno : NotReentered code entry)
    (hfits : ∀ q pos size, DepthAt code entry depth q pos size → size < 2 ^ 32) (bs : List Nat) :
    Admits code bs (· = .outOfFuel) (fun _ => Point code entry depth)
      (fun _ o size ty => Reached code entry [] o ∧ size = depth o ∧ ty = typeOf entry o)
      (fun o size ty => size = depth o ∧ ty = typeOf entry o) where
  fuel := rfl
  queueOk := fun hp => hp.reached.queueOk
  mono := fun hp _ => hp
  start := fun ⟨hr, hsize, hty⟩ _ =>
    ⟨Nat.le_of_lt (h.lt hr), ⟨hsize, hty⟩, fun _ => ⟨hr, fun hne => absurd rfl hne,
      fun _ => ⟨hsize, id⟩⟩⟩
  again := fun ⟨_, hsize, hty⟩ _ ⟨hsize', hty'⟩ =>
    .inl ⟨hsize'.trans hsize.symm, hty'.trans hty.symm⟩
  ending := fun hp hge => absurd (h.lt hp.reached) (Nat.not_lt.mpr hge)
  fault := by
    intro st e pos size f hp _ hf
    obtain ⟨q, pos', hd⟩ := h.decodes pos hp.reached
    rw [hd] at hf
    cases hf
  -- between opcodes the size is the depth of the offset
  fetch := by
    intro st e q pos pos' size hp hd _
    obtain ⟨rfl, -⟩ := hp.boundary rfl
    have hlen := (decodeAt_bounds hd).2.2.1
    refine ⟨hp.reached.fetch hd, fun _ => .fetch hp.reached hd, ?_⟩
    rintro rfl
    exact absurd hlen (by decide)
  -- a block that runs into another start is a jump to it, never to the entry
  split := by
    intro st e q pos pos' size hp _ hsplit
    obtain ⟨rfl, hentry⟩ := hp.boundary rfl
    refine ⟨hp.reached, rfl, (if_neg fun heq => ?_).symm⟩
    exact hsplit.1 (heq.trans (hentry heq).symm)
  more := by
    intro st e i q pos size hp hi
    have hdepth := hp.inside (List.cons_ne_nil i q)
    have hneeds := h.enough i q pos size hdepth
    have hnext := hdepth.next hi
    -- the recorder fails on too small a size, which `enough` excludes,
    -- or on an overflow, which `hfits` does
    have hrec := recordInstr_recorded size hp.reached.queueOk hi
    cases hr : recordInstr size i with
    | ok r =>
        obtain ⟨-, -, heq, -⟩ := recordInstr_eq_ok hp.reached.queueOk hi hr
        have hreached := hp.reached.next (fallsThrough_of_not_isControl hi)
        refine ⟨hreached, fun _ => by rw [heq]; exact hnext, ?_⟩
        rintro rfl
        rw [heq]
        refine ⟨(h.next pos _ hnext).symm, fun hpos => ?_⟩
        exact absurd ⟨rfl, fallsThrough_of_not_isControl hi, hpos⟩ (hno i [] pos hp.reached).2
    | error f =>
        rw [hr] at hrec
        cases hrec with
        | error _ hlow => exact absurd ((stackUse_checked i).2.trans hneeds) hlow
        | panic hover =>
            have hops : OperandsOk i := by
              cases i with
              | cCallN nargs id => exact h.cCallN nargs id q pos hp.reached
              | apply nargs =>
                  have hlt := hfits _ _ _ hdepth
                  exact Nat.lt_of_le_of_lt hneeds hlt
              | _ => trivial
            exact absurd (hfits _ _ _ hnext) (Nat.not_lt.mpr (hover hops).2)
  exit := fun hp _ => .inl (h.exits _ _ _ _ (hp.inside (List.cons_ne_nil _ _)))
  -- the handler's frame: four words more at the next opcode
  trap := by
    intro st e l q pos size hp
    have hdepth := hp.inside (List.cons_ne_nil _ q)
    obtain rfl := hp.reached.queueOk.2.1 rfl
    have hr : Reached code entry [] pos := hp.reached.next rfl
    obtain ⟨q', pos', hd⟩ := h.decodes pos hr
    have hedge := h.edges _ [] pos size hdepth rfl pos (size + 4)
      (mem_flowEdges.mpr (.inr ⟨rfl, rfl, rfl⟩))
    have hlt := hfits q' pos' _ (.fetch hr hd)
    rw [hedge] at hlt
    exact .inl hlt
  edges := by
    intro st e i q pos size hp hi t s ht
    have hdepth := hp.inside (List.cons_ne_nil i q)
    obtain rfl := hp.reached.queueOk.2.1 hi
    obtain ⟨hnojump, hnofall⟩ := hno i [] pos hp.reached
    refine ⟨?_, (h.edges i [] pos size hdepth hi t s ht).symm, (if_neg ?_).symm⟩
    · rcases mem_flowEdges.mp ht with ⟨hl, -⟩ | ⟨rfl, hf, -⟩
      · exact hp.reached.jump hl
      · exact hp.reached.next hf
    · rintro rfl
      rcases mem_flowEdges.mp ht with ⟨hl, -⟩ | ⟨hpos, hf, -⟩
      · exact hnojump hl
      · exact hnofall ⟨rfl, hf, hpos.symm⟩

end Disciplined

/-- Inside an opcode a block is past its start. -/
theorem Passes.lt {bs : List Nat} {e start : Nat} {pre : List BasicBlockInstruction}
    (h : Passes code bs e start q pos size pre) (hq : q ≠ []) : e < pos := by
  induction h with
  | start => exact absurd rfl hq
  | fetch hpass _ hd _ =>
      have hle := Relation.ReflTransGen.mono
        (fun _ _ hab => hab.2 : (fun a b => ¬ SplitAt bs e a ∧ NextOpcode code a b) ≤
          NextOpcode code) _ _ hpass.boundaries
      exact Nat.lt_of_le_of_lt (Boundary.le hle) (decodeAt_bounds hd).1
  | more _ _ _ ih => exact ih (List.cons_ne_nil _ _)

/-- **A successful conversion never comes back to its entry**: the visit would
fail the check of the block type. -/
theorem notReentered_of_searched {bs : List Nat} {st : SearchState} {start : Nat}
    (hs : Searched code bs entry start st) (hentry : entry ∈ bs) : NotReentered code entry := by
  have hnormal : ∀ s, ¬ st.SeenAs entry s .normal := by
    rintro s ⟨p, hp, -, hty⟩
    obtain ⟨p', hp', -, hty'⟩ := hs.entrySeen
    rw [hp] at hp'
    cases hp'
    rw [hty] at hty'
    cases hty'
  intro i q pos hr
  have hpassed := reached_passed hs hr
  cases hi : i.isControl with
  | true =>
      have hseen : ∀ t, t ∈ jumpLabels i ∨ (t = pos ∧ fallsThrough i = true) → t ≠ entry := by
        rintro t ht rfl
        obtain ⟨s, hsent⟩ := seen_of_control hs hi hpassed ht
        exact hnormal s hsent
      exact ⟨fun hl => hseen entry (.inl hl) rfl, fun ⟨_, hf, hpos⟩ => hseen pos (.inr ⟨rfl, hf⟩) hpos⟩
  | false =>
      refine ⟨?_, ?_⟩
      · rw [jumpLabels_of_not_isControl hi]
        exact List.not_mem_nil
      · rintro ⟨rfl, -, rfl⟩
        obtain ⟨f, hf, p, size, pre, hseen, hpass⟩ := hpassed
        obtain ⟨p', x, hseen', -, hscan, -, -, hedges⟩ := (hs.blocks f hf).scanned
        rw [hseen] at hseen'
        cases hseen'
        have hne : pos ≠ f.offset := Nat.ne_of_gt (hpass.lt (List.cons_ne_nil i []))
        obtain ⟨is', -, hrest⟩ := hpass.scan hscan
        -- the block has to stop in front of the entry and jump to it
        cases hrest with
        | more _ _ _ hrest' =>
            cases hrest' with
            | fetch hno => exact hno ⟨hne, hentry⟩
            | split => exact hnormal _ (hedges pos _ (List.mem_singleton_self _))
        | exit _ hexit =>
            rw [isControl_of_exitOf hexit] at hi
            cases hi

end Disciplined

/-- **Which disciplined closures are accepted**: those that control does not come
back to the entry of, whose depths fit in the 32 bits of a stack size (and which
do not start with `GRAB -1`). -/
theorem parseToBasicBlocks_accepts {code : List Word} {entry : Nat} {depth : Nat → Nat}
    (h : Disciplined code entry depth) :
    (∃ c, parseToBasicBlocks code entry = .ok c) ↔ NotReentered code entry ∧ 0 < depth entry ∧
      ∀ q pos size, DepthAt code entry depth q pos size → size < 2 ^ 32 := by
  have hlt : entry < code.length := h.lt .entry
  have hstart := h.start
  constructor
  · rintro ⟨c, hc⟩
    obtain ⟨arity, st, ⟨bs, hbs, harity, hst⟩, hn⟩ := parseToBasicBlocks_eq_ok hc
    obtain ⟨q₀, pos₀, hd₀⟩ := findBlockStartsDfs_decodes hbs hlt
    have hout := arityAt_outcome (E := fun f => f = .panic) hd₀ (.inr rfl)
    rw [harity] at hout
    obtain ⟨hzero, hmod⟩ := hout
    rw [hmod] at hst
    have hs := visit_searched hst
    refine ⟨notReentered_of_searched hs ((findBlockStartsDfs_mem hbs entry).mpr .entry), ?_, ?_⟩
    · omega
    · intro q pos size hdepth
      obtain ⟨path, hflow⟩ := h.flows_of_depthAt hdepth
      exact (flows_passedAt hs hflow).1
  · rintro ⟨hno, hpos, hfits⟩
    have hout := parseToBasicBlocks_outcome (E := (· = .outOfFuel)) hlt rfl
      (fun pos f hr _ hf => ?_) (fun o ho => Nat.le_of_lt (h.lt ho.reached)) (.inl (by omega))
      (fun bs _ => h.admits hno hfits bs) ⟨.entry, h.startDepth_eq, (if_pos rfl).symm⟩
    · have hends := parseToBasicBlocks_ends code entry
      cases hparse : parseToBasicBlocks code entry with
      | ok c => exact ⟨c, rfl⟩
      | error f =>
          rw [hparse] at hout hends
          exact absurd (congrArg _ hout) hends
    · obtain ⟨q, pos', hd⟩ := h.decodes pos hr
      rw [hd] at hf
      cases hf

/-- A closure all of whose points are known is disciplined at a constant depth
when each of its instructions is. -/
theorem Disciplined.of_points {code : List Word} {entry d : Nat}
    (pts : List (List (Instruction Nat) × Nat)) (hentry : ([], entry) ∈ pts)
    (hclosed : ∀ p ∈ pts, stepsWithin code pts p = true)
    (harity : (d : Int) = closureArity code entry)
    (hdecodes : ∀ p ∈ pts, p.1 = [] → ∃ q pos', decodeAt code p.2 = .ok (q, pos'))
    (hinstrs : ∀ p ∈ pts, ∀ i ∈ p.1, depthAfter d i = d ∧ (stackUse i).needs ≤ d ∧
      ExitDepth d i ∧ OperandsOk i) : Disciplined code entry (fun _ => d) := by
  have hmem : ∀ {q pos}, Reached code entry q pos → (q, pos) ∈ pts :=
    fun h => h.mem_of_closed hentry hclosed
  have hinstr : ∀ {i q pos}, Reached code entry (i :: q) pos → depthAfter d i = d ∧
      (stackUse i).needs ≤ d ∧ ExitDepth d i ∧ OperandsOk i :=
    fun h => hinstrs _ (hmem h) _ List.mem_cons_self
  have hdepth : ∀ {q pos size}, DepthAt code entry (fun _ => d) q pos size → size = d := by
    intro q pos size h
    induction h with
    | fetch => rfl
    | next h _ ih =>
        rw [ih]
        exact (hinstr h.reached).1
  refine ⟨harity, fun pos hr => hdecodes _ (hmem hr) rfl, ?_, ?_, ?_,
    fun pos size h => (hdepth h).symm, ?_⟩
  · intro nargs id q pos hr
    exact (hinstr hr).2.2.2
  · intro i q pos size h
    rw [hdepth h]
    exact (hinstr h.reached).2.1
  · intro i q pos size h
    rw [hdepth h]
    exact (hinstr h.reached).2.2.1
  · intro i q pos size h _ t s ht
    rcases mem_flowEdges.mp ht with ⟨-, rfl⟩ | ⟨-, -, rfl⟩
    · exact (hdepth h).symm
    · rw [hdepth h]
      exact (hinstr h.reached).1.symm

/-- `CONST0`, a loop of `CHECK_SIGNALS; BRANCHIF`, and `RETURN 1` are disciplined and
accepted: the loop does not come back to the entry. -/
theorem parseToBasicBlocks_accepts_loop :
    Disciplined [99, 92, 85, -2, 40, 1] 0 (fun _ => 1) ∧ NotReentered [99, 92, 85, -2, 40, 1] 0 ∧
      ∀ q pos size, DepthAt [99, 92, 85, -2, 40, 1] 0 (fun _ => 1) q pos size → size < 2 ^ 32 := by
  have hdisc : Disciplined [99, 92, 85, -2, 40, 1] 0 (fun _ => 1) := by
    refine .of_points [([], 0), ([.const 0], 1), ([], 1), ([.checkSignals], 2), ([], 2),
      ([.branchIf 1], 4), ([], 4), ([.return_ 1], 6)] (by decide) (by decide) (by decide) ?_ ?_
    · simp only [List.forall_mem_cons, reduceCtorEq, false_implies, forall_const, true_and]
      exact ⟨⟨[.const 0], 1, rfl⟩, ⟨[.checkSignals], 2, rfl⟩, ⟨[.branchIf 1], 4, rfl⟩,
        ⟨[.return_ 1], 6, rfl⟩, nofun⟩
    · simp [depthAfter, stackUse, ExitDepth, OperandsOk]
  have haccepted := (parseToBasicBlocks_accepts hdisc).mp
    ⟨⟨1, [⟨0, [], .first, [.const 0], .branch 1, 1, 1, []⟩,
      ⟨1, [1, 0], .normal, [.checkSignals], .branchIf 1 2, 1, 1, [1, 2]⟩,
      ⟨2, [1], .normal, [], .return_ 1, 1, 0, []⟩], [], 1, false⟩, by decide +kernel⟩
  exact ⟨hdisc, haccepted.1, haccepted.2.2⟩

/-- **`CHECK_SIGNALS; BRANCH` back to it**: a loop at the entry is disciplined, and
rejected. -/
theorem parseToBasicBlocks_rejects_loop : ¬ ∀ (code : List Word) (entry : Nat) (depth : Nat → Nat),
    Disciplined code entry depth → ∃ c, parseToBasicBlocks code entry = .ok c := by
  intro h
  have hdisc : Disciplined [92, 84, -2] 0 (fun _ => 1) := by
    refine .of_points [([], 0), ([.checkSignals], 1), ([], 1), ([.branch 0], 3)] (by decide)
      (by decide) (by decide) ?_ ?_
    · simp only [List.forall_mem_cons, reduceCtorEq, false_implies, forall_const, true_and]
      exact ⟨⟨[.checkSignals], 1, rfl⟩, ⟨[.branch 0], 3, rfl⟩, nofun⟩
    · simp [depthAfter, stackUse, ExitDepth, OperandsOk]
  obtain ⟨c, hc⟩ := h _ _ _ hdisc
  have herr : parseToBasicBlocks [92, 84, -2] 0 =
      err (.conditionFailed "existing.block_type == block_type") := by decide
  rw [herr] at hc
  cases hc

end OcamlJit.BasicBlocks

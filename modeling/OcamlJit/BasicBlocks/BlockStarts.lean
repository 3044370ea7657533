/-
  OcamlJit.BasicBlocks.BlockStarts
  ────────────────────────────────
  **THE TWO SEARCHES AGREE ON WHERE BLOCKS START.**

  `find_block_starts_dfs` walks straight through offsets it has seen, `visit`
  stops and jumps at them, and they follow the successors in different orders.
  Both come to the same set: the entry and every offset a reached control
  instruction may continue at (`Continued`).

    • `findBlockStartsDfs_mem` — the first search,
    • `searched_mem` — the second one, given the set of the first,
    • `parseToBasicBlocks_starts` — the two together; where the starts are
      boundaries of one linear decoding, every reached opcode is in exactly one
      block.
-/
import OcamlJit.BasicBlocks.Reach
import OcamlJit.BasicBlocks.Termination

namespace OcamlJit.BasicBlocks

open OcamlJit.Lib OcamlJit.Instructions

/-! ## §1. Where control continues. -/

/-- The offsets a control instruction may continue at. -/
def controlTargets (i : Instruction Nat) (pos : Nat) : List Nat :=
  jumpLabels i ++ if fallsThrough i then [pos] else []

/-- The offset is continued at by a reached control instruction. -/
inductive Continued (code : List Word) (entry : Nat) : Nat → Prop where
  | entry : Continued code entry entry
  | control {i : Instruction Nat} {q : List (Instruction Nat)} {pos t : Nat}
      (h : Reached code entry (i :: q) pos) (hi : i.isControl = true)
      (ht : t ∈ controlTargets i pos) : Continued code entry t

section Continued

variable {code : List Word} {entry pos t : Nat} {i : Instruction Nat}
  {q : List (Instruction Nat)}

/-- A control instruction goes to its labels, or on. -/
theorem mem_controlTargets :
    t ∈ controlTargets i pos ↔ t ∈ jumpLabels i ∨ (t = pos ∧ fallsThrough i = true) := by
  unfold controlTargets
  cases fallsThrough i <;> simp

/-- A place where the search continues is reached. -/
theorem Continued.reached (h : Continued code entry t) : Reached code entry [] t := by
  cases h with
  | entry => exact .entry
  | control h hi ht =>
      obtain rfl := h.queueOk.2.1 hi
      rcases mem_controlTargets.mp ht with hl | ⟨rfl, hf⟩
      · exact h.jump hl
      · exact h.next hf

/-- Only control instructions jump. -/
theorem jumpLabels_of_not_isControl (h : i.isControl = false) : jumpLabels i = [] := by
  cases i <;> first | rfl | cases h

/-- What the first search does with an instruction of a block. -/
theorem blockEnd_eq (i : Instruction Nat) :
    blockEnd i = if i.isControl then (if fallsThrough i then .fallsThrough else .ends)
      else .goesOn := by
  cases i <;> rfl

/-- The labels it visits are those control may go to. -/
theorem visitLabels_eq (h : isPlainReference i = false) : i.visitLabels = jumpLabels i := by
  cases i <;> first | rfl | cases h

/-- A plain reference is no control instruction. -/
theorem isControl_of_isPlainReference (h : isPlainReference i = true) : i.isControl = false := by
  cases i <;> first | rfl | cases h

end Continued

/-! ## §2. Walking straight on. -/

/-- The points walked over from a point up to the next control instruction. -/
inductive Straight (code : List Word) :
    List (Instruction Nat) → Nat → List (Instruction Nat) → Nat → Prop where
  | refl {q : List (Instruction Nat)} {pos : Nat} : Straight code q pos q pos
  | fetch {q q' : List (Instruction Nat)} {pos pos₁ pos' : Nat}
      (hd : decodeAt code pos = .ok (q, pos₁)) (h : Straight code q pos₁ q' pos') :
      Straight code [] pos q' pos'
  | more {i : Instruction Nat} {q q' : List (Instruction Nat)} {pos pos' : Nat}
      (hi : i.isControl = false) (h : Straight code q pos q' pos') :
      Straight code (i :: q) pos q' pos'

section Straight

variable {code : List Word} {pos pos₁ pos₂ : Nat} {q q₁ q₂ : List (Instruction Nat)}

/-- Two straight stretches. -/
theorem Straight.trans (h₁ : Straight code q pos q₁ pos₁)
    (h₂ : Straight code q₁ pos₁ q₂ pos₂) : Straight code q pos q₂ pos₂ := by
  induction h₁ with
  | refl => exact h₂
  | fetch hd _ ih => exact .fetch hd (ih h₂)
  | more hi _ ih => exact .more hi (ih h₂)

/-- Nothing is walked over from a control instruction but itself. -/
theorem Straight.of_control {i : Instruction Nat} (hi : i.isControl = true)
    (h : Straight code (i :: q) pos q₁ pos₁) : q₁ = i :: q ∧ pos₁ = pos := by
  cases h with
  | refl => exact ⟨rfl, rfl⟩
  | more hno =>
      rw [hi] at hno
      cases hno

/-- What is walked over is reached. -/
theorem Straight.reached {entry : Nat} (h : Straight code q pos q₁ pos₁)
    (hr : Reached code entry q pos) : Reached code entry q₁ pos₁ := by
  induction h with
  | refl => exact hr
  | fetch hd _ ih => exact ih (hr.fetch hd)
  | more hi _ ih => exact ih (hr.next (fallsThrough_of_not_isControl hi))

end Straight

/-- The control instruction a straight walk from the point comes to continues
inside the set. -/
def ClosedFrom (code : List Word) (starts : List Nat) (q : List (Instruction Nat)) (pos : Nat) :
    Prop :=
  ∀ i q' pos', Straight code q pos (i :: q') pos' → i.isControl = true →
    ∀ t ∈ controlTargets i pos', t ∈ starts

/-- More block starts. -/
theorem ClosedFrom.mono {code : List Word} {starts starts' : List Nat}
    {q : List (Instruction Nat)} {pos : Nat} (h : ClosedFrom code starts q pos)
    (hsub : starts ⊆ starts') : ClosedFrom code starts' q pos :=
  fun i q' pos' hs hi t ht => hsub (h i q' pos' hs hi t ht)

/-! ## §3. The first search. -/

/-- What a call with the set `seen` may return: only offsets where control
continues are added, and the walk from each of them stays inside. -/
structure StartsAdded (code : List Word) (entry : Nat) (seen seen' : List Nat) : Prop where
  sub : seen ⊆ seen'
  sound : ∀ o ∈ seen', o ∈ seen ∨ Continued code entry o
  closed : ∀ o ∈ seen', o ∈ seen ∨ ClosedFrom code seen' [] o

section FirstSearch

variable {code : List Word} {entry : Nat} {seen seen₁ seen₂ : List Nat}

/-- Nothing is added. -/
theorem StartsAdded.refl : StartsAdded code entry seen seen :=
  ⟨List.Subset.refl _, fun _ h => .inl h, fun _ h => .inl h⟩

/-- Two stretches of the search. -/
theorem StartsAdded.trans (h₁ : StartsAdded code entry seen seen₁)
    (h₂ : StartsAdded code entry seen₁ seen₂) : StartsAdded code entry seen seen₂ := by
  refine ⟨List.Subset.trans h₁.sub h₂.sub, fun o ho => ?_, fun o ho => ?_⟩
  · rcases h₂.sound o ho with hold | hnew
    · exact h₁.sound o hold
    · exact .inr hnew
  · rcases h₂.closed o ho with hold | hnew
    · rcases h₁.closed o hold with hold | hnew
      · exact .inl hold
      · exact .inr (hnew.mono h₂.sub)
    · exact .inr hnew

/-- What the loop uses of its visitor: a visited offset is in the set afterwards. -/
def VisitsStart (code : List Word) (entry : Nat)
    (visit : List Nat → Nat → Conv (List Nat)) : Prop :=
  ∀ seen l seen', Continued code entry l → visit seen l = .ok seen' →
    StartsAdded code entry seen seen' ∧ l ∈ seen'

variable {visit : List Nat → Nat → Conv (List Nat)}

/-- A row of visits adds what it reaches. -/
theorem visitEach_added (hv : VisitsStart code entry visit) :
    ∀ (ls seen seen' : List Nat), (∀ l ∈ ls, Continued code entry l) →
      visitEach visit seen ls = .ok seen' →
      StartsAdded code entry seen seen' ∧ ∀ l ∈ ls, l ∈ seen'
  | [], seen, seen', _, h => by
      injection h with h
      rw [h]
      exact ⟨.refl, nofun⟩
  | l :: ls, seen, seen', hls, h => by
      obtain ⟨seen₁, h₁, h₂⟩ := bind_eq_ok.mp h
      obtain ⟨hl, hrest⟩ := List.forall_mem_cons.mp hls
      obtain ⟨hadd, hmem⟩ := hv seen l seen₁ hl h₁
      obtain ⟨hadd', hmem'⟩ := visitEach_added hv ls seen₁ seen' hrest h₂
      refine ⟨hadd.trans hadd', fun m hm => ?_⟩
      rcases List.mem_cons.mp hm with rfl | hm
      · exact hadd'.sub hmem
      · exact hmem' m hm

/-- **The loop of the first search** visits where the walk from its point
continues. -/
theorem blockStartsLoop_added (hv : VisitsStart code entry visit) :
    ∀ (items : List Item) (q : List (Instruction Nat)) (pos : Nat) (seen seen' : List Nat),
      items = itemsAt code q pos → Reached code entry q pos →
      blockStartsLoop visit items seen = .ok seen' →
      StartsAdded code entry seen seen' ∧ ClosedFrom code seen' q pos
  | [], q, pos, seen, seen', hitems, _, h => by
      injection h with h
      rw [← h]
      refine ⟨.refl, fun i q' pos' hs hi => ?_⟩
      -- the code is at its end
      cases hs with
      | refl => simp [itemsAt] at hitems
      | more => simp [itemsAt] at hitems
      | fetch hd =>
          rw [itemsAt, List.map_nil, List.nil_append, instructionsFrom_eq, hd] at hitems
          obtain ⟨hlt, hle, -, -⟩ := decodeAt_bounds hd
          rw [if_neg (by omega)] at hitems
          cases hitems
  | (r, p) :: items, q, pos, seen, seen', hitems, hr, h => by
      obtain ⟨instr, hinstr, hloop⟩ := bind_eq_ok.mp h
      obtain rfl := liftParse_eq_ok hinstr
      cases q with
      | nil =>
          -- the label of a new opcode
          obtain ⟨q', pos', hd, rfl, hrest⟩ := itemsAt_nil_eq_cons hitems.symm
          replace hloop : blockStartsLoop visit items seen = .ok seen' := hloop
          obtain ⟨hadd, hclosed⟩ :=
            blockStartsLoop_added hv items q' pos' seen seen' hrest (hr.fetch hd) hloop
          refine ⟨hadd, fun i q'' pos'' hs hi => ?_⟩
          cases hs with
          | fetch hd' hs' =>
              rw [hd] at hd'
              cases hd'
              exact hclosed i q'' pos'' hs' hi
      | cons i q =>
          obtain ⟨hhead, hrest⟩ := List.cons.inj hitems
          simp only [Prod.mk.injEq, Except.ok.injEq] at hhead
          obtain ⟨rfl, rfl⟩ := hhead
          -- inside a function nothing is visited here
          have htail : ∀ {seen}, instr.isControl = false →
              blockStartsLoop visit items seen = .ok seen' →
              StartsAdded code entry seen seen' ∧ ClosedFrom code seen' (instr :: q) p := by
            intro seen hi hloop
            obtain ⟨hadd, hclosed⟩ := blockStartsLoop_added hv items q p seen seen' hrest
              (hr.next (fallsThrough_of_not_isControl hi)) hloop
            refine ⟨hadd, fun j q'' pos'' hs hj => ?_⟩
            cases hs with
            | refl =>
                rw [hi] at hj
                cases hj
            | more _ hs' => exact hclosed j q'' pos'' hs' hj
          -- labels of closures are references, not places where control goes
          split at hloop
          case isTrue hplain => exact htail (isControl_of_isPlainReference hplain) hloop
          case isFalse hplain =>
              rw [visitLabels_eq (by simpa using hplain)] at hloop
              obtain ⟨seen₁, hvisit, hend⟩ := bind_eq_ok.mp hloop
              rw [blockEnd_eq] at hend
              cases hi : instr.isControl with
              | false =>
                  rw [jumpLabels_of_not_isControl hi] at hvisit
                  injection hvisit with hvisit
                  rw [hi, ← hvisit] at hend
                  exact htail hi hend
              | true =>
                  -- a control instruction: its labels are visited, then what follows it
                  have hcont : ∀ t ∈ controlTargets instr p, Continued code entry t :=
                    fun t ht => .control hr hi ht
                  obtain ⟨hadd, hmem⟩ := visitEach_added hv _ seen seen₁
                    (fun l hl => hcont l (mem_controlTargets.mpr (.inl hl))) hvisit
                  have hclosed : StartsAdded code entry seen seen' →
                      (∀ t ∈ controlTargets instr p, t ∈ seen') →
                      StartsAdded code entry seen seen' ∧ ClosedFrom code seen' (instr :: q) p := by
                    intro hadd hin
                    refine ⟨hadd, fun j q'' pos'' hs hj => ?_⟩
                    obtain ⟨heq, rfl⟩ := hs.of_control hi
                    cases heq
                    exact hin
                  rw [hi] at hend
                  cases hf : fallsThrough instr with
                  | true =>
                      rw [hf] at hend
                      obtain ⟨hadd', hpos⟩ := hv seen₁ p seen'
                        (hcont p (mem_controlTargets.mpr (.inr ⟨rfl, hf⟩))) hend
                      refine hclosed (hadd.trans hadd') fun t ht => ?_
                      rcases mem_controlTargets.mp ht with hl | ⟨rfl, -⟩
                      · exact hadd'.sub (hmem t hl)
                      · exact hpos
                  | false =>
                      rw [hf] at hend
                      injection hend with hend
                      subst hend
                      refine hclosed hadd fun t ht => ?_
                      rcases mem_controlTargets.mp ht with hl | ⟨-, hfall⟩
                      · exact hmem t hl
                      · rw [hf] at hfall
                        cases hfall

/-- **A call of the search** adds block starts only, and is closed from its offset. -/
theorem findBlockStartsDfs_added :
    ∀ fuel seen start seen', start ∈ seen → Continued code entry start →
      findBlockStartsDfs code fuel seen start = .ok seen' →
      StartsAdded code entry seen seen' ∧ ClosedFrom code seen' [] start
  | 0, _, _, _, _, _, h => (nomatch h)
  | fuel + 1, seen, start, seen', hmem, hcont, h => by
      obtain ⟨items, hitems, hloop⟩ := bind_eq_ok.mp h
      refine blockStartsLoop_added ?_ items [] start seen seen' ?_ hcont.reached hloop
      · intro seen l seen' hl hvisit
        unfold visitLabel at hvisit
        split at hvisit
        case isTrue hin =>
            injection hvisit with hvisit
            subst hvisit
            exact ⟨.refl, hin⟩
        case isFalse hnew =>
            obtain ⟨hadd, hclosed⟩ := findBlockStartsDfs_added fuel (l :: seen) l seen'
              List.mem_cons_self hl hvisit
            have hin := hadd.sub List.mem_cons_self
            refine ⟨⟨?_, fun o ho => ?_, fun o ho => ?_⟩, hin⟩
            · exact List.Subset.trans (List.subset_cons_self _ _) hadd.sub
            · rcases hadd.sound o ho with hold | hnew
              · rcases List.mem_cons.mp hold with rfl | hold
                · exact .inr hl
                · exact .inl hold
              · exact .inr hnew
            · rcases hadd.closed o ho with hold | hnew
              · rcases List.mem_cons.mp hold with rfl | hold
                · exact .inr hclosed
                · exact .inl hold
              · exact .inr hnew
      · exact (iterFrom_eq_ok.mp hitems).2

/-- **The first search finds exactly the offsets where control continues.** -/
theorem findBlockStartsDfs_mem {fuel : Nat} {bs : List Nat}
    (h : findBlockStartsDfs code fuel [entry] entry = .ok bs) (o : Nat) :
    o ∈ bs ↔ Continued code entry o := by
  obtain ⟨hadd, hentry⟩ := findBlockStartsDfs_added fuel [entry] entry bs
    List.mem_cons_self .entry h
  -- the entry is in the list before the search starts
  have hclosed : ∀ o ∈ bs, ClosedFrom code bs [] o := by
    intro o ho
    rcases hadd.closed o ho with hold | hnew
    · rw [List.mem_singleton.mp hold]
      exact hentry
    · exact hnew
  -- a straight walk from some start leads to every reached point
  have hwalk : ∀ {q pos}, Reached code entry q pos → ∃ o ∈ bs, Straight code [] o q pos := by
    intro q pos hr
    induction hr with
    | entry => exact ⟨entry, hadd.sub List.mem_cons_self, .refl⟩
    | fetch _ hd ih =>
        obtain ⟨o, ho, hs⟩ := ih
        exact ⟨o, ho, hs.trans (.fetch hd .refl)⟩
    | @next i q pos hr hf ih =>
        obtain ⟨o, ho, hs⟩ := ih
        cases hi : i.isControl with
        | true =>
            obtain rfl := hr.queueOk.2.1 hi
            exact ⟨pos, hclosed o ho i [] pos hs hi pos (mem_controlTargets.mpr (.inr ⟨rfl, hf⟩)),
              .refl⟩
        | false => exact ⟨o, ho, hs.trans (.more hi .refl)⟩
    | @jump i q pos l hr hl ih =>
        obtain ⟨o, ho, hs⟩ := ih
        have hi : i.isControl = true := by
          cases hi : i.isControl with
          | true => rfl
          | false =>
              rw [jumpLabels_of_not_isControl hi] at hl
              cases hl
        exact ⟨l, hclosed o ho i q pos hs hi l (mem_controlTargets.mpr (.inl hl)), .refl⟩
  constructor
  · intro ho
    rcases hadd.sound o ho with hold | hnew
    · rw [List.mem_singleton.mp hold]
      exact .entry
    · exact hnew
  · intro ho
    cases ho with
    | entry => exact hadd.sub List.mem_cons_self
    | @control i q pos _ hr hi ht =>
        obtain ⟨o', ho', hs⟩ := hwalk hr
        exact hclosed o' ho' i q pos hs hi o ht

end FirstSearch

/-! ## §4. The second search. -/

section SecondSearch

variable {code : List Word} {bs : List Nat} {entry size : Nat} {st : SearchState}

/-- Control continues where the edges of a scan lead. -/
theorem Scan.continued {e bound pos size : Nat} {q : List (Instruction Nat)}
    {is : List BasicBlockInstruction} {x : BlockExit}
    (hbs : ∀ o ∈ bs, Continued code entry o) (h : Scan code bs e bound q pos size is x)
    (hr : Reached code entry q pos) {t s : Nat} (ht : (t, s) ∈ x.edges) :
    Continued code entry t := by
  induction h with
  | fetch _ hd _ ih => exact ih (hr.fetch hd) ht
  | split hsplit =>
      simp only [jumpTo, List.mem_singleton, Prod.mk.injEq] at ht
      rw [ht.1]
      exact hbs _ hsplit.2
  | more _ hstay _ _ ih => exact ih (hr.next (fallsThrough_of_not_isControl hstay)) ht
  | exit _ hexit _ =>
      exact .control hr (isControl_of_exitOf hexit)
        (mem_controlTargets.mpr ((exitOf_edges hexit t).mp ⟨s, ht⟩))

/-- **The second search starts a block exactly where control continues.** -/
theorem searched_mem (h : Searched code bs entry size st)
    (hbs : ∀ o ∈ bs, Continued code entry o) (o : Nat) :
    o ∈ st.finished.map FinishedBlock.offset ↔ Continued code entry o := by
  constructor
  · intro ho
    obtain ⟨f, hf, rfl⟩ := List.mem_map.mp ho
    obtain ⟨l, r, hl⟩ := List.append_of_mem hf
    rcases h.tree l f r hl with hentry | ⟨g, hg, ht⟩
    · rw [hentry]
      exact .entry
    · obtain ⟨r₁, r₂, rfl⟩ := List.append_of_mem hg
      have hsplit : st.finished = (l ++ f :: r₁) ++ g :: r₂ := by
        rw [hl, List.append_assoc]
        rfl
      have hreach := finished_reached h _ _ g r₂ (Nat.lt_succ_self _) hsplit
      obtain ⟨p, x, -, -, hscan, hexit, -, -⟩ := (h.blocks g (by rw [hsplit]; simp)).scanned
      rw [← hexit, hscan.mem_targets] at ht
      obtain ⟨s, hs⟩ := ht
      exact hscan.continued hbs hreach hs
  · intro ho
    have hseen : ∃ s ty, st.SeenAs o s ty := by
      cases ho with
      | entry => exact ⟨size, .first, h.entrySeen⟩
      | control hr hi ht =>
          obtain ⟨s, hs⟩ := seen_of_control h hi (reached_passed h hr) (mem_controlTargets.mp ht)
          exact ⟨s, .normal, hs⟩
    obtain ⟨s, ty, p, hp, -⟩ := hseen
    exact (h.seen_iff o).mp (by rw [hp]; rfl)

end SecondSearch

/-! ## §5. One linear decoding. -/

/-- The opcode at `p` ends at `p'`. -/
def NextOpcode (code : List Word) (p p' : Nat) : Prop := ∃ q, decodeAt code p = .ok (q, p')

/-- The boundaries of the linear decoding from `start`. -/
def Boundary (code : List Word) (start : Nat) : Nat → Prop :=
  Relation.ReflTransGen (NextOpcode code) start

/-- The block at `o` walks over the opcode at `p`. -/
def Holds (code : List Word) (bs : List Nat) (st : SearchState) (o p : Nat) : Prop :=
  ∃ pending size pre, st.seen o = some pending ∧
    Passes code bs o pending.startStackSize [] p size pre ∧ ¬ SplitAt bs o p

section Linear

variable {code : List Word} {bs : List Nat} {start a b b' : Nat}

/-- The next opcode is further on. -/
theorem NextOpcode.lt (h : NextOpcode code a b) : a < b := by
  obtain ⟨q, hd⟩ := h
  exact (decodeAt_bounds hd).1

/-- And there is only one. -/
theorem NextOpcode.unique (h : NextOpcode code a b) (h' : NextOpcode code a b') : b = b' := by
  obtain ⟨q, hd⟩ := h
  obtain ⟨q', hd'⟩ := h'
  rw [hd] at hd'
  cases hd'
  rfl

/-- A boundary that is reached is not before. -/
theorem Boundary.le (h : Boundary code a b) : a ≤ b := by
  induction h with
  | refl => exact Nat.le_refl _
  | tail _ hn ih => exact Nat.le_of_lt (Nat.lt_of_le_of_lt ih hn.lt)

/-- Of two boundaries, the linear decoding from the first one comes to the
second. -/
theorem Boundary.from (ha : Boundary code start a) (hb : Boundary code start b) (hle : a ≤ b) :
    Boundary code a b := by
  have hunique : Relator.RightUnique (NextOpcode code) := fun _ _ _ h h' => h.unique h'
  rcases Relation.ReflTransGen.total_of_right_unique hunique ha hb with hab | hba
  · exact hab
  · have hle' : b ≤ a := Boundary.le hba
    rw [Nat.le_antisymm hle hle']
    exact .refl

/-- The boundary after one comes no later than any other behind it. -/
theorem Boundary.next_le (h : Boundary code a b) (hlt : a < b) (hn : NextOpcode code a b') :
    b' ≤ b := by
  rcases Relation.ReflTransGen.cases_head h with rfl | ⟨c, hc, hcb⟩
  · exact absurd hlt (Nat.lt_irrefl _)
  · rw [hn.unique hc]
    exact Boundary.le hcb

/-- A block walks from opcode to opcode, past no start of a block but its own. -/
theorem Passes.boundaries {e s pos size : Nat} {q : List (Instruction Nat)}
    {pre : List BasicBlockInstruction} (h : Passes code bs e s q pos size pre) :
    Relation.ReflTransGen (fun a b => ¬ SplitAt bs e a ∧ NextOpcode code a b) e pos := by
  induction h with
  | start => exact .refl
  | fetch _ hsplit hd ih => exact ih.tail ⟨hsplit, _, hd⟩
  | more _ _ _ ih => exact ih

variable {st : SearchState} {o o' p : Nat}

/-- An instruction in a block is at a boundary. -/
theorem Holds.boundary (h : Holds code bs st o p) : Boundary code o p := by
  obtain ⟨pending, size, pre, -, hpass, -⟩ := h
  have hle : (fun a b => ¬ SplitAt bs o a ∧ NextOpcode code a b) ≤ NextOpcode code :=
    fun _ _ hab => hab.2
  exact Relation.ReflTransGen.mono hle _ _ hpass.boundaries

/-- **No block walks over the start of another one.** -/
theorem Holds.before (h : Holds code bs st o p) (ho : Boundary code start o)
    (ho' : Boundary code start o') (hstart : o' ∈ bs) (hlt : o < o') : p < o' := by
  have hp : Boundary code start p := ho.trans h.boundary
  by_contra hle
  obtain ⟨pending, size, pre, -, hpass, hsplit⟩ := h
  have hne : o' ≠ o := Nat.ne_of_gt hlt
  -- the walk from `o` to `p` comes by `o'`
  have hby : ∀ a, Relation.ReflTransGen (fun a b => ¬ SplitAt bs o a ∧ NextOpcode code a b) a p →
      Boundary code a o' → SplitAt bs o p := by
    intro a hwalk
    induction hwalk using Relation.ReflTransGen.head_induction_on with
    | refl =>
        intro hao
        rw [show p = o' from Nat.le_antisymm hao.le (Nat.le_of_not_lt hle)]
        exact ⟨hne, hstart⟩
    | head hab _ ih =>
        intro hao
        rcases Relation.ReflTransGen.cases_head hao with rfl | ⟨c, hc, hco⟩
        · exact absurd ⟨hne, hstart⟩ hab.1
        · rw [hab.2.unique hc] at ih
          exact ih hco
  exact hsplit (hby o hpass.boundaries (ho.from ho' (Nat.le_of_lt hlt)))

end Linear

/-- **The two searches agree**, and where the starts of the blocks are boundaries
of one linear decoding, every reached opcode is in exactly one block and no
block runs past the start of another one. -/
theorem parseToBasicBlocks_starts {code : List Word} {entry : Nat} {c : BasicClosure}
    (h : parseToBasicBlocks code entry = .ok c) :
    ∃ bs arity st, findBlockStartsDfs code (searchFuel code) [entry] entry = .ok bs ∧
      visit code bs (searchFuel code) .initial entry none (arity % 2 ^ 32) .first = .ok st ∧
      Numbered arity st c ∧
      (∀ o, o ∈ st.finished.map FinishedBlock.offset ↔ o ∈ bs) ∧
      ∀ start, (∀ o ∈ bs, Boundary code start o) →
        (∀ p, Reached code entry [] p → ∃! o, Holds code bs st o p) ∧
        ∀ o p, Holds code bs st o p → ∀ o' ∈ bs, o < o' → ∀ p', NextOpcode code p p' → p' ≤ o' := by
  obtain ⟨arity, st, ⟨bs, hbs, harity, hst⟩, hn⟩ := parseToBasicBlocks_eq_ok h
  have hs := visit_searched hst
  have hmem := findBlockStartsDfs_mem hbs
  have hagree : ∀ o, o ∈ st.finished.map FinishedBlock.offset ↔ o ∈ bs := by
    intro o
    rw [searched_mem hs (fun o ho => (hmem o).mp ho), hmem]
  -- a block that walks over an opcode is one of the starts
  have hheld : ∀ {o p}, Holds code bs st o p → o ∈ bs := by
    intro o p hp
    obtain ⟨pending, -, -, hseen, -⟩ := hp
    rw [← hagree, ← hs.seen_iff, hseen]
    rfl
  refine ⟨bs, arity, st, hbs, hst, hn, hagree, fun start hboundary => ⟨fun p hp => ?_, ?_⟩⟩
  · have hexists : ∃ o, Holds code bs st o p := by
      obtain ⟨f, hf, pending, s, pre, hseen, hpass⟩ := reached_passed hs hp
      by_cases hsplit : SplitAt bs f.offset p
      · have hpseen := (hs.seen_iff p).mpr ((hagree p).mpr hsplit.2)
        obtain ⟨pending', hpending⟩ := Option.isSome_iff_exists.mp hpseen
        exact ⟨p, pending', _, _, hpending, .start, fun hno => hno.1 rfl⟩
      · exact ⟨f.offset, pending, s, pre, hseen, hpass, hsplit⟩
    obtain ⟨o, ho⟩ := hexists
    refine ⟨o, ho, fun o' ho' => ?_⟩
    have hb := hboundary o (hheld ho)
    have hb' := hboundary o' (hheld ho')
    -- two blocks that hold `p`: the earlier one would have stopped at the start of the other
    rcases Nat.lt_trichotomy o' o with hlt | heq | hgt
    · exact absurd ho.boundary.le (Nat.not_le.mpr (ho'.before hb' hb (hheld ho) hlt))
    · exact heq
    · exact absurd ho'.boundary.le (Nat.not_le.mpr (ho.before hb hb' (hheld ho') hgt))
  · intro o p hp o' ho' hlt p' hnext
    have hb := hboundary o (hheld hp)
    have hb' := hboundary o' ho'
    have hbefore := hp.before hb hb' ho' hlt
    have hbp : Boundary code start p := hb.trans hp.boundary
    exact (hbp.from hb' (Nat.le_of_lt hbefore)).next_le hbefore hnext

/-- `ACC0; CHECK_SIGNALS; BRANCHIF` back to the check; `RETURN 1`: the opcode of
the branch is in one block only. -/
theorem parseToBasicBlocks_starts_loop :
    ∃ bs st, findBlockStartsDfs [0, 92, 85, -2, 40, 1] 9 [0] 0 = .ok bs ∧
      (∀ o, o ∈ st.finished.map FinishedBlock.offset ↔ o ∈ bs) ∧
      ∃! o, Holds [0, 92, 85, -2, 40, 1] bs st o 2 := by
  have hloop : parseToBasicBlocks [0, 92, 85, -2, 40, 1] 0 = .ok
      ⟨1, [⟨0, [], .first, [.acc 0], .branch 1, 1, 1, []⟩,
        ⟨1, [1, 0], .normal, [.checkSignals], .branchIf 1 2, 1, 1, [1, 2]⟩,
        ⟨2, [1], .normal, [], .return_ 1, 1, 0, []⟩], [], 1, false⟩ := by
    decide
  obtain ⟨bs, arity, st, hbs, -, -, hagree, hlinear⟩ := parseToBasicBlocks_starts hloop
  have hstarts : findBlockStartsDfs [0, 92, 85, -2, 40, 1] 9 [0] 0 = .ok [4, 1, 0] := by decide
  obtain rfl : bs = [4, 1, 0] := Except.ok.inj (hbs.symm.trans hstarts)
  have h₁ : NextOpcode [0, 92, 85, -2, 40, 1] 0 1 := ⟨[.acc 0], by decide⟩
  have h₂ : NextOpcode [0, 92, 85, -2, 40, 1] 1 2 := ⟨[.checkSignals], by decide⟩
  have h₄ : NextOpcode [0, 92, 85, -2, 40, 1] 2 4 := ⟨[.branchIf 1], by decide⟩
  have hboundary : ∀ o ∈ [4, 1, 0], Boundary [0, 92, 85, -2, 40, 1] 0 o := by
    intro o ho
    simp only [List.mem_cons, List.not_mem_nil, or_false] at ho
    rcases ho with rfl | rfl | rfl
    · exact ((Relation.ReflTransGen.single h₁).tail h₂).tail h₄
    · exact .single h₁
    · exact .refl
  refine ⟨[4, 1, 0], st, hstarts, hagree, (hlinear 0 hboundary).1 2 ?_⟩
  have hr₁ : Reached [0, 92, 85, -2, 40, 1] 0 [.acc 0] 1 := Reached.entry.fetch (by decide)
  have hr₂ : Reached [0, 92, 85, -2, 40, 1] 0 [.checkSignals] 2 :=
    (hr₁.next rfl).fetch (by decide)
  exact hr₂.next rfl

end OcamlJit.BasicBlocks

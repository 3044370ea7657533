/-
  OcamlJit.BasicBlocks.Termination
  ────────────────────────────────
  **THE SEARCHES END.**

  The loops of both searches only compose what their visits do: a judgement
  that the visits keep is kept by the loops (`blockStartsLoop_holds`,
  `visitLoop_holds`).

  A nested call is made on an offset that was not seen before, and it either
  panics at once because the offset is past the end of the code, or uses up one
  of the `code.length + 1` offsets that are not.  So the fuel of `searchFuel`
  is enough for both searches and `parseToBasicBlocks` never reports
  `outOfFuel` (`parseToBasicBlocks_ends`).
-/
import OcamlJit.BasicBlocks.Search
import OcamlJit.Lib.Judgement

namespace OcamlJit.BasicBlocks

open OcamlJit.Lib OcamlJit.Instructions

/-! ## §1. Decoding needs no fuel. -/

/-- A reader that never runs dry. -/
def ReaderEnds {α : Type} (r : Reader α) : Prop := ∀ c, Ends (r c)

/-- Nothing is read. -/
theorem readerEnds_pure {α : Type} (a : α) : ReaderEnds (pure a : Reader α) :=
  fun _ => ends_ok _

/-- Two readers that end. -/
theorem ReaderEnds.bind {α β : Type} {x : Reader α} {f : α → Reader β}
    (hx : ReaderEnds x) (hf : ∀ a, ReaderEnds (f a)) : ReaderEnds (x >>= f) :=
  fun c => (hx c).bind fun p _ => hf p.1 p.2

/-- A word is read or missing. -/
theorem i32_ends : ReaderEnds Reader.i32 := by
  intro c
  unfold Reader.i32
  split
  · exact ends_ok _
  · exact ends_err _

/-- A label is read, missing or out of range. -/
theorem labelAt_ends (position : Nat) : ReaderEnds (Reader.labelAt position) := by
  refine i32_ends.bind fun rel c => ?_
  show Ends ((Reader.resolveLabel position rel).map (·, c))
  unfold Reader.resolveLabel
  simp only
  split
  · exact ends_panicked
  · split
    · exact ends_err _
    · exact ends_ok _

/-- Readers that end compose. -/
theorem compositional_ends : Compositional fun _ r => ReaderEnds r where
  pure _ := readerEnds_pure
  bind _ _ _ _ := ReaderEnds.bind
  word := i32_ends
  position _ := ends_ok _
  labelAt := labelAt_ends

/-- **The decoder ends**. -/
theorem readInstrs_ends : ReaderEnds readInstrs := by
  have hop : ReaderEnds Reader.opcode := by
    refine i32_ends.bind fun v => ?_
    cases Opcode.fromI32 v with
    | some op => exact readerEnds_pure op
    | none => exact fun _ => ends_err _
  exact hop.bind compositional_ends.readOperands

/-- No item of the iterator is a report of missing fuel. -/
theorem instructionsFrom_ends {code : List Word} :
    ∀ off, ∀ item ∈ instructionsFrom code off, Ends item.1 := by
  intro off item hitem
  rw [instructionsFrom_eq] at hitem
  split at hitem
  · cases hitem
  · rename_i hlen
    cases hd : decodeAt code off with
    | error e =>
        rw [hd] at hitem
        rw [List.mem_singleton.mp hitem]
        intro he
        have hends : Ends (decodeAt code off) :=
          (readInstrs_ends ⟨code.drop off, off⟩).bind fun _ _ => ends_ok _
        rw [hd] at hends
        exact hends (congrArg _ (Except.error.inj he))
    | ok p =>
        obtain ⟨is, off'⟩ := p
        obtain ⟨hlt, hle, -, -⟩ := decodeAt_bounds hd
        rw [hd] at hitem
        simp only [List.cons_append, List.mem_cons, List.mem_append, List.mem_map] at hitem
        rcases hitem with rfl | ⟨i, -, rfl⟩ | hitem
        · exact ends_ok _
        · exact ends_ok _
        · exact instructionsFrom_ends off' item hitem
termination_by off => code.length - off

/-- A parse error is an error. -/
theorem liftParse_ends {α : Type} {r : Rust InstructionParseError α} (h : Ends r) :
    Ends (liftParse r) := by
  cases r with
  | ok a => exact ends_ok a
  | error e =>
      cases e with
      | error e => exact ends_err _
      | panic => exact ends_panicked
      | outOfFuel => exact absurd rfl h

/-- A scan is set up or refused. -/
theorem iterFrom_ends (code : List Word) (off : Nat) : Ends (iterFrom code off) := by
  unfold iterFrom
  split
  · exact ends_ok _
  · exact ends_panicked

/-! ## §2. The offsets left. -/

/-- How many offsets of the code are not seen yet. -/
def unseen (code : List Word) (seen : Nat → Bool) : Nat :=
  ((Finset.range (code.length + 1)).filter fun o => seen o = false).card

/-- Seeing more leaves less to see. -/
theorem unseen_le {code : List Word} {seen seen' : Nat → Bool}
    (h : ∀ o, seen o = true → seen' o = true) : unseen code seen' ≤ unseen code seen := by
  refine Finset.card_le_card fun o ho => ?_
  rw [Finset.mem_filter] at ho ⊢
  refine ⟨ho.1, ?_⟩
  cases hs : seen o with
  | false => rfl
  | true => rw [h o hs] at ho; exact absurd ho.2 (by simp)

/-- Seeing a new offset leaves less by one at least. -/
theorem unseen_lt {code : List Word} {seen seen' : Nat → Bool} {e : Nat}
    (h : ∀ o, seen o = true → seen' o = true) (hlen : e ≤ code.length)
    (hnew : seen e = false) (he : seen' e = true) : unseen code seen' < unseen code seen := by
  refine Finset.card_lt_card ⟨fun o ho => ?_, fun hsub => ?_⟩
  · rw [Finset.mem_filter] at ho ⊢
    refine ⟨ho.1, ?_⟩
    cases hs : seen o with
    | false => rfl
    | true => rw [h o hs] at ho; exact absurd ho.2 (by simp)
  · have := hsub (Finset.mem_filter.mpr ⟨Finset.mem_range.mpr (by omega), hnew⟩)
    rw [Finset.mem_filter, he] at this
    exact absurd this.2 (by simp)

/-- There are no more offsets than words, and the end. -/
theorem unseen_le_length (code : List Word) (seen : Nat → Bool) :
    unseen code seen ≤ code.length + 1 := by
  refine (Finset.card_filter_le _ _).trans ?_
  rw [Finset.card_range]

/-- The offsets in the `HashSet`. -/
def inSet (seen : List Nat) (o : Nat) : Bool := decide (o ∈ seen)

/-- The offsets in the `HashMap`. -/
def inMap (st : SearchState) (o : Nat) : Bool := (st.seen o).isSome

/-- A new offset of the `HashSet` leaves fewer. -/
theorem unseen_cons_lt {code : List Word} {seen : List Nat} {o : Nat} (hlen : o ≤ code.length)
    (hnew : o ∉ seen) : unseen code (inSet (o :: seen)) < unseen code (inSet seen) := by
  refine unseen_lt (fun o' ho => ?_) hlen (by simpa [inSet] using hnew) (by simp [inSet])
  simp only [inSet, decide_eq_true_eq, List.mem_cons] at ho ⊢
  exact .inr ho

/-- So does a new offset of the `HashMap`. -/
theorem unseen_setSeen_lt {code : List Word} {st : SearchState} {o : Nat} {block : PendingBlock}
    (hlen : o ≤ code.length) (hnew : st.seen o = none) :
    unseen code (inMap (st.setSeen o block)) < unseen code (inMap st) := by
  refine unseen_lt (fun o' ho => ?_) hlen (by simp [inMap, hnew]) (by simp [inMap, setSeen_seen])
  unfold inMap at ho ⊢
  rw [setSeen_seen]
  split
  · rfl
  · exact ho

/-! ## §3. The steps of the searches. -/

/-- The cases that stay in the block do not recurse. -/
theorem recordInstr_ends (size : Nat) (instr : Instruction Nat) :
    Ends (recordInstr size instr) := by
  have hpop : ∀ s n t, Ends (popChecked s n t) := fun _ _ _ =>
    (ends_ensure _ _).bind fun _ _ => ends_ok _
  have hblock : ∀ s n t, Ends (popForBlock s n t) := by
    intro s n t
    unfold popForBlock
    split
    · exact hpop _ _ _
    · exact ends_ok _
  cases instr <;> simp only [recordInstr] <;>
    repeat' (first
      | exact ends_ok _
      | exact hpop _ _ _
      | exact hblock _ _ _
      | exact ends_addU _ _ _
      | exact ends_subU _ _
      | exact ends_ensure _ _
      | refine Ends.bind ?_ fun _ _ => ?_)

section Steps

variable {m : Type → Type} [Monad m] [MonadLiftT Conv m] {σ : Type}
  (J : Judgement ConversionError m σ)

section FirstSearch

variable {visit : List Nat → Nat → m (List Nat)} {I : List Nat → σ}
  (hv : ∀ seen l, J.Holds (I seen) (visit seen l) I)

include hv

/-- A property that every visit keeps is kept by a row of visits. -/
theorem visitEach_holds (ls : List Nat) :
    ∀ seen, J.Holds (I seen) (visitEach visit seen ls) I := by
  induction ls with
  | nil => exact fun seen => J.value seen
  | cons l ls ih => exact fun seen => J.andThen (hv seen l) ih

/-- **The loop of the first search** keeps what its visits keep. -/
theorem blockStartsLoop_holds (items : List Item) (hitems : ∀ item ∈ items, Ends item.1) :
    ∀ seen, J.Holds (I seen) (blockStartsLoop visit items seen) I := by
  induction items with
  | nil => exact fun seen => J.value seen
  | cons item items ih =>
      intro seen
      obtain ⟨hitem, hitems⟩ := List.forall_mem_cons.mp hitems
      refine J.resultThen (liftParse_ends hitem) fun instr => ?_
      split
      · exact ih hitems seen
      · refine J.andThen (visitEach_holds J hv _ seen) fun seen' => ?_
        split
        · exact hv seen' _
        · exact J.value seen'
        · exact ih hitems seen'

end FirstSearch

section SecondSearch

/-- The state after a turn. -/
def Turn.state : Turn → SearchState
  | .more st _ _ | .exit st _ _ => st

variable {V : Visitor m} {A : (Nat → Option PendingBlock) → σ}
  (hv : ∀ st o p size ty, J.Holds (A st.seen) (V st o p size ty) fun st' => A st'.seen)

include hv

/-- A property that every visit keeps is kept by the visits of an exit. -/
theorem visitTargets_holds (e size : Nat) (ls : List Nat) :
    ∀ st : SearchState, J.Holds (A st.seen) (visitTargets V e size st ls) fun st' => A st'.seen := by
  induction ls with
  | nil => exact fun st => J.value (t := fun st' : SearchState => A st'.seen) st
  | cons l ls ih => exact fun st => J.andThen (hv st l _ _ _) ih

/-- A turn only changes the map by its visits. -/
theorem turn_holds (bs : List Nat) (e pos : Nat) (st : SearchState) (size : Nat)
    (instr : Instruction Nat) :
    J.Holds (A st.seen) (turn V bs e pos st size instr) fun t => A t.state.seen := by
  have hvalue : ∀ t : Turn, J.Holds (A t.state.seen) (pure t) fun t => A t.state.seen :=
    fun t => J.value (t := fun t : Turn => A t.state.seen) t
  cases instr
  case labelDef l =>
    simp only [turn]
    split
    · exact J.andThen (hv st _ _ _ _) fun st' => hvalue (.exit st' _ _)
    · exact hvalue (.more st _ _)
  case branch l => exact J.andThen (hv st _ _ _ _) fun st' => hvalue (.exit st' _ _)
  case branchIf | branchIfNot | branchCmp =>
    refine J.andThen (hv st _ _ _ _) fun st' => ?_
    exact J.andThen (hv st' _ _ _ _) fun st'' => hvalue (.exit st'' _ _)
  case switch ints tags =>
    refine J.andThen (visitTargets_holds J hv _ _ _ st) fun st' => ?_
    exact J.andThen (visitTargets_holds J hv _ _ _ st') fun st'' => hvalue (.exit st'' _ _)
  case pushTrap l =>
    refine J.andThen (hv { st with hasTrapHandlers := true } _ _ _ _) fun st' => ?_
    refine J.resultThen (ends_addU _ _ _) fun n => ?_
    exact J.andThen (hv st' _ _ _ _) fun st'' => hvalue (.exit st'' _ _)
  case applyTerm | return_ | stop =>
    exact J.resultThen (ends_ensure _ _) fun _ => hvalue (.exit st _ _)
  case raise => exact hvalue (.exit st _ _)
  all_goals exact J.resultThen (recordInstr_ends _ _) fun r => hvalue (.more (st.useClosures _) _ _)

/-- **The loop of the second search** keeps what its visits keep. -/
theorem visitLoop_holds (bs : List Nat) (e : Nat) (items : List Item)
    (hitems : ∀ item ∈ items, Ends item.1) :
    ∀ (st : SearchState) (size : Nat) (is : List BasicBlockInstruction),
      J.Holds (A st.seen) (visitLoop V bs e items st size is) fun st' => A st'.seen := by
  induction items with
  | nil =>
      intro st size is
      exact J.result (ends_err _) fun _ h => by cases h
  | cons item items ih =>
      intro st size is
      obtain ⟨hitem, hitems⟩ := List.forall_mem_cons.mp hitems
      refine J.resultThen (liftParse_ends hitem) fun instr => ?_
      refine J.andThen (turn_holds J hv bs e item.2 (st.noteStackSize size) size instr) fun t => ?_
      cases t with
      | more st' size' pushed => exact ih hitems st' size' _
      | exit st' size' x =>
          exact J.value (t := fun st : SearchState => A st.seen)
            ((st'.noteStackSize size').finish _)

end SecondSearch

end Steps

/-! ## §4. Fuel. -/

/-- No item of a scan is a want of fuel. -/
theorem iterFrom_items_end {code : List Word} {start : Nat} {items : List Item}
    (h : iterFrom code start = .ok items) : ∀ item ∈ items, Ends item.1 := by
  rw [(iterFrom_eq_ok.mp h).2]
  exact instructionsFrom_ends start

/-- The search for block starts ends on more fuel than offsets are left, and
takes nothing out of its set. -/
theorem findBlockStartsDfs_spec {code : List Word} : ∀ fuel seen start,
    unseen code (inSet seen) + 1 < fuel → Ends (findBlockStartsDfs code fuel seen start) ∧
      ∀ seen', findBlockStartsDfs code fuel seen start = .ok seen' → seen ⊆ seen'
  | 0, _, _, h => absurd h (Nat.not_lt_zero _)
  | fuel + 1, seen, start, hfuel => by
      -- a visit of a new label leaves one offset less for what it calls
      have hvisit : ∀ s l, (Judgement.terminating ConversionError).Holds (seen ⊆ s)
          (visitLabel (findBlockStartsDfs code fuel) s l) fun s' => seen ⊆ s' := by
        intro s l hs
        unfold visitLabel
        split
        · exact ⟨ends_ok _, fun s' h => by cases h; exact hs⟩
        · rename_i hl
          by_cases hlen : l ≤ code.length
          · have hle : unseen code (inSet s) ≤ unseen code (inSet seen) := by
              refine unseen_le fun o ho => ?_
              simp only [inSet, decide_eq_true_eq] at ho ⊢
              exact hs ho
            have hlt := unseen_cons_lt hlen hl
            have hleft : unseen code (inSet (l :: s)) + 1 < fuel := by omega
            obtain ⟨hends, hsub⟩ := findBlockStartsDfs_spec fuel (l :: s) l hleft
            refine ⟨hends, fun s' h => ?_⟩
            exact List.Subset.trans hs
              (List.Subset.trans (List.subset_cons_self l s) (hsub s' h))
          · -- the slice past the end panics at once
            obtain ⟨fuel, rfl⟩ : ∃ k, fuel = k + 1 := ⟨fuel - 1, by omega⟩
            rw [findBlockStartsDfs_succ, iterFrom, if_neg hlen]
            exact ⟨ends_panicked, fun s' h => by cases h⟩
      rw [findBlockStartsDfs_succ]
      have hloop := fun items (hitems : iterFrom code start = .ok items) =>
        blockStartsLoop_holds (.terminating ConversionError) hvisit items
          (iterFrom_items_end hitems) seen (List.Subset.refl _)
      refine ⟨(iterFrom_ends code start).bind fun items hitems => (hloop items hitems).1, ?_⟩
      intro seen' h
      obtain ⟨items, hitems, h⟩ := bind_eq_ok.mp h
      exact (hloop items hitems).2 seen' h

/-- The offsets of a map are still in the other one. -/
def KeepsSeen (seen seen' : Nat → Option PendingBlock) : Prop :=
  ∀ o, (seen o).isSome = true → (seen' o).isSome = true

/-- `visit` ends on more fuel than offsets are left, and takes nothing out of
its map. -/
theorem visit_spec {code : List Word} {bs : List Nat} : ∀ fuel st e p size ty,
    unseen code (inMap st) + 1 < fuel → Ends (visit code bs fuel st e p size ty) ∧
      ∀ st', visit code bs fuel st e p size ty = .ok st' → KeepsSeen st.seen st'.seen
  | 0, _, _, _, _, _, h => absurd h (Nat.not_lt_zero _)
  | fuel + 1, st, e, p, size, ty, hfuel => by
      have hset : ∀ block, KeepsSeen st.seen (st.setSeen e block).seen := by
        intro block o ho
        rw [setSeen_seen]
        split
        · rfl
        · exact ho
      cases hseen : st.seen e with
      | some existing =>
          -- a known block is only checked and given a predecessor
          rw [visit_of_seen hseen]
          refine ⟨(ends_ensure _ _).bind fun _ _ => (ends_ensure _ _).bind fun _ _ => ends_ok _, ?_⟩
          intro st' h
          obtain ⟨_, -, h⟩ := bind_eq_ok.mp h
          obtain ⟨_, -, h⟩ := bind_eq_ok.mp h
          cases h
          exact hset _
      | none =>
          rw [visit_of_new hseen]
          by_cases hlen : e ≤ code.length
          · have hnew : KeepsSeen st.seen (st.setSeen e ⟨ty, size, insertPredecessor [] p⟩).seen :=
              hset _
            have hlt : unseen code (inMap (st.setSeen e ⟨ty, size, insertPredecessor [] p⟩)) <
                unseen code (inMap st) := unseen_setSeen_lt hlen hseen
            generalize st.setSeen e ⟨ty, size, insertPredecessor [] p⟩ = st₁ at hnew hlt ⊢
            -- the visits of the loop find at least the offsets of `st₁`
            have hvisit : ∀ s o p' size' ty', (Judgement.terminating ConversionError).Holds
                (KeepsSeen st₁.seen s.seen) (visit code bs fuel s o p' size' ty')
                fun s' => KeepsSeen st₁.seen s'.seen := by
              intro s o p' size' ty' hs
              have hle : unseen code (inMap s) ≤ unseen code (inMap st₁) := unseen_le hs
              have hleft : unseen code (inMap s) + 1 < fuel := by omega
              obtain ⟨hends, hkeeps⟩ := visit_spec fuel s o p' size' ty' hleft
              exact ⟨hends, fun s' h o' ho => hkeeps s' h o' (hs o' ho)⟩
            have hloop := fun items (hitems : iterFrom code e = .ok items) =>
              visitLoop_holds (A := KeepsSeen st₁.seen) (.terminating ConversionError) hvisit bs e
                items (iterFrom_items_end hitems) st₁ size [] fun _ ho => ho
            refine ⟨(iterFrom_ends code e).bind fun items hitems => (hloop items hitems).1, ?_⟩
            intro st' h
            obtain ⟨items, hitems, h⟩ := bind_eq_ok.mp h
            exact fun o ho => (hloop items hitems).2 st' h o (hnew o ho)
          · simp only [iterFrom, if_neg hlen]
            exact ⟨ends_panicked, fun _ h => by cases h⟩

/-! ## §5. The conversion. -/

/-- A label is relocated, or the code panics. -/
theorem relocateOffset_ends (offsets : List Nat) (o : Nat) :
    Ends (relocateOffset offsets o) := by
  unfold relocateOffset
  cases offsetToBlockIdMap offsets o with
  | none => exact ends_panicked
  | some i => exact ends_ok _

/-- A list of parts that end. -/
theorem mapM_ends {ε α β : Type} {f : α → Rust ε β} (hf : ∀ a, Ends (f a)) :
    ∀ xs : List α, Ends (xs.mapM f)
  | [] => ends_ok _
  | x :: xs => by
      rw [List.mapM_cons]
      exact (hf x).bind fun _ _ => (mapM_ends hf xs).bind fun _ _ => ends_ok _

/-- The blocks are collected. -/
theorem collectBlocks_ends :
    ∀ (fs : List FinishedBlock) (k : Nat) (seen : Nat → Option PendingBlock),
      Ends (collectBlocks k seen fs)
  | [], _, _ => ends_ok _
  | f :: fs, k, seen => by
      simp only [collectBlocks]
      cases seen f.offset with
      | none => exact ends_panicked
      | some p => exact (collectBlocks_ends fs _ _).bind fun _ _ => ends_ok _

/-- A block is relocated. -/
theorem relocateBlock_ends (offsets : List Nat) (b : BasicBlock) :
    Ends (relocateBlock offsets b) := by
  have hoff := relocateOffset_ends offsets
  refine Ends.bind ?_ fun _ _ => (mapM_ends hoff _).bind fun _ _ => ends_ok _
  cases b.exit <;> simp only [BasicBlockExit.modifyBlockLabels] <;>
    repeat' (first
      | exact ends_ok _
      | exact hoff _
      | exact mapM_ends hoff _
      | refine Ends.bind ?_ fun _ _ => ?_)

/-- The arity is read. -/
theorem arityAt_ends (code : List Word) (entry : Nat) : Ends (arityAt code entry) := by
  unfold arityAt
  cases code[entry]? with
  | none => exact ends_panicked
  | some w =>
      simp only
      split
      · cases code[entry + 1]? with
        | none => exact ends_panicked
        | some n => exact ends_addU _ _ _
      · exact ends_ok _

/-- **The conversion never runs out of fuel**: what it returns is what the
unbounded recursion returns. -/
theorem parseToBasicBlocks_ends (code : List Word) (entry : Nat) :
    Ends (parseToBasicBlocks code entry) := by
  have hfuel : ∀ seen, unseen code seen + 1 < searchFuel code := by
    intro seen
    have := unseen_le_length code seen
    unfold searchFuel
    omega
  refine (findBlockStartsDfs_spec _ _ _ (hfuel _)).1.bind fun bs _ => ?_
  refine (arityAt_ends code entry).bind fun arity _ => ?_
  refine (visit_spec _ _ _ _ _ _ (hfuel _)).1.bind fun st _ => ?_
  refine (collectBlocks_ends _ _ _).bind fun blocks _ => ?_
  exact (mapM_ends (relocateBlock_ends _) _).bind fun _ _ => ends_ok _

end OcamlJit.BasicBlocks

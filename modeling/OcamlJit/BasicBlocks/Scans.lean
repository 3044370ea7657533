/-
  OcamlJit.BasicBlocks.Scans
  ──────────────────────────
  **NO OFFSET IS SCANNED TWICE.**

  Both searches, noting every offset an instruction iterator is started at.
  Forgetting the notes gives the searches of the conversion back
  (`result_findBlockStartsDfsNoting`, `result_visitNoting`).

  `searches_scan_once`: from an entry point both searches end, whatever the code
  is, and neither starts two scans at one offset.
-/
import OcamlJit.Lib.Logged
import OcamlJit.BasicBlocks.Termination

namespace OcamlJit.BasicBlocks

open OcamlJit.Lib OcamlJit.Instructions Logged

/-- A computation of the conversion that notes the offsets it scans from. -/
abbrev Noting := Logged ConversionError Nat

/-- An iterator, with a note of where it is started. -/
def scanFrom (code : List Word) (offset : Nat) : Noting (List Item) := do
  note offset
  iterFrom code offset

/-- `findBlockStartsDfs`, noting its scans. -/
def findBlockStartsDfsNoting (code : List Word) : Nat → List Nat → Nat → Noting (List Nat) :=
  findBlockStartsDfsWith (scanFrom code)

/-- `visit`, noting its scans. -/
def visitNoting (code : List Word) : List Nat → Nat → Visitor Noting := visitWith (scanFrom code)

/-! ## §1. Forgetting the notes. -/

section Forgetting

section FirstSearch

variable {visit : List Nat → Nat → Conv (List Nat)} {visit' : List Nat → Nat → Noting (List Nat)}
  (hv : ∀ seen l, (visit' seen l).result = visit seen l)

include hv

/-- A row of visits has the result it had. -/
theorem result_visitEach (ls : List Nat) : ∀ seen,
    (visitEach visit' seen ls).result = visitEach visit seen ls := by
  induction ls with
  | nil =>
      intro seen
      rfl
  | cons l ls ih =>
      intro seen
      simp only [visitEach, result_bind, hv, ih]

/-- So has the loop over one stretch of code. -/
theorem result_blockStartsLoop (items : List Item) : ∀ seen,
    (blockStartsLoop visit' items seen).result = blockStartsLoop visit items seen := by
  induction items with
  | nil =>
      intro seen
      rfl
  | cons item items ih =>
      intro seen
      obtain ⟨r, pos⟩ := item
      simp only [blockStartsLoop, result_bind, result_liftM]
      refine congrArg _ (funext fun instr => ?_)
      by_cases hp : isPlainReference instr = true
      · rw [if_pos hp, if_pos hp, ih]
      · rw [if_neg hp, if_neg hp, result_bind, result_visitEach hv]
        refine congrArg _ (funext fun seen' => ?_)
        cases blockEnd instr with
        | fallsThrough => exact hv _ _
        | ends => rfl
        | goesOn => exact ih _

end FirstSearch

section SecondSearch

variable {V : Visitor} {V' : Visitor Noting}
  (hv : ∀ st o p size ty, (V' st o p size ty).result = V st o p size ty) {bs : List Nat}

include hv

/-- So have the visits of an exit. -/
theorem result_visitTargets (e size : Nat) (ls : List Nat) : ∀ st,
    (visitTargets V' e size st ls).result = visitTargets V e size st ls := by
  induction ls with
  | nil =>
      intro st
      rfl
  | cons l ls ih =>
      intro st
      simp only [visitTargets, result_bind, hv, ih]

/-- So has a turn of the second search. -/
theorem result_turn (e pos : Nat) (st : SearchState) (size : Nat) (instr : Instruction Nat) :
    (turn V' bs e pos st size instr).result = turn V bs e pos st size instr := by
  cases instr with
  | labelDef l =>
      simp only [turn]
      split
      · simp only [result_bind, hv]
        rfl
      · rfl
  | branch | branchIf | branchIfNot | branchCmp =>
      simp only [turn, result_bind, hv]
      rfl
  | switch ints tags =>
      simp only [turn, result_bind, result_visitTargets hv]
      rfl
  | pushTrap l =>
      simp only [turn, result_bind, result_liftM, hv]
      rfl
  | raise => rfl
  | _ =>
      simp only [turn, result_bind, result_liftM]
      rfl

/-- And so has its loop. -/
theorem result_visitLoop (e : Nat) (items : List Item) : ∀ st size is,
    (visitLoop V' bs e items st size is).result = visitLoop V bs e items st size is := by
  induction items with
  | nil =>
      intro st size is
      rfl
  | cons item items ih =>
      intro st size is
      obtain ⟨r, pos⟩ := item
      simp only [visitLoop, result_bind, result_liftM, result_turn hv]
      refine congrArg _ (funext fun instr => congrArg _ (funext fun t => ?_))
      cases t with
      | more st' size' pushed => exact ih _ _ _
      | exit => rfl

end SecondSearch

end Forgetting

/-- Without its notes it is the first search. -/
theorem result_findBlockStartsDfsNoting (code : List Word) (fuel : Nat) : ∀ seen start,
    (findBlockStartsDfsNoting code fuel seen start).result =
      findBlockStartsDfs code fuel seen start := by
  induction fuel with
  | zero =>
      intro seen start
      rfl
  | succ fuel ih =>
      intro seen start
      rw [findBlockStartsDfs_succ]
      refine (result_bind _ _).trans (congrArg _ (funext fun items => ?_))
      refine result_blockStartsLoop (fun seen l => ?_) items seen
      unfold visitLabel
      split
      · rfl
      · exact ih _ _

/-- Without its notes it is the second search. -/
theorem result_visitNoting (code : List Word) (bs : List Nat) (fuel : Nat) :
    ∀ st o p size ty, (visitNoting code bs fuel st o p size ty).result =
      visit code bs fuel st o p size ty := by
  induction fuel with
  | zero =>
      intro st o p size ty
      rfl
  | succ fuel ih =>
      intro st o p size ty
      unfold visitNoting visitWith
      cases hseen : st.seen o with
      | some existing =>
          rw [visit_of_seen hseen]
          simp only [result_bind, result_liftM]
          rfl
      | none =>
          rw [visit_of_new hseen]
          refine (result_bind _ _).trans (congrArg _ (funext fun items => ?_))
          exact result_visitLoop ih o items _ size []

/-! ## §2. What is scanned is new. -/

/-- What an iterator notes, before a loop that only scans at new offsets. -/
theorem scanFrom_fresh {α : Type} {code : List Word} {start : Nat} {seen : Nat → Prop}
    {f : List Item → Noting α} {after : α → Nat → Prop} (hstart : ¬ seen start)
    (hf : ∀ items, (∀ item ∈ items, Ends item.1) →
      Fresh (fun o => seen o ∨ o = start) (f items) after) :
    Fresh seen (scanFrom code start >>= f) after := by
  have hscan : Fresh seen (scanFrom code start) fun _ o => seen o ∨ o = start :=
    (fresh_note hstart).bind fun _ _ => fresh_silently fun _ _ _ h => h
  exact hscan.bind fun items hitems => hf items (iterFrom_items_end hitems)

/-- A call scans from its start, which is in the set already, and from there
only where nothing was seen. -/
theorem findBlockStartsDfs_fresh {code : List Word} (fuel : Nat) : ∀ seen start, start ∉ seen →
    Fresh (· ∈ seen) (findBlockStartsDfsNoting code fuel (start :: seen) start)
      fun seen' o => o ∈ seen' := by
  induction fuel with
  | zero =>
      intro seen start _
      exact fresh_silently fun _ h => by cases h
  | succ fuel ih =>
      intro seen start hstart
      refine scanFrom_fresh hstart fun items hitems => ?_
      have hset : ∀ o, (o ∈ seen ∨ o = start) ↔ o ∈ start :: seen := by
        intro o
        rw [List.mem_cons, or_comm]
      refine Fresh.mono ?_ hset fun _ _ h => h
      refine blockStartsLoop_holds (.fresh ConversionError Nat) (I := fun seen o => o ∈ seen)
        (fun seen' l => ?_) items hitems (start :: seen)
      unfold visitLabel
      split
      · exact fresh_pure fun _ h => h
      · next hl => exact ih seen' l hl

/-- A visit scans only where nothing was seen. -/
theorem visit_fresh {code : List Word} {bs : List Nat} (fuel : Nat) : ∀ st o p size ty,
    Fresh (fun o => (st.seen o).isSome = true) (visitNoting code bs fuel st o p size ty)
      fun st' o => (st'.seen o).isSome = true := by
  induction fuel with
  | zero =>
      intro st o p size ty
      exact fresh_silently fun _ h => by cases h
  | succ fuel ih =>
      intro st o p size ty
      unfold visitNoting visitWith
      have hinsert : ∀ block o', ((st.setSeen o block).seen o').isSome = true ↔
          (st.seen o').isSome = true ∨ o' = o := by
        intro block o'
        rw [setSeen_seen]
        by_cases h : o' = o
        · simp [h]
        · simp [h]
      cases hseen : st.seen o with
      | some existing =>
          refine (Judgement.fresh ConversionError Nat).resultThen (ends_ensure _ _) fun _ => ?_
          refine (Judgement.fresh ConversionError Nat).resultThen (ends_ensure _ _) fun _ => ?_
          exact fresh_pure fun o' ho => (hinsert _ o').mpr (.inl ho)
      | none =>
          refine scanFrom_fresh (by simp [hseen]) fun items hitems => ?_
          refine Fresh.mono ?_ (fun o' => (hinsert ⟨ty, size, insertPredecessor [] p⟩ o').symm)
            fun _ _ h => h
          exact visitLoop_holds (.fresh ConversionError Nat)
            (A := fun seen o => (seen o).isSome = true) ih bs o items hitems _ size []

/-! ## §3. Both searches. -/

/-- **The searches end and scan no offset twice**, whatever the code is: with
the fuel of `searchFuel`, or more, neither runs dry, and the offsets at which
they start an iterator are different ones.  Nothing is asked of the labels. -/
theorem searches_scan_once (code : List Word) (entry : Nat) (fuel : Nat) :
    (searchFuel code ≤ fuel → Ends (findBlockStartsDfs code fuel [entry] entry)) ∧
      (findBlockStartsDfsNoting code fuel [entry] entry).result =
        findBlockStartsDfs code fuel [entry] entry ∧
      (findBlockStartsDfsNoting code fuel [entry] entry).log.Nodup ∧
    ∀ bs p size ty,
      (searchFuel code ≤ fuel → Ends (visit code bs fuel .initial entry p size ty)) ∧
        (visitNoting code bs fuel .initial entry p size ty).result =
          visit code bs fuel .initial entry p size ty ∧
        (visitNoting code bs fuel .initial entry p size ty).log.Nodup := by
  have hfuel : ∀ seen, searchFuel code ≤ fuel → unseen code seen + 1 < fuel := by
    intro seen h
    have hle := unseen_le_length code seen
    unfold searchFuel at h
    omega
  refine ⟨fun h => (findBlockStartsDfs_spec fuel _ _ (hfuel _ h)).1,
    result_findBlockStartsDfsNoting code fuel _ _,
    (findBlockStartsDfs_fresh fuel [] entry List.not_mem_nil).nodup, ?_⟩
  intro bs p size ty
  exact ⟨fun h => (visit_spec fuel _ _ _ _ _ (hfuel _ h)).1,
    result_visitNoting code bs fuel _ _ _ _ _, (visit_fresh fuel _ _ _ _ _).nodup⟩

/-- A branch to itself. -/
theorem searches_scan_once_selfLoop :
    Ends (findBlockStartsDfs [84, -1] 5 [0] 0) ∧
      (findBlockStartsDfsNoting [84, -1] 5 [0] 0).log.Nodup ∧
      Ends (visit [84, -1] [0] 5 .initial 0 none 1 .first) ∧
      (visitNoting [84, -1] [0] 5 .initial 0 none 1 .first).log.Nodup := by
  obtain ⟨hends, -, hstarts, hvisit⟩ := searches_scan_once [84, -1] 0 5
  obtain ⟨hends', -, hscans⟩ := hvisit [0] none 1 .first
  exact ⟨hends (by decide), hstarts, hends' (by decide), hscans⟩

end OcamlJit.BasicBlocks

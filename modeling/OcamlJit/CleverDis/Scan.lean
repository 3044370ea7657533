/-
  OcamlJit.CleverDis.Scan
  ───────────────────────
  **WHAT `process_closure` LEAVES BEHIND.**

  Labels are numbered in the order of their first mention, so a number once
  given stays: a later context extends an earlier one (`Extends`), and what was
  mapped with the earlier numbers is mapped with the final ones.  `Scan` is the
  block that starts at some place of the instructions, under a numbering, and
  `closureBlocks_ok` says that block `i` is the one of the label numbered `i`.
-/
import OcamlJit.CleverDis.Parsing
import Mathlib.Data.List.Nodup
import Mathlib.Data.List.Perm.Subperm

namespace OcamlJit.CleverDis

open OcamlJit.Lib OcamlJit.Instructions

/-! ## §1. Blocks under a numbering. -/

/-- The labels of an instruction that stand for blocks. -/
def blockLabels : Instruction Nat → List Nat
  | .closure _ _ | .closureRec _ _ => []
  | i => i.visitLabels

/-- The instruction with these labels mapped. -/
def mapBlocks (f : Nat → Nat) : Instruction Nat → Instruction Nat
  | .closure l nvars => .closure l nvars
  | .closureRec ls nvars => .closureRec ls nvars
  | i => i.mapLabels f

/-- Instructions that are not met in the code of a closure. -/
def isForeign : Instruction Nat → Bool
  | .labelDef _ | .restart | .break_ | .event => true
  | _ => false

/-- An exit that depends on the label after the instruction. -/
def exitBefore (rest : List (Instruction Nat)) (exit : Nat → BlockExit) : Option BlockExit :=
  match rest with
  | .labelDef next :: _ => some (exit next)
  | _ => none

/-- The exit that belongs to a control instruction, given what comes after it. -/
def controlExit (num : Nat → Nat) (rest : List (Instruction Nat)) : Instruction Nat → Option BlockExit
  | .applyTerm _ _ => some .tailCall
  | .return_ _ => some .return_
  | .stop => some .stop
  | .raise _ => some .raise
  | .branch l => some (.unconditionalJump (num l))
  | .branchIf l | .branchIfNot l | .branchCmp _ _ l =>
      exitBefore rest fun next => .conditionalJump (num l) (num next)
  | .switch ints blocks => some (.switch (ints.map num) (blocks.map num))
  | .pushTrap l => exitBefore rest fun next => .pushTrap (num next) (num l)
  | _ => none

/-- The instructions and the exit of the block that starts with the given
instructions; `first` until a label has been passed. -/
inductive Scan (num : Nat → Nat) (starts : Nat → Bool) :
    Bool → List (Instruction Nat) → List (Instruction Nat) → BlockExit → Prop where
  | label {first : Bool} {l : Nat} {rest is : List (Instruction Nat)} {x : BlockExit}
      (hl : (!first && starts l) = false) (hrest : Scan num starts false rest is x) :
      Scan num starts first (.labelDef l :: rest) is x
  | split {l : Nat} {rest : List (Instruction Nat)} (hl : starts l = true) :
      Scan num starts false (.labelDef l :: rest) [] (.unconditionalJump (num l))
  | instr {first : Bool} {i : Instruction Nat} {rest is : List (Instruction Nat)} {x : BlockExit}
      (hi : isForeign i = false) (hstay : i.isControl = false)
      (hrest : Scan num starts false rest is x) :
      Scan num starts first (i :: rest) (mapBlocks num i :: is) x
  | exit {first : Bool} {i : Instruction Nat} {rest : List (Instruction Nat)} {x : BlockExit}
      (hi : i.isControl = true) (hx : controlExit num rest i = some x) :
      Scan num starts first (i :: rest) [mapBlocks num i] x

/-- An exit that falls through needs a label after it. -/
theorem exitBefore_eq_some {rest : List (Instruction Nat)} {exit : Nat → BlockExit}
    {x : BlockExit} (h : exitBefore rest exit = some x) :
    ∃ next rest', rest = .labelDef next :: rest' ∧ x = exit next := by
  unfold exitBefore at h
  split at h
  · cases h
    exact ⟨_, _, rfl, rfl⟩
  · cases h

/-- The label of the block itself is passed first. -/
theorem Scan.of_label {num : Nat → Nat} {starts : Nat → Bool} {l : Nat}
    {rest is : List (Instruction Nat)} {x : BlockExit}
    (h : Scan num starts true (.labelDef l :: rest) is x) : Scan num starts false rest is x := by
  cases h with
  | label _ hrest => exact hrest
  | instr hi => cases hi
  | exit hi => cases hi

/-! ## §2. Contexts. -/

namespace Ctx

/-- The labels in the order of their numbers. -/
def labels (c : Ctx) : List Nat := c.closure.blockNums.map Prod.fst

/-- The number of a label. -/
def num (c : Ctx) (l : Nat) : Nat := c.labels.idxOf l

/-- Labels are numbered from 0 on, each once. -/
structure Ok (c : Ctx) : Prop where
  blockNums : c.closure.blockNums = c.labels.zipIdx
  nodup : c.labels.Nodup

/-- A number that has been given. -/
def Mentioned (c : Ctx) (n : Nat) : Prop := ∃ l ∈ c.labels, c.num l = n

end Ctx

/-- The program is the same, and the labels numbered since are in the queue. -/
structure Extends (c c' : Ctx) : Prop where
  instructions : c'.global.instructions = c.global.instructions
  referencedLabels : c'.global.referencedLabels = c.global.referencedLabels
  labelToIndexMap : c'.global.labelToIndexMap = c.global.labelToIndexMap
  labels : ∃ new, c'.labels = c.labels ++ new ∧ c'.closure.todo = c.closure.todo ++ new
  ok : c.Ok → c'.Ok

/-- The numbering is that of the context where this has one. -/
def Agrees (num : Nat → Nat) (c : Ctx) : Prop := ∀ l ∈ c.labels, num l = c.num l

section Contexts

variable {c c' c'' : Ctx} {num : Nat → Nat} {l n : Nat}

/-- A context extends itself. -/
theorem Extends.refl : Extends c c :=
  ⟨rfl, rfl, rfl, ⟨[], (List.append_nil _).symm, (List.append_nil _).symm⟩, id⟩

/-- Extensions compose. -/
theorem Extends.trans (h : Extends c c') (h' : Extends c' c'') : Extends c c'' := by
  obtain ⟨new, hlabels, htodo⟩ := h.labels
  obtain ⟨new', hlabels', htodo'⟩ := h'.labels
  refine ⟨h'.instructions.trans h.instructions, h'.referencedLabels.trans h.referencedLabels,
    h'.labelToIndexMap.trans h.labelToIndexMap, ⟨new ++ new', ?_, ?_⟩, fun hok => h'.ok (h.ok hok)⟩
  · rw [hlabels', hlabels, List.append_assoc]
  · rw [htodo', htodo, List.append_assoc]

/-- A label with a block keeps one. -/
theorem Extends.mem (h : Extends c c') (hl : l ∈ c.labels) : l ∈ c'.labels := by
  obtain ⟨new, hlabels, -⟩ := h.labels
  rw [hlabels]
  exact List.mem_append_left _ hl

/-- And it keeps its number. -/
theorem Extends.num_eq (h : Extends c c') (hl : l ∈ c.labels) : c'.num l = c.num l := by
  obtain ⟨new, hlabels, -⟩ := h.labels
  unfold Ctx.num
  rw [hlabels, List.idxOf_append_of_mem hl]

/-- A number that is mentioned stays mentioned. -/
theorem Extends.mentioned (h : Extends c c') (hn : c.Mentioned n) : c'.Mentioned n := by
  obtain ⟨l, hl, rfl⟩ := hn
  exact ⟨l, h.mem hl, h.num_eq hl⟩

/-- Numbers that agree with a later context agree with an earlier one. -/
theorem Agrees.of_extends (ha : Agrees num c') (h : Extends c c') : Agrees num c :=
  fun l hl => (ha l (h.mem hl)).trans (h.num_eq hl)

/-- A context agrees with its own numbers. -/
theorem agrees_num : Agrees c.num c := fun _ _ => rfl

/-- A change outside of what the numbering depends on. -/
theorem Extends.of_eq (hi : c'.global.instructions = c.global.instructions)
    (hr : c'.global.referencedLabels = c.global.referencedLabels)
    (hm : c'.global.labelToIndexMap = c.global.labelToIndexMap)
    (hb : c'.closure.blockNums = c.closure.blockNums) (ht : c'.closure.todo = c.closure.todo) :
    Extends c c' := by
  have hl : c'.labels = c.labels := congrArg (List.map Prod.fst) hb
  refine ⟨hi, hr, hm, ⟨[], ?_, ?_⟩, fun hok => ⟨?_, ?_⟩⟩
  · rw [hl, List.append_nil]
  · rw [ht, List.append_nil]
  · rw [hb, hl]
    exact hok.blockNums
  · rw [hl]
    exact hok.nodup

end Contexts

/-! ## §3. Mapping labels. -/

/-- The number of a label is its place in the list. -/
theorem lookup_zipIdx {l : Nat} : ∀ (labels : List Nat) (k : Nat),
    (labels.zipIdx k).lookup l = if l ∈ labels then some (k + labels.idxOf l) else none
  | [], k => rfl
  | l' :: labels, k => by
      rw [List.zipIdx_cons, List.lookup_cons, lookup_zipIdx labels (k + 1)]
      by_cases h : l = l'
      · subst h
        simp
      · rw [List.idxOf_cons_ne _ (Ne.symm h)]
        simp only [beq_eq_false_iff_ne.mpr h, List.mem_cons, h, false_or]
        by_cases hmem : l ∈ labels
        · rw [if_pos hmem, if_pos hmem]
          exact congrArg some (by omega)
        · rw [if_neg hmem, if_neg hmem]

section Mapping

variable {c c' : Ctx} {l n : Nat} {num : Nat → Nat} {i i' : Instruction Nat}

/-- A closure keeps its label, and no block gets a number. -/
theorem getClosure_ok (h : getClosure l c = .ok (n, c')) :
    n = l ∧ Extends c c' ∧ c'.closure = c.closure := by
  unfold getClosure GlobalCtx.getClosure at h
  by_cases hmem : l ∈ c.global.closuresAdded
  · rw [if_pos hmem] at h
    cases h
    exact ⟨rfl, .refl, rfl⟩
  · rw [if_neg hmem] at h
    cases h
    exact ⟨rfl, .of_eq rfl rfl rfl rfl rfl, rfl⟩

/-- **What `get_block` does**: a label keeps its number, or gets the next one
and is put in the queue. -/
theorem getBlock_ok (hok : c.Ok) (h : getBlock l c = .ok (n, c')) :
    Extends c c' ∧ l ∈ c'.labels ∧ n = c'.num l ∧
      c'.closure.trapHandlers = c.closure.trapHandlers := by
  have hlookup := lookup_zipIdx (l := l) c.labels 0
  rw [← hok.blockNums] at hlookup
  unfold getBlock at h
  obtain ⟨c₁, c₂, hget, h⟩ := stateT_bind_eq_ok.mp h
  cases hget
  rw [hlookup] at h
  by_cases hmem : l ∈ c.labels
  · rw [if_pos hmem] at h
    obtain ⟨rfl, rfl⟩ := stateT_pure_eq_ok.mp h
    exact ⟨.refl, hmem, Nat.zero_add _, rfl⟩
  · rw [if_neg hmem] at h
    obtain ⟨_, c₂, hset, h⟩ := stateT_bind_eq_ok.mp h
    cases hset
    obtain ⟨rfl, rfl⟩ := stateT_pure_eq_ok.mp h
    have hlen : c.labels.length = c.closure.blockNums.length := List.length_map ..
    have hlabels : ∀ n, (c.closure.blockNums ++ [(l, n)]).map Prod.fst = c.labels ++ [l] :=
      fun n => List.map_append
    refine ⟨⟨rfl, rfl, rfl, ⟨[l], hlabels _, rfl⟩, fun _ => ⟨?_, ?_⟩⟩, ?_, ?_, rfl⟩
    · show c.closure.blockNums ++ _ = ((c.closure.blockNums ++ _).map Prod.fst).zipIdx
      rw [hlabels, List.zipIdx_append, ← hok.blockNums, hlen, Nat.zero_add]
      rfl
    · show ((c.closure.blockNums ++ _).map Prod.fst).Nodup
      rw [hlabels]
      exact List.nodup_append.mpr ⟨hok.nodup, List.nodup_singleton l, fun a ha b hb heq =>
        hmem (List.mem_singleton.mp hb ▸ heq ▸ ha)⟩
    · show l ∈ (c.closure.blockNums ++ _).map Prod.fst
      rw [hlabels]
      exact List.mem_append_right _ (List.mem_singleton_self l)
    · show _ = ((c.closure.blockNums ++ _).map Prod.fst).idxOf l
      rw [hlabels, List.idxOf_append_of_notMem hmem, List.idxOf_cons_self, hlen]
      rfl

/-- `get_block` on each of the labels. -/
theorem mapM_getBlock_ok : ∀ {ls ns : List Nat} {c c' : Ctx}, c.Ok →
    ls.mapM getBlock c = .ok (ns, c') →
    Extends c c' ∧ (∀ l ∈ ls, l ∈ c'.labels) ∧ ns = ls.map c'.num ∧
      c'.closure.trapHandlers = c.closure.trapHandlers
  | [], ns, c, c', hok, h => by
      obtain ⟨rfl, rfl⟩ := stateT_pure_eq_ok.mp h
      exact ⟨.refl, nofun, rfl, rfl⟩
  | l :: ls, ns, c, c', hok, h => by
      rw [List.mapM_cons] at h
      obtain ⟨n, c₁, h₁, h⟩ := stateT_bind_eq_ok.mp h
      obtain ⟨ms, c₂, h₂, h⟩ := stateT_bind_eq_ok.mp h
      obtain ⟨rfl, rfl⟩ := stateT_pure_eq_ok.mp h
      obtain ⟨hext₁, hmem₁, rfl, htraps₁⟩ := getBlock_ok hok h₁
      obtain ⟨hext₂, hmem₂, rfl, htraps₂⟩ := mapM_getBlock_ok (hext₁.ok hok) h₂
      refine ⟨hext₁.trans hext₂, fun l' hl' => ?_, ?_, htraps₂.trans htraps₁⟩
      · rcases List.mem_cons.mp hl' with rfl | hl'
        · exact hext₂.mem hmem₁
        · exact hmem₂ l' hl'
      · rw [List.map_cons, hext₂.num_eq hmem₁]

/-- The same for several closures. -/
theorem mapM_getClosure_ok : ∀ {ls ns : List Nat} {c c' : Ctx},
    ls.mapM getClosure c = .ok (ns, c') → ns = ls ∧ Extends c c' ∧ c'.closure = c.closure
  | [], ns, c, c', h => by
      obtain ⟨rfl, rfl⟩ := stateT_pure_eq_ok.mp h
      exact ⟨rfl, .refl, rfl⟩
  | l :: ls, ns, c, c', h => by
      rw [List.mapM_cons] at h
      obtain ⟨n, c₁, h₁, h⟩ := stateT_bind_eq_ok.mp h
      obtain ⟨ms, c₂, h₂, h⟩ := stateT_bind_eq_ok.mp h
      obtain ⟨rfl, rfl⟩ := stateT_pure_eq_ok.mp h
      obtain ⟨rfl, hext₁, hc₁⟩ := getClosure_ok h₁
      obtain ⟨rfl, hext₂, hc₂⟩ := mapM_getClosure_ok h₂
      exact ⟨rfl, hext₁.trans hext₂, hc₂.trans hc₁⟩

theorem mapM_id (f : Nat → Nat) (ls : List Nat) :
    (ls.mapM (m := Id) f : Id (List Nat)) = ls.map f := List.mapM_pure

/-- The labels of `CLOSUREREC` are renamed in order. -/
theorem mapLabels_closureRec (f : Nat → Nat) (ls : List Nat) (nvars : Nat) :
    (Instruction.closureRec ls nvars).mapLabels f = .closureRec (ls.map f) nvars :=
  congrArg (Instruction.closureRec · nvars) (mapM_id f ls)

/-- And so are those of `SWITCH`. -/
theorem mapLabels_switch (f : Nat → Nat) (ints tags : List Nat) :
    (Instruction.switch ints tags).mapLabels f = .switch (ints.map f) (tags.map f) :=
  congr (congrArg Instruction.switch (mapM_id f ints)) (mapM_id f tags)

/-- Only the labels an instruction has matter. -/
theorem mapLabels_congr {f g : Nat → Nat} (h : ∀ l ∈ i.visitLabels, f l = g l) :
    i.mapLabels f = i.mapLabels g := by
  cases i with
  | closureRec ls nvars =>
      rw [mapLabels_closureRec, mapLabels_closureRec]
      exact congrArg (Instruction.closureRec · nvars) (List.map_congr_left h)
  | switch ints tags =>
      rw [mapLabels_switch, mapLabels_switch,
        List.map_congr_left fun l hl => h l (List.mem_append_left _ hl),
        List.map_congr_left fun l hl => h l (List.mem_append_right _ hl)]
  | labelDef l | pushRetAddr l | branch l | branchIf l | branchIfNot l | pushTrap l =>
      exact congrArg _ (h l (List.mem_singleton_self l))
  | closure l nvars =>
      exact congrArg (Instruction.closure · nvars) (h l (List.mem_singleton_self l))
  | branchCmp cmp n l =>
      exact congrArg (Instruction.branchCmp cmp n) (h l (List.mem_singleton_self l))
  | _ => rfl

/-- Only the block labels it has matter. -/
theorem mapBlocks_congr {f g : Nat → Nat} (h : ∀ l ∈ blockLabels i, f l = g l) :
    mapBlocks f i = mapBlocks g i := by
  cases i with
  | closure l nvars => rfl
  | closureRec ls nvars => rfl
  | _ => exact mapLabels_congr h

/-- The labels of a mapped instruction are the mapped labels. -/
theorem blockLabels_mapBlocks (f : Nat → Nat) (i : Instruction Nat) :
    blockLabels (mapBlocks f i) = (blockLabels i).map f := by
  cases i with
  | switch ints tags =>
      show blockLabels ((Instruction.switch ints tags).mapLabels f) = (ints ++ tags).map f
      rw [mapLabels_switch, List.map_append]
      rfl
  | _ => rfl

/-- After its labels were looked up they have numbers, and it has them. -/
theorem mapLabelsM_getBlock_ok (hok : c.Ok) (h : i.mapLabelsM getBlock c = .ok (i', c')) :
    Extends c c' ∧ (∀ l ∈ i.visitLabels, l ∈ c'.labels) ∧ i' = i.mapLabels c'.num ∧
      c'.closure.trapHandlers = c.closure.trapHandlers := by
  have hone : ∀ {l : Nat} {g : Nat → Instruction Nat},
      (do pure (g (← getBlock l)) : Process (Instruction Nat)) c = .ok (i', c') →
      Extends c c' ∧ (∀ l' ∈ [l], l' ∈ c'.labels) ∧ i' = g (c'.num l) ∧
        c'.closure.trapHandlers = c.closure.trapHandlers := by
    intro l g h
    obtain ⟨n, c₁, h₁, hpure⟩ := stateT_bind_eq_ok.mp h
    obtain ⟨rfl, rfl⟩ := stateT_pure_eq_ok.mp hpure
    obtain ⟨hext, hmem, rfl, htraps⟩ := getBlock_ok hok h₁
    exact ⟨hext, fun l' hl' => List.mem_singleton.mp hl' ▸ hmem, rfl, htraps⟩
  cases i with
  | labelDef l | pushRetAddr l | closure l _ | branch l | branchIf l | branchIfNot l
      | branchCmp _ _ l | pushTrap l => exact hone h
  | closureRec ls nvars =>
      obtain ⟨ns, c₁, h₁, hpure⟩ := stateT_bind_eq_ok.mp h
      obtain ⟨rfl, rfl⟩ := stateT_pure_eq_ok.mp hpure
      obtain ⟨hext, hmem, rfl, htraps⟩ := mapM_getBlock_ok hok h₁
      exact ⟨hext, hmem, (mapLabels_closureRec ..).symm, htraps⟩
  | switch ints tags =>
      obtain ⟨ns, c₁, h₁, h⟩ := stateT_bind_eq_ok.mp h
      obtain ⟨ms, c₂, h₂, hpure⟩ := stateT_bind_eq_ok.mp h
      obtain ⟨rfl, rfl⟩ := stateT_pure_eq_ok.mp hpure
      obtain ⟨hext₁, hmem₁, rfl, htraps₁⟩ := mapM_getBlock_ok hok h₁
      obtain ⟨hext₂, hmem₂, rfl, htraps₂⟩ := mapM_getBlock_ok (hext₁.ok hok) h₂
      refine ⟨hext₁.trans hext₂, fun l hl => ?_, ?_, htraps₂.trans htraps₁⟩
      · exact (List.mem_append.mp hl).elim (fun hl => hext₂.mem (hmem₁ l hl)) (hmem₂ l)
      · rw [mapLabels_switch, List.map_congr_left fun l hl => hext₂.num_eq (hmem₁ l hl)]
  | _ =>
      obtain ⟨rfl, rfl⟩ := stateT_pure_eq_ok.mp h
      exact ⟨.refl, nofun, rfl, rfl⟩

/-- The mapped instruction is the one under the numbering. -/
theorem mapInstruction_ok (hok : c.Ok) (h : mapInstruction i c = .ok (i', c')) :
    Extends c c' ∧ (∀ l ∈ blockLabels i, l ∈ c'.labels) ∧ i' = mapBlocks c'.num i ∧
      c'.closure.trapHandlers = c.closure.trapHandlers ∧ i ≠ .restart := by
  have hblock : i.mapLabelsM getBlock c = .ok (i', c') → _ := mapLabelsM_getBlock_ok hok
  cases i with
  | closure l nvars =>
      obtain ⟨n, c₁, h₁, hpure⟩ := stateT_bind_eq_ok.mp h
      obtain ⟨rfl, rfl⟩ := stateT_pure_eq_ok.mp hpure
      obtain ⟨rfl, hext, hc⟩ := getClosure_ok h₁
      exact ⟨hext, nofun, rfl, congrArg _ hc, nofun⟩
  | closureRec ls nvars =>
      obtain ⟨ns, c₁, h₁, hpure⟩ := stateT_bind_eq_ok.mp h
      obtain ⟨rfl, rfl⟩ := stateT_pure_eq_ok.mp hpure
      obtain ⟨rfl, hext, hc⟩ := mapM_getClosure_ok h₁
      exact ⟨hext, nofun, rfl, congrArg _ hc, nofun⟩
  | restart => exact absurd h stateT_lift_error
  | _ =>
      obtain ⟨hext, hmem, hi, htraps⟩ := hblock h
      exact ⟨hext, hmem, hi, htraps, nofun⟩

end Mapping

/-! ## §4. One block. -/

section Blocks

variable {c c' : Ctx} {l : Nat} {i : Instruction Nat} {rest : List (Instruction Nat)}

/-- Defining a closure leaves the blocks alone. -/
theorem defineClosure_ok {n : Nat} (h : defineClosure l c = .ok (n, c')) :
    Extends c c' ∧ c'.closure = c.closure := by
  obtain ⟨m, c₁, h₁, h⟩ := stateT_bind_eq_ok.mp h
  obtain ⟨c₂, c₃, hget, h⟩ := stateT_bind_eq_ok.mp h
  cases hget
  obtain ⟨u, c₃, h₂, h⟩ := stateT_bind_eq_ok.mp h
  obtain ⟨rfl, rfl⟩ := stateT_pure_eq_ok.mp h
  obtain ⟨-, hext, hc⟩ := getClosure_ok h₁
  obtain ⟨c₄, c₅, hget, h₂⟩ := stateT_bind_eq_ok.mp h₂
  cases hget
  cases hp : c₁.global.parentClosures m with
  | none =>
      rw [hp] at h₂
      cases h₂
      exact ⟨hext.trans (.of_eq rfl rfl rfl rfl rfl), hc⟩
  | some other =>
      rw [hp] at h₂
      exact absurd h₂ stateT_lift_error

/-- And so does defining several. -/
theorem mapM_defineClosure_ok : ∀ {ls ns : List Nat} {c c' : Ctx},
    ls.mapM defineClosure c = .ok (ns, c') → Extends c c' ∧ c'.closure = c.closure
  | [], ns, c, c', h => by
      obtain ⟨-, rfl⟩ := stateT_pure_eq_ok.mp h
      exact ⟨.refl, rfl⟩
  | l :: ls, ns, c, c', h => by
      rw [List.mapM_cons] at h
      obtain ⟨n, c₁, h₁, h⟩ := stateT_bind_eq_ok.mp h
      obtain ⟨ms, c₂, h₂, h⟩ := stateT_bind_eq_ok.mp h
      obtain ⟨-, rfl⟩ := stateT_pure_eq_ok.mp h
      obtain ⟨hext₁, hc₁⟩ := defineClosure_ok h₁
      obtain ⟨hext₂, hc₂⟩ := mapM_defineClosure_ok h₂
      exact ⟨hext₁.trans hext₂, hc₂.trans hc₁⟩

/-- The next instruction was a label, and nothing has changed. -/
theorem nextLabel_ok (h : nextLabel rest c = .ok (l, c')) :
    (∃ rest', rest = .labelDef l :: rest') ∧ c' = c := by
  unfold nextLabel at h
  split at h
  · obtain ⟨rfl, rfl⟩ := stateT_pure_eq_ok.mp h
    exact ⟨⟨_, rfl⟩, rfl⟩
  · exact absurd h stateT_lift_error

/-- What is known of an exit after its labels have been numbered. -/
structure ExitOk (i : Instruction Nat) (rest : List (Instruction Nat)) (c c' : Ctx)
    (x : BlockExit) : Prop where
  control : i.isControl = true
  exit : ∀ num, Agrees num c' → controlExit num rest i = some x
  targets : ∀ n ∈ x.targets, c'.Mentioned n
  traps : ∀ n, n ∈ c'.closure.trapHandlers ↔
    n ∈ c.closure.trapHandlers ∨ ∃ normal, x = .pushTrap normal n

/-- An exit that is no trap. -/
theorem exitOk_plain {x : BlockExit} (hcontrol : i.isControl = true)
    (hexit : ∀ num, Agrees num c' → controlExit num rest i = some x)
    (htargets : ∀ n ∈ x.targets, c'.Mentioned n)
    (htraps : c'.closure.trapHandlers = c.closure.trapHandlers)
    (hplain : ∀ normal n, x ≠ .pushTrap normal n) : ExitOk i rest c c' x := by
  refine ⟨hcontrol, hexit, htargets, fun n => ?_⟩
  rw [htraps]
  exact ⟨.inl, fun h => h.elim id fun ⟨normal, hx⟩ => absurd hx (hplain normal n)⟩

/-- A conditional jump goes to its label, or on to the one that follows. -/
theorem conditionalJump_ok {x : BlockExit} (hok : c.Ok)
    (h : conditionalJump l rest c = .ok (x, c')) (hcontrol : i.isControl = true)
    (hbreak : i ≠ .break_) (hevent : i ≠ .event) (hi : ∀ num next rest', controlExit num (.labelDef next :: rest') i
      = some (.conditionalJump (num l) (num next))) :
    Extends c c' ∧ i ≠ .break_ ∧ i ≠ .event ∧ ExitOk i rest c c' x := by
  obtain ⟨next, c₁, h₁, hafter⟩ := stateT_bind_eq_ok.mp h
  obtain ⟨⟨rest', rfl⟩, rfl⟩ := nextLabel_ok h₁
  obtain ⟨ifTrue, c₂, h₂, hafter⟩ := stateT_bind_eq_ok.mp hafter
  obtain ⟨ifFalse, c₃, h₃, hafter⟩ := stateT_bind_eq_ok.mp hafter
  obtain ⟨rfl, rfl⟩ := stateT_pure_eq_ok.mp hafter
  obtain ⟨hext₂, hmem₂, rfl, htraps₂⟩ := getBlock_ok hok h₂
  obtain ⟨hext₃, hmem₃, rfl, htraps₃⟩ := getBlock_ok (hext₂.ok hok) h₃
  refine ⟨hext₂.trans hext₃, hbreak, hevent, exitOk_plain hcontrol (fun num ha => ?_)
    (fun n hn => ?_) (htraps₃.trans htraps₂) nofun⟩
  · rw [hi, ha l (hext₃.mem hmem₂), ha next hmem₃, hext₃.num_eq hmem₂]
  · rcases List.mem_cons.mp hn with rfl | hn
    · exact hext₃.mentioned ⟨l, hmem₂, rfl⟩
    · exact ⟨next, hmem₃, (List.mem_singleton.mp hn).symm⟩

/-- **What an instruction does to the block**: it stays in it, or is its exit. -/
theorem finishInstruction_ok {defined : List Nat} {exit : Option BlockExit} (hok : c.Ok)
    (h : finishInstruction i rest c = .ok ((defined, exit), c')) :
    Extends c c' ∧ i ≠ .break_ ∧ i ≠ .event ∧ match exit with
      | none => i.isControl = false ∧ c'.closure.trapHandlers = c.closure.trapHandlers
      | some x => ExitOk i rest c c' x := by
  cases i with
  | closure dest nvars =>
      obtain ⟨n, c₁, h₁, h⟩ := stateT_bind_eq_ok.mp h
      cases h
      obtain ⟨hext, hc⟩ := defineClosure_ok h₁
      exact ⟨hext, nofun, nofun, rfl, congrArg _ hc⟩
  | closureRec dests nvars =>
      obtain ⟨ns, c₁, h₁, h⟩ := stateT_bind_eq_ok.mp h
      cases h
      obtain ⟨hext, hc⟩ := mapM_defineClosure_ok h₁
      exact ⟨hext, nofun, nofun, rfl, congrArg _ hc⟩
  -- two blocks, the next and the handler, and one more handler
  | pushTrap dest =>
      obtain ⟨next, c₁, h₁, hafter⟩ := stateT_bind_eq_ok.mp h
      obtain ⟨⟨rest', rfl⟩, rfl⟩ := nextLabel_ok h₁
      obtain ⟨normal, c₂, h₂, hafter⟩ := stateT_bind_eq_ok.mp hafter
      obtain ⟨trap, c₃, h₃, hafter⟩ := stateT_bind_eq_ok.mp hafter
      obtain ⟨u, c₄, h₄, hafter⟩ := stateT_bind_eq_ok.mp hafter
      cases h₄
      cases hafter
      obtain ⟨hext₂, hmem₂, rfl, htraps₂⟩ := getBlock_ok hok h₂
      obtain ⟨hext₃, hmem₃, rfl, htraps₃⟩ := getBlock_ok (hext₂.ok hok) h₃
      refine ⟨(hext₂.trans hext₃).trans (.of_eq rfl rfl rfl rfl rfl), nofun, nofun, rfl,
        fun num ha => ?_, fun n hn => ?_, fun n => ?_⟩
      · have ha : Agrees num c₃ := ha
        show some (BlockExit.pushTrap (num next) (num dest)) = _
        rw [ha next (hext₃.mem hmem₂), ha dest hmem₃, hext₃.num_eq hmem₂]
      · rcases List.mem_cons.mp hn with rfl | hn
        · exact ⟨next, hext₃.mem hmem₂, hext₃.num_eq hmem₂⟩
        · exact ⟨dest, hmem₃, (List.mem_singleton.mp hn).symm⟩
      · show n ∈ c₃.closure.trapHandlers.insert _ ↔ _
        rw [List.mem_insert_iff, htraps₃, htraps₂]
        constructor
        · rintro (rfl | hn)
          · exact .inr ⟨_, rfl⟩
          · exact .inl hn
        · rintro (hn | ⟨normal, hx⟩)
          · exact .inr hn
          · injection hx with _ hx
            exact .inl hx.symm
  | applyTerm nargs slotSize | return_ toPop | stop | raise kind =>
      cases h
      exact ⟨.refl, nofun, nofun, exitOk_plain rfl (fun _ _ => rfl) nofun rfl nofun⟩
  | branch dest =>
      obtain ⟨n, c₁, h₁, h⟩ := stateT_bind_eq_ok.mp h
      cases h
      obtain ⟨hext, hmem, rfl, htraps⟩ := getBlock_ok hok h₁
      refine ⟨hext, nofun, nofun, exitOk_plain rfl (fun num ha => ?_) (fun n hn => ?_) htraps
        nofun⟩
      · exact congrArg (fun n => some (BlockExit.unconditionalJump n)) (ha dest hmem)
      · exact ⟨dest, hmem, (List.mem_singleton.mp hn).symm⟩
  -- the next label is the other way
  | branchIf dest | branchIfNot dest | branchCmp cmp n dest =>
      obtain ⟨x, c₁, h₁, h⟩ := stateT_bind_eq_ok.mp h
      cases h
      exact conditionalJump_ok hok h₁ rfl nofun nofun fun _ _ _ => rfl
  -- the labels of both tables
  | switch ints blocks =>
      obtain ⟨ns, c₁, h₁, h⟩ := stateT_bind_eq_ok.mp h
      obtain ⟨ms, c₂, h₂, h⟩ := stateT_bind_eq_ok.mp h
      cases h
      obtain ⟨hext₁, hmem₁, rfl, htraps₁⟩ := mapM_getBlock_ok hok h₁
      obtain ⟨hext₂, hmem₂, rfl, htraps₂⟩ := mapM_getBlock_ok (hext₁.ok hok) h₂
      refine ⟨hext₁.trans hext₂, nofun, nofun, exitOk_plain rfl (fun num ha => ?_)
        (fun n hn => ?_) (htraps₂.trans htraps₁) nofun⟩
      · show some (BlockExit.switch (ints.map num) (blocks.map num)) = _
        rw [List.map_congr_left fun l hl => (ha l (hext₂.mem (hmem₁ l hl))).trans
          (hext₂.num_eq (hmem₁ l hl)), List.map_congr_left fun l hl => ha l (hmem₂ l hl)]
      · rcases List.mem_append.mp hn with hn | hn
        · obtain ⟨l, hl, rfl⟩ := List.mem_map.mp hn
          exact hext₂.mentioned ⟨l, hmem₁ l hl, rfl⟩
        · obtain ⟨l, hl, rfl⟩ := List.mem_map.mp hn
          exact ⟨l, hmem₂ l hl, rfl⟩
  -- an `Err`
  | break_ | event => exact absurd h stateT_lift_error
  | _ =>
      cases h
      exact ⟨.refl, nofun, nofun, rfl, rfl⟩

/-- Noting a position adds no trap handler. -/
theorem notePosition_ok {u : Unit} (h : notePosition l c = .ok (u, c')) :
    Extends c c' ∧ c'.closure.trapHandlers = c.closure.trapHandlers := by
  obtain ⟨c₁, c₂, hget, h⟩ := stateT_bind_eq_ok.mp h
  cases hget
  split at h
  · cases he : c.global.lookupDebugInfo l with
    | none =>
        rw [he] at h
        cases h
        exact ⟨.refl, rfl⟩
    | some e =>
        rw [he] at h
        cases h
        exact ⟨.of_eq rfl rfl rfl rfl rfl, rfl⟩
  · cases h
    exact ⟨.refl, rfl⟩

/-- What is known of a block after it has been processed: what comes after
`instructions` has been read from `is`. -/
structure LoopOk (first : Bool) (is instructions : List (Instruction Nat)) (c c' : Ctx)
    (b : Block) : Prop where
  scan : ∃ added : List (Instruction Nat), b.instructions = instructions ++ added.map (mapBlocks c'.num) ∧
    (∀ i ∈ added, ∀ l ∈ blockLabels i, l ∈ c'.labels) ∧
    ∀ num, Agrees num c' →
      Scan num c.global.isBlockStart first is (added.map (mapBlocks num)) b.exit
  targets : ∀ n ∈ b.exit.targets, c'.Mentioned n
  traps : ∀ n, n ∈ c'.closure.trapHandlers ↔
    n ∈ c.closure.trapHandlers ∨ ∃ normal, b.exit = .pushTrap normal n

/-- Which labels start blocks does not change. -/
theorem isBlockStart_eq {c₁ : Ctx} (h : Extends c c₁) :
    c₁.global.isBlockStart = c.global.isBlockStart := by
  funext l
  unfold GlobalCtx.isBlockStart
  rw [h.referencedLabels]

/-- The loop at an instruction that is no label. -/
theorem processLoop_instr {first : Bool} {instructions : List (Instruction Nat)}
    {closures : List Nat} (hi : ∀ l, i ≠ .labelDef l) :
    processLoop first (i :: rest) instructions closures = (do
      let mapped ← mapInstruction i
      let (defined, exit) ← finishInstruction i rest
      match exit with
      | some exit => pure ⟨instructions ++ [mapped], closures ++ defined, exit⟩
      | none => processLoop false rest (instructions ++ [mapped]) (closures ++ defined)) := by
  cases i with
  | labelDef l => exact absurd rfl (hi l)
  | _ => rfl

/-- Only labels, `RESTART`, breaks and events are foreign. -/
theorem isForeign_eq_false (hl : ∀ l, i ≠ .labelDef l) (hr : i ≠ .restart) (hb : i ≠ .break_)
    (he : i ≠ .event) : isForeign i = false := by
  cases i with
  | labelDef l => exact absurd rfl (hl l)
  | restart => exact absurd rfl hr
  | break_ => exact absurd rfl hb
  | event => exact absurd rfl he
  | _ => rfl

/-- **The loop of `process_block`**, by recursion on what it reads. -/
theorem processLoop_ok : ∀ {first : Bool} {is instructions : List (Instruction Nat)}
    {closures : List Nat} {c c' : Ctx} {b : Block}, c.Ok →
    processLoop first is instructions closures c = .ok (b, c') →
    Extends c c' ∧ LoopOk first is instructions c c' b
  | first, [], instructions, closures, c, c', b, hok, h => absurd h stateT_lift_error
  | first, i :: rest, instructions, closures, c, c', b, hok, h => by
      by_cases hi : ∃ l, i = .labelDef l
      · obtain ⟨l, rfl⟩ := hi
        obtain ⟨u, c₁, h₁, hafter⟩ := stateT_bind_eq_ok.mp h
        obtain ⟨c₂, c₃, hget, hafter⟩ := stateT_bind_eq_ok.mp hafter
        cases hget
        obtain ⟨hext₁, htraps₁⟩ := notePosition_ok h₁
        have hstarts := isBlockStart_eq hext₁
        split at hafter
        · next hsplit =>
            -- a block boundary
            rw [Bool.and_eq_true, Bool.not_eq_true'] at hsplit
            obtain ⟨n, c₂, h₂, hafter⟩ := stateT_bind_eq_ok.mp hafter
            cases hafter
            obtain ⟨hext₂, hmem₂, rfl, htraps₂⟩ := getBlock_ok (hext₁.ok hok) h₂
            refine ⟨hext₁.trans hext₂, ⟨[], (List.append_nil _).symm, nofun, fun num ha => ?_⟩,
              fun n hn => ⟨l, hmem₂, (List.mem_singleton.mp hn).symm⟩, fun n => ?_⟩
            · rw [hsplit.1, ← ha l hmem₂]
              exact .split (hstarts ▸ hsplit.2)
            · rw [htraps₂, htraps₁]
              exact ⟨.inl, fun h => h.elim id fun ⟨normal, hx⟩ => nomatch hx⟩
        · next hsplit =>
            -- a label inside the block is passed over
            obtain ⟨hext₂, hloop⟩ := processLoop_ok (hext₁.ok hok) hafter
            obtain ⟨added, hinstrs, hmem, hscan⟩ := hloop.scan
            refine ⟨hext₁.trans hext₂, ⟨added, hinstrs, hmem, fun num ha => ?_⟩, hloop.targets,
              fun n => ?_⟩
            · rw [hstarts, Bool.not_eq_true] at hsplit
              exact .label hsplit (hstarts ▸ hscan num ha)
            · rw [hloop.traps, htraps₁]
      · have hlabel : ∀ l, i ≠ .labelDef l := fun l heq => hi ⟨l, heq⟩
        rw [processLoop_instr hlabel] at h
        obtain ⟨mapped, c₁, h₁, hafter⟩ := stateT_bind_eq_ok.mp h
        obtain ⟨⟨defined, exit⟩, c₂, h₂, hafter⟩ := stateT_bind_eq_ok.mp hafter
        obtain ⟨hext₁, hmem₁, rfl, htraps₁, hrestart⟩ := mapInstruction_ok hok h₁
        obtain ⟨hext₂, hbreak, hevent, hexit⟩ := finishInstruction_ok (hext₁.ok hok) h₂
        have hforeign := isForeign_eq_false hlabel hrestart hbreak hevent
        -- the exit ends the block, another instruction is kept
        cases exit with
        | some x =>
            cases hafter
            refine ⟨hext₁.trans hext₂, ⟨[i], ?_, fun j hj l hl => ?_, fun num ha => ?_⟩,
              hexit.targets, fun n => ?_⟩
            · show instructions ++ [mapBlocks c₁.num i] = instructions ++ [mapBlocks c'.num i]
              rw [mapBlocks_congr fun l hl => hext₂.num_eq (hmem₁ l hl)]
            · exact hext₂.mem (hmem₁ l (List.mem_singleton.mp hj ▸ hl))
            · exact .exit hexit.control (hexit.exit num ha)
            · rw [hexit.traps, htraps₁]
        | none =>
            obtain ⟨hstay, htraps₂⟩ := hexit
            obtain ⟨hext₃, hloop⟩ := processLoop_ok (hext₂.ok (hext₁.ok hok)) hafter
            obtain ⟨added, hinstrs, hmem, hscan⟩ := hloop.scan
            refine ⟨hext₁.trans (hext₂.trans hext₃), ⟨i :: added, ?_, ?_, fun num ha => ?_⟩,
              hloop.targets, fun n => ?_⟩
            · rw [hinstrs, List.append_assoc, List.map_cons,
                mapBlocks_congr fun l hl => (hext₂.trans hext₃).num_eq (hmem₁ l hl)]
              rfl
            · intro j hj l hl
              rcases List.mem_cons.mp hj with rfl | hj
              · exact (hext₂.trans hext₃).mem (hmem₁ l hl)
              · exact hmem j hj l hl
            · refine .instr hforeign hstay ?_
              have := hscan num ha
              rw [isBlockStart_eq (hext₁.trans hext₂)] at this
              exact this
            · rw [hloop.traps, htraps₂, htraps₁]

end Blocks

/-! ## §5. All blocks. -/

/-- `b` is the block of the label `l`. -/
structure BlockOf (c : Ctx) (num : Nat → Nat) (l : Nat) (b : Block) : Prop where
  scan : ∃ index, c.global.labelToIndexMap l = some index ∧
    Scan num c.global.isBlockStart true (c.global.instructions.drop index) b.instructions b.exit

/-- What is known of a block that has been processed. -/
structure Processed (c : Ctx) (l : Nat) (b : Block) : Prop where
  block : ∀ num, Agrees num c → BlockOf c num l b
  targets : ∀ n ∈ b.exit.targets, c.Mentioned n
  mentions : ∀ i ∈ b.instructions, ∀ n ∈ blockLabels i, c.Mentioned n

section Closures

variable {c c' : Ctx} {l : Nat} {b : Block} {blocks : List Block}

/-- A block that is processed stays so. -/
theorem Processed.extends (h : Processed c l b) (hext : Extends c c') : Processed c' l b := by
  refine ⟨fun num ha => ?_, fun n hn => hext.mentioned (h.targets n hn),
    fun i hi n hn => hext.mentioned (h.mentions i hi n hn)⟩
  obtain ⟨index, hindex, hscan⟩ := (h.block num (ha.of_extends hext)).scan
  refine ⟨index, hext.labelToIndexMap ▸ hindex, ?_⟩
  rw [isBlockStart_eq hext, hext.instructions]
  exact hscan

/-- **A processed block** is the scan of the program from its label. -/
theorem processBlock_ok (hok : c.Ok) (h : processBlock l c = .ok (b, c')) :
    Extends c c' ∧ Processed c' l b ∧ ∀ n, n ∈ c'.closure.trapHandlers ↔
      n ∈ c.closure.trapHandlers ∨ ∃ normal, b.exit = .pushTrap normal n := by
  obtain ⟨index, c₁, h₁, hafter⟩ := stateT_bind_eq_ok.mp h
  obtain ⟨c₂, c₃, hget, hafter⟩ := stateT_bind_eq_ok.mp hafter
  cases hget
  have hindex : c.global.labelToIndexMap l = some index ∧ c₁ = c := by
    obtain ⟨c₂, c₃, hget, h₁⟩ := stateT_bind_eq_ok.mp h₁
    cases hget
    cases hm : c.global.labelToIndexMap l with
    | none =>
        rw [hm] at h₁
        exact absurd h₁ stateT_lift_error
    | some index =>
        rw [hm] at h₁
        cases h₁
        exact ⟨rfl, rfl⟩
  obtain ⟨hindex, rfl⟩ := hindex
  obtain ⟨hext, hloop⟩ := processLoop_ok hok hafter
  obtain ⟨added, hinstrs, hmem, hscan⟩ := hloop.scan
  rw [List.nil_append] at hinstrs
  refine ⟨hext, ⟨fun num ha => ⟨index, hext.labelToIndexMap ▸ hindex, ?_⟩, hloop.targets,
    fun i hi n hn => ?_⟩, hloop.traps⟩
  · have hmap : added.map (mapBlocks c'.num) = added.map (mapBlocks num) :=
      List.map_congr_left fun i hi => mapBlocks_congr fun l hl => (ha l (hmem i hi l hl)).symm
    rw [isBlockStart_eq hext, hext.instructions, hinstrs, hmap]
    exact hscan num ha
  · rw [hinstrs] at hi
    obtain ⟨j, hj, rfl⟩ := List.mem_map.mp hi
    rw [blockLabels_mapBlocks] at hn
    obtain ⟨l', hl', rfl⟩ := List.mem_map.mp hn
    exact ⟨l', hmem j hj l' hl', rfl⟩

/-- The blocks so far are those of the labels that are not in the queue any
more, and the trap handlers are known. -/
structure Progressed (c : Ctx) (blocks : List Block) : Prop where
  ok : c.Ok
  queue : ∃ done, c.labels = done ++ c.closure.todo ∧ List.Forall₂ (Processed c) done blocks
  traps : ∀ n, n ∈ c.closure.trapHandlers ↔ ∃ b ∈ blocks, ∃ normal, b.exit = .pushTrap normal n

/-- What is still to be done does not matter. -/
theorem Processed.popped {todo : List Nat} (h : Processed c l b) :
    Processed (c.withTodo todo) l b :=
  ⟨fun num ha => ⟨(h.block num ha).scan⟩, h.targets, h.mentions⟩

/-- **One turn of the loop of `process_closure`.** -/
theorem Progressed.step {todo : List Nat} (h : Progressed c blocks)
    (htodo : c.closure.todo = l :: todo)
    (hblock : processBlock l (c.withTodo todo) = .ok (b, c')) : Progressed c' (blocks ++ [b]) := by
  obtain ⟨done, hlabels, hdone⟩ := h.queue
  have hok : (c.withTodo todo).Ok := ⟨h.ok.blockNums, h.ok.nodup⟩
  obtain ⟨hext, hb, htraps⟩ := processBlock_ok hok hblock
  obtain ⟨new, hlabels', htodo'⟩ := hext.labels
  refine ⟨hext.ok hok, ⟨done ++ [l], ?_, ?_⟩, fun n => ?_⟩
  · have hlabels' : c'.labels = c.labels ++ new := hlabels'
    have htodo' : c'.closure.todo = todo ++ new := htodo'
    rw [hlabels', hlabels, htodo, htodo']
    simp
  · refine List.rel_append (hdone.imp fun l b hp => hp.popped.extends hext) (.cons hb .nil)
  · have htraps : n ∈ c'.closure.trapHandlers ↔
        n ∈ c.closure.trapHandlers ∨ ∃ normal, b.exit = .pushTrap normal n := htraps n
    rw [htraps, h.traps]
    constructor
    · rintro (⟨b', hb', hx⟩ | hx)
      · exact ⟨b', List.mem_append_left _ hb', hx⟩
      · exact ⟨b, List.mem_append_right _ (List.mem_singleton_self b), hx⟩
    · rintro ⟨b', hb', hx⟩
      rcases List.mem_append.mp hb' with hb' | hb'
      · exact .inl ⟨b', hb', hx⟩
      · exact .inr (List.mem_singleton.mp hb' ▸ hx)

/-- The same program, and no number changed. -/
structure Continues (c c' : Ctx) : Prop where
  instructions : c'.global.instructions = c.global.instructions
  referencedLabels : c'.global.referencedLabels = c.global.referencedLabels
  labelToIndexMap : c'.global.labelToIndexMap = c.global.labelToIndexMap
  labels : c.labels <+: c'.labels

/-- **The loop of `process_closure`.** -/
theorem processBlocks_ok : ∀ {fuel : Nat} {blocks blocks' : List Block} {c c' : Ctx},
    Progressed c blocks → processBlocks fuel blocks c = .ok (blocks', c') →
    Progressed c' blocks' ∧ c'.closure.todo = [] ∧ Continues c c'
  | 0, blocks, blocks', c, c', hp, h => absurd h stateT_lift_error
  | fuel + 1, blocks, blocks', c, c', hp, h => by
      obtain ⟨next, c₁, h₁, hafter⟩ := stateT_bind_eq_ok.mp h
      obtain ⟨c₂, c₃, hget, h₁⟩ := stateT_bind_eq_ok.mp h₁
      cases hget
      cases htodo : c.closure.todo with
      | nil =>
          rw [htodo] at h₁
          cases h₁
          cases hafter
          exact ⟨hp, htodo, rfl, rfl, rfl, List.prefix_refl _⟩
      | cons l todo =>
          rw [htodo] at h₁
          cases h₁
          obtain ⟨b, c₂, hblock, hafter⟩ := stateT_bind_eq_ok.mp hafter
          have hok : (c.withTodo todo).Ok := ⟨hp.ok.blockNums, hp.ok.nodup⟩
          obtain ⟨hext, -, -⟩ := processBlock_ok hok hblock
          obtain ⟨hp', hempty, hcont⟩ := processBlocks_ok (hp.step htodo hblock) hafter
          obtain ⟨new, hlabels, -⟩ := hext.labels
          have hlabels : c₂.labels = c.labels ++ new := hlabels
          exact ⟨hp', hempty, hcont.instructions.trans hext.instructions,
            hcont.referencedLabels.trans hext.referencedLabels,
            hcont.labelToIndexMap.trans hext.labelToIndexMap,
            (List.prefix_append _ new).trans (hlabels ▸ hcont.labels)⟩

/-- **The blocks of a closure**: block `i` is that of the label numbered `i`. -/
theorem closureBlocks_ok {entrypoint : Nat} {g : GlobalCtx}
    (h : closureBlocks entrypoint g = .ok (blocks, c')) :
    c'.Ok ∧ c'.labels[0]? = some entrypoint ∧ List.Forall₂ (Processed c') c'.labels blocks ∧
      (∀ n, n ∈ c'.closure.trapHandlers ↔ ∃ b ∈ blocks, ∃ normal, b.exit = .pushTrap normal n) ∧
      c'.global.instructions = g.instructions ∧ c'.global.referencedLabels = g.referencedLabels ∧
      c'.global.labelToIndexMap = g.labelToIndexMap := by
  have hg : ∀ g', (g.getClosure entrypoint).2 = g' → g'.instructions = g.instructions ∧
      g'.referencedLabels = g.referencedLabels ∧ g'.labelToIndexMap = g.labelToIndexMap := by
    rintro g' rfl
    unfold GlobalCtx.getClosure
    split <;> exact ⟨rfl, rfl, rfl⟩
  obtain ⟨hgi, hgr, hgm⟩ := hg _ rfl
  unfold closureBlocks at h
  have hstart : Progressed ⟨(g.getClosure entrypoint).2,
      .new entrypoint (g.getClosure entrypoint).1⟩ [] :=
    ⟨⟨rfl, List.nodup_singleton entrypoint⟩, ⟨[], rfl, .nil⟩, fun n => ⟨nofun, nofun⟩⟩
  obtain ⟨hp, hempty, hcont⟩ := processBlocks_ok hstart h
  obtain ⟨done, hlabels, hdone⟩ := hp.queue
  rw [hempty, List.append_nil] at hlabels
  obtain ⟨new, hnew⟩ := hcont.labels
  refine ⟨hp.ok, ?_, hlabels ▸ hdone, hp.traps, hcont.instructions.trans hgi,
    hcont.referencedLabels.trans hgr, hcont.labelToIndexMap.trans hgm⟩
  rw [← hnew]
  rfl

end Closures

end OcamlJit.CleverDis

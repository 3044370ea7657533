/-
  OcamlJit.CleverDis.Walk
  ───────────────────────
  **THE BLOCKS OF A CLOSURE ARE ITS CONTROL FLOW GRAPH.**

  Executing an instruction is a request, and its answer is the resolution: where
  control goes next.  So the trace of a run is the sequence of the executed
  instructions, and an oracle is any way to resolve branches, switches and
  raises.  `walkStep` walks the list of instructions, `blockStep` the blocks;
  `processClosure_faithful` says that they have the same runs.
-/
import OcamlJit.CleverDis.Scan
import OcamlJit.Instructions.Decode
import OcamlJit.Lib.Transition

namespace OcamlJit.CleverDis

open OcamlJit.Lib OcamlJit.Instructions

/-! ## §1. Two ways to run a closure. -/

/-- Where control goes after an instruction. -/
inductive Resolution where
  /-- To the next instruction. -/
  | goOn
  /-- To the label of a conditional branch. -/
  | taken
  /-- To an entry of a switch. -/
  | int (k : Nat)
  | block (k : Nat)
  /-- An exception. -/
  | raises
  deriving Repr, DecidableEq

/-- How a run leaves the closure. -/
inductive Ending where
  /-- A return, a tail call or a stop. -/
  | left
  /-- An exception that no handler of the closure catches. -/
  | raised
  deriving Repr, DecidableEq

/-- The instructions from the definition of a label on. -/
def codeAt (l : Nat) : List (Instruction Nat) → Option (List (Instruction Nat))
  | [] => none
  | i :: is => if i = .labelDef l then some (i :: is) else codeAt l is

/-- The instructions to come, and the labels of the trap handlers, innermost
first. -/
structure WalkConfig where
  rest : List (Instruction Nat)
  traps : List Nat
  deriving Repr

/-- The rest of a block, its exit, and the blocks of the trap handlers. -/
structure BlockConfig where
  rest : List (Instruction Nat)
  exit : BlockExit
  traps : List Nat
  deriving Repr

section Machines

variable {O : Oracle (Instruction Nat) Resolution}

/-- A jump to a label. -/
def gotoLabel (instrs : List (Instruction Nat)) (l : Nat) (traps : List Nat) :
    Act O (Progress WalkConfig Ending) := do
  let rest ← Act.ofOption (codeAt l instrs)
  pure (.running ⟨rest, traps⟩)

/-- An exception goes to the innermost handler. -/
def raiseWith {σ : Type} (goto : Nat → List Nat → Act O (Progress σ Ending)) :
    List Nat → Act O (Progress σ Ending)
  | [] => pure (.done .raised)
  | trap :: traps => goto trap traps

/-- What `POPTRAP` does to the handlers. -/
def trapsAfter (i : Instruction Nat) (traps : List Nat) : List Nat :=
  if i = .popTrap then traps.tail else traps

/-- Where a control instruction goes. -/
def walkControl (instrs : List (Instruction Nat)) (i : Instruction Nat) (r : Resolution)
    (c : WalkConfig) : Act O (Progress WalkConfig Ending) :=
  match i, r with
  | .branch l, _ => gotoLabel instrs l c.traps
  | .branchIf l, .taken | .branchIfNot l, .taken | .branchCmp _ _ l, .taken =>
      gotoLabel instrs l c.traps
  | .branchIf _, _ | .branchIfNot _, _ | .branchCmp _ _ _, _ => pure (.running c)
  | .switch ints _, .int k => do gotoLabel instrs (← Act.ofOption ints[k]?) c.traps
  | .switch _ blocks, .block k => do gotoLabel instrs (← Act.ofOption blocks[k]?) c.traps
  | .pushTrap l, _ => pure (.running { c with traps := l :: c.traps })
  | .raise _, _ => raiseWith (gotoLabel instrs) c.traps
  | .applyTerm _ _, _ | .return_ _, _ | .stop, _ => pure (.done .left)
  | _, _ => Act.stuck

/-- One step along the list: the definition of a label is passed. -/
def walkStep (instrs : List (Instruction Nat)) (c : WalkConfig) :
    Act O (Progress WalkConfig Ending) :=
  match c.rest with
  | [] => Act.stuck
  | .labelDef _ :: rest => pure (.running { c with rest := rest })
  | i :: rest => do
      let r ← Act.perform i
      if r = .raises then raiseWith (gotoLabel instrs) c.traps
      else if i.isControl then walkControl instrs i r { c with rest := rest }
      else pure (.running ⟨rest, trapsAfter i c.traps⟩)

/-- A jump to a block. -/
def gotoBlock (blocks : List Block) (n : Nat) (traps : List Nat) :
    Act O (Progress BlockConfig Ending) := do
  let b ← Act.ofOption blocks[n]?
  pure (.running ⟨b.instructions, b.exit, traps⟩)

/-- Where an exit goes. -/
def followExit (blocks : List Block) (x : BlockExit) (r : Resolution) (traps : List Nat) :
    Act O (Progress BlockConfig Ending) :=
  match x, r with
  | .unconditionalJump n, _ => gotoBlock blocks n traps
  | .conditionalJump ifTrue _, .taken => gotoBlock blocks ifTrue traps
  | .conditionalJump _ ifFalse, _ => gotoBlock blocks ifFalse traps
  | .pushTrap normal trap, _ => gotoBlock blocks normal (trap :: traps)
  | .switch ints _, .int k => do gotoBlock blocks (← Act.ofOption ints[k]?) traps
  | .switch _ tags, .block k => do gotoBlock blocks (← Act.ofOption tags[k]?) traps
  | .raise, _ => raiseWith (gotoBlock blocks) traps
  | .tailCall, _ | .return_, _ | .stop, _ => pure (.done .left)
  | .switch _ _, _ => Act.stuck

/-- One step along the blocks.  The exit of a control instruction is taken with
it; a block that ends before a label has its exit to itself.  `labels` has the
labels of the blocks. -/
def blockStep (labels : List Nat) (blocks : List Block) (c : BlockConfig) :
    Act O (Progress BlockConfig Ending) :=
  match c.rest with
  | [] => followExit blocks c.exit .goOn c.traps
  | i :: rest => do
      let r ← Act.perform (mapBlocks (fun n => labels.getD n 0) i)
      if r = .raises then raiseWith (gotoBlock blocks) c.traps
      else if i.isControl then followExit blocks c.exit r c.traps
      else pure (.running { c with rest := rest, traps := trapsAfter i c.traps })

end Machines

/-! ## §2. Labels and places. -/

/-- The labels defined, in order. -/
def definedLabels (instrs : List (Instruction Nat)) : List Nat := instrs.filterMap fun
  | .labelDef l => some l
  | _ => none

section Labels

variable {instrs is : List (Instruction Nat)} {i : Instruction Nat} {l : Nat}

/-- The labels of two parts are those of the first and those of the second. -/
theorem definedLabels_append (is js : List (Instruction Nat)) :
    definedLabels (is ++ js) = definedLabels is ++ definedLabels js := List.filterMap_append ..

/-- A label is defined where its definition stands. -/
theorem mem_definedLabels : l ∈ definedLabels instrs ↔ .labelDef l ∈ instrs := by
  unfold definedLabels
  rw [List.mem_filterMap]
  constructor
  · rintro ⟨i, hi, h⟩
    cases i with
    | labelDef l' =>
        cases h
        exact hi
    | _ => cases h
  · intro h
    exact ⟨_, h, rfl⟩

/-- The code at a label is a tail of the program that starts with its definition. -/
theorem codeAt_eq_some : ∀ {instrs s : List (Instruction Nat)}, codeAt l instrs = some s →
    s <:+ instrs ∧ ∃ rest, s = .labelDef l :: rest
  | i :: is, s, h => by
      unfold codeAt at h
      split at h
      · next hi =>
          cases h
          exact ⟨List.suffix_refl _, is, by rw [hi]⟩
      · obtain ⟨hsuffix, hs⟩ := codeAt_eq_some h
        exact ⟨hsuffix.trans (List.suffix_cons i is), hs⟩

/-- A label that is defined once is defined where it is found. -/
theorem codeAt_of_suffix : ∀ {instrs rest : List (Instruction Nat)},
    (definedLabels instrs).Nodup → .labelDef l :: rest <:+ instrs →
    codeAt l instrs = some (.labelDef l :: rest)
  | [], rest, _, h => absurd (List.suffix_nil.mp h) (List.cons_ne_nil _ _)
  | i :: is, rest, hnodup, h => by
      unfold codeAt
      rcases List.suffix_cons_iff.mp h with heq | hsuffix
      · rw [heq, if_pos (List.cons.inj heq).1.symm]
      · have hmem : l ∈ definedLabels is :=
          mem_definedLabels.mpr (hsuffix.subset (List.mem_cons_self ..))
        have hsplit : definedLabels (i :: is) = definedLabels [i] ++ definedLabels is :=
          definedLabels_append [i] is
        rw [hsplit, List.nodup_append] at hnodup
        split
        · next hi =>
            subst hi
            exact absurd rfl (hnodup.2.2 l (List.mem_singleton_self l) l hmem)
        · exact codeAt_of_suffix hnodup.2.1 hsuffix

/-- An index in the map is that of a definition, or was there before. -/
theorem labelMaps_index : ∀ {is : List (Instruction Nat)} {k index : Nat}
    {m : Nat → Option Nat} {r : List Nat}, (labelMaps k is m r).1 l = some index →
    m l = some index ∨ k ≤ index ∧ is[index - k]? = some (.labelDef l)
  | [], k, index, m, r, h => .inl h
  | i :: is, k, index, m, r, h => by
      have hlater : ∀ {m' r'}, (labelMaps (k + 1) is m' r').1 l = some index →
          m' l = some index ∨ k ≤ index ∧ (i :: is)[index - k]? = some (.labelDef l) := by
        intro m' r' h
        rcases labelMaps_index h with hm | ⟨hle, hget⟩
        · exact .inl hm
        · refine .inr ⟨by omega, ?_⟩
          rw [show index - k = index - (k + 1) + 1 by omega, List.getElem?_cons_succ]
          exact hget
      cases i with
      | labelDef l' =>
          rcases hlater h with hm | hget
          · by_cases hl : l = l'
            · subst hl
              rw [Function.update_self] at hm
              cases hm
              exact .inr ⟨Nat.le_refl k, by rw [Nat.sub_self]; rfl⟩
            · rw [Function.update_of_ne hl] at hm
              exact .inl hm
          · exact .inr hget
      | _ => exact hlater h

/-- The definitions of labels stand at rising offsets. -/
theorem decodes_labels {code : List Word} : ∀ {off : Nat} {is : List (Instruction Nat)},
    Decodes code off is → (∀ l ∈ definedLabels is, off ≤ l) ∧ (definedLabels is).Nodup
  | _, _, .done => ⟨nofun, List.nodup_nil⟩
  | off, _, @Decodes.step _ _ off' js rest hd hrest => by
      obtain ⟨hlt, -, -, -⟩ := decodeAt_bounds hd
      obtain ⟨hle, hnodup⟩ := decodes_labels hrest
      have hjs : definedLabels js = [] := by
        refine List.eq_nil_iff_forall_not_mem.mpr fun l hl => ?_
        exact (decodeAt_queueOk hd).not_mem_labelDef (mem_definedLabels.mp hl)
      have hsplit : definedLabels (.labelDef off :: js ++ rest) = off :: definedLabels rest := by
        rw [definedLabels_append, show definedLabels (.labelDef off :: js) = off :: definedLabels js
          from rfl, hjs]
        rfl
      rw [hsplit]
      refine ⟨fun l hl => ?_, List.nodup_cons.mpr ⟨fun hmem => ?_, hnodup⟩⟩
      · rcases List.mem_cons.mp hl with rfl | hl
        · exact Nat.le_refl _
        · have := hle l hl
          omega
      · have := hle off hmem
        omega

/-- To rename twice is to rename by the composition. -/
theorem mapLabels_mapLabels (f g : Nat → Nat) (i : Instruction Nat) :
    (i.mapLabels f).mapLabels g = i.mapLabels (g ∘ f) := by
  cases i with
  | closureRec ls nvars => simp only [mapLabels_closureRec, List.map_map]
  | switch ints tags => simp only [mapLabels_switch, List.map_map]
  | _ => rfl

/-- To rename nothing changes nothing. -/
theorem mapLabels_id (i : Instruction Nat) : i.mapLabels id = i := by
  cases i with
  | closureRec ls nvars => simp only [mapLabels_closureRec, List.map_id]
  | switch ints tags => simp only [mapLabels_switch, List.map_id]
  | _ => rfl

/-- Mapping labels to blocks and back. -/
theorem mapBlocks_mapBlocks {f g : Nat → Nat} (h : ∀ l ∈ blockLabels i, g (f l) = l) :
    mapBlocks g (mapBlocks f i) = i := by
  have hcomp : mapBlocks g (mapBlocks f i) = mapBlocks (g ∘ f) i := by
    cases i with
    | closure l nvars => rfl
    | closureRec ls nvars => rfl
    | switch ints tags => exact mapLabels_mapLabels f g (.switch ints tags)
    | _ => rfl
  have hid : mapBlocks id i = i := by
    cases i with
    | closure l nvars => rfl
    | closureRec ls nvars => rfl
    | _ => exact mapLabels_id _
  exact hcomp.trans ((mapBlocks_congr (f := g ∘ f) (g := id) h).trans hid)

end Labels

/-! ## §3. The runs are the same. -/

/-- What the walk and the blocks have to do with each other. -/
structure FlowGraph (instrs : List (Instruction Nat)) (labels : List Nat) (blocks : List Block) :
    Prop where
  defined : (definedLabels instrs).Nodup
  nodup : labels.Nodup
  size : labels.length = blocks.length
  block : ∀ (i l : Nat) (b : Block), labels[i]? = some l → blocks[i]? = some b → ∃ starts rest,
    codeAt l instrs = some rest ∧ Scan labels.idxOf starts true rest b.instructions b.exit
  targets : ∀ b ∈ blocks, ∀ n ∈ b.exit.targets, n < labels.length
  mentions : ∀ b ∈ blocks, ∀ i ∈ b.instructions, ∀ n ∈ blockLabels i, n < labels.length

/-- Corresponding points. -/
structure Related (instrs : List (Instruction Nat)) (labels : List Nat) (s : WalkConfig)
    (t : BlockConfig) : Prop where
  scan : ∃ starts first, Scan labels.idxOf starts first s.rest t.rest t.exit
  suffix : s.rest <:+ instrs
  traps : t.traps = s.traps.map labels.idxOf
  trapsKnown : ∀ l ∈ s.traps, l ∈ labels
  targets : ∀ n ∈ t.exit.targets, n < labels.length
  mentions : ∀ i ∈ t.rest, ∀ n ∈ blockLabels i, n < labels.length

section Simulation

variable {O : Oracle (Instruction Nat) Resolution} {instrs rest is : List (Instruction Nat)}
  {labels traps : List Nat} {blocks : List Block} {s : WalkConfig} {t : BlockConfig} {l n : Nat}
  {i : Instruction Nat}

/-- Only a member has an index inside the list. -/
theorem mem_of_idxOf_lt (h : labels.idxOf l < labels.length) : l ∈ labels :=
  List.idxOf_lt_length_iff.mp h

/-- The start of a block, with the definition of its label passed or not. -/
theorem related_start (hg : FlowGraph instrs labels blocks) (hl : l ∈ labels)
    (htraps : ∀ l ∈ traps, l ∈ labels) : ∃ b rest, blocks[labels.idxOf l]? = some b ∧
      codeAt l instrs = some (.labelDef l :: rest) ∧
      Related instrs labels ⟨.labelDef l :: rest, traps⟩
        ⟨b.instructions, b.exit, traps.map labels.idxOf⟩ ∧
      Related instrs labels ⟨rest, traps⟩ ⟨b.instructions, b.exit, traps.map labels.idxOf⟩ := by
  have hlt : labels.idxOf l < labels.length := List.idxOf_lt_length_iff.mpr hl
  have hlt' : labels.idxOf l < blocks.length := hg.size ▸ hlt
  have hb : blocks[labels.idxOf l]? = some blocks[labels.idxOf l] := List.getElem?_eq_getElem hlt'
  have hmem : blocks[labels.idxOf l] ∈ blocks := List.getElem_mem _
  have hget : labels[labels.idxOf l]? = some l := by
    rw [List.getElem?_eq_getElem hlt, List.getElem_idxOf]
  obtain ⟨starts, s, hcode, hscan⟩ := hg.block _ l _ hget hb
  obtain ⟨hsuffix, rest, rfl⟩ := codeAt_eq_some hcode
  have hrelated : ∀ {s : List (Instruction Nat)} {first : Bool}, s <:+ instrs →
      Scan labels.idxOf starts first s blocks[labels.idxOf l].instructions
        blocks[labels.idxOf l].exit →
      Related instrs labels ⟨s, traps⟩ ⟨blocks[labels.idxOf l].instructions,
        blocks[labels.idxOf l].exit, traps.map labels.idxOf⟩ := fun hsuffix hscan =>
    ⟨⟨starts, _, hscan⟩, hsuffix, rfl, htraps, hg.targets _ hmem, hg.mentions _ hmem⟩
  exact ⟨_, rest, hb, hcode, hrelated hsuffix hscan,
    hrelated ((List.suffix_cons ..).trans hsuffix) hscan.of_label⟩

/-- **Jumps lead to corresponding points.** -/
theorem goto_related (hg : FlowGraph instrs labels blocks) (hl : l ∈ labels)
    (htraps : ∀ l ∈ traps, l ∈ labels) (w : Log O) :
    RelResult (Progress.Rel (Related instrs labels)) (gotoLabel instrs l traps w)
      (gotoBlock blocks (labels.idxOf l) (traps.map labels.idxOf) w) := by
  obtain ⟨b, rest, hb, hcode, hstart, -⟩ := related_start hg hl htraps
  unfold gotoLabel gotoBlock
  rw [hb, hcode]
  exact relResult_pure hstart w

/-- Going on to a label is a jump to its block. -/
theorem next_related (hg : FlowGraph instrs labels blocks) (hl : l ∈ labels)
    (htraps : ∀ l ∈ traps, l ∈ labels) (hsuffix : .labelDef l :: rest <:+ instrs) (w : Log O) :
    RelResult (Progress.Rel (Related instrs labels))
      ((pure (.running ⟨.labelDef l :: rest, traps⟩) : Act O (Progress WalkConfig Ending)) w)
      (gotoBlock blocks (labels.idxOf l) (traps.map labels.idxOf) w) := by
  have hgoto := goto_related hg hl htraps w
  unfold gotoLabel at hgoto
  rw [codeAt_of_suffix hg.defined hsuffix] at hgoto
  exact hgoto

/-- **Both walks go to the same handler**, at its label and at its block. -/
theorem raise_related (hg : FlowGraph instrs labels blocks) (htraps : ∀ l ∈ traps, l ∈ labels)
    (w : Log O) : RelResult (Progress.Rel (Related instrs labels))
      (raiseWith (gotoLabel instrs) traps w)
      (raiseWith (gotoBlock blocks) (traps.map labels.idxOf) w) := by
  cases traps with
  | nil => exact ⟨rfl, rfl⟩
  | cons trap traps =>
      exact goto_related hg (htraps trap (List.mem_cons_self ..))
        (fun l hl => htraps l (List.mem_cons_of_mem _ hl)) w

/-- A jump to an entry of a switch. -/
theorem switch_related (hg : FlowGraph instrs labels blocks) {ls : List Nat} {k : Nat}
    (hls : ∀ l ∈ ls, l ∈ labels) (htraps : ∀ l ∈ traps, l ∈ labels) (w : Log O) :
    RelResult (Progress.Rel (Related instrs labels))
      ((Act.ofOption ls[k]? >>= fun l => gotoLabel instrs l traps) w)
      ((Act.ofOption (ls.map labels.idxOf)[k]? >>= fun n =>
        gotoBlock blocks n (traps.map labels.idxOf)) w) := by
  rw [List.getElem?_map]
  cases hk : ls[k]? with
  | none => exact ⟨rfl, rfl⟩
  | some l => exact goto_related hg (hls l (List.mem_of_getElem? hk)) htraps w

/-- The two ways out of a conditional branch. -/
theorem conditional_related (hg : FlowGraph instrs labels blocks) {x : BlockExit}
    (hx : exitBefore rest (fun next => .conditionalJump (labels.idxOf l) (labels.idxOf next))
      = some x) (hsuffix : rest <:+ instrs) (htraps : ∀ l ∈ traps, l ∈ labels)
    (htargets : ∀ n ∈ x.targets, n < labels.length) (r : Resolution) (w : Log O) :
    RelResult (Progress.Rel (Related instrs labels))
      ((if r = .taken then gotoLabel instrs l traps
        else pure (.running ⟨rest, traps⟩) : Act O (Progress WalkConfig Ending)) w)
      (followExit blocks x r (traps.map labels.idxOf) w) := by
  obtain ⟨next, rest', rfl, rfl⟩ := exitBefore_eq_some hx
  have hl := mem_of_idxOf_lt (htargets _ (List.mem_cons_self ..))
  have hnext := mem_of_idxOf_lt (htargets _ (List.mem_cons_of_mem _ (List.mem_cons_self ..)))
  by_cases hr : r = .taken
  · rw [if_pos hr, hr]
    exact goto_related hg hl htraps w
  · rw [if_neg hr]
    have hfollow : followExit blocks (.conditionalJump (labels.idxOf l) (labels.idxOf next)) r
        (traps.map labels.idxOf) = (gotoBlock blocks (labels.idxOf next)
          (traps.map labels.idxOf) : Act O (Progress BlockConfig Ending)) := by
      cases r <;> first | rfl | exact absurd rfl hr
    rw [hfollow]
    exact next_related hg hnext htraps hsuffix w

/-- **The exit of a control instruction goes where the instruction does.** -/
theorem control_related (hg : FlowGraph instrs labels blocks) {x : BlockExit}
    (hx : controlExit labels.idxOf rest i = some x) (hsuffix : rest <:+ instrs)
    (htraps : ∀ l ∈ traps, l ∈ labels) (htargets : ∀ n ∈ x.targets, n < labels.length)
    (r : Resolution) (w : Log O) : RelResult (Progress.Rel (Related instrs labels))
      (walkControl instrs i r ⟨rest, traps⟩ w)
      (followExit blocks x r (traps.map labels.idxOf) w) := by
  cases i with
  | branch l =>
      cases hx
      exact goto_related hg (mem_of_idxOf_lt (htargets _ (List.mem_cons_self ..))) htraps w
  -- the label, or what comes next
  | branchIf l | branchIfNot l | branchCmp _ _ l =>
      have h := conditional_related hg hx hsuffix htraps htargets r w
      cases r <;> exact h
  | switch ints tags =>
      cases hx
      have hmem : ∀ l ∈ ints ++ tags, l ∈ labels := fun l hl => by
        refine mem_of_idxOf_lt (htargets _ ?_)
        show _ ∈ ints.map labels.idxOf ++ tags.map labels.idxOf
        rw [← List.map_append]
        exact List.mem_map_of_mem hl
      cases r with
      | int k => exact switch_related hg (fun l hl => hmem l (List.mem_append_left _ hl)) htraps w
      | block k => exact switch_related hg (fun l hl => hmem l (List.mem_append_right _ hl)) htraps w
      | goOn | taken | raises => exact ⟨rfl, rfl⟩
  -- the handler is pushed on both sides
  | pushTrap l =>
      obtain ⟨next, rest', rfl, rfl⟩ := exitBefore_eq_some hx
      have hnext := mem_of_idxOf_lt (htargets _ (List.mem_cons_self ..))
      have hl := mem_of_idxOf_lt (htargets _ (List.mem_cons_of_mem _ (List.mem_cons_self ..)))
      exact next_related hg hnext (List.forall_mem_cons.mpr ⟨hl, htraps⟩) hsuffix w
  | raise kind =>
      cases hx
      exact raise_related hg htraps w
  | applyTerm nargs slotSize | return_ toPop | stop =>
      cases hx
      exact ⟨rfl, rfl⟩
  | _ => cases hx

/-- What a block performs is the instruction of the list. -/
theorem mapBlocks_back (h : ∀ l ∈ blockLabels i, labels.idxOf l < labels.length) :
    mapBlocks (fun n => labels.getD n 0) (mapBlocks labels.idxOf i) = i := by
  refine mapBlocks_mapBlocks fun l hl => ?_
  show labels.getD (labels.idxOf l) 0 = l
  rw [List.getD_eq_getElem?_getD, List.getElem?_eq_getElem (h l hl), List.getElem_idxOf]
  rfl

/-- Renaming the blocks leaves control instructions control instructions. -/
theorem isControl_mapBlocks (f : Nat → Nat) (i : Instruction Nat) :
    (mapBlocks f i).isControl = i.isControl := by
  cases i <;> rfl

/-- And it leaves what an instruction does to the traps. -/
theorem trapsAfter_mapBlocks (f : Nat → Nat) (i : Instruction Nat) (traps : List Nat) :
    trapsAfter (mapBlocks f i) traps = trapsAfter i traps := by
  cases i <;> rfl

/-- The walk at an instruction that is no label. -/
theorem walkStep_instr (hi : ∀ l, i ≠ .labelDef l) :
    (walkStep instrs ⟨i :: rest, traps⟩ : Act O (Progress WalkConfig Ending)) = (do
      let r ← Act.perform i
      if r = .raises then raiseWith (gotoLabel instrs) traps
      else if i.isControl then walkControl instrs i r ⟨rest, traps⟩
      else pure (.running ⟨rest, trapsAfter i traps⟩)) := by
  cases i with
  | labelDef l => exact absurd rfl (hi l)
  | _ => rfl

/-- **The walk and the blocks step together**, except that the walk also passes
the definitions of labels inside a block. -/
theorem step_related (hg : FlowGraph instrs labels blocks) :
    Simulates (walkStep instrs) (blockStep labels blocks)
      (Related instrs labels) (fun s => s.rest.length)
      (fun (_ : WalkConfig) (_ : Log O) => True) := by
  rintro ⟨rest, traps⟩ ⟨trest, exit, ttraps⟩ w hrel -
  obtain ⟨⟨starts, first, hscan⟩, hsuffix, htraps, hknown, htargets, hmentions⟩ := hrel
  simp only at hscan hsuffix htraps hknown htargets hmentions
  subst htraps
  generalize hrest : trest = is at hscan hmentions
  cases hscan with
  -- the walk passes the label alone: the measure goes down
  | label hl hrest' =>
      refine .inl ⟨_, rfl, ?_, Nat.lt_succ_self _⟩
      subst hrest
      exact ⟨⟨starts, false, hrest'⟩, (List.suffix_cons ..).trans hsuffix, rfl, hknown, htargets,
        hmentions⟩
  -- a start of a block: the block jumps, the walk goes on
  | @split l rest hl =>
      subst hrest
      have hmem := mem_of_idxOf_lt (htargets _ (List.mem_cons_self ..))
      obtain ⟨b, rest', hb, hcode, -, hstart⟩ := related_start hg hmem hknown
      rw [codeAt_of_suffix hg.defined hsuffix] at hcode
      cases hcode
      refine .inr ?_
      show RelResult _ _ (gotoBlock blocks (labels.idxOf l) (traps.map labels.idxOf) w)
      unfold gotoBlock
      rw [hb]
      exact relResult_pure hstart w
  -- the same meaning, with the labels turned into blocks
  | @instr _ i rest is x hi hstay hrest' =>
      subst hrest
      refine .inr ?_
      have hback := mapBlocks_back fun l hl => by
        refine hmentions _ (List.mem_cons_self ..) (labels.idxOf l) ?_
        rw [blockLabels_mapBlocks]
        exact List.mem_map_of_mem hl
      rw [walkStep_instr fun l hl => by rw [hl] at hi; cases hi]
      simp only [blockStep, hback, isControl_mapBlocks, trapsAfter_mapBlocks, hstay]
      refine relResult_bind _ w fun r w' _ => ?_
      split
      · exact raise_related hg hknown w'
      · refine relResult_pure ⟨⟨starts, false, hrest'⟩, (List.suffix_cons ..).trans hsuffix, ?_, ?_,
          htargets, fun i hi => hmentions i (List.mem_cons_of_mem _ hi)⟩ w'
        · show trapsAfter i (traps.map labels.idxOf) = (trapsAfter i traps).map labels.idxOf
          unfold trapsAfter
          split
          · exact (List.map_tail).symm
          · rfl
        · intro l hl
          change l ∈ trapsAfter i traps at hl
          unfold trapsAfter at hl
          split at hl
          · exact hknown l (List.mem_of_mem_tail hl)
          · exact hknown l hl
  -- the exit, whose targets are the blocks of the labels
  | @exit _ i rest x hi hx =>
      subst hrest
      refine .inr ?_
      have hback := mapBlocks_back fun l hl => by
        refine hmentions _ (List.mem_cons_self ..) (labels.idxOf l) ?_
        rw [blockLabels_mapBlocks]
        exact List.mem_map_of_mem hl
      rw [walkStep_instr fun l hl => by rw [hl] at hi; cases hi]
      simp only [blockStep, hback, isControl_mapBlocks, hi]
      refine relResult_bind _ w fun r w' _ => ?_
      split
      · exact raise_related hg hknown w'
      · exact control_related hg hx ((List.suffix_cons ..).trans hsuffix) hknown htargets r w'

end Simulation

/-! ## §4. Closures. -/

/-- The context has the program and its label maps. -/
structure GlobalCtx.Over (g : GlobalCtx) (instrs : List (Instruction Nat)) : Prop where
  instructions : g.instructions = instrs
  maps : (g.labelToIndexMap, g.referencedLabels) = labelMaps 0 instrs (fun _ => none) []

/-- **A faithful control flow graph**, `labels` being the labels of the blocks. -/
structure FaithfulGraph (instrs : List (Instruction Nat)) (entrypoint : Nat) (c : Closure)
    (labels : List Nat) : Prop where
  nodup : labels.Nodup
  size : labels.length = c.blocks.length
  entrypoint : labels[0]? = some entrypoint
  targets : ∀ b ∈ c.blocks, ∀ n ∈ b.exit.targets, n < c.blocks.length
  mentions : ∀ b ∈ c.blocks, ∀ i ∈ b.instructions, ∀ n ∈ blockLabels i, n < c.blocks.length
  trapHandlers : ∀ n, n ∈ c.trapHandlers ↔ ∃ b ∈ c.blocks, ∃ normal, b.exit = .pushTrap normal n
  /-- From every label, and with any handlers, the blocks run as the list does. -/
  runs : ∀ (O : Oracle (Instruction Nat) Resolution) (n l : Nat) (b : Block),
    labels[n]? = some l → c.blocks[n]? = some b → ∃ rest, codeAt l instrs = some rest ∧
    ∀ (traps : List Nat) (w : Log O), (∀ l ∈ traps, l ∈ labels) →
      SameRuns (walkStep instrs) (fun _ => ()) ⟨rest, traps⟩
        (blockStep labels c.blocks) (fun _ => ())
        ⟨b.instructions, b.exit, traps.map labels.idxOf⟩ w

section Closures

variable {instrs : List (Instruction Nat)} {entrypoint : Nat} {g g' : GlobalCtx} {c : Closure}

/-- What `process_closure` returns are the blocks it found. -/
theorem processClosure_eq_ok (h : processClosure entrypoint g = .ok (c, g')) :
    ∃ ctx, closureBlocks entrypoint g = .ok (c.blocks, ctx) ∧ c.entrypoint = entrypoint ∧
      c.trapHandlers = ctx.closure.trapHandlers ∧ g' = ctx.global := by
  obtain ⟨⟨blocks, ctx⟩, hblocks, h⟩ := bind_eq_ok.mp h
  cases h
  exact ⟨ctx, hblocks, rfl, rfl, rfl⟩

/-- Processed labels are defined where the map says. -/
theorem codeAt_of_index (hnodup : (definedLabels instrs).Nodup) (hg : g.Over instrs) {l index : Nat}
    (hindex : g.labelToIndexMap l = some index) : codeAt l instrs = some (instrs.drop index) := by
  have hmap : g.labelToIndexMap = (labelMaps 0 instrs (fun _ => none) []).1 :=
    congrArg Prod.fst hg.maps
  rw [hmap] at hindex
  rcases labelMaps_index hindex with h | ⟨-, hget⟩
  · cases h
  · rw [Nat.sub_zero] at hget
    obtain ⟨hlt, hi⟩ := List.getElem?_eq_some_iff.mp hget
    have hdrop : instrs.drop index = .labelDef l :: instrs.drop (index + 1) := by
      rw [List.drop_eq_getElem_cons hlt, hi]
    rw [hdrop]
    exact codeAt_of_suffix hnodup (hdrop ▸ List.drop_suffix index instrs)

/-- The blocks of a closure and their labels. -/
theorem closureBlocks_graph (hnodup : (definedLabels instrs).Nodup) (hg : g.Over instrs) {ctx : Ctx}
    {blocks : List Block} (h : closureBlocks entrypoint g = .ok (blocks, ctx)) :
    FlowGraph instrs ctx.labels blocks := by
  obtain ⟨hok, -, hall, -, hinstrs, -, hmap⟩ := closureBlocks_ok h
  have hlt : ∀ n, ctx.Mentioned n → n < ctx.labels.length := by
    rintro n ⟨l, hl, rfl⟩
    exact List.idxOf_lt_length_iff.mpr hl
  have hblock : ∀ b ∈ blocks, ∃ l, Processed ctx l b := by
    intro b hb
    obtain ⟨n, hn, rfl⟩ := List.getElem_of_mem hb
    exact ⟨_, hall.get (hall.length_eq ▸ hn) hn⟩
  refine ⟨hnodup, hok.nodup, hall.length_eq, fun n l b hl hb => ?_, fun b hb n hn => ?_,
    fun b hb i hi n hn => ?_⟩
  · obtain ⟨hnl, rfl⟩ := List.getElem?_eq_some_iff.mp hl
    obtain ⟨hnb, rfl⟩ := List.getElem?_eq_some_iff.mp hb
    have hproc : Processed ctx ctx.labels[n] blocks[n] := hall.get hnl hnb
    obtain ⟨index, hindex, hscan⟩ := (hproc.block ctx.num agrees_num).scan
    rw [hmap] at hindex
    rw [hinstrs, hg.instructions] at hscan
    exact ⟨_, _, codeAt_of_index hnodup hg hindex, hscan⟩
  · obtain ⟨l, hp⟩ := hblock b hb
    exact hlt n (hp.targets n hn)
  · obtain ⟨l, hp⟩ := hblock b hb
    exact hlt n (hp.mentions i hi n hn)

/-- **The blocks of a closure are its control flow graph**: they are numbered by
`get_block`, every block mentioned exists, the trap handlers are the trap
targets, and the blocks execute what a walk along the instructions does. -/
theorem processClosure_faithful (code : List Word) (instrs : List (Instruction Nat))
    (g g' : GlobalCtx) (entrypoint : Nat) (c : Closure) (hdecoded : decodeAll code = .ok instrs)
    (hg : g.Over instrs) (h : processClosure entrypoint g = .ok (c, g')) :
    ∃ ctx, closureBlocks entrypoint g = .ok (c.blocks, ctx) ∧
      ctx.closure.blockNums = ctx.labels.zipIdx ∧
      FaithfulGraph instrs entrypoint c ctx.labels := by
  obtain ⟨ctx, hblocks, -, htraps, -⟩ := processClosure_eq_ok h
  have hnodup := (decodes_labels (decodeAll_eq_ok.mp hdecoded)).2
  have hgraph := closureBlocks_graph hnodup hg hblocks
  obtain ⟨hok, hentry, -, hhandlers, -⟩ := closureBlocks_ok hblocks
  refine ⟨ctx, hblocks, hok.blockNums, hok.nodup, hgraph.size, hentry, ?_, ?_, fun n => ?_, ?_⟩
  · exact hgraph.size ▸ hgraph.targets
  · exact hgraph.size ▸ hgraph.mentions
  · rw [htraps]
    exact hhandlers n
  · intro O n l b hl hb
    obtain ⟨hn, rfl⟩ := List.getElem?_eq_some_iff.mp hl
    have hidx : ctx.labels.idxOf ctx.labels[n] = n := hok.nodup.idxOf_getElem n hn
    obtain ⟨starts, rest, hcode, -⟩ := hgraph.block n _ b hl hb
    refine ⟨rest, hcode, fun traps w hknown => ?_⟩
    obtain ⟨b', rest', hb', hcode', hrel, -⟩ :=
      related_start hgraph (List.getElem_mem hn) hknown
    rw [hidx, hb] at hb'
    cases hb'
    rw [hcode] at hcode'
    cases hcode'
    exact sameRuns_of_simulation (fun _ _ _ => rfl) (step_related hgraph) hrel
      fun _ _ _ _ => trivial

/-- A `try` with a return in its body and in its handler. -/
theorem processClosure_faithful_try : ∃ instrs c g',
    decodeAll [89, 5, 99, 90, 40, 1, 40, 1] = .ok instrs ∧
    processClosure 0 (.new instrs none) = .ok (c, g') ∧
    ∃ ctx, closureBlocks 0 (.new instrs none) = .ok (c.blocks, ctx) ∧
      ctx.closure.blockNums = ctx.labels.zipIdx ∧ FaithfulGraph instrs 0 c ctx.labels :=
  ⟨[.labelDef 0, .pushTrap 6, .labelDef 2, .const 0, .labelDef 3, .popTrap, .labelDef 4,
      .return_ 1, .labelDef 6, .return_ 1], _, _, rfl, rfl,
    processClosure_faithful [89, 5, 99, 90, 40, 1, 40, 1] _ _ _ 0 _ rfl ⟨rfl, rfl⟩ rfl⟩

end Closures

/-! ## §5. The queue runs empty. -/

section Fuel

variable {α β : Type}

/-- A computation that has enough fuel. -/
def EndsAlways (m : Process α) : Prop := ∀ c, Ends (m c)

theorem endsAlways_pure (a : α) : EndsAlways (pure a : Process α) := fun _ => ends_ok _

/-- Two parts that end, one after the other. -/
theorem EndsAlways.bind {m : Process α} {f : α → Process β} (hm : EndsAlways m)
    (hf : ∀ a, EndsAlways (f a)) : EndsAlways (m >>= f) :=
  fun c => (hm c).bind fun p _ => hf p.1 p.2

/-- And a list of parts that end. -/
theorem endsAlways_mapM {f : Nat → Process α} (hf : ∀ l, EndsAlways (f l)) :
    ∀ ls : List Nat, EndsAlways (ls.mapM f)
  | [] => endsAlways_pure []
  | l :: ls => by
      rw [List.mapM_cons]
      exact (hf l).bind fun a => (endsAlways_mapM hf ls).bind fun as => endsAlways_pure _

theorem endsAlways_get : EndsAlways (get : Process Ctx) := fun _ => ends_ok _

theorem endsAlways_set (c : Ctx) : EndsAlways (set c : Process PUnit) := fun _ => ends_ok _

/-- A panic is no want of fuel. -/
theorem endsAlways_panicked : EndsAlways (StateT.lift panicked : Process α) := fun _ => nofun

theorem endsAlways_getClosure (l : Nat) : EndsAlways (getClosure l) := fun _ => ends_ok _

/-- Looking up a block ends. -/
theorem endsAlways_getBlock (l : Nat) : EndsAlways (getBlock l) := by
  refine endsAlways_get.bind fun c => ?_
  split
  · exact endsAlways_pure _
  · exact (endsAlways_set _).bind fun _ => endsAlways_pure _

/-- Noting a trap handler ends. -/
theorem endsAlways_notePosition (l : Nat) : EndsAlways (notePosition l) := by
  refine endsAlways_get.bind fun c => ?_
  split
  · split
    · exact endsAlways_set _
    · exact endsAlways_pure _
  · exact endsAlways_pure _

/-- Defining a closure ends. -/
theorem endsAlways_defineClosure (l : Nat) : EndsAlways (defineClosure l) := by
  refine (endsAlways_getClosure l).bind fun n => endsAlways_get.bind fun c => ?_
  refine EndsAlways.bind (endsAlways_get.bind fun c => ?_) fun _ => endsAlways_pure _
  split
  · exact endsAlways_set _
  · exact fun _ => nofun

/-- Renaming the labels of an instruction ends when each lookup does. -/
theorem endsAlways_mapLabelsM {f : Nat → Process Nat} (hf : ∀ l, EndsAlways (f l))
    (i : Instruction Nat) : EndsAlways (i.mapLabelsM f) := by
  cases i with
  | labelDef l | pushRetAddr l | closure l _ | branch l | branchIf l | branchIfNot l
      | branchCmp _ _ l | pushTrap l => exact (hf l).bind fun _ => endsAlways_pure _
  | closureRec ls nvars => exact (endsAlways_mapM hf ls).bind fun _ => endsAlways_pure _
  | switch ints tags =>
      exact (endsAlways_mapM hf ints).bind fun _ =>
        (endsAlways_mapM hf tags).bind fun _ => endsAlways_pure _
  | _ => exact endsAlways_pure _

/-- So renaming an instruction ends. -/
theorem endsAlways_mapInstruction (i : Instruction Nat) : EndsAlways (mapInstruction i) := by
  have hblock := endsAlways_mapLabelsM endsAlways_getBlock i
  cases i with
  | closure l nvars => exact endsAlways_mapLabelsM endsAlways_getClosure (.closure l nvars)
  | closureRec ls nvars => exact endsAlways_mapLabelsM endsAlways_getClosure (.closureRec ls nvars)
  | restart => exact endsAlways_panicked
  | _ => exact hblock

/-- Looking at the next instruction ends. -/
theorem endsAlways_nextLabel (rest : List (Instruction Nat)) : EndsAlways (nextLabel rest) := by
  unfold nextLabel
  split
  · exact endsAlways_pure _
  · exact endsAlways_panicked

/-- A conditional jump is finished. -/
theorem endsAlways_conditionalJump (l : Nat) (rest : List (Instruction Nat)) :
    EndsAlways (conditionalJump l rest) :=
  (endsAlways_nextLabel rest).bind fun _ => (endsAlways_getBlock l).bind fun _ =>
    (endsAlways_getBlock _).bind fun _ => endsAlways_pure _

/-- Every instruction is finished. -/
theorem endsAlways_finishInstruction (i : Instruction Nat) (rest : List (Instruction Nat)) :
    EndsAlways (finishInstruction i rest) := by
  cases i with
  | closure dest nvars => exact (endsAlways_defineClosure dest).bind fun _ => endsAlways_pure _
  | closureRec dests nvars =>
      exact (endsAlways_mapM endsAlways_defineClosure dests).bind fun _ => endsAlways_pure _
  | pushTrap dest =>
      exact (endsAlways_nextLabel rest).bind fun _ => (endsAlways_getBlock _).bind fun _ =>
        (endsAlways_getBlock dest).bind fun _ =>
          EndsAlways.bind (fun _ => ends_ok _) fun _ => endsAlways_pure _
  | branch dest => exact (endsAlways_getBlock dest).bind fun _ => endsAlways_pure _
  | branchIf dest | branchIfNot dest | branchCmp _ _ dest =>
      exact (endsAlways_conditionalJump dest rest).bind fun _ => endsAlways_pure _
  | switch ints blocks =>
      exact (endsAlways_mapM endsAlways_getBlock ints).bind fun _ =>
        (endsAlways_mapM endsAlways_getBlock blocks).bind fun _ => endsAlways_pure _
  | break_ | event => exact endsAlways_panicked
  | _ => exact endsAlways_pure _

/-- The loop over a block ends: it goes on with what is left of the program. -/
theorem endsAlways_processLoop : ∀ (first : Bool) (is instructions : List (Instruction Nat))
    (closures : List Nat), EndsAlways (processLoop first is instructions closures)
  | first, [], instructions, closures => endsAlways_panicked
  | first, i :: rest, instructions, closures => by
      by_cases hi : ∃ l, i = .labelDef l
      · obtain ⟨l, rfl⟩ := hi
        refine (endsAlways_notePosition l).bind fun _ => endsAlways_get.bind fun c => ?_
        split
        · exact (endsAlways_getBlock l).bind fun _ => endsAlways_pure _
        · exact endsAlways_processLoop false rest instructions closures
      · rw [processLoop_instr fun l heq => hi ⟨l, heq⟩]
        refine (endsAlways_mapInstruction i).bind fun mapped =>
          (endsAlways_finishInstruction i rest).bind fun p => ?_
        obtain ⟨defined, exit⟩ := p
        cases exit with
        | some x => exact endsAlways_pure _
        | none => exact endsAlways_processLoop false rest _ _

/-- A block is processed to its end. -/
theorem endsAlways_processBlock (l : Nat) : EndsAlways (processBlock l) := by
  refine EndsAlways.bind (endsAlways_get.bind fun c => ?_) fun index =>
    endsAlways_get.bind fun c => endsAlways_processLoop true _ [] []
  split
  · exact endsAlways_pure _
  · exact fun _ => nofun

/-- Every block is that of a label that is defined, so there are no more blocks
than instructions. -/
theorem Progressed.length_le {instrs : List (Instruction Nat)} {c : Ctx} {blocks : List Block}
    (h : Progressed c blocks) (hg : c.global.Over instrs) : blocks.length ≤ instrs.length := by
  obtain ⟨done, hlabels, hall⟩ := h.queue
  have hnodup : done.Nodup := (List.nodup_append.mp (hlabels ▸ h.ok.nodup)).1
  have hsubset : done ⊆ definedLabels instrs := by
    intro l hl
    obtain ⟨n, hn, rfl⟩ := List.getElem_of_mem hl
    have hn' : n < blocks.length := hall.length_eq ▸ hn
    have hproc : Processed c done[n] blocks[n] := hall.get hn hn'
    obtain ⟨index, hindex, -⟩ := (hproc.block c.num agrees_num).scan
    have hmap : c.global.labelToIndexMap = (labelMaps 0 instrs (fun _ => none) []).1 :=
      congrArg Prod.fst hg.maps
    rw [hmap] at hindex
    rcases labelMaps_index hindex with h | ⟨-, hget⟩
    · cases h
    · exact mem_definedLabels.mpr (List.mem_of_getElem? hget)
  rw [← hall.length_eq]
  exact Nat.le_trans (List.subperm_of_subset hnodup hsubset).length_le (List.length_filterMap_le ..)

/-- The next label that is to be done, if there is one. -/
theorem popTodo_eq (c : Ctx) : popTodo c = match c.closure.todo with
    | [] => .ok (none, c)
    | label :: todo => .ok (some label, c.withTodo todo) := by
  show (match c.closure.todo with
    | [] => pure none
    | label :: todo => do
        set (c.withTodo todo)
        pure (some label) : Process (Option Nat)) c = _
  cases c.closure.todo <;> rfl

/-- **The search ends**: every turn makes a block, and no label has two. -/
theorem processBlocks_ends {instrs : List (Instruction Nat)} : ∀ (fuel : Nat) (blocks : List Block)
    (c : Ctx), Progressed c blocks → c.global.Over instrs → instrs.length < blocks.length + fuel →
    Ends (processBlocks fuel blocks c)
  | 0, blocks, c, hp, hg, hfuel => by
      have := hp.length_le hg
      omega
  | fuel + 1, blocks, c, hp, hg, hfuel => by
      show Ends (popTodo c >>= _)
      cases htodo : c.closure.todo with
      | nil =>
          rw [popTodo_eq, htodo]
          exact ends_ok _
      | cons l todo =>
          rw [popTodo_eq, htodo]
          refine (endsAlways_processBlock l _).bind fun p hblock => ?_
          obtain ⟨b, c₂⟩ := p
          have hok : (c.withTodo todo).Ok := ⟨hp.ok.blockNums, hp.ok.nodup⟩
          obtain ⟨hext, -, -⟩ := processBlock_ok hok hblock
          refine processBlocks_ends fuel _ c₂ (hp.step htodo hblock)
            ⟨hext.instructions.trans hg.instructions, ?_⟩ ?_
          · rw [hext.labelToIndexMap, hext.referencedLabels]
            exact hg.maps
          · rw [List.length_append, List.length_singleton]
            omega

/-- **The fuel of `processClosure` is enough.** -/
theorem closureBlocks_ends {instrs : List (Instruction Nat)} {g : GlobalCtx} (entrypoint : Nat)
    (hg : g.Over instrs) : Ends (closureBlocks entrypoint g) := by
  have hg' : (g.getClosure entrypoint).2.Over instrs := by
    unfold GlobalCtx.getClosure
    split <;> exact ⟨hg.instructions, hg.maps⟩
  have hstart : Progressed ⟨(g.getClosure entrypoint).2,
      .new entrypoint (g.getClosure entrypoint).1⟩ [] :=
    ⟨⟨rfl, List.nodup_singleton entrypoint⟩, ⟨[], rfl, .nil⟩, fun n => ⟨nofun, nofun⟩⟩
  show Ends (processBlocks ((g.getClosure entrypoint).2.instructions.length + 2) []
    ⟨(g.getClosure entrypoint).2, .new entrypoint (g.getClosure entrypoint).1⟩)
  rw [hg'.instructions]
  refine processBlocks_ends _ [] _ hstart hg' ?_
  rw [List.length_nil]
  omega

end Fuel

end OcamlJit.CleverDis

/-
  OcamlJit.Cranelift.Sealing
  ──────────────────────────
  **EVERY BLOCK IS SEALED ONCE, AFTER THE EXITS OF ITS PREDECESSORS.**

  `create_translator` seals the entry block and `translate_block` the blocks of
  the schedule (`BasicBlocks.Sealing`), after the exit of its own.  What matters
  to Cranelift is the order of these calls: a sealed block gets no more
  predecessors, and is not sealed again.
-/
import OcamlJit.BasicBlocks.Sealing
import OcamlJit.Cranelift.Translate

namespace OcamlJit.Cranelift

open OcamlJit.Lib OcamlJit.Instructions OcamlJit.Interp OcamlJit.BasicBlocks

/-! ## §1. The calls on the function builder. -/

/-- A call about a block of the closure. -/
inductive BuilderCall where
  | sealBlock (b : Nat)
  /-- The branches of the exit of `b`. -/
  | emitExit (b : Nat)
  deriving Repr, DecidableEq

/-- The calls of `translate_block` when it succeeds. -/
def blockCalls (b : BasicBlock) : List BuilderCall :=
  .emitExit b.blockId :: b.sealedBlocks.map .sealBlock

/-- The loop over the blocks; nothing is sealed once a block has failed. -/
def blocksCalls (k : TranslatorEnv) : List BasicBlock → Translator → List BuilderCall
  | [], _ => []
  | b :: bs, τ =>
      match translateBlock k b τ with
      | .ok (_, τ', _) => blockCalls b ++ blocksCalls k bs τ'
      | .error _ => []

/-- The calls of `compile_closure`. -/
def compileClosureCalls (lookupClosureCode : Nat → Option Value) (atomTableAddr : Value)
    (useCallTraces : Bool) (cCalls : List (Nat × Arity)) (c : BasicClosure) : List BuilderCall :=
  if c.hasTrapHandlers ∨ 5 < c.arity ∨ c.blocks = [] then []
  else
    let k := translatorEnv lookupClosureCode atomTableAddr useCallTraces c
    .sealBlock 0 :: match createTranslator k c ⟨c.arity, c.arity, [], cCalls⟩ with
      | .ok (_, τ, _) => blocksCalls k c.blocks τ
      | .error _ => []

/-- `calls` seal no block twice, and a block only after all branches to it. -/
structure SealsInOrder (c : BasicClosure) (calls : List BuilderCall) : Prop where
  unique : ∀ j, calls.count (.sealBlock j) ≤ 1
  after : ∀ l j r, calls = l ++ .sealBlock j :: r → ∀ p, c.Edge p j → .emitExit p ∈ l

/-! ## §2. The order of the calls. -/

section Order

variable {k : TranslatorEnv}

/-- The calls of a compilation are those of its blocks, as far as it gets. -/
theorem blocksCalls_extends : ∀ (bs : List BasicBlock) (τ : Translator),
    blocksCalls k bs τ <+: bs.flatMap blockCalls
  | [], _ => List.prefix_rfl
  | b :: bs, τ => by
      rw [blocksCalls, List.flatMap_cons]
      split
      · exact (List.prefix_append_right_inj _).mpr (blocksCalls_extends bs _)
      · exact List.nil_prefix

/-- A successful translation makes all the calls. -/
theorem blocksCalls_of_ok : ∀ {bs : List BasicBlock} {τ : Translator} {irs : List IrBlock},
    translateBlocks k bs τ = .ok irs → blocksCalls k bs τ = bs.flatMap blockCalls
  | [], _, _, _ => rfl
  | b :: bs, τ, irs, h => by
      obtain ⟨⟨terminator, τ', ops⟩, hb, h⟩ := bind_eq_ok.mp h
      obtain ⟨rest, hrest, -⟩ := bind_eq_ok.mp h
      rw [blocksCalls, hb, List.flatMap_cons]
      exact congrArg (blockCalls b ++ ·) (blocksCalls_of_ok hrest)

/-- A block seals what it is said to seal. -/
theorem count_blockCalls (j : Nat) (b : BasicBlock) :
    (blockCalls b).count (.sealBlock j) = b.sealedBlocks.count j := by
  have hinj : Function.Injective BuilderCall.sealBlock := fun _ _ h => BuilderCall.sealBlock.inj h
  rw [blockCalls, List.count_cons_of_ne (by simp), List.count_map_of_injective _ _ hinj]

/-- And so do the blocks together. -/
theorem count_flatMap_blockCalls (j : Nat) (bs : List BasicBlock) :
    (bs.flatMap blockCalls).count (.sealBlock j)
      = (bs.flatMap BasicBlock.sealedBlocks).count j := by
  induction bs with
  | nil => rfl
  | cons b bs ih =>
      rw [List.flatMap_cons, List.flatMap_cons, List.count_append, List.count_append,
        count_blockCalls, ih]

/-- Before a block is sealed come the exits up to the block that seals it. -/
theorem split_at_seal : ∀ {bs : List BasicBlock} {l r : List BuilderCall} {j : Nat},
    bs.flatMap blockCalls = l ++ .sealBlock j :: r →
    ∃ bs₁ b bs₂, bs = bs₁ ++ b :: bs₂ ∧ j ∈ b.sealedBlocks ∧
      ∀ b' ∈ bs₁ ++ [b], .emitExit b'.blockId ∈ l
  | [], l, r, j, h => by simp at h
  | b :: bs, l, r, j, h => by
      rw [List.flatMap_cons, List.append_eq_append_iff] at h
      -- the split is in a later block, or in this one
      have hlater : ∀ l', l = blockCalls b ++ l' → bs.flatMap blockCalls = l' ++ .sealBlock j :: r →
          ∃ bs₁ b₁ bs₂, b :: bs = bs₁ ++ b₁ :: bs₂ ∧ j ∈ b₁.sealedBlocks ∧
            ∀ b' ∈ bs₁ ++ [b₁], .emitExit b'.blockId ∈ l := by
        rintro l' rfl hrest
        obtain ⟨bs₁, b₁, bs₂, rfl, hj, hexits⟩ := split_at_seal hrest
        refine ⟨b :: bs₁, b₁, bs₂, rfl, hj, fun b' hb' => ?_⟩
        rw [List.cons_append, List.mem_cons] at hb'
        rw [List.mem_append]
        rcases hb' with rfl | hb'
        · exact .inl (List.mem_cons_self ..)
        · exact .inr (hexits b' hb')
      rcases h with ⟨l', hl, hrest⟩ | ⟨c, hb, hr⟩
      · exact hlater l' hl hrest
      -- the call is one of this block: its exit is emitted first
      · cases c with
        | nil => exact hlater [] (by simpa using hb.symm) hr.symm
        | cons x c =>
            injection hr with hx hr
            subst hx
            cases l with
            | nil => cases hb
            | cons y l =>
                injection hb with hy hb
                subst hy
                refine ⟨[], b, bs, rfl, ?_, fun b' hb' => ?_⟩
                · have hmem : BuilderCall.sealBlock j ∈ b.sealedBlocks.map .sealBlock := by
                    rw [hb]
                    simp
                  simpa using hmem
                · rw [List.mem_singleton.mp hb']
                  exact List.mem_cons_self ..

end Order

/-! ## §3. The calls of `compile_closure`. -/

section Closure

variable {entry : Nat} {st : SearchState} {c : BasicClosure}

/-- **Every block is sealed once.** -/
theorem count_sealBlock (hrpo : ReversePostOrder entry st c) (hs : ExactSchedule c) (j : Nat) :
    (BuilderCall.sealBlock 0 :: c.blocks.flatMap blockCalls).count (.sealBlock j)
      = if j < c.blocks.length then 1 else 0 := by
  have hzero : 0 < c.blocks.length := by
    obtain ⟨b, hb, -⟩ := hrpo.entry_preds
    exact (List.getElem?_eq_some_iff.mp hb).1
  rw [List.count_cons, count_flatMap_blockCalls]
  by_cases hj : j = 0
  · subst hj
    rw [if_pos hzero, show (c.blocks.flatMap BasicBlock.sealedBlocks).count 0 = 0 from
      List.count_eq_zero_of_not_mem hs.entry]
    rfl
  · rw [if_neg (by simpa using Ne.symm hj), Nat.add_zero]
    split
    · exact hs.once j ‹_› hj
    · refine List.count_eq_zero_of_not_mem fun hmem => ?_
      obtain ⟨b, hb, hjb⟩ := List.mem_flatMap.mp hmem
      obtain ⟨i, hi⟩ := List.mem_iff_getElem?.mp hb
      exact absurd (hrpo.targets_valid i j ((hs.greatest i b hi j).mp hjb).1) ‹_›

/-- And only after the exits that lead to it. -/
theorem schedule_after (hrpo : ReversePostOrder entry st c) (hs : ExactSchedule c)
    {l r : List BuilderCall} {j : Nat}
    (h : BuilderCall.sealBlock 0 :: c.blocks.flatMap blockCalls = l ++ .sealBlock j :: r)
    {p : Nat} (hp : c.Edge p j) : .emitExit p ∈ l := by
  cases l with
  | nil =>
      -- the entry has no predecessors
      injection h with h _
      injection h with h
      subst h
      obtain ⟨b, hb, hnil⟩ := hrpo.entry_preds
      rw [← hrpo.preds_iff 0 b hb, hnil] at hp
      cases hp
  | cons x l =>
      injection h with _ h
      obtain ⟨bs₁, b, bs₂, hbs, hj, hexits⟩ := split_at_seal h
      have hb : c.blocks[bs₁.length]? = some b := by rw [hbs]; simp
      have hle : p ≤ bs₁.length := ((hs.greatest _ b hb j).mp hj).2 p hp
      -- so block `p` is translated before or is the block that seals
      obtain ⟨b', hb', -⟩ := hp
      have hmem : b' ∈ bs₁ ++ [b] := by
        rw [hbs, show bs₁ ++ b :: bs₂ = (bs₁ ++ [b]) ++ bs₂ by simp,
          List.getElem?_append_left (by simp; omega)] at hb'
        exact List.mem_of_getElem? hb'
      have hid := hrpo.ids p b' hb'
      exact List.mem_cons_of_mem _ (hid ▸ hexits b' hmem)

/-- A prefix of the schedule seals in order. -/
theorem sealsInOrder_of_extends (hrpo : ReversePostOrder entry st c) (hs : ExactSchedule c)
    {calls : List BuilderCall}
    (h : calls <+: .sealBlock 0 :: c.blocks.flatMap blockCalls) : SealsInOrder c calls := by
  obtain ⟨rest, hrest⟩ := h
  refine ⟨fun j => ?_, fun l j r hcalls p hp => ?_⟩
  · have hcount := count_sealBlock hrpo hs j
    rw [← hrest, List.count_append] at hcount
    split at hcount <;> omega
  · refine schedule_after hrpo hs (r := r ++ rest) ?_ hp
    rw [← hrest, hcalls]
    simp

/-- **Sealing is exact**: the schedule names every block but the entry once, in
the list of its greatest predecessor; whatever becomes of a compilation, it
seals no block twice nor before the exits of its predecessors; and a successful
one seals every block. -/
theorem compileClosure_sealing (code : List Word) (entry : Nat) (c : BasicClosure)
    (h : parseToBasicBlocks code entry = .ok c) :
    ExactSchedule c ∧ ∀ lookupClosureCode atomTableAddr useCallTraces cCalls,
      SealsInOrder c
        (compileClosureCalls lookupClosureCode atomTableAddr useCallTraces cCalls c) ∧
      ∀ f, compileClosure lookupClosureCode atomTableAddr useCallTraces cCalls c
          = .ok (.supportedClosure f) →
        ∀ j, j < c.blocks.length →
          (compileClosureCalls lookupClosureCode atomTableAddr useCallTraces cCalls c).count
            (.sealBlock j) = 1 := by
  obtain ⟨⟨st, hrpo⟩, hs⟩ := parseToBasicBlocks_exactSchedule h
  refine ⟨hs, fun lookup atom traces cCalls => ⟨sealsInOrder_of_extends hrpo hs ?_, ?_⟩⟩
  · unfold compileClosureCalls
    split
    · exact List.nil_prefix
    · refine List.prefix_cons_inj _ |>.mpr ?_
      split
      · exact blocksCalls_extends _ _
      · exact List.nil_prefix
  · intro f hf j hj
    have hcalls : compileClosureCalls lookup atom traces cCalls c
        = .sealBlock 0 :: c.blocks.flatMap blockCalls := by
      obtain ⟨htrap, harity, τ, hpro, hblocks⟩ := compileClosure_eq_ok hf
      have hne : c.blocks ≠ [] := fun hnil => by
        rw [hnil] at hj
        cases hj
      unfold compileClosureCalls
      rw [if_neg (by simp [htrap, hne]; omega)]
      dsimp only
      rw [hpro]
      exact congrArg _ (blocksCalls_of_ok hblocks)
    rw [hcalls, count_sealBlock hrpo hs, if_pos hj]

end Closure

/-- There is a function for the closure. -/
def isSupported : Rust TranslateError CompilationResult → Bool
  | .ok (.supportedClosure _) => true
  | _ => false

/-- A closure that is supported was translated. -/
theorem exists_supportedClosure {x : Rust TranslateError CompilationResult}
    (h : isSupported x = true) : ∃ f, x = .ok (.supportedClosure f) := by
  cases x with
  | error e => cases h
  | ok r =>
      cases r with
      | unsupportedClosure => cases h
      | supportedClosure f => exact ⟨f, rfl⟩

/-- The blocks of the loop `ACC0; CHECK_SIGNALS; BRANCHIF; RETURN 1`. -/
def loopClosure : BasicClosure :=
  ⟨1, [⟨0, [], .first, [.acc 0], .branch 1, 1, 1, []⟩,
    ⟨1, [1, 0], .normal, [.checkSignals], .branchIf 1 2, 1, 1, [1, 2]⟩,
    ⟨2, [1], .normal, [], .return_ 1, 1, 0, []⟩], [], 1, false⟩

/-- In this loop block 1 is its own last predecessor.  Each of its three blocks is
sealed once. -/
theorem compileClosure_sealing_loop :
    parseToBasicBlocks [0, 92, 85, -2, 40, 1] 0 = .ok loopClosure ∧ ExactSchedule loopClosure ∧
      SealsInOrder loopClosure (compileClosureCalls (fun _ => none) 0 false [] loopClosure) ∧
      ∀ j < 3, (compileClosureCalls (fun _ => none) 0 false [] loopClosure).count
        (.sealBlock j) = 1 := by
  have hloop : parseToBasicBlocks [0, 92, 85, -2, 40, 1] 0 = .ok loopClosure := by decide
  have hsupported : isSupported (compileClosure (fun _ => none) 0 false [] loopClosure) = true := by
    decide +kernel
  obtain ⟨f, hf⟩ := exists_supportedClosure hsupported
  obtain ⟨hexact, hcalls⟩ := compileClosure_sealing _ _ _ hloop
  obtain ⟨horder, honce⟩ := hcalls (fun _ => none) 0 false []
  exact ⟨hloop, hexact, horder, honce f hf⟩

end OcamlJit.Cranelift

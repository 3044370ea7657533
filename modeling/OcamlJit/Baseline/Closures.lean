/-
  OcamlJit.Baseline.Closures
  ──────────────────────────
  **HOW THE BASELINE COMPILER MAKES CLOSURES.**

  `jit_support_closure` and `jit_support_closure_rec` (`runtime/jit_support.c`)
  and the code around their calls (`emit_code.rs`).  The emitted code pushes its
  registers as a `struct jit_state` and pops them from it again; for `ClosureRec`
  the code pointers lie above it on the C stack, and a word more if their number
  is odd.
-/
import OcamlJit.Interp.ClosureLayout

namespace OcamlJit.Baseline

open OcamlJit.Lib OcamlJit.Instructions OcamlJit.Interp

/-! ## §1. The support functions. -/

/-- `struct jit_state`; `sp` is the stack it points to. -/
structure JitState where
  accu : Value
  env : Value
  sp : List Slot
  extraArgs : Value
  deriving Repr, DecidableEq

/-- The registers as `struct jit_state`. -/
def JitState.ofState (s : State) (extraArgs : Value) : JitState :=
  ⟨s.accu, s.env, s.stack, extraArgs⟩

/-- `*--sp = v`. -/
def JitState.pushed (st : JitState) (v : Value) : JitState := { st with sp := .val v :: st.sp }

section Support

variable {O : Oracle Request Value} (rt : Layout)

/-- `for (..; i < ..; i++, p++) store(p, sp[i])`. -/
def copyWords (store : Value → Value → Request) (sp : List Slot) :
    Nat → Value → Nat → Act O Unit
  | _, _, 0 => pure ()
  | i, p, count + 1 => do
      let v ← Act.ofOption (sp[i]? >>= Slot.value?)
      let _ ← Act.perform (store p v)
      copyWords store sp (i + 1) (p + 8) count

/-- `jit_support_closure`. -/
def jitSupportClosure (nvars : Nat) (codeval : Value) (state : JitState) : Act O JitState := do
  let state := if nvars > 0 then state.pushed state.accu else state
  let block ←
    if nvars < maxYoungWosize then do
      let block ← Act.perform (.allocSmall (1 + nvars) closureTag)
      copyWords .store state.sp 0 (fieldN block 1) nvars
      pure block
    else do
      let block ← Act.perform (.allocShr (1 + nvars) closureTag)
      copyWords .camlInitialize state.sp 0 (fieldN block 1) nvars
      pure block
  let _ ← Act.perform (.store block codeval)
  pure { state with accu := block, sp := state.sp.drop nvars }

/-- The loop of `jit_support_closure_rec` over the functions after the first. -/
def storeCodevals (codevals : List Value) : Nat → Value → Nat → JitState → Act O JitState
  | _, _, 0, state => pure state
  | i, p, count + 1, state => do
      let _ ← Act.perform (.store p (makeHeader (i * 2) infixTag))
      let p := p + 8
      let _ ← Act.perform (.store p (← Act.ofOption codevals[i]?))
      storeCodevals codevals (i + 1) (p + 8) count (state.pushed p)

/-- `jit_support_closure_rec`. -/
def jitSupportClosureRec (nvars : Nat) (codevals : List Value) (nfuncs : Nat)
    (state : JitState) : Act O JitState := do
  let blksize := nfuncs * 2 - 1 + nvars
  let state := if nvars > 0 then state.pushed state.accu else state
  let block ←
    if blksize ≤ maxYoungWosize then do
      let block ← Act.perform (.allocSmall blksize closureTag)
      copyWords .store state.sp 0 (fieldN block (nfuncs * 2 - 1)) nvars
      pure block
    else do
      let block ← Act.perform (.allocShr blksize closureTag)
      copyWords .camlInitialize state.sp 0 (fieldN block (nfuncs * 2 - 1)) nvars
      pure block
  let state := { state with accu := block, sp := state.sp.drop nvars }
  let p := fieldN block 0
  let _ ← Act.perform (.store p (← Act.ofOption codevals[0]?))
  storeCodevals codevals 1 (p + 8) (nfuncs - 1) (state.pushed block)

/-! ## §2. The emitted code. -/

/-- `Instruction::Closure`. -/
def emitClosure (codeval nargs : Nat) (registers : JitState) : Act O JitState :=
  jitSupportClosure nargs (rt.codePointer codeval) registers

/-- `Instruction::ClosureRec`: what is on the C stack above the registers is
`words`. -/
def emitClosureRec (funcs : List Nat) (nvars : Nat) (registers : JitState) : Act O JitState := do
  let words := funcs.reverse.foldl (fun words l => rt.codePointer l :: words) []
  let codevals := words
  let unaligned := funcs.length % 2 = 1
  let words := if unaligned then 0 :: words else words
  let state ← jitSupportClosureRec nvars codevals funcs.length registers
  let toPop := funcs.length + if unaligned then 1 else 0
  -- the registers are popped from where they were pushed
  if words.drop toPop = [] then pure state else Act.stuck

end Support

/-! ## §3. They do what the interpreter does. -/

section Agree

variable {O : Oracle Request Value} {rt : Layout}

/-- The words read one by one are the words read at once. -/
theorem copyWords_eq {store : Value → Value → Request} {sp : List Slot} {block : Value} :
    ∀ (ws : List Value) (i j : Nat),
    (∀ n w, ws[n]? = some w → sp[i + n]? = some (.val w)) →
    (copyWords store sp i (fieldN block j) ws.length : Act O Unit) = storeFields store block j ws
  | [], _, _, _ => rfl
  | w :: ws, i, j, h => by
      have hw : sp[i]? = some (.val w) := h 0 w rfl
      rw [List.length_cons, copyWords, storeFields, hw]
      show (Act.perform (store (fieldN block j) w) >>= fun _ => _) = _
      rw [← fieldN_succ, copyWords_eq ws (i + 1) (j + 1)]
      intro n w' hn
      rw [Nat.add_assoc, Nat.add_comm 1]
      exact h (n + 1) w' hn

/-- The fields of a new block: the two ways of reading the stack. -/
theorem copyWords_of_picks? {store : Value → Value → Request} {s : State} {n : Nat}
    {ws : List Value} (h : s.picks? n = some ws) (block : Value) (j : Nat) :
    (copyWords store s.stack 0 (fieldN block j) n : Act O Unit) = storeFields store block j ws := by
  rw [← length_of_picks? h]
  exact copyWords_eq ws 0 j fun i w hi => (Nat.zero_add i).symm ▸ word_of_picks? h hi

/-- The block of a closure: the two ways of filling it, and what is done with it. -/
theorem sim_allocBlock {α β : Type} {R : α → β → Prop} {s : State} {nvars : Nat} {ws : List Value}
    (h : s.picks? nvars = some ws) (wosize start : Nat) {f : Value → Act O α}
    {g : Value → Act O β} (hfg : ∀ block, Sim R (f block) (g block)) :
    Sim R (allocBlock wosize closureTag start ws >>= f)
      (if wosize ≤ maxYoungWosize then do
        let block ← Act.perform (.allocSmall wosize closureTag)
        copyWords .store s.stack 0 (fieldN block start) nvars
        g block
      else do
        let block ← Act.perform (.allocShr wosize closureTag)
        copyWords .camlInitialize s.stack 0 (fieldN block start) nvars
        g block) := by
  unfold allocBlock
  split
  · rw [Act.bind_assoc]
    refine Sim.perform_bind fun block => ?_
    rw [copyWords_of_picks? h, Act.bind_assoc]
    exact Sim.same_bind fun _ => hfg block
  · rw [Act.bind_assoc]
    refine Sim.perform_bind fun block => ?_
    rw [copyWords_of_picks? h, Act.bind_assoc]
    exact Sim.same_bind fun _ => hfg block

theorem spill_eq (s : State) (extraArgs : Value) (nvars : Nat) :
    (if nvars > 0 then (JitState.ofState s extraArgs).pushed (JitState.ofState s extraArgs).accu
      else JitState.ofState s extraArgs) = JitState.ofState (spillAccu nvars s) extraArgs := by
  unfold spillAccu
  split <;> rfl

/-- **`Closure` of the baseline compiler is `CLOSURE`.** -/
theorem emitClosure_sim (s : State) (extraArgs : Value) (l nvars : Nat) :
    Sim (O := O) (fun s' r => r = JitState.ofState s' extraArgs) (doClosure rt l nvars s)
      (emitClosure rt l nvars (JitState.ofState s extraArgs)) := by
  refine Sim.ofOption_bind fun ws hws => Sim.ofOption_bind fun s' hd => ?_
  obtain ⟨-, rfl⟩ := drop?_eq_some hd
  have hsize : nvars < maxYoungWosize ↔ 1 + nvars ≤ maxYoungWosize := by omega
  unfold emitClosure jitSupportClosure
  rw [spill_eq]
  simp only [hsize]
  exact sim_allocBlock hws (1 + nvars) 1 fun block => Sim.perform_bind fun _ => Sim.pure rfl

/-- The loops over the code pointers after the first. -/
theorem storeCodevals_sim (funcs : List Nat) (block extraArgs : Value) :
    ∀ (ls : List Nat) (i : Nat) (s : State), 0 < i → funcs.drop i = ls →
    Sim (O := O) (fun s' r => r = JitState.ofState s' extraArgs) (storeInfixes rt block i ls s)
      (storeCodevals (funcs.map rt.codePointer) i (fieldN block (2 * i - 1)) ls.length
        (JitState.ofState s extraArgs))
  | [], _, _, _, _ => Sim.pure rfl
  | l :: ls, i, s, hi, hdrop => by
      have hl : funcs[i]? = some l := by
        rw [← Nat.add_zero i, ← List.getElem?_drop, hdrop]
        rfl
      have hp : fieldN block (2 * i - 1) + 8 = fieldN block (2 * i) := by
        rw [← fieldN_succ, show 2 * i - 1 + 1 = 2 * i by omega]
      have hq : fieldN block (2 * i) + 8 = fieldN block (2 * (i + 1) - 1) := by
        rw [← fieldN_succ, show 2 * (i + 1) - 1 = 2 * i + 1 by omega]
      have hls : funcs.drop (i + 1) = ls := by
        rw [← List.drop_drop, hdrop]
        rfl
      refine Sim.perform_bind fun _ => ?_
      rw [List.getElem?_map, hl, hp]
      refine Sim.perform_bind fun _ => ?_
      rw [hq]
      exact storeCodevals_sim funcs block extraArgs ls (i + 1) _ (Nat.succ_pos i) hls

/-- Words pushed from the last to the first lie in order. -/
theorem pushedWords_eq (f : Nat → Value) (ls : List Nat) :
    ls.reverse.foldl (fun words l => f l :: words) [] = ls.map f := by
  rw [List.foldl_reverse]
  induction ls with
  | nil => rfl
  | cons l ls ih => rw [List.foldr_cons, ih, List.map_cons]

/-- The support function, given the code pointers. -/
theorem jitSupportClosureRec_sim (s : State) (extraArgs : Value) (l : Nat) (rest : List Nat)
    (nvars : Nat) :
    Sim (O := O) (fun s' r => r = JitState.ofState s' extraArgs) (doClosureRec rt (l :: rest) nvars s)
      (jitSupportClosureRec nvars ((l :: rest).map rt.codePointer) (l :: rest).length
        (JitState.ofState s extraArgs)) := by
  refine Sim.ofOption_bind fun ws hws => Sim.ofOption_bind fun s' hd => ?_
  obtain ⟨-, rfl⟩ := drop?_eq_some hd
  unfold jitSupportClosureRec
  rw [spill_eq]
  refine sim_allocBlock hws _ _ fun block => ?_
  rw [Act.pure_bind]
  dsimp only
  rw [← fieldN_succ, fieldN_zero]
  refine Sim.perform_bind fun _ => ?_
  exact storeCodevals_sim (l :: rest) block extraArgs rest 1 _ Nat.one_pos rfl

/-- **`ClosureRec` of the baseline compiler is `CLOSUREREC`.** -/
theorem emitClosureRec_sim (s : State) (extraArgs : Value) (ls : List Nat) (nvars : Nat) :
    Sim (O := O) (fun s' r => r = JitState.ofState s' extraArgs) (doClosureRec rt ls nvars s)
      (emitClosureRec rt ls nvars (JitState.ofState s extraArgs)) := by
  cases ls with
  | nil => exact Sim.stuck
  | cons l rest =>
      have hpopped : ((if (l :: rest).length % 2 = 1 then 0 :: (l :: rest).map rt.codePointer
          else (l :: rest).map rt.codePointer).drop
            ((l :: rest).length + if (l :: rest).length % 2 = 1 then 1 else 0)) = [] := by
        rw [List.drop_eq_nil_iff]
        split <;> simp
      have hsupport : Sim (O := O) _ (doClosureRec rt (l :: rest) nvars s) _ :=
        jitSupportClosureRec_sim s extraArgs l rest nvars
      have hsim := hsupport.bind (f := pure) (g := pure) fun _ _ h => Sim.pure h
      rw [Act.bind_pure] at hsim
      unfold emitClosureRec
      rw [pushedWords_eq]
      simp only [hpopped, if_true]
      exact hsim

end Agree

end OcamlJit.Baseline

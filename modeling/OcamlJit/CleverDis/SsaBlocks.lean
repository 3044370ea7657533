/-
  OcamlJit.CleverDis.SsaBlocks
  ────────────────────────────
  **THE TRANSLATION OF ONE BLOCK.**

  `Implements σ σ' m`: between the translation states `σ` and `σ'` statements are
  added that do what `m` does, when the stack of the machine is what the symbolic
  stack stands for.

    • `processBodyInstruction_implements` — one instruction,
    • `runSsaBlock_eq` — a block: its statements and its final state are the run
      of the machine that `translate_block` follows.
-/
import OcamlJit.CleverDis.SsaMachine

namespace OcamlJit.CleverDis.Ssa

open OcamlJit.Lib OcamlJit.Instructions

variable {O : Oracle Access Value} {start : Start}

/-! ## §1. The words of the machine. -/

namespace MachineState

variable (s : MachineState) (v w : Cell) (n k : Nat)

/-- Two states are equal when their accumulators and all their slots are. -/
theorem ext {s s' : MachineState} (haccu : s.accu = s'.accu) (hstack : ∀ k, s.stack k = s'.stack k) :
    s = s' := by
  cases s with
  | mk accu stack =>
      cases s' with
      | mk accu' stack' =>
          obtain rfl : accu = accu' := haccu
          obtain rfl : stack = stack' := funext hstack
          rfl

/-- The pushed cell is picked first. -/
theorem picks_push_succ : (s.push v).picks (n + 1) = v :: s.picks n := by
  unfold picks push
  rw [List.range_succ_eq_map, List.map_cons, List.map_map]
  rfl

/-- The pushed cell is popped first. -/
theorem pop_push_succ : (s.push v).pop (n + 1) = s.pop n := by
  refine ext rfl fun k => ?_
  show (s.push v).stack (n + 1 + k) = s.stack (n + k)
  rw [show n + 1 + k = (n + k) + 1 by omega]
  rfl

end MachineState

/-! ## §2. The operations of the translation. -/

section Ops

variable (σ : Translation)

/-- The symbolic stack once the words `is` have been read. -/
def SSAStackState.afterPicks (is : List Nat) (st : SSAStackState) : SSAStackState :=
  is.foldl (fun st i => (st.getSubst (.stack i)).2) st

/-- Noting reads leaves the accumulator. -/
@[simp] theorem afterPicks_accu : ∀ (is : List Nat) (st : SSAStackState),
    (st.afterPicks is).accu = st.accu
  | [], _ => rfl
  | i :: is, st => (afterPicks_accu is _).trans (st.getSubst_accu (.stack i))

/-- Noting reads leaves the slots. -/
@[simp] theorem afterPicks_slot : ∀ (is : List Nat) (st : SSAStackState) (k : Nat),
    (st.afterPicks is).slot k = st.slot k
  | [], _, _ => rfl
  | i :: is, st, k => (afterPicks_slot is _ k).trans (st.getSubst_slot k (.stack i))

@[simp] theorem withState_state (st : SSAStackState) : (σ.withState st).state = st := rfl

@[simp] theorem withState_vars (st : SSAStackState) : (σ.withState st).vars = σ.vars := rfl

/-- A translation runs its parts one after the other. -/
theorem translate_bind {α β : Type} (x : Translate α) (f : α → Translate β) :
    (x >>= f) σ = x σ >>= fun p => f p.1 p.2 := rfl

theorem translate_pure {α : Type} (a : α) : (pure a : Translate α) σ = .ok (a, σ) := rfl

/-- Reading the accumulator notes the read. -/
theorem accu_run : accu σ = .ok (σ.state.accu, σ.withState (σ.state.getSubst .acc).2) := rfl

/-- Reading a slot notes the read. -/
theorem pick_run (n : Nat) :
    pick n σ = .ok (σ.state.slot n, σ.withState (σ.state.getSubst (.stack n)).2) := by
  show Except.ok _ = Except.ok _
  rw [SSAStackState.getSubst_fst]
  rfl

/-- Reading slots notes all the reads. -/
theorem mapM_pick_run : ∀ (is : List Nat) (σ : Translation),
    is.mapM pick σ = .ok (is.map σ.state.slot, σ.withState (σ.state.afterPicks is))
  | [], _ => rfl
  | i :: is, σ => by
      have hslot : (σ.state.getSubst (.stack i)).2.slot = σ.state.slot :=
        funext fun k => σ.state.getSubst_slot k (.stack i)
      rw [List.mapM_cons, translate_bind, pick_run, ok_bind, translate_bind, mapM_pick_run is,
        ok_bind, translate_pure, withState_state, hslot]
      rfl

/-- Reading the first slots, from the top down. -/
theorem picks_run (n : Nat) : picks n σ =
    .ok ((List.range n).map σ.state.slot, σ.withState (σ.state.afterPicks (List.range n))) :=
  mapM_pick_run (List.range n) σ

end Ops

/-! ## §3. Variables already computed. -/

/-- `v` is not a variable that is still to be computed. -/
def Vars.Knows (vars : Vars) (v : SSAVar) : Prop :=
  ∀ b i, v = .computed b i → b = vars.blockNum ∧ i < vars.numAssignments

/-- Everything on the symbolic stack is known. -/
structure Translation.Numbered (σ : Translation) : Prop where
  accu : σ.vars.Knows σ.state.accu
  slot : ∀ k, σ.vars.Knows (σ.state.slot k)

/-- The next assignment does not change what is known. -/
theorem eval_define {vars : Vars} {v : SSAVar} (h : vars.Knows v) (d : Defs) (c : Cell) :
    v.eval start (d.define vars.blockNum vars.numAssignments c) = v.eval start d := by
  cases v with
  | computed b i =>
      obtain ⟨-, hi⟩ := h b i rfl
      show (if b = vars.blockNum ∧ i = vars.numAssignments then c else d b i) = d b i
      rw [if_neg (by omega)]
  | prev t => cases t <;> rfl
  | _ => rfl

@[simp] theorem eval_const (d : Defs) (n : Int) : (SSAVar.const n).eval start d = .ofInt n := rfl

@[simp] theorem eval_unit (d : Defs) : SSAVar.unit.eval start d = .val .unit := rfl

@[simp] theorem eval_junk (d : Defs) : SSAVar.junk.eval start d = .unspecified := rfl

@[simp] theorem eval_special (d : Defs) : SSAVar.special.eval start d = .special := rfl

/-- Only a computed variable has to be known. -/
theorem knows_of_ne {vars : Vars} {v : SSAVar} (h : ∀ b i, v ≠ .computed b i) : vars.Knows v :=
  fun b i hv => absurd hv (h b i)

/-! ## §4. Adding statements. -/

/-- The statements added from `σ` to `σ'` do what `m` does. -/
def Implements (start : Start) (σ σ' : Translation) (m : MachineState → Act O MachineState) :
    Prop :=
  σ.Numbered → σ'.Numbered ∧ σ'.vars.blockNum = σ.vars.blockNum ∧
    ∃ added, σ'.vars.statements = σ.vars.statements ++ added ∧
      ∀ d, (runStatements start added d >>= fun d' => pure (σ'.state.eval start d')) =
        m (σ.state.eval start d)

/-- Statements run one after the other. -/
theorem runStatements_append (ts us : List SSAStatement) (d : Defs) :
    (runStatements start (ts ++ us) d : Act O Defs) =
      runStatements start ts d >>= runStatements start us := by
  induction ts generalizing d with
  | nil => rfl
  | cons t ts ih =>
      show (t.run start d >>= fun d' => runStatements start (ts ++ us) d') = _
      rw [show (runStatements start (t :: ts) d : Act O Defs)
        = t.run start d >>= runStatements start ts from rfl, Act.bind_assoc]
      congr 1
      funext d'
      exact ih d'

/-- One part after the other. -/
theorem Implements.comp {σ σ₁ σ₂ : Translation} {m₁ m₂ : MachineState → Act O MachineState}
    (h₁ : Implements start σ σ₁ m₁) (h₂ : Implements start σ₁ σ₂ m₂) :
    Implements start σ σ₂ fun s => m₁ s >>= m₂ := by
  intro hσ
  obtain ⟨hσ₁, hb₁, ts, hts, hrun₁⟩ := h₁ hσ
  obtain ⟨hσ₂, hb₂, us, hus, hrun₂⟩ := h₂ hσ₁
  refine ⟨hσ₂, hb₂.trans hb₁, ts ++ us, ?_, fun d => ?_⟩
  · rw [hus, hts, List.append_assoc]
  · show _ = m₁ _ >>= m₂
    rw [runStatements_append, Act.bind_assoc, ← hrun₁ d, Act.bind_assoc]
    congr 1
    funext d'
    exact hrun₂ d'

/-- Nothing is added: the symbolic stack moves as the machine does. -/
theorem implements_move {σ σ' : Translation} {f : MachineState → MachineState}
    (hvars : σ'.vars = σ.vars)
    (hknows : σ.Numbered → σ.vars.Knows σ'.state.accu ∧ ∀ k, σ.vars.Knows (σ'.state.slot k))
    (heval : ∀ d, σ'.state.eval start d = f (σ.state.eval start d)) :
    Implements (O := O) start σ σ' fun s => pure (f s) := by
  intro hσ
  obtain ⟨haccu, hslot⟩ := hknows hσ
  refine ⟨⟨hvars ▸ haccu, fun k => hvars ▸ hslot k⟩, by rw [hvars], [], ?_, fun d => ?_⟩
  · rw [hvars, List.append_nil]
  · exact congrArg (pure : MachineState → Act O MachineState) (heval d)

/-- The variables once another assignment is added. -/
def Vars.withAssignment (vars : Vars) (e : SSAExpr) : Vars :=
  ⟨vars.statements ++ [.assign vars.blockNum vars.numAssignments e],
    vars.numAssignments + 1, vars.blockNum⟩

/-- What is known stays known. -/
theorem Vars.Knows.withAssignment {vars : Vars} {v : SSAVar} (h : vars.Knows v) (e : SSAExpr) :
    (vars.withAssignment e).Knows v := by
  intro b i hv
  obtain ⟨hb, hi⟩ := h b i hv
  exact ⟨hb, Nat.lt_succ_of_lt hi⟩

/-- The variable that was just assigned is known. -/
theorem Vars.knows_new (vars : Vars) (e : SSAExpr) :
    (vars.withAssignment e).Knows (.computed vars.blockNum vars.numAssignments) := by
  rintro b i ⟨⟩
  exact ⟨rfl, Nat.lt_succ_self _⟩

/-- And it has the cell it was assigned. -/
@[simp] theorem eval_define_new (vars : Vars) (d : Defs) (c : Cell) :
    (SSAVar.computed vars.blockNum vars.numAssignments).eval start
      (d.define vars.blockNum vars.numAssignments c) = c :=
  if_pos ⟨rfl, rfl⟩

/-- An assignment is added, and its variable and what was there are moved. -/
theorem implements_compute {σ σ' : Translation} {e : SSAExpr} {g : MachineState → Act O Cell}
    {f : MachineState → Cell → MachineState}
    (hvars : σ'.vars = σ.vars.withAssignment e)
    (hknows : σ.Numbered → (σ.vars.withAssignment e).Knows σ'.state.accu ∧
      ∀ k, (σ.vars.withAssignment e).Knows (σ'.state.slot k))
    (he : ∀ d, e.eval start d = g (σ.state.eval start d))
    (heval : σ.Numbered → ∀ d c,
      σ'.state.eval start (d.define σ.vars.blockNum σ.vars.numAssignments c) =
        f (σ.state.eval start d) c) :
    Implements start σ σ' fun s => g s >>= fun c => pure (f s c) := by
  intro hσ
  obtain ⟨haccu, hslot⟩ := hknows hσ
  refine ⟨⟨hvars ▸ haccu, fun k => hvars ▸ hslot k⟩, by rw [hvars]; rfl, [_],
    by rw [hvars]; rfl, fun d => ?_⟩
  show ((e.eval start d >>= _) >>= _) >>= _ = _
  rw [he, Act.bind_assoc, Act.bind_assoc]
  show (g _ >>= _) = (g _ >>= _)
  congr 1
  funext c
  exact congrArg (pure : MachineState → Act O MachineState) (heval hσ d c)

/-- The variable is put in the accumulator, and `n` words are taken off. -/
theorem implements_assign {σ σ' : Translation} {e : SSAExpr} {n : Nat}
    {g : MachineState → Act O Cell}
    (hvars : σ'.vars = σ.vars.withAssignment e)
    (haccu : σ'.state.accu = .computed σ.vars.blockNum σ.vars.numAssignments)
    (hslot : ∀ k, σ'.state.slot k = σ.state.slot (n + k))
    (he : ∀ d, e.eval start d = g (σ.state.eval start d)) :
    Implements start σ σ' fun s => answer s n (g s) := by
  refine implements_compute hvars (fun hσ => ⟨?_, fun k => ?_⟩) he fun hσ d c => ?_
  · rw [haccu]
    exact σ.vars.knows_new e
  · rw [hslot]
    exact (hσ.slot _).withAssignment e
  · refine MachineState.ext ?_ fun k => ?_
    · show σ'.state.accu.eval start _ = c
      rw [haccu, eval_define_new]
    · show (σ'.state.slot k).eval start _ = (σ.state.slot (n + k)).eval start d
      rw [hslot, eval_define (hσ.slot _)]

/-- A statement that assigns nothing is added. -/
theorem implements_statement {σ σ' : Translation} {t : SSAStatement} (a : Defs → Access) (n : Nat)
    {m : MachineState → Act O MachineState}
    (hvars : σ'.vars = { σ.vars with statements := σ.vars.statements ++ [t] })
    (hknows : σ.Numbered → σ.vars.Knows σ'.state.accu)
    (hslot : ∀ k, σ'.state.slot k = σ.state.slot (n + k))
    (ht : ∀ d, t.run start d = (do tell (a d); pure d : Act O Defs))
    (hm : ∀ d, m (σ.state.eval start d) = do
      tell (a d)
      pure (((σ.state.eval start d).pop n).withAccu (σ'.state.accu.eval start d))) :
    Implements start σ σ' m := by
  intro hσ
  refine ⟨⟨?_, fun k => ?_⟩, by rw [hvars], [_], by rw [hvars], fun d => ?_⟩
  · rw [hvars]
    exact hknows hσ
  · rw [hvars, hslot]
    exact hσ.slot _
  · show ((t.run start d >>= _) >>= _) = _
    rw [ht, hm, Act.bind_assoc, Act.bind_assoc]
    congr 1
    funext _
    refine congrArg (pure : MachineState → Act O MachineState) (MachineState.ext rfl fun k => ?_)
    show (σ'.state.slot k).eval start d = (σ.state.slot (n + k)).eval start d
    rw [hslot]

/-! ## §5. Moves. -/

/-- What is read makes no difference. -/
theorem Implements.read {σ σ' : Translation} {m : MachineState → Act O MachineState}
    {st : SSAStackState} (haccu : st.accu = σ.state.accu) (hslot : ∀ k, st.slot k = σ.state.slot k)
    (h : Implements start (σ.withState st) σ' m) : Implements start σ σ' m := by
  intro hσ
  have hsame : ∀ d, (σ.withState st).state.eval start d = σ.state.eval start d := by
    intro d
    refine MachineState.ext ?_ fun k => ?_
    · exact congrArg (·.eval start d) haccu
    · exact congrArg (·.eval start d) (hslot k)
  have hσ' : (σ.withState st).Numbered := by
    constructor
    · show σ.vars.Knows st.accu
      rw [haccu]
      exact hσ.accu
    · intro k
      show σ.vars.Knows (st.slot k)
      rw [hslot]
      exact hσ.slot k
  obtain ⟨hn, hb, added, hstatements, hrun⟩ := h hσ'
  exact ⟨hn, hb, added, hstatements, fun d => (hrun d).trans (congrArg m (hsame d))⟩

/-- After reading one word. -/
theorem Implements.readAt {σ σ' : Translation} {m : MachineState → Act O MachineState}
    (t : SSASubstitutionTarget)
    (h : Implements start (σ.withState (σ.state.getSubst t).2) σ' m) : Implements start σ σ' m :=
  h.read (σ.state.getSubst_accu t) fun k => σ.state.getSubst_slot k t

/-- `state.set_accu`. -/
theorem setAccu_implements {σ : Translation} {v : SSAVar} {c : MachineState → Cell}
    (hv : σ.Numbered → σ.vars.Knows v) (hc : ∀ d, v.eval start d = c (σ.state.eval start d)) :
    Implements (O := O) start σ (σ.withState (σ.state.setAccu v))
      fun s => pure (s.withAccu (c s)) :=
  implements_move rfl (fun hσ => ⟨hv hσ, hσ.slot⟩) fun d => MachineState.ext (hc d) fun _ => rfl

/-- `state.push`. -/
theorem push_implements {σ : Translation} {v : SSAVar} {c : MachineState → Cell}
    (hv : σ.Numbered → σ.vars.Knows v) (hc : ∀ d, v.eval start d = c (σ.state.eval start d)) :
    Implements (O := O) start σ (σ.withState (σ.state.push v)) fun s => pure (s.push (c s)) := by
  refine implements_move rfl (fun hσ => ⟨hσ.accu, fun k => ?_⟩) fun d =>
    MachineState.ext rfl fun k => ?_
  · cases k with
    | zero => exact hv hσ
    | succ k => simpa using hσ.slot k
  · cases k with
    | zero => exact hc d
    | succ k => simp [SSAStackState.eval, MachineState.push]

/-- `state.pop`. -/
theorem pop_implements {σ : Translation} (n : Nat) :
    Implements (O := O) start σ (σ.withState (σ.state.pop n)) fun s => pure (s.pop n) := by
  refine implements_move rfl (fun hσ => ⟨hσ.accu, fun k => ?_⟩) fun d =>
    MachineState.ext rfl fun k => ?_
  · simpa using hσ.slot (n + k)
  · simp [SSAStackState.eval, MachineState.pop]

/-- `state.assign`. -/
theorem assign_implements {σ : Translation} (n : Nat) :
    Implements (O := O) start σ (σ.withState (σ.state.assign n σ.state.accu))
      fun s => pure (s.assign n s.accu) := by
  refine implements_move rfl (fun hσ => ⟨?_, fun k => ?_⟩) fun d =>
    MachineState.ext ?_ fun k => ?_
  · simpa using hσ.accu
  · rw [withState_state, SSAStackState.assign_slot]
    split
    · exact hσ.accu
    · exact hσ.slot k
  · simp [SSAStackState.eval, MachineState.assign]
  · by_cases hk : k = n <;> simp [SSAStackState.eval, MachineState.assign, hk]

/-- A slot of a frame, which the blocks do not read. -/
theorem pushSpecial_implements {σ : Translation} :
    Implements (O := O) start σ (σ.withState (σ.state.push .special))
      fun s => pure (s.push .special) :=
  push_implements (fun _ => knows_of_ne nofun) fun _ => rfl

/-- `*--sp = accu`. -/
theorem pushAccu_implements {σ σ' : Translation} (h : pushAccu σ = .ok ((), σ')) :
    Implements (O := O) start σ σ' fun s => pure s.pushAccu := by
  cases h
  refine .readAt .acc (push_implements (c := MachineState.accu) (fun hσ => ?_) fun d => ?_)
  · simpa using hσ.accu
  · simp [SSAStackState.eval]

/-- `if (nvars > 0) *--sp = accu`. -/
theorem spillAccu_implements {σ σ' : Translation} {nvars : Nat}
    (h : spill nvars σ = .ok ((), σ')) :
    Implements (O := O) start σ σ' fun s => pure (spillAccu nvars s) := by
  unfold spill at h
  unfold spillAccu
  by_cases hn : nvars > 0
  · simp only [if_pos hn] at h ⊢
    exact pushAccu_implements h
  · simp only [if_neg hn] at h ⊢
    cases h
    exact implements_move rfl (fun hσ => ⟨hσ.accu, hσ.slot⟩) fun _ => rfl

/-! ## §6. Operands from the stack. -/

/-- The slots that the translation picks are those of the state it stands for. -/
theorem map_eval_slots (st : SSAStackState) (d : Defs) (n : Nat) :
    ((List.range n).map st.slot).map (·.eval start d) = (st.eval start d).picks n := by
  rw [List.map_map]
  rfl

/-- The first `n` words are operands, and are taken off. -/
theorem assignPicks_implements {σ σ' : Translation} {n : Nat} {e : List SSAVar → SSAExpr}
    {a : List Cell → Access}
    (he : ∀ d vs, (e vs).eval start d = (ask (a (vs.map (·.eval start d))) : Act O Cell))
    (h : (do
      let v ← addAssignment (e (← picks n))
      setAccu v
      pop n : Translate Unit) σ = .ok ((), σ')) :
    Implements (O := O) start σ σ' fun s => answer s n (ask (a (s.picks n))) := by
  simp only [translate_bind, picks_run, ok_bind, addAssignment, setAccu, pop, Except.ok.injEq,
    Prod.mk.injEq, true_and] at h
  subst h
  refine implements_assign rfl rfl (fun k => ?_) fun d => ?_
  · simp
  · rw [he, map_eval_slots]

/-- The accumulator and the next `n` words. -/
theorem answer_pushAccu (s : MachineState) (n : Nat) (a : List Cell → Access) :
    (answer s.pushAccu (n + 1) (ask (a (s.pushAccu.picks (n + 1)))) : Act O MachineState) =
      answer s n (ask (a (s.accu :: s.picks n))) := by
  unfold MachineState.pushAccu
  rw [MachineState.picks_push_succ]
  unfold answer
  rw [MachineState.pop_push_succ]

/-- `c_call`. -/
theorem cCall_implements {σ σ' : Translation} {count id : Nat}
    (h : cCall count id σ = .ok ((), σ')) :
    Implements (O := O) start σ σ' (doCCall count id) := by
  obtain ⟨⟨⟩, σ₁, hpush, hcall⟩ := stateT_bind_eq_ok.mp h
  exact (pushAccu_implements hpush).comp (assignPicks_implements (fun _ _ => rfl) hcall)

/-- `MAKEBLOCK` and `MAKEFLOATBLOCK` of at least one field. -/
theorem makeBlock_implements {σ σ' : Translation} {n : Nat} {e : List SSAVar → SSAExpr}
    {a : List Cell → Access}
    (he : ∀ d vs, (e vs).eval start d = (ask (a (vs.map (·.eval start d))) : Act O Cell))
    (h : (do
      pushAccu
      let v ← addAssignment (e (← picks (n + 1)))
      setAccu v
      pop (n + 1) : Translate Unit) σ = .ok ((), σ')) :
    Implements (O := O) start σ σ' fun s => answer s n (ask (a (s.accu :: s.picks n))) := by
  obtain ⟨⟨⟩, σ₁, hpush, hmake⟩ := stateT_bind_eq_ok.mp h
  have hboth : Implements (O := O) start σ σ' _ :=
    (pushAccu_implements hpush).comp (assignPicks_implements he hmake)
  rw [show (fun s => answer s n (ask (a (s.accu :: s.picks n))) : MachineState → Act O _) =
    fun s => pure s.pushAccu >>= fun s => answer s (n + 1) (ask (a (s.picks (n + 1)))) from
      funext fun s => (answer_pushAccu s n a).symm]
  exact hboth

/-- One function after the first. -/
theorem pushInfix_implements {σ σ₁ σ₂ : Translation} {v w : SSAVar} {i : Nat}
    (hv : v = σ.state.accu) (hassign : addAssignment (.closureRecInfix v i) σ = .ok (w, σ₁))
    (hpush : push w σ₁ = .ok ((), σ₂)) :
    v = σ₂.state.accu ∧ Implements (O := O) start σ σ₂ fun s =>
      fieldCell s.accu (2 * i) >>= fun p => pure (s.push p) := by
  cases hassign
  cases hpush
  refine ⟨hv, implements_compute (e := .closureRecInfix v i) rfl (fun hσ => ⟨?_, fun k => ?_⟩)
    (fun d => ?_) fun hσ d c => ?_⟩
  · exact hσ.accu.withAssignment _
  · cases k with
    | zero => exact σ.vars.knows_new _
    | succ k => simpa using (hσ.slot k).withAssignment (.closureRecInfix v i)
  · rw [hv]
    rfl
  · refine MachineState.ext (eval_define hσ.accu d c) fun k => ?_
    cases k with
    | zero => exact if_pos ⟨rfl, rfl⟩
    | succ k => simpa [SSAStackState.eval, MachineState.push] using eval_define (hσ.slot k) d c

/-- The loop over the functions after the first. -/
theorem pushInfixes_implements : ∀ {is : List Nat} {σ σ' : Translation} {v : SSAVar},
    v = σ.state.accu → pushInfixes v is σ = .ok ((), σ') →
      Implements (O := O) start σ σ' fun s => pushInfixCells s.accu is s
  | [], σ, σ', v, hv, h => by
      cases h
      exact implements_move rfl (fun hσ => ⟨hσ.accu, hσ.slot⟩) fun _ => rfl
  | i :: is, σ, σ', v, hv, h => by
      obtain ⟨w, σ₁, hassign, hrest⟩ := stateT_bind_eq_ok.mp h
      obtain ⟨⟨⟩, σ₂, hpush, hrest⟩ := stateT_bind_eq_ok.mp hrest
      obtain ⟨hv₂, hfirst⟩ := pushInfix_implements hv hassign hpush
      have hboth : Implements (O := O) start σ σ' _ :=
        hfirst.comp (pushInfixes_implements hv₂ hrest)
      simp only [Act.bind_assoc, Act.pure_bind] at hboth
      exact hboth

/-- The block of a `CLOSUREREC`, and its first function. -/
theorem closureRecBlock_implements {σ σ' : Translation} {locs : List Nat} {nvars : Nat} {v : SSAVar}
    (h : (do
      let v ← addAssignment (.closureRec locs (← picks nvars))
      pop nvars
      setAccu v
      push v
      pure v : Translate SSAVar) σ = .ok (v, σ')) :
    v = σ'.state.accu ∧ Implements (O := O) start σ σ' fun s =>
      ask (.closureRec locs (s.picks nvars)) >>= fun c =>
        pure (((s.pop nvars).withAccu c).push c) := by
  simp only [translate_bind, picks_run, ok_bind, addAssignment, setAccu, pop, push, translate_pure,
    Except.ok.injEq, Prod.mk.injEq] at h
  obtain ⟨rfl, rfl⟩ := h
  refine ⟨rfl, implements_compute (e := .closureRec locs ((List.range nvars).map σ.state.slot)) rfl
    (fun hσ => ⟨σ.vars.knows_new _, fun k => ?_⟩) (fun d => ?_) fun hσ d c => ?_⟩
  · cases k with
    | zero => exact σ.vars.knows_new _
    | succ k => simpa using (hσ.slot (nvars + k)).withAssignment _
  · show ask _ = ask _
    rw [map_eval_slots]
  · refine MachineState.ext (if_pos ⟨rfl, rfl⟩) fun k => ?_
    cases k with
    | zero => exact if_pos ⟨rfl, rfl⟩
    | succ k =>
        simpa [SSAStackState.eval, MachineState.push, MachineState.withAccu, MachineState.pop] using
          eval_define (hσ.slot (nvars + k)) d c

/-- `CLOSUREREC`. -/
theorem closureRec_implements {σ σ' : Translation} {locs : List Nat} {nvars : Nat}
    (h : processBodyInstruction (.closureRec locs nvars) σ = .ok ((), σ')) :
    Implements (O := O) start σ σ' (doClosureRec locs nvars) := by
  simp only [processBodyInstruction] at h
  obtain ⟨⟨⟩, σ₁, hspill, h⟩ := stateT_bind_eq_ok.mp h
  obtain ⟨vs, σ₂, hpicks, h⟩ := stateT_bind_eq_ok.mp h
  obtain ⟨v, σ₃, hassign, h⟩ := stateT_bind_eq_ok.mp h
  obtain ⟨⟨⟩, σ₄, hpop, h⟩ := stateT_bind_eq_ok.mp h
  obtain ⟨⟨⟩, σ₅, haccu, h⟩ := stateT_bind_eq_ok.mp h
  obtain ⟨⟨⟩, σ₆, hpush, h⟩ := stateT_bind_eq_ok.mp h
  have hblock : (do
      let v ← addAssignment (.closureRec locs (← picks nvars))
      pop nvars
      setAccu v
      push v
      pure v : Translate SSAVar) σ₁ = .ok (v, σ₆) := by
    rw [translate_bind, hpicks, ok_bind, translate_bind, hassign, ok_bind, translate_bind, hpop,
      ok_bind, translate_bind, haccu, ok_bind, translate_bind, hpush, ok_bind, translate_pure]
  have hspilled : Implements (O := O) start σ σ₁ _ := spillAccu_implements hspill
  obtain ⟨hv, hmade⟩ := closureRecBlock_implements hblock
  have hall := hspilled.comp (hmade.comp (pushInfixes_implements hv h))
  simp only [Act.bind_assoc, Act.pure_bind] at hall
  exact hall

/-! ## §7. Instructions. -/

/-- `OFFSETREF`: the variable of the old content is used once, by the sum, and never
on the stack. -/
theorem offsetRef_implements {σ σ' : Translation} {n : Int}
    (h : processBodyInstruction (.offsetRef n) σ = .ok ((), σ')) :
    Implements (O := O) start σ σ' (doOffsetRef n) := by
  simp only [processBodyInstruction, translate_bind, accu_run, ok_bind, addAssignment,
    addStatement, setAccu, withState_state, withState_vars, SSAStackState.getSubst_accu,
    Except.ok.injEq, Prod.mk.injEq, true_and] at h
  subst h
  intro hσ
  let e : SSAExpr := .getField σ.state.accu (.const 0)
  -- what was known is known after the two assignments, and means the same
  have hlater : ∀ {v}, σ.vars.Knows v → ∀ d (c c' : Cell), v.eval start
      ((d.define σ.vars.blockNum σ.vars.numAssignments c).define σ.vars.blockNum
        (σ.vars.numAssignments + 1) c') = v.eval start d := fun hv d c c' =>
    (eval_define (hv.withAssignment e) _ _).trans (eval_define hv d c)
  refine ⟨⟨knows_of_ne nofun, fun k => ?_⟩, rfl, [_, _, _],
    by simp only [List.append_assoc]; rfl, fun d => ?_⟩
  · have hk := ((hσ.slot k).withAssignment e).withAssignment e
    exact fun b i hv => hk b i (by simpa using hv)
  · show ((ask (.getField _ _) >>= _) >>= _) >>= _ = _
    simp only [Act.bind_assoc]
    -- the field is read, the number added, and the sum written: three statements
    refine congrArg (ask (.getField (σ.state.accu.eval start d) (.ofInt 0)) >>= ·) (funext fun c => ?_)
    show ((arithCell .add ((SSAVar.computed σ.vars.blockNum σ.vars.numAssignments).eval start _)
      (.ofInt n) >>= _) >>= _) >>= _ = _
    rw [eval_define_new, Act.bind_assoc, Act.bind_assoc]
    refine congrArg (arithCell .add c (.ofInt n) >>= ·) (funext fun c' => ?_)
    show ((tell (.setField (σ.state.accu.eval start _) (.ofInt 0)
      ((SSAVar.computed σ.vars.blockNum (σ.vars.numAssignments + 1)).eval start _)) >>= _) >>= _)
        >>= _ = _
    rw [hlater hσ.accu, Act.bind_assoc, Act.bind_assoc,
      show σ.vars.numAssignments + 1 = (σ.vars.withAssignment e).numAssignments from rfl,
      show σ.vars.blockNum = (σ.vars.withAssignment e).blockNum from rfl, eval_define_new]
    refine congrArg (tell (.setField (σ.state.accu.eval start d) (.ofInt 0) c') >>= ·)
      (funext fun _ => ?_)
    refine congrArg (pure : MachineState → Act O MachineState) (MachineState.ext rfl fun k => ?_)
    show (SSAStackState.slot _ k).eval start _ = (σ.state.slot (0 + k)).eval start d
    rw [Nat.zero_add, ← hlater (hσ.slot k) d c c']
    simp
    rfl

/-- The accumulator is read before the slot is written. -/
theorem assignAccu_implements {σ σ' : Translation} {n : Nat}
    (h : processBodyInstruction (.assign n) σ = .ok ((), σ')) :
    Implements (O := O) start σ σ' (step .translated start (.assign n)) := by
  rw [processBodyInstruction, translate_bind, accu_run] at h
  cases h
  refine .readAt .acc ?_
  have hassign : Implements (O := O) start (σ.withState (σ.state.getSubst .acc).2) _ _ :=
    assign_implements n
  rw [withState_state, SSAStackState.getSubst_accu] at hassign
  exact hassign

/-- `process_body_instruction`. -/
theorem processBodyInstruction_implements {σ σ' : Translation} {i : Instruction Nat}
    (h : processBodyInstruction i σ = .ok ((), σ')) :
    Implements (O := O) start σ σ' (step .translated start i) := by
  cases i with
  -- not instructions of the inside of a block
  | applyTerm _ _ | apply _ | return_ _ | branch _ | branchIf _ | branchIfNot _ | branchCmp _ _ _
  | raise _ | switch _ _ | pushTrap _ | stop | restart | grab _ => cases h
  | labelDef _ | break_ | event =>
      cases h
      exact implements_move rfl (fun hσ => ⟨hσ.accu, hσ.slot⟩) fun d => rfl
  | acc n =>
      rw [processBodyInstruction, translate_bind, pick_run] at h
      cases h
      refine .readAt (.stack n) (setAccu_implements (c := fun s => s.stack n) (fun hσ => ?_)
        fun d => ?_)
      · simpa using hσ.slot n
      · simp [SSAStackState.eval]
  | envAcc _ | offsetClosure _ | const _ =>
      cases h
      exact setAccu_implements (fun _ => knows_of_ne nofun) fun _ => rfl
  | push => exact pushAccu_implements h
  | pop n =>
      cases h
      exact pop_implements n
  | assign n => exact assignAccu_implements h
  | pushRetAddr _ =>
      cases h
      exact pushSpecial_implements.comp (pushSpecial_implements.comp pushSpecial_implements)
  | setupForPubMet tag =>
      simp only [processBodyInstruction] at h
      obtain ⟨⟨⟩, σ₁, hpush, haccu⟩ := stateT_bind_eq_ok.mp h
      cases haccu
      exact (pushAccu_implements hpush).comp (setAccu_implements (v := .const tag)
        (c := fun _ => .ofInt tag) (fun _ => knows_of_ne nofun) fun _ => rfl)
  -- the result of an assignment is the accumulator, and the operands are popped
  | apply1 | apply2 | apply3 | getGlobal | getField | getFloatField | vecTLength | getVecTItem
  | getBytesChar | boolNot | arithInt | negInt | intCmp | offsetInt | isInt | getMethod
  | getDynMet =>
      simp only [processBodyInstruction, translate_bind, accu_run, pick_run, ok_bind, addAssignment,
        setAccu, pop, Except.ok.injEq, Prod.mk.injEq, true_and] at h
      subst h
      refine implements_assign rfl rfl (fun k => ?_) fun d => ?_
      · simp
      · simp [SSAExpr.eval, SSAStackState.eval, MachineState.picks, List.range_succ]
  -- a statement leaves unit in the accumulator
  | setGlobal n =>
      simp only [processBodyInstruction, translate_bind, accu_run, ok_bind, addStatement,
        setAccu, Except.ok.injEq, Prod.mk.injEq, true_and] at h
      subst h
      refine implements_statement _ 0 rfl (fun _ => knows_of_ne nofun) (fun k => ?_)
        (fun d => rfl) fun d => ?_
      · simp
      · simp [step, store, SSAStackState.eval]
  | setField | setFloatField =>
      simp only [processBodyInstruction, translate_bind, accu_run, pick_run, ok_bind, addStatement,
        setAccu, pop, Except.ok.injEq, Prod.mk.injEq, true_and] at h
      subst h
      refine implements_statement _ 1 rfl (fun _ => knows_of_ne nofun) (fun k => ?_)
        (fun d => rfl) fun d => ?_
      · simp
      · simp [step, store, SSAStackState.eval]
  | setVecTItem | setBytesChar =>
      simp only [processBodyInstruction, translate_bind, accu_run, pick_run, ok_bind, addStatement,
        setAccu, pop, Except.ok.injEq, Prod.mk.injEq, true_and] at h
      subst h
      refine implements_statement _ 2 rfl (fun _ => knows_of_ne nofun) (fun k => ?_)
        (fun d => rfl) fun d => ?_
      · simp
      · simp [step, store, SSAStackState.eval]
  -- four words of the frame, and the accumulator stays
  | popTrap =>
      cases h
      refine implements_statement (fun _ => .popTrap) 4 rfl (fun hσ => hσ.accu) (fun k => ?_)
        (fun d => rfl) fun d => ?_
      · simp
      · rfl
  -- the accumulator is `Junk` from here on
  | checkSignals =>
      cases h
      refine implements_statement (fun _ => .checkSignals) 0 rfl (fun _ => knows_of_ne nofun)
        (fun k => ?_) (fun d => rfl) fun d => ?_
      · simp
      · simp [step, MachineState.withAccu, MachineState.pop]
  | closure loc nvars =>
      simp only [processBodyInstruction] at h
      obtain ⟨⟨⟩, σ₁, hspill, hmake⟩ := stateT_bind_eq_ok.mp h
      exact (spillAccu_implements hspill).comp (assignPicks_implements (fun _ _ => rfl) hmake)
  | closureRec locs nvars => exact closureRec_implements h
  | makeBlock size tag =>
      cases size with
      | zero =>
          cases h
          exact setAccu_implements (fun _ => knows_of_ne nofun) fun _ => rfl
      | succ n => exact makeBlock_implements (fun _ _ => rfl) h
  | makeFloatBlock size =>
      cases size with
      | zero =>
          simp only [processBodyInstruction] at h
          obtain ⟨⟨⟩, σ₁, hpush, hmake⟩ := stateT_bind_eq_ok.mp h
          exact (pushAccu_implements hpush).comp (assignPicks_implements (fun _ _ => rfl) hmake)
      | succ n => exact makeBlock_implements (fun _ _ => rfl) h
  | cCall1 id | cCall2 id | cCall3 id | cCall4 id | cCall5 id | cCallN nargs id =>
      exact cCall_implements h
  | offsetRef n => exact offsetRef_implements h

/-! ## §8. The last instruction. -/

/-- The statements added from `σ` to `σ'` and the exit do what `m` does. -/
def Finishes (start : Start) (σ σ' : Translation) (exit : SSAExit)
    (m : MachineState → Act O (Ending × MachineState)) : Prop :=
  σ.Numbered → ∃ added, σ'.vars.statements = σ.vars.statements ++ added ∧
    ∀ d, (do
      let d' ← runStatements start added d
      let ending ← exit.eval start d'
      pure (ending, σ'.state.eval start d')) = m (σ.state.eval start d)

/-- The exit reads what is on the symbolic stack at the end. -/
theorem Implements.finishes {σ σ' : Translation} {exit : SSAExit}
    {m : MachineState → Act O MachineState} {f : MachineState → Act O Ending}
    (h : Implements start σ σ' m)
    (hexit : ∀ d, exit.eval start d = f (σ'.state.eval start d)) :
    Finishes start σ σ' exit fun s => m s >>= fun s' => f s' >>= fun e => pure (e, s') := by
  intro hσ
  obtain ⟨-, -, added, hstatements, hrun⟩ := h hσ
  refine ⟨added, hstatements, fun d => ?_⟩
  show _ = m (σ.state.eval start d) >>= _
  rw [← hrun d, Act.bind_assoc]
  refine congrArg (runStatements start added d >>= ·) (funext fun d' => ?_)
  show exit.eval start d' >>= _ = _
  rw [hexit]
  rfl

/-- The exit reads what is on the symbolic stack at the beginning. -/
theorem finishes_move {σ σ' : Translation} {exit : SSAExit}
    {m : MachineState → Act O (Ending × MachineState)} (hvars : σ'.vars = σ.vars)
    (hexit : ∀ d, (do
      let ending ← exit.eval start d
      pure (ending, σ'.state.eval start d)) = m (σ.state.eval start d)) :
    Finishes start σ σ' exit m := by
  intro _
  refine ⟨[], ?_, fun d => hexit d⟩
  rw [hvars, List.append_nil]

/-- Reading something is no instruction. -/
theorem read_implements {σ : Translation} (t : SSASubstitutionTarget) :
    Implements (O := O) start σ (σ.withState (σ.state.getSubst t).2) pure :=
  .readAt t (implements_move rfl (fun hσ => ⟨hσ.accu, hσ.slot⟩) fun _ => rfl)

/-- Behind a check that has passed its condition holds. -/
theorem ensureThat_bind {α : Type} {c : Prop} [Decidable c] {f : Unit → Translate α}
    {σ : Translation} {r : α × Translation} (h : (ensureThat c >>= f) σ = .ok r) :
    c ∧ f () σ = .ok r := by
  by_cases hc : c
  · refine ⟨hc, ?_⟩
    rw [translate_bind, show ensureThat c σ = .ok ((), σ) by
      unfold ensureThat ensure
      rw [if_pos hc]
      rfl, ok_bind] at h
    exact h
  · rw [translate_bind, show ensureThat c σ = .error (.error .conditionFailed) by
      unfold ensureThat ensure
      rw [if_neg hc]
      rfl] at h
    cases h

/-- A conditional jump on the accumulator. -/
theorem jumpIf_finishes {σ σ' : Translation} {v : SSAVar} (ift iff : Nat)
    (h : accu σ = .ok (v, σ')) :
    Finishes (O := O) start σ σ' (.jumpIf v ift iff) fun s =>
      truth s.accu >>= fun b => pure (.goto (if b then ift else iff), s) := by
  cases h
  have hread : Finishes (O := O) start σ _ (.jumpIf σ.state.accu ift iff) _ :=
    (read_implements .acc).finishes
      (f := fun s => truth s.accu >>= fun b => pure (.goto (if b then ift else iff)))
      fun d => by simp [SSAExit.eval, SSAStackState.eval]
  simp only [Act.bind_assoc, Act.pure_bind] at hread
  exact hread

/-- A comparison with the accumulator, and a conditional jump on the result. -/
theorem branchCmp_finishes {σ σ₁ σ₂ : Translation} {v w : SSAVar} {cmp : Comp} {n : Int}
    (ift iff : Nat) (haccu : accu σ = .ok (v, σ₁))
    (hassign : addAssignment (.intCmp cmp (.const n) v) σ₁ = .ok (w, σ₂)) :
    Finishes (O := O) start σ σ₂ (.jumpIf w ift iff) fun s =>
      cmpCell cmp (.ofInt n) s.accu >>= fun c => truth c >>= fun b =>
        pure (.goto (if b then ift else iff), s) := by
  cases haccu
  cases hassign
  intro hσ
  refine ⟨[_], rfl, fun d => ?_⟩
  show ((cmpCell cmp (.ofInt n) (σ.state.accu.eval start d) >>= _) >>= _) >>= _ =
    cmpCell cmp (.ofInt n) (σ.state.accu.eval start d) >>= _
  simp only [Act.bind_assoc]
  refine congrArg (cmpCell cmp (.ofInt n) (σ.state.accu.eval start d) >>= ·) (funext fun c => ?_)
  show (truth ((SSAVar.computed σ.vars.blockNum σ.vars.numAssignments).eval start _) >>= _) >>= _ = _
  rw [withState_vars, eval_define_new, Act.bind_assoc]
  refine congrArg (truth c >>= ·) (funext fun b => ?_)
  refine congrArg (fun s => (pure (_, s) : Act O (Ending × MachineState)))
    (MachineState.ext ?_ fun k => ?_)
  · show (SSAStackState.accu _).eval start _ = σ.state.accu.eval start d
    rw [← eval_define hσ.accu d c]
    simp
  · show (SSAStackState.slot _ k).eval start _ = (σ.state.slot k).eval start d
    rw [← eval_define (hσ.slot k) d c]
    simp

/-- A conditional jump when the accumulator is false: the exit has its targets
the other way round. -/
theorem jumpIfNot_finishes {σ σ' : Translation} {v : SSAVar} (iff ift : Nat)
    (h : accu σ = .ok (v, σ')) :
    Finishes (O := O) start σ σ' (.jumpIf v ift iff)
      (finish .translated start (.branchIfNot iff) (.conditionalJump iff ift)) := by
  have hjump : Finishes (O := O) start σ σ' _ _ := jumpIf_finishes ift iff h
  rw [show finish .translated start (.branchIfNot iff) (.conditionalJump iff ift) = fun s =>
    truth s.accu >>= fun b => (pure (.goto (if b then ift else iff), s) : Act O _) by
      funext s
      show (truth s.accu >>= _) >>= _ = _
      rw [Act.bind_assoc]
      refine congrArg (truth s.accu >>= ·) (funext fun b => ?_)
      cases b <;> rfl]
  exact hjump

/-- An application that comes back: the result is the accumulator of the next block. -/
theorem apply_finishes {σ σ' : Translation} {nvars retloc : Nat} {e : SSAExit}
    (h : processFinalInstruction (.apply nvars) (.unconditionalJump retloc) σ = .ok (e, σ')) :
    Finishes (O := O) start σ σ' e
      (finish .translated start (.apply nvars) (.unconditionalJump retloc)) := by
  obtain ⟨-, hexit⟩ := ensureThat_bind h
  simp only [translate_bind, picks_run, pop, ok_bind, accu_run, addAssignment, setAccu,
    translate_pure, Except.ok.injEq, Prod.mk.injEq] at hexit
  obtain ⟨rfl, rfl⟩ := hexit
  clear h
  refine Implements.finishes (m := step .translated start (.apply nvars))
    (f := fun _ => pure (.goto retloc)) (implements_assign rfl rfl (fun k => ?_) fun d => ?_)
    fun d => rfl
  · simp [Nat.add_assoc]
  · simp [SSAExpr.eval, SSAStackState.eval, MachineState.picks]
    rfl

/-- A tail call takes its arguments from the stack that it leaves. -/
theorem applyTerm_finishes {σ σ' : Translation} {nargs slotSize : Nat} {e : SSAExit}
    (h : processFinalInstruction (.applyTerm nargs slotSize) .tailCall σ = .ok (e, σ')) :
    Finishes (O := O) start σ σ' e
      (finish .translated start (.applyTerm nargs slotSize) .tailCall) := by
  simp only [processFinalInstruction, translate_bind, picks_run, pop, ok_bind, accu_run,
    translate_pure, Except.ok.injEq, Prod.mk.injEq] at h
  obtain ⟨rfl, rfl⟩ := h
  refine finishes_move rfl fun d => ?_
  refine congrArg (pure : Ending × MachineState → Act O _) (Prod.ext ?_
    (MachineState.ext ?_ fun k => ?_))
  · simp [SSAStackState.eval, MachineState.picks]
  · simp [SSAStackState.eval, MachineState.pop]
  · simp [SSAStackState.eval, MachineState.pop]

/-- A switch on the accumulator. -/
theorem switch_finishes {σ σ' : Translation} {v : SSAVar} (ints blocks : List Nat)
    (h : accu σ = .ok (v, σ')) :
    Finishes (O := O) start σ σ' (.switch v ints blocks) fun s =>
      switchTarget ints blocks s.accu >>= fun l => pure (.goto l, s) := by
  cases h
  have hread : Finishes (O := O) start σ _ (.switch σ.state.accu ints blocks) _ :=
    (read_implements .acc).finishes
      (f := fun s => switchTarget ints blocks s.accu >>= fun l => pure (.goto l))
      fun d => by simp [SSAExit.eval, SSAStackState.eval]
  simp only [Act.bind_assoc, Act.pure_bind] at hread
  exact hread

/-- The four slots of a trap frame. -/
theorem pushTrap_finishes (σ : Translation) (normal trap : Nat) :
    Finishes (O := O) start σ
      (σ.withState ((((σ.state.push .special).push .special).push .special).push .special))
      (.pushTrap normal trap) (finish .translated start (.pushTrap trap) (.pushTrap normal trap)) := by
  refine finishes_move rfl fun d => ?_
  refine congrArg (fun s => (pure (_, s) : Act O (Ending × MachineState)))
    (MachineState.ext rfl fun k => ?_)
  match k with
  | 0 | 1 | 2 | 3 => rfl
  | k + 4 => simp [SSAStackState.eval, MachineState.push]

/-- A body instruction, and the jump to the block after it. -/
theorem fallThrough_finishes {σ σ' : Translation} {i : Instruction Nat} (target : Nat)
    (h : processBodyInstruction i σ = .ok ((), σ')) :
    Finishes (O := O) start σ σ' (.jump target)
      (finish .translated start i (.unconditionalJump target)) := by
  have hstep : Finishes (O := O) start σ σ' (.jump target) _ :=
    (processBodyInstruction_implements h).finishes (f := fun _ => pure (.goto target)) fun d => rfl
  -- a control instruction in the body would have been an error
  rw [show finish .translated start i (.unconditionalJump target) = fun s =>
    step .translated start i s >>= fun s' => (pure (.goto target, s') : Act O _) by
      cases i <;> first | rfl | cases h]
  exact hstep

/-- **The ends of blocks** `process_final_instruction` has a case for. -/
inductive KnownEnd : Instruction Nat → BlockExit → Prop
  | stop : KnownEnd .stop .stop
  | branch (n target : Nat) : KnownEnd (.branch n) (.unconditionalJump target)
  | return_ (count : Nat) : KnownEnd (.return_ count) .return_
  | branchIf (n ift iff : Nat) : KnownEnd (.branchIf n) (.conditionalJump ift iff)
  | branchIfNot (n iff ift : Nat) : KnownEnd (.branchIfNot n) (.conditionalJump iff ift)
  | branchCmp (cmp : Comp) (compare : Int) (n ift iff : Nat) :
      KnownEnd (.branchCmp cmp compare n) (.conditionalJump ift iff)
  | raise (kind : RaiseKind) : KnownEnd (.raise kind) .raise
  | apply (nvars retloc : Nat) : KnownEnd (.apply nvars) (.unconditionalJump retloc)
  | applyTerm (nargs slotSize : Nat) : KnownEnd (.applyTerm nargs slotSize) .tailCall
  | switch (ints blocks ints' blocks' : List Nat) :
      KnownEnd (.switch ints blocks) (.switch ints' blocks')
  | pushTrap (trap normal trap' : Nat) : KnownEnd (.pushTrap trap) (.pushTrap normal trap')
  | fallThrough (i : Instruction Nat) (target : Nat)
      (heq : processFinalInstruction i (.unconditionalJump target) = do
        processBodyInstruction i
        pure (.jump target)) : KnownEnd i (.unconditionalJump target)

/-- No other end of a block is translated. -/
theorem knownEnd_of_eq_ok {σ : Translation} {i : Instruction Nat} {exit : BlockExit}
    {r : SSAExit × Translation} (h : processFinalInstruction i exit σ = .ok r) :
    KnownEnd i exit := by
  cases exit with
  | unconditionalJump target =>
      cases i with
      | branch n => exact .branch n target
      | apply nvars => exact .apply nvars target
      | _ => exact .fallThrough _ target rfl
  | stop =>
      cases i with
      | stop => exact .stop
      | _ => cases h
  | return_ =>
      cases i with
      | return_ count => exact .return_ count
      | _ => cases h
  | conditionalJump target next =>
      cases i with
      | branchIf n => exact .branchIf n target next
      | branchIfNot n => exact .branchIfNot n target next
      | branchCmp cmp compare n => exact .branchCmp cmp compare n target next
      | _ => cases h
  | raise =>
      cases i with
      | raise kind => exact .raise kind
      | _ => cases h
  | tailCall =>
      cases i with
      | applyTerm nargs slotSize => exact .applyTerm nargs slotSize
      | _ => cases h
  | switch ints' blocks' =>
      cases i with
      | switch ints blocks => exact .switch ints blocks ints' blocks'
      | _ => cases h
  | pushTrap normal trap' =>
      cases i with
      | pushTrap trap => exact .pushTrap trap normal trap'
      | _ => cases h

/-- `process_final_instruction`. -/
theorem processFinalInstruction_finishes {σ σ' : Translation} {i : Instruction Nat}
    {exit : BlockExit} {e : SSAExit} (h : processFinalInstruction i exit σ = .ok (e, σ')) :
    Finishes (O := O) start σ σ' e (finish .translated start i exit) := by
  cases knownEnd_of_eq_ok h with
  | stop =>
      cases h
      exact (read_implements .acc).finishes (f := fun s => pure (.stopped s.accu)) fun d => by
        simp [SSAExit.eval, SSAStackState.eval]
  | branch n target =>
      obtain ⟨rfl, hexit⟩ := ensureThat_bind h
      cases hexit
      exact finishes_move rfl fun d => rfl
  | return_ count =>
      obtain ⟨⟨⟩, σ₁, hpop, hexit⟩ := stateT_bind_eq_ok.mp h
      cases hpop
      cases hexit
      exact ((pop_implements count).comp (read_implements .acc)).finishes
        (f := fun s => pure (.returned s.accu)) fun d => by simp [SSAExit.eval, SSAStackState.eval]
  | branchIf n ift iff =>
      obtain ⟨rfl, hexit⟩ := ensureThat_bind h
      obtain ⟨v, σ₂, haccu, hjump⟩ := stateT_bind_eq_ok.mp hexit
      cases hjump
      exact jumpIf_finishes n iff haccu
  | branchIfNot n iff ift =>
      obtain ⟨rfl, hexit⟩ := ensureThat_bind h
      obtain ⟨v, σ₂, haccu, hpure⟩ := stateT_bind_eq_ok.mp hexit
      cases hpure
      exact jumpIfNot_finishes n ift haccu
  -- the constant is compared first, and the result branched on
  | branchCmp cmp compare n ift iff =>
      obtain ⟨rfl, hexit⟩ := ensureThat_bind h
      obtain ⟨v, σ₂, haccu, hcmp⟩ := stateT_bind_eq_ok.mp hexit
      obtain ⟨w, σ₃, hassign, hpure⟩ := stateT_bind_eq_ok.mp hcmp
      cases hpure
      have hjump : Finishes (O := O) start σ σ' _ _ := branchCmp_finishes n iff haccu hassign
      rw [show finish .translated start (.branchCmp cmp compare n) (.conditionalJump n iff) =
        fun s => cmpCell cmp (.ofInt compare) s.accu >>= fun c => truth c >>= fun b =>
          (pure (.goto (if b then n else iff), s) : Act O _) from
        funext fun s => Act.bind_assoc _ _ _]
      exact hjump
  | raise kind =>
      cases h
      exact (read_implements .acc).finishes (f := fun s => pure (.raised kind s.accu)) fun d => by
        simp [SSAExit.eval, SSAStackState.eval]
  | apply nvars retloc => exact apply_finishes h
  | applyTerm nargs slotSize => exact applyTerm_finishes h
  | switch ints blocks ints' blocks' =>
      obtain ⟨rfl, hblocks⟩ := ensureThat_bind h
      obtain ⟨rfl, hexit⟩ := ensureThat_bind hblocks
      obtain ⟨v, σ₂, haccu, hpure⟩ := stateT_bind_eq_ok.mp hexit
      cases hpure
      exact switch_finishes ints blocks haccu
  | pushTrap trap normal trap' =>
      obtain ⟨rfl, hexit⟩ := ensureThat_bind h
      cases hexit
      exact pushTrap_finishes σ normal trap
  -- an instruction of the inside, and a jump to the next block
  | fallThrough i target heq =>
      rw [heq] at h
      obtain ⟨⟨⟩, σ₁, hbody, hexit⟩ := stateT_bind_eq_ok.mp h
      cases hexit
      exact fallThrough_finishes target hbody

/-! ## §9. Blocks. -/

/-- A body, and the end of a block. -/
theorem Implements.thenFinishes {σ σ₁ σ₂ : Translation} {exit : SSAExit}
    {m : MachineState → Act O MachineState} {f : MachineState → Act O (Ending × MachineState)}
    (hbody : Implements start σ σ₁ m) (hend : Finishes start σ₁ σ₂ exit f) :
    Finishes start σ σ₂ exit fun s => m s >>= f := by
  intro hσ
  obtain ⟨hσ₁, -, ts, hts, hrun⟩ := hbody hσ
  obtain ⟨us, hus, hfinish⟩ := hend hσ₁
  refine ⟨ts ++ us, by rw [hus, hts, List.append_assoc], fun d => ?_⟩
  show _ = m (σ.state.eval start d) >>= f
  rw [runStatements_append, Act.bind_assoc, ← hrun d, Act.bind_assoc]
  exact congrArg (runStatements start ts d >>= ·) (funext fun d' => hfinish d')

/-- The instructions of a block from a state on. -/
theorem runInstructions_finishes {exit : BlockExit} {last : Instruction Nat} {e : SSAExit} :
    ∀ {is : List (Instruction Nat)} {σ σ₁ σ₂ : Translation},
      is.forM processBodyInstruction σ = .ok ((), σ₁) →
      processFinalInstruction last exit σ₁ = .ok (e, σ₂) →
      Finishes (O := O) start σ σ₂ e (runInstructions .translated start exit (is ++ [last]))
  | [], σ, σ₁, σ₂, hbody, hlast => by
      cases hbody
      exact processFinalInstruction_finishes hlast
  | i :: is, σ, σ₁, σ₂, hbody, hlast => by
      have hcons : (processBodyInstruction i >>= fun _ => is.forM processBodyInstruction) σ =
        .ok ((), σ₁) := hbody
      obtain ⟨⟨⟩, σ', hi, his⟩ := stateT_bind_eq_ok.mp hcons
      have hboth : Finishes (O := O) start σ σ₂ e _ :=
        (processBodyInstruction_implements hi).thenFinishes (runInstructions_finishes his hlast)
      cases is <;> exact hboth

/-- One argument is on top of the stack. -/
theorem withArgs_one (stack : Nat → Cell) :
    withArgs start 1 stack = fun | 0 => start.arg 0 | k + 1 => stack k := by
  funext k
  cases k <;> rfl

/-- Arguments are pushed from the last one on. -/
theorem withArgs_succ (n : Nat) (stack : Nat → Cell) :
    withArgs start (n + 1) (fun | 0 => start.arg (n + 1) | k + 1 => stack k) =
      withArgs start (n + 2) stack := by
  funext k
  unfold withArgs
  rcases Nat.lt_trichotomy k (n + 1) with hk | hk | hk
  · rw [if_pos hk, if_pos (by omega)]
  · subst hk
    rw [if_neg (by omega), if_pos (by omega), Nat.sub_self]
  · rw [if_neg (by omega), if_neg (by omega), show k - (n + 1) = (k - (n + 2)) + 1 by omega]

/-- The arguments, the first on top. -/
theorem pushArgs_implements : ∀ {nargs : Nat} {σ σ' : Translation},
    pushArgs nargs σ = .ok ((), σ') →
      Implements (O := O) start σ σ' fun s =>
        pure { s with stack := withArgs start (nargs + 1) s.stack }
  | 0, σ, σ', h => by
      cases h
      simp only [Nat.zero_add, withArgs_one]
      exact push_implements (v := .arg 0) (c := fun _ => start.arg 0) (fun _ => knows_of_ne nofun)
        fun _ => rfl
  | nargs + 1, σ, σ', h => by
      obtain ⟨⟨⟩, σ₁, hpush, hrest⟩ := stateT_bind_eq_ok.mp h
      cases hpush
      simp only [← withArgs_succ]
      exact (push_implements (v := .arg (nargs + 1)) (c := fun _ => start.arg (nargs + 1))
        (fun _ => knows_of_ne nofun) fun _ => rfl).comp (pushArgs_implements hrest)

/-- What `translate_block` does for the entry block. -/
theorem enterClosure_implements (start : Start) {σ σ' : Translation} {is : List (Instruction Nat)} {b : Bool}
    (h : enterClosure is σ = .ok (b, σ')) :
    (∃ nargs rest, is = .grab nargs :: rest ∧ b = true ∧ Implements (O := O) start σ σ' fun s => do
        tell (.grab nargs)
        pure ⟨.unspecified, withArgs start (nargs + 1) s.stack⟩) ∨
      (∀ nargs rest, is ≠ .grab nargs :: rest) ∧ b = false ∧ Implements (O := O) start σ σ'
        fun s => pure ⟨.unspecified, withArgs start 1 s.stack⟩ := by
  obtain ⟨⟨⟩, σ₁, haccu, hrest⟩ := stateT_bind_eq_ok.mp h
  have hjunk : Implements (O := O) start σ σ₁ fun s => pure (s.withAccu .unspecified) := by
    cases haccu
    exact setAccu_implements (v := .junk) (c := fun _ => .unspecified) (fun _ => knows_of_ne nofun)
      fun _ => rfl
  split at hrest
  · rename_i nargs rest
    obtain ⟨⟨⟩, σ₂, hargs, hgrab⟩ := stateT_bind_eq_ok.mp hrest
    have hstatement : Implements (O := O) start σ₂ σ' fun s =>
        tell (.grab nargs) >>= fun _ => pure s := by
      cases hgrab
      exact implements_statement (t := .grab nargs) (fun _ => .grab nargs) 0 rfl
        (fun hσ => hσ.accu) (fun k => congrArg σ₂.state.slot (Nat.zero_add k).symm)
        (fun _ => rfl) fun d => by
          simp [MachineState.withAccu, MachineState.pop, SSAStackState.eval]
    cases hgrab
    exact .inl ⟨nargs, rest, rfl, rfl,
      hjunk.comp ((pushArgs_implements hargs).comp hstatement)⟩
  · rename_i hgrab
    refine .inr ⟨fun nargs rest his => hgrab nargs rest his, ?_⟩
    cases hrest
    simp only [withArgs_one]
    exact ⟨trivial, hjunk.comp (push_implements (v := .arg 0) (c := fun _ => start.arg 0)
      (fun _ => knows_of_ne nofun) fun _ => rfl)⟩

/-- The instructions from `first` on are a body and a last one. -/
theorem translateFrom_split {block : Block} {first : Nat} {σ σ' : Translation} {e : SSAExit}
    (h : translateFrom block first σ = .ok (e, σ')) :
    ∃ body last σ₁, block.instructions.drop first = body ++ [last] ∧
      body.forM processBodyInstruction σ = .ok ((), σ₁) ∧
      processFinalInstruction last block.exit σ₁ = .ok (e, σ') := by
  unfold translateFrom at h
  split at h
  · rename_i hfirst
    obtain ⟨⟨⟩, σ₁, hbody, hlast⟩ := stateT_bind_eq_ok.mp h
    cases hl : block.instructions.getLast? with
    | none =>
        rw [hl] at hlast
        cases hlast
    | some last =>
        rw [hl] at hlast
        refine ⟨_, last, σ₁, ?_, hbody, hlast⟩
        rw [← List.drop_append_of_le_length (by simpa using hfirst), ← List.dropLast_eq_take,
          List.dropLast_append_getLast? last hl]
  · cases h

/-- The instructions from `first` on. -/
theorem translateFrom_finishes {block : Block} {first : Nat} {σ σ' : Translation} {e : SSAExit}
    (h : translateFrom block first σ = .ok (e, σ')) :
    Finishes (O := O) start σ σ' e
      (runInstructions .translated start block.exit (block.instructions.drop first)) := by
  obtain ⟨body, last, σ₁, hsplit, hbody, hlast⟩ := translateFrom_split h
  rw [hsplit]
  exact runInstructions_finishes hbody hlast

/-- The state a block starts in. -/
theorem eval_new (blockNum : Nat) (d : Defs) :
    (SSAStackState.eval start d (Translation.state ⟨.new, .new blockNum⟩)) =
      ⟨start.accu, start.stack⟩ := by
  refine MachineState.ext rfl fun k => ?_
  show (SSAStackState.new.slot k).eval start d = start.stack k
  rw [SSAStackState.new_slot]
  rfl

/-- A whole block, from its start. -/
theorem Finishes.block {blockNum : Nat} {σ : Translation} {e : SSAExit}
    {m : MachineState → Act O (Ending × MachineState)}
    (h : Finishes start ⟨.new, .new blockNum⟩ σ e m) :
    runSsaBlock start ⟨σ.vars.statements, e, σ.state⟩ = m ⟨start.accu, start.stack⟩ := by
  obtain ⟨added, hstatements, hrun⟩ := h ⟨knows_of_ne nofun, fun k => by
    rw [SSAStackState.new_slot]
    exact knows_of_ne nofun⟩
  rw [← eval_new blockNum fun _ _ => .unspecified, ← hrun]
  unfold runSsaBlock
  rw [hstatements]
  rfl

/-- **The statements and the final state of a block are the run of the machine that
`translate_block` follows.** -/
theorem runSsaBlock_eq {block : Block} {blockNum : Nat} {kind : BlockKind} {b : SSABlock}
    (h : translateBlock block blockNum kind.isEntry kind.isTrapHandler = .ok b) :
    (runSsaBlock start b : Act O _) = runBlock .translated start kind block := by
  obtain ⟨⟨⟩, -, hblock⟩ := bind_eq_ok.mp h
  obtain ⟨⟨e, σ⟩, htranslate, hb⟩ := bind_eq_ok.mp hblock
  cases hb
  obtain ⟨⟨⟩, σ₁, htrap, hentry⟩ := stateT_bind_eq_ok.mp htranslate
  obtain ⟨hasGrab, σ₂, hentry, hfrom⟩ := stateT_bind_eq_ok.mp hentry
  have hfinish : Finishes (O := O) start σ₂ σ e _ := translateFrom_finishes hfrom
  cases kind with
  | ordinary =>
      cases htrap
      cases hentry
      exact hfinish.block
  -- a handler starts with the exception in the accumulator, and its frame goes
  | trapHandler =>
      have hhandler : Implements (O := O) start ⟨.new, .new blockNum⟩ σ₁ fun s =>
          pure ((s.withAccu start.accu).pop 4) := by
        cases htrap
        exact (setAccu_implements (v := .trapAcc) (c := fun _ => start.accu)
          (fun _ => knows_of_ne nofun) fun _ => rfl).comp (pop_implements 4)
      cases hentry
      exact (hhandler.thenFinishes hfinish).block
  | entry =>
      cases htrap
      -- a function starts with its arguments on the stack, checked by a `GRAB` or one
      rcases enterClosure_implements (O := O) start hentry with
        ⟨nargs, rest, his, rfl, hgrab⟩ | ⟨hnone, rfl, harg⟩
      · have hrun := (hgrab.thenFinishes hfinish).block
        rw [his] at hrun
        unfold runBlock
        rw [his]
        exact hrun.trans (Act.bind_assoc _ _ _)
      · have hrun := (harg.thenFinishes hfinish).block
        unfold runBlock
        split
        · cases ‹BlockKind.entry = .ordinary›
        · cases ‹BlockKind.entry = .trapHandler›
        · exact absurd ‹_› (hnone _ _)
        · exact hrun

end OcamlJit.CleverDis.Ssa

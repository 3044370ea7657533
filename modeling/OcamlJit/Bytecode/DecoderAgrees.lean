/-
  OcamlJit.Bytecode.DecoderAgrees
  ───────────────────────────────
  **THE DECODED STREAM DOES WHAT THE INTERPRETER DOES.**

  `Agrees` relates a case of the interpreter to the reader of its operands: where
  the reader succeeds, the instructions it gives have the effect of the case.  It
  goes along the operands one by one, so an opcode is checked by listing them.

    • `agrees_readOperands` — every opcode,
    • `interpStep_agrees` — the step at an offset and the instructions decoded
      there,
    • `interpRun_agrees` — runs of any length.
-/
import OcamlJit.Bytecode.CodeLayout
import OcamlJit.Bytecode.Interpreter

namespace OcamlJit.Bytecode

open OcamlJit.Lib OcamlJit.Instructions OcamlJit.Interp Exec

/-- Registers with `pc` at an offset. -/
def Regs.atOffset (r : Regs) (p : Nat) : Regs := { r with pc := .here p }

variable {O : Oracle Effect Value} {im : Image} {code : List Word}

/-! ## §1. Steps applied to registers. -/

section Apply

variable {α β γ : Type} (r : Regs)

/-- A bind runs its first part, and the second from the registers it leaves. -/
theorem exec_bind (x : Exec O α) (f : α → Exec O β) :
    (x >>= f) r = x r >>= fun p => f p.1 p.2 := rfl

theorem exec_pure (a : α) : (pure a : Exec O α) r = pure (a, r) := rfl

theorem exec_bind_assoc (x : Exec O α) (f : α → Exec O β) (g : β → Exec O γ) :
    x >>= f >>= g = x >>= fun a => f a >>= g := by
  funext r
  simp only [exec_bind, Act.bind_assoc]

/-- What is there is what is demanded. -/
theorem demand_apply {f : Regs → Option α} {a : α} (h : f r = some a) :
    (demand f : Exec O α) r = pure (a, r) := by
  simp only [demand, h, Act.ofOption_some, Act.pure_bind]

/-- Where there is nothing, the case has no meaning. -/
theorem demand_none {f : Regs → Option α} (h : f r = none) :
    (demand f : Exec O α) r = Act.stuck := by
  simp only [demand, h, Act.ofOption_none, Act.stuck_bind]

variable {r} {p : Nat} {w : Word}

/-- A demand that holds costs nothing. -/
theorem require_apply {b : Bool} (h : b = true) :
    (require b : Exec O Unit) r = pure ((), r) :=
  demand_apply _ (if_pos h)

/-- Where it does not hold, the case has no meaning. -/
theorem require_stuck {b : Bool} (h : b = false) : (require b : Exec O Unit) r = Act.stuck :=
  demand_none _ (if_neg (by rw [h]; exact Bool.false_ne_true))

/-- Looking ahead leaves the counter where it is. -/
theorem peekAt_apply {n : Nat} (h : code[p + n]? = some w) :
    (peekAt code n : Exec O Word) (r.atOffset p) = pure (w, r.atOffset p) := by
  refine demand_apply _ ?_
  show (if (0 : Int) ≤ (p : Int) then code[(p : Int).toNat + n]? else none) = some w
  rw [if_pos (Int.natCast_nonneg p), Int.toNat_natCast, h]

/-- The counter is the offset of the next word. -/
theorem offset_apply : (offset : Exec O Int) (r.atOffset p) = pure ((p : Int), r.atOffset p) := rfl

/-- A fetch takes the word at the counter and moves on by one. -/
theorem fetch_apply (h : code[p]? = some w) :
    (fetch code : Exec O Word) (r.atOffset p) = pure (w, r.atOffset (p + 1)) := by
  rw [fetch, exec_bind, peekAt_apply (n := 0) h]
  rfl

/-- A target is relative to the word it is read from. -/
theorem fetchTarget_apply (h : code[p]? = some w) :
    (fetchTarget code : Exec O Int) (r.atOffset p) =
      pure (labelTarget (p, w), r.atOffset (p + 1)) := by
  rw [fetchTarget, exec_bind, target, exec_bind, peekAt_apply (n := 0) h]
  rfl

/-- A table of targets, all relative to its first word. -/
theorem targets_apply {n : Nat} (h : n ≤ code.length - p) :
    (targets code n : Exec O (List Int)) (r.atOffset p) =
      pure (((code.drop p).take n).map fun w => labelTarget (p, w), r.atOffset (p + n)) := by
  rw [targets, exec_bind, offset_apply, Act.pure_bind, exec_bind,
    demand_apply (a := (code.drop p).take n) _ (by rw [Int.toNat_natCast, if_pos h])]
  rfl

end Apply

/-! ## §2. Cases and readers. -/

section Rules

variable {own p : Nat} {k : Exec O Next}

/-- Where the reader of the operands at `p` succeeds, its instructions have the
effect of the case. -/
def Agrees (im : Image) (code : List Word) (own p : Nat) (k : Exec O Next)
    (r : Reader (List (Instruction Nat))) : Prop :=
  ∀ is q, ReadsTo code r p is q → ∀ regs : Regs,
    Sim Eq (k (regs.atOffset p)) (meanings im own is (regs.atOffset q))

/-- Nothing is left to read: what the instructions mean is what is left to do. -/
theorem agrees_pure {is : List (Instruction Nat)}
    (h : ∀ regs : Regs, Sim Eq (k (regs.atOffset p)) (meanings im own is (regs.atOffset p))) :
    Agrees im code own p k (pure is) := by
  intro is' q hr
  obtain ⟨rfl, rfl⟩ := readsTo_pure.mp hr
  exact h

/-- The case is the meaning of the instructions. -/
theorem agrees_done {is : List (Instruction Nat)} (h : k = meanings im own is) :
    Agrees im code own p k (pure is) := by
  refine agrees_pure fun regs => ?_
  rw [h]
  exact Sim.same _

/-- An operand is one word on both sides, whatever it is read as. -/
theorem agrees_fetch {β : Type} {g : Word → β} {f : β → Reader (List (Instruction Nat))}
    {k : Word → Exec O Next}
    (h : ∀ w, code[p]? = some w → Agrees im code own (p + 1) (k w) (f (g w))) :
    Agrees im code own p (fetch code >>= k) ((Reader.i32 >>= fun w => pure (g w)) >>= f) := by
  intro is q hr regs
  obtain ⟨w, hw, hr⟩ := readsTo_map_bind.mp hr
  rw [exec_bind, fetch_apply hw]
  exact h w hw is q hr regs

/-- An operand the decoder reads as a `u32`. -/
theorem agrees_fetch_u32 {f : Nat → Reader (List (Instruction Nat))} {k : Word → Exec O Next}
    (h : ∀ w, code[p]? = some w → Agrees im code own (p + 1) (k w) (f (u32OfWord w))) :
    Agrees im code own p (fetch code >>= k) (Reader.u32 >>= f) :=
  agrees_fetch h

/-- An operand the decoder cuts to a `u8`. -/
theorem agrees_fetch_u8 {f : Nat → Reader (List (Instruction Nat))} {k : Word → Exec O Next}
    (h : ∀ w, code[p]? = some w → Agrees im code own (p + 1) (k w) (f (u8OfWord w))) :
    Agrees im code own p (fetch code >>= k) (Reader.u8 >>= f) :=
  agrees_fetch h

/-- An operand the decoder reads as an `i32`. -/
theorem agrees_fetch_sint {f : Int → Reader (List (Instruction Nat))} {k : Word → Exec O Next}
    (h : ∀ w, code[p]? = some w → Agrees im code own (p + 1) (k w) (f w.toInt)) :
    Agrees im code own p (fetch code >>= k) (Reader.sint >>= f) :=
  agrees_fetch h

/-- A label is the offset of its target, where the sum does not overflow. -/
theorem agrees_fetchTarget {f : Nat → Reader (List (Instruction Nat))}
    {k : Int → Exec O Next} (hfit : ∀ e ∈ labelTable code p 1, SumFits e)
    (h : ∀ l : Nat, Agrees im code own (p + 1) (k l) (f l)) :
    Agrees im code own p (fetchTarget code >>= k) (Reader.label >>= f) := by
  intro is q hr regs
  obtain ⟨w, hw, l, hl, hr⟩ := readsTo_label_bind.mp hr
  rw [forall_mem_labelTable, take_one_drop hw] at hfit
  rw [resolveLabel_eq_ok (hfit w List.mem_cons_self)] at hl
  rw [exec_bind, fetchTarget_apply hw, hl]
  exact h l is q hr regs

/-- `*--sp = accu` before the operands are fetched. -/
theorem pushThen_fetch (k : Word → Exec O Next) :
    pushThen (fetch code >>= k) = fetch code >>= fun w => pushThen (k w) := by
  funext r
  obtain ⟨pc, accu, env, extraArgs, stack, trapsp⟩ := r
  cases pc with
  | loaded addr => rfl
  | here p =>
      by_cases hp : 0 ≤ p
      · cases hw : code[p.toNat]? with
        | none => simp [pushThen, fetch, exec_bind, peekAt, demand, hp, hw, doPush, reg, push,
            pushWords, update]
        | some w => simp [pushThen, fetch, exec_bind, peekAt, demand, hp, hw, doPush, reg, push,
            pushWords, update, advance, setPc, exec_pure]
      · simp [pushThen, fetch, exec_bind, peekAt, demand, hp, doPush, reg, push,
            pushWords, update]

end Rules

/-! ## §3. Meanings of the decoded operands. -/

section Meanings

variable {own : Nat}

@[simp] theorem ofU32_u32OfWord (w : Word) : ofU32 (u32OfWord w) = w := BitVec.ofNat_toNat 32 w

@[simp] theorem ofI32_toInt (w : Word) : ofI32 w.toInt = w := BitVec.ofInt_toInt

/-- A case that ends with `Next` hands `fetch` on. -/
theorem next_bind (x : Exec O Unit) (f : Next → Exec O Next) :
    next x >>= f = x >>= fun _ => f .fetch := by
  rw [next, exec_bind_assoc]
  rfl

/-- One instruction means what it means alone. -/
theorem meanings_singleton (i : Instruction Nat) :
    (meanings im own [i] : Exec O Next) = meaning im own i := by
  funext r
  rw [meanings, exec_bind]
  conv_rhs => rw [← Act.bind_pure (meaning im own i r)]
  congr 1
  funext ⟨n, r'⟩
  cases n <;> rfl

/-- The push comes first, and cannot leave the loop. -/
theorem meanings_push (is : List (Instruction Nat)) :
    (meanings im own (.push :: is) : Exec O Next) = pushThen (meanings im own is) := by
  rw [meanings, meaning, next_bind]
  rfl

end Meanings

/-! ## §4. Opcodes by the shape of their operands. -/

section Shapes

variable {own p : Nat} {k : Exec O Next}

/-- An opcode without operands. -/
theorem agrees_single {i : Instruction Nat} (h : k = meaning im own i) :
    Agrees im code own p k (pure [i]) :=
  agrees_done (h.trans (meanings_singleton i).symm)

/-- A `PUSH` opcode without operands. -/
theorem agrees_push {i : Instruction Nat} (h : k = pushThen (meaning im own i)) :
    Agrees im code own p k (pure [.push, i]) :=
  agrees_done (h.trans (by rw [meanings_push, meanings_singleton]))

/-- An opcode with one unsigned operand. -/
theorem agrees_u32 {k : Word → Exec O Next} {i : Nat → Instruction Nat}
    (h : ∀ w, k w = meaning im own (i (u32OfWord w))) :
    Agrees im code own p (fetch code >>= k) (Reader.u32 >>= fun n => pure [i n]) :=
  agrees_fetch_u32 fun w _ => agrees_single (h w)

/-- A `PUSH` opcode with one unsigned operand. -/
theorem agrees_push_u32 {k : Word → Exec O Next} {i : Nat → Instruction Nat}
    (h : ∀ w, k w = meaning im own (i (u32OfWord w))) :
    Agrees im code own p (pushThen (fetch code >>= k))
      (Reader.u32 >>= fun n => pure [.push, i n]) := by
  rw [pushThen_fetch]
  exact agrees_fetch_u32 fun w _ => agrees_push (by rw [h])

/-- An opcode with one signed operand. -/
theorem agrees_sint {k : Word → Exec O Next} {i : Int → Instruction Nat}
    (h : ∀ w : Word, k w = meaning im own (i w.toInt)) :
    Agrees im code own p (fetch code >>= k) (Reader.sint >>= fun n => pure [i n]) :=
  agrees_fetch_sint fun w _ => agrees_single (h w)

/-- A `PUSH` opcode with one signed operand. -/
theorem agrees_push_sint {k : Word → Exec O Next} {i : Int → Instruction Nat}
    (h : ∀ w : Word, k w = meaning im own (i w.toInt)) :
    Agrees im code own p (pushThen (fetch code >>= k))
      (Reader.sint >>= fun n => pure [.push, i n]) := by
  rw [pushThen_fetch]
  exact agrees_fetch_sint fun w _ => agrees_push (by rw [h])

/-- An opcode with one label. -/
theorem agrees_label {k : Int → Exec O Next} {i : Nat → Instruction Nat}
    (hfit : ∀ e ∈ labelTable code p 1, SumFits e) (h : ∀ l : Nat, k l = meaning im own (i l)) :
    Agrees im code own p (fetchTarget code >>= k) (Reader.label >>= fun l => pure [i l]) :=
  agrees_fetchTarget hfit fun l => agrees_single (h l)

end Shapes

/-! ## §5. Opcodes that stand for another form. -/

section Forms

variable {own p : Nat} {r : Regs}

/-- `PUSHACC0` leaves the accumulator as it is. -/
theorem pushThen_acc0 : (pushThen (next (doAcc 0)) : Exec O Next) = next doPush := by
  funext r
  rfl

/-- The cast to a `u8` keeps a tag below 256. -/
theorem u8OfWord_eq {w : Word} (h : usizeOfWord w < 256) : u8OfWord w = usizeOfWord w := by
  have hlt := w.isLt
  simp only [usizeOfWord, u8OfWord, BitVec.toNat_signExtend, BitVec.toNat_setWidth] at *
  cases hm : w.msb <;> simp only [hm, if_true, if_false, Bool.false_eq_true] at * <;> omega

/-- And its sign extension is the word's own. -/
theorem ofNat_u8OfWord {w : Word} (h : usizeOfWord w < 256) :
    BitVec.ofNat 64 (u8OfWord w) = w.signExtend 64 := by
  rw [u8OfWord_eq h, BitVec.ofNat_toNat, BitVec.setWidth_eq]

/-- The global is loaded with `pc` before or behind the second operand. -/
theorem doGetGlobal_fetch {n w : Word} {k : Word → Exec O Next} (h : code[p]? = some w) :
    (doGetGlobal im n >>= fun _ => fetch code >>= k) (r.atOffset p) =
      (doGetGlobal im n >>= fun _ => k w) (r.atOffset (p + 1)) := by
  have hload : ∀ r : Regs, (doGetGlobal im n : Exec O Unit) r =
      Act.perform (.request (.load im.globalData)) >>= fun globals =>
        Act.perform (.request (.load (field globals (n.signExtend 64)))) >>= fun v =>
          pure ((), { r with accu := v }) := by
    intro r
    simp only [doGetGlobal, loadField, ask, perform, setAccu, update, exec_bind,
      Act.bind_assoc, Act.pure_bind]
  simp only [exec_bind, hload, Act.bind_assoc, Act.pure_bind]
  refine congrArg _ (funext fun globals => congrArg _ (funext fun v => ?_))
  show ((fetch code >>= k) (Regs.atOffset { r with accu := v } p)) = _
  rw [exec_bind, fetch_apply h]
  rfl

/-- `GETGLOBALFIELD` is `GETGLOBAL` and `GETFIELD`. -/
theorem agrees_getGlobalField {n : Word} :
    Agrees im code own p (doGetGlobal im n >>= fun _ => fetch code >>= fun m =>
        next (doGetField m) : Exec O Next)
      (Reader.u32 >>= fun m => pure [.getGlobal (u32OfWord n), .getField m]) := by
  intro is q hr regs
  obtain ⟨w, hw, hr⟩ := readsTo_u32_bind.mp hr
  obtain ⟨rfl, rfl⟩ := readsTo_pure.mp hr
  rw [doGetGlobal_fetch hw, meanings, meanings_singleton, meaning, meaning, next_bind,
    ofU32_u32OfWord, ofU32_u32OfWord]
  exact Sim.same _

/-- `PUSHGETGLOBALFIELD` is three instructions. -/
theorem agrees_push_getGlobalField {n : Word} :
    Agrees im code own p (pushThen (doGetGlobal im n >>= fun _ => fetch code >>= fun m =>
        next (doGetField m)) : Exec O Next)
      (Reader.u32 >>= fun m => pure [.push, .getGlobal (u32OfWord n), .getField m]) := by
  intro is q hr regs
  obtain ⟨w, hw, hr⟩ := readsTo_u32_bind.mp hr
  obtain ⟨rfl, rfl⟩ := readsTo_pure.mp hr
  rw [meanings_push]
  exact agrees_getGlobalField _ _ (readsTo_u32_bind.mpr ⟨w, hw, readsTo_pure.mpr ⟨rfl, rfl⟩⟩)
    { regs with stack := .val regs.accu :: regs.stack }

/-- The cache word is skipped. -/
theorem agrees_getPubMet :
    Agrees (O := O) im code own p (interpCase im code .getPubMet) (readOperands .getPubMet) := by
  intro is q hr regs
  obtain ⟨tag, htag, hr⟩ := readsTo_sint_bind.mp hr
  obtain ⟨cache, -, hr⟩ := readsTo_u32_bind.mp hr
  obtain ⟨rfl, rfl⟩ := readsTo_pure.mp hr
  rw [meanings, meanings_singleton, meaning, meaning, next_bind, ofI32_toInt]
  have hpeek : (pushThen (peekAt code 0 >>= fun tag => doConst tag >>= fun _ =>
      advance 2 >>= fun _ => next doGetDynMet) : Exec O Next) (regs.atOffset p) =
      (pushThen (doConst tag) >>= fun _ => next doGetDynMet) (regs.atOffset (p + 2)) := by
    have htag' : (peekAt code 0 : Exec O Word)
        (Regs.atOffset { regs with stack := .val regs.accu :: regs.stack } p) =
        pure (tag, Regs.atOffset { regs with stack := .val regs.accu :: regs.stack } p) :=
      peekAt_apply htag
    show (peekAt code 0 : Exec O Word)
      (Regs.atOffset { regs with stack := .val regs.accu :: regs.stack } p) >>= _ = _
    rw [htag']
    rfl
  rw [interpCase, hpeek]
  exact Sim.same _

/-! ### Blocks of one, two or three fields. -/

/-- The requests of `storeAll`. -/
def storesOf (store : Value → Value → Request) (block : Value) : Nat → List Value → Act O Unit
  | _, [] => pure ()
  | i, v :: vs => do
      let _ ← Act.perform (.request (store (fieldN block i) v))
      storesOf store block (i + 1) vs

/-- A request leaves the registers alone. -/
theorem ask_apply (e : Request) :
    (ask e : Exec O Value) r = Act.perform (.request e) >>= fun v => pure (v, r) := rfl

/-- And so does a row of stores. -/
theorem storeAll_apply (store : Value → Value → Request) (block : Value) :
    ∀ (vs : List Value) (i : Nat), (storeAll store block i vs : Exec O Unit) r =
      storesOf store block i vs >>= fun _ => pure ((), r)
  | [], i => rfl
  | v :: vs, i => by
      rw [storeAll, exec_bind, ask_apply]
      simp only [Act.bind_assoc, Act.pure_bind, storeAll_apply store block vs, storesOf]

/-- Popping the words one by one makes the same stores. -/
theorem storePopped_apply (store : Value → Value → Request) (block : Value)
    (rest : List StackWord) :
    ∀ (vs : List Value) (i : Nat) (r : Regs), r.stack = vs.map .val ++ rest →
      (storePopped store block i vs.length : Exec O Unit) r =
        storesOf store block i vs >>= fun _ => pure ((), { r with stack := rest })
  | [], i, r, hr => by
      obtain ⟨pc, accu, env, extraArgs, stack, trapsp⟩ := r
      obtain rfl : stack = rest := hr
      rfl
  | v :: vs, i, r, hr => by
      obtain ⟨pc, accu, env, extraArgs, stack, trapsp⟩ := r
      obtain rfl : stack = .val v :: (vs.map StackWord.val ++ rest) := hr
      have ih := storePopped_apply store block rest vs (i + 1)
        ⟨pc, accu, env, extraArgs, vs.map .val ++ rest, trapsp⟩ rfl
      rw [List.length_cons, storePopped, exec_bind, value, demand_apply (a := v) _ rfl,
        Act.pure_bind, exec_bind, storesOf]
      show (ask _ >>= _ : Exec O Unit) ⟨pc, accu, env, extraArgs, vs.map .val ++ rest, trapsp⟩ = _
      rw [exec_bind, ask_apply, Act.bind_assoc, Act.bind_assoc]
      exact congrArg _ (funext fun _ => ih)

/-- Stack words that are all values. -/
theorem mapM_value?_eq_some :
    ∀ {ws : List StackWord} {vs : List Value}, ws.mapM StackWord.value? = some vs →
      ws = vs.map .val
  | [], vs, h => by
      cases h
      rfl
  | w :: ws, vs, h => by
      rw [List.mapM_cons] at h
      obtain ⟨v, hv, h⟩ := Option.bind_eq_some_iff.mp h
      obtain ⟨vs', hvs, h⟩ := Option.bind_eq_some_iff.mp h
      cases h
      rw [mapM_value?_eq_some hvs]
      cases w with
      | link d => cases hv
      | val v' =>
          cases hv
          rfl

/-- Popping drops the words on top. -/
theorem moveSp_apply {n : Nat} (h : n ≤ r.stack.length) :
    (moveSp n : Exec O Unit) r = pure ((), { r with stack := r.stack.drop n }) := by
  rw [moveSp, exec_bind, demand_apply (a := r.stack.drop n) _ (by simp [h])]
  rfl

/-- Storing the words and then moving `sp` over them, or popping them. -/
theorem doMakeBlockFew_sim {n tag : Nat} (hn : n + 1 ≤ maxYoungWosize) :
    Sim Eq ((doMakeBlockFew (n + 1) tag : Exec O Unit) r) (doMakeBlock (n + 1) tag r) := by
  rw [doMakeBlockFew, doMakeBlock, if_pos hn, exec_bind, exec_bind]
  refine Sim.same_bind fun ⟨block, r'⟩ => ?_
  rw [exec_bind, exec_bind]
  refine Sim.same_bind fun ⟨accu, r'⟩ => ?_
  rw [exec_bind, exec_bind]
  refine Sim.same_bind fun ⟨_, r'⟩ => ?_
  simp only [Nat.add_sub_cancel]
  rw [exec_bind, values, demand, Act.bind_assoc]
  refine Sim.ofOption_bind fun vs hvs => ?_
  split at hvs
  case isFalse => cases hvs
  case isTrue hle =>
    have htake := mapM_value?_eq_some hvs
    have hlen : vs.length = n := by
      have := congrArg List.length htake
      rwa [List.length_take, List.length_map, Nat.min_eq_left hle, eq_comm] at this
    have hstack : r'.stack = vs.map .val ++ r'.stack.drop n := by
      rw [← htake, List.take_append_drop]
    rw [Act.pure_bind, exec_bind, storeAll_apply, Act.bind_assoc, exec_bind, ← hlen,
      storePopped_apply .store block _ vs 1 r' (hlen ▸ hstack), Act.bind_assoc]
    refine Sim.same_bind fun _ => ?_
    rw [Act.pure_bind, Act.pure_bind, exec_bind, moveSp_apply (hlen ▸ hle)]
    exact Sim.same _

/-! ### Tail calls with one, two or three arguments. -/

/-- A word of the stack is written in place. -/
theorem setWord_apply {i : Nat} {w : StackWord} (h : i < r.stack.length) :
    (setWord i w : Exec O Unit) r = pure ((), { r with stack := r.stack.set i w }) := by
  rw [setWord, exec_bind, demand_apply (a := r.stack.set i w) _ (by simp [h])]
  rfl

/-- A write below the stack has no meaning. -/
theorem setWord_stuck {i : Nat} {w : StackWord} (h : r.stack.length ≤ i) :
    (setWord i w : Exec O Unit) r = Act.stuck := by
  rw [setWord, exec_bind, demand_none _ (by simp [h]), Act.stuck_bind]

/-- A row of writes replaces as many words. -/
theorem setWords_apply :
    ∀ (ws pre old post : List StackWord) (r : Regs), r.stack = pre ++ old ++ post →
      old.length = ws.length → (setWords pre.length ws : Exec O Unit) r =
        pure ((), { r with stack := pre ++ ws ++ post })
  | [], pre, old, post, r, hr, hlen => by
      obtain ⟨pc, accu, env, extraArgs, stack, trapsp⟩ := r
      obtain rfl := List.length_eq_zero_iff.mp hlen
      obtain rfl : stack = pre ++ [] ++ post := hr
      rfl
  | w :: ws, pre, [], post, r, hr, hlen => by cases hlen
  | w :: ws, pre, o :: old, post, r, hr, hlen => by
      have hlt : pre.length < r.stack.length := by
        rw [hr]
        simp
      have ih := setWords_apply ws (pre ++ [w]) old post
        { r with stack := r.stack.set pre.length w } (by rw [hr]; simp) (by simpa using hlen)
      rw [setWords, exec_bind, setWord_apply hlt, Act.pure_bind]
      rw [List.length_append, List.length_singleton] at ih
      rw [ih]
      simp

/-- A row of writes that goes over the end of the stack has no meaning. -/
theorem setWords_stuck :
    ∀ (ws : List StackWord) (i : Nat) (r : Regs), i ≤ r.stack.length →
      r.stack.length < i + ws.length → (setWords i ws : Exec O Unit) r = Act.stuck
  | [], i, r, hle, hlt => absurd hlt (by simpa using hle)
  | w :: ws, i, r, hle, hlt => by
      rw [setWords, exec_bind]
      rcases Nat.lt_or_ge i r.stack.length with hi | hi
      · rw [setWord_apply hi, Act.pure_bind]
        refine setWords_stuck ws (i + 1) _ ?_ ?_
        · rwa [List.length_set]
        · simp only [List.length_set, List.length_cons] at hlt ⊢
          omega
      · rw [setWord_stuck hi, Act.stuck_bind]

/-- A word of the stack is read in place. -/
theorem word_apply {i : Nat} (h : i < r.stack.length) :
    (word i : Exec O StackWord) r = pure (r.stack[i], r) :=
  demand_apply _ (by simp [Regs.word?, h])

/-- The loop of `APPTERM` goes down, so it reads every argument before it is
overwritten. -/
theorem slide_apply {d : Nat} :
    ∀ (k : Nat) (r : Regs), d + k ≤ r.stack.length → (slide d k : Exec O Unit) r =
      pure ((), { r with
        stack := r.stack.take d ++ r.stack.take k ++ r.stack.drop (d + k) })
  | 0, r, h => by
      simp only [slide, List.take_zero, List.append_nil, Nat.add_zero, List.take_append_drop]
      rfl
  | k + 1, r, h => by
      have hk : k < r.stack.length := by omega
      have hdk : d + k < r.stack.length := by omega
      rw [slide, exec_bind, word_apply hk, Act.pure_bind, exec_bind, setWord_apply hdk,
        Act.pure_bind, slide_apply k _ (by simp; omega)]
      simp only [List.take_set_of_le (Nat.le_add_right d k),
        List.take_set_of_le (Nat.le_add_left k d)]
      have hdrop : (r.stack.set (d + k) r.stack[k]).drop (d + k + 1) = r.stack.drop (d + k + 1) :=
        List.drop_set_of_lt (Nat.lt_succ_self _)
      rw [List.drop_eq_getElem_cons (by simpa using hdk), List.take_succ_eq_append_getElem hk,
        hdrop]
      simp only [List.getElem_set_self, List.append_assoc, List.singleton_append, Nat.add_assoc]

/-- More words than there are cannot be popped. -/
theorem moveSp_stuck {n : Int} (h : n < 0 ∨ r.stack.length < n) :
    (moveSp n : Exec O Unit) r = Act.stuck := by
  rw [moveSp, exec_bind, demand_none _ (if_neg (by omega)), Act.stuck_bind]

/-- Both put the arguments above what stays of the frame. -/
theorem doAppTermFew_sim {n : Nat} {slotsize : Word} (hn : (ofU32 n).toInt = n)
    (hextra : BitVec.ofNat 64 (n - 1) = (ofU32 n - 1).signExtend 64) :
    Sim Eq ((doAppTermFew im n slotsize : Exec O Unit) r)
      (doAppTerm im (ofU32 n) slotsize r) := by
  rw [doAppTermFew, doAppTerm, hn, ← hextra, exec_bind, words, demand, Act.bind_assoc]
  refine Sim.ofOption_bind fun args hargs => ?_
  split at hargs
  case isFalse => cases hargs
  case isTrue hle =>
    obtain rfl : r.stack.take n = args := Option.some.inj hargs
    have hlen : (r.stack.take n).length = n := by
      rw [List.length_take, Nat.min_eq_left hle]
    rw [Act.pure_bind, exec_bind]
    by_cases hd : slotsize.toInt - n < 0 ∨ r.stack.length < slotsize.toInt - n
    -- the arguments would be moved outside the stack
    · rw [moveSp_stuck hd, Act.stuck_bind]
      exact Sim.stuck
    · obtain ⟨d, hd'⟩ := Int.eq_ofNat_of_zero_le (show 0 ≤ slotsize.toInt - n by omega)
      rw [hd'] at hd ⊢
      have hdle : d ≤ r.stack.length := by omega
      rw [moveSp_apply hdle, Act.pure_bind, exec_bind]
      -- the words written over are those of the frame that goes
      by_cases hdn : d + n ≤ r.stack.length
      · have hfew := setWords_apply (O := O) (r.stack.take n) [] ((r.stack.drop d).take n)
          (r.stack.drop (d + n)) { r with stack := r.stack.drop d }
          (by rw [List.nil_append, ← List.drop_drop, List.take_append_drop])
          (by rw [hlen, List.length_take, List.length_drop]; omega)
        rw [List.length_nil, List.nil_append] at hfew
        rw [hfew, Act.pure_bind]
        have hslide : (require (decide (0 ≤ (d : Int))) : Exec O Unit) r = pure ((), r) :=
          require_apply (decide_eq_true (Int.natCast_nonneg d))
        simp only [exec_bind, hslide, Act.pure_bind, Int.toNat_natCast]
        have hdrop : (r.stack.take d ++ r.stack.take n ++ r.stack.drop (d + n)).drop d =
            r.stack.take n ++ r.stack.drop (d + n) := by
          rw [List.append_assoc, List.drop_left' (by rw [List.length_take]; omega)]
        rw [slide_apply n r hdn, Act.pure_bind, moveSp_apply (by simp; omega), Act.pure_bind,
          hdrop]
        exact Sim.same _
      · rw [setWords_stuck _ _ _ (Nat.zero_le _) (by rw [hlen, List.length_drop]; omega),
          Act.stuck_bind]
        exact Sim.stuck

/-! ### Tables. -/

/-- The labels of a table are those of the decoded list. -/
theorem target_apply {n i l : Nat} {ls : List Nat} (hn : n ≤ code.length - p)
    (hls : ((code.drop p).take n).map (fun w => labelTarget (p, w)) = ls.map Int.ofNat)
    (hl : ls[i]? = some l) :
    (target code i : Exec O Int) (r.atOffset p) = pure ((l : Int), r.atOffset p) := by
  have hi : i < n := by
    have hlen := congrArg List.length hls
    simp only [List.length_map, List.length_take, List.length_drop] at hlen
    have := (List.getElem?_eq_some_iff.mp hl).1
    omega
  have hw : code[p + i]? = some code[p + i] := List.getElem?_eq_getElem (by omega)
  have hget := congrArg (·[i]?) hls
  simp only [List.getElem?_map, List.getElem?_take_of_lt hi, List.getElem?_drop, hw, hl,
    Option.map_some, Option.some.injEq] at hget
  rw [target, exec_bind, peekAt_apply hw]
  show (pure (labelTarget (p, code[p + i]), r.atOffset p) : Act O _) = _
  rw [hget]
  rfl

/-- `SWITCH` over the table and over the decoded lists. -/
theorem doSwitch_sim {ints tags : List Nat} {q : Nat}
    (hn : ints.length + tags.length ≤ code.length - p)
    (hls : ((code.drop p).take (ints.length + tags.length)).map
      (fun w => labelTarget (p, w)) = (ints ++ tags).map Int.ofNat) :
    Sim Eq ((doSwitch ints.length tags.length (target code) : Exec O Unit) (r.atOffset p))
      (doSwitch ints.length tags.length
        (fun i => demand fun _ => (ints ++ tags)[i]?.map Int.ofNat) (r.atOffset q)) := by
  have hlabel : ∀ i, i < ints.length + tags.length →
      ((target code i >>= fun l => setPc (.here l) : Exec O Unit) (r.atOffset p)) =
        ((demand (fun _ => (ints ++ tags)[i]?.map Int.ofNat) >>= fun l => setPc (.here l) :
          Exec O Unit) (r.atOffset q)) := by
    intro i hi
    rw [← List.length_append] at hi
    have hl : (ints ++ tags)[i]? = some (ints ++ tags)[i] := List.getElem?_eq_getElem hi
    rw [exec_bind, target_apply hn hls hl, exec_bind,
      demand_apply (a := Int.ofNat (ints ++ tags)[i]) _ (by rw [hl]; rfl)]
    rfl
  have hrequire : ∀ (i j n : Nat), (i < n → j < ints.length + tags.length) →
      Sim Eq ((require (decide (i < n)) >>= fun _ => target code j >>= fun l =>
          setPc (.here l) : Exec O Unit) (r.atOffset p))
        ((require (decide (i < n)) >>= fun _ =>
          demand (fun _ => (ints ++ tags)[j]?.map Int.ofNat) >>= fun l =>
          setPc (.here l) : Exec O Unit) (r.atOffset q)) := by
    intro i j n hj
    by_cases hi : i < n
    · rw [exec_bind, exec_bind, require_apply (decide_eq_true hi),
        require_apply (decide_eq_true hi), Act.pure_bind, Act.pure_bind, hlabel j (hj hi)]
      exact Sim.same _
    · rw [exec_bind, require_stuck (decide_eq_false hi), Act.stuck_bind]
      exact Sim.stuck
  unfold doSwitch
  rw [exec_bind, exec_bind]
  show Sim Eq ((if r.accu &&& 1 = 0 then _ else _ : Exec O Unit) (r.atOffset p))
    ((if r.accu &&& 1 = 0 then _ else _ : Exec O Unit) (r.atOffset q))
  split
  · rw [exec_bind, exec_bind, ask_apply, ask_apply, Act.bind_assoc, Act.bind_assoc]
    exact Sim.same_bind fun tag => hrequire _ _ _ fun h => by omega
  · exact hrequire _ _ _ fun h => by omega

/-- `SWITCH` reads its counts, then the table whose targets are relative to its start. -/
theorem agrees_switch (hfit : ∀ e ∈ labelOperandsOf code own .switch, SumFits e) :
    Agrees (O := O) im code own (own + 1) (interpCase im code .switch)
      (readOperands .switch) := by
  intro is q hr regs
  have hlabels := labels_switch hfit hr
  simp only [readOperands, readsTo_u32_bind, readsTo_position_bind, readsTo_labelList_bind,
    readsTo_pure, labelOperandsOf] at *
  obtain ⟨n, hn, ha, ints, hi, hb, tags, ht, rfl, rfl⟩ := hr
  simp only [hn, map_labelTarget_labelTable] at hlabels
  have hints : ints.length = u32OfWord n % 2 ^ 16 := by
    rw [length_of_mapM_resolveLabel hi, List.length_take, List.length_drop, Nat.min_eq_left ha]
  have htags : tags.length = u32OfWord n / 2 ^ 16 := by
    rw [length_of_mapM_resolveLabel ht, List.length_take, List.length_drop, Nat.min_eq_left hb]
  have hl : labelsOf [.switch ints tags] = ints ++ tags := List.append_nil _
  rw [← hints, ← htags, hl] at hlabels
  rw [interpCase, exec_bind, fetch_apply hn, Act.pure_bind, ← hints, ← htags,
    meanings_singleton, meaning, next, exec_bind, next, exec_bind]
  refine (doSwitch_sim ?_ hlabels).bind fun x y hxy => ?_
  · omega
  · rw [hxy]
    exact Sim.same _

/-- Steps that do not look at `pc`. -/
def PcFree {α : Type} (x : Exec O α) : Prop :=
  ∀ r q, x (Regs.atOffset r q) = x r >>= fun a => pure (a.1, a.2.atOffset q)

theorem pcFree_pure {α : Type} (a : α) : PcFree (pure a : Exec O α) := fun _ _ => rfl

/-- Two parts that do not look at the counter, one after the other. -/
theorem PcFree.bind {α β : Type} {x : Exec O α} {f : α → Exec O β} (hx : PcFree x)
    (hf : ∀ a, PcFree (f a)) : PcFree (x >>= f) := by
  intro r q
  rw [exec_bind, exec_bind, hx, Act.bind_assoc, Act.bind_assoc]
  refine congrArg _ (funext fun a => ?_)
  rw [Act.pure_bind]
  exact hf _ _ _

/-- A request does not look at the counter. -/
theorem pcFree_ask (e : Request) : PcFree (ask e : Exec O Value) := by
  intro r q
  rw [ask_apply, ask_apply, Act.bind_assoc]
  rfl

/-- What is demanded of the other registers does not depend on the counter. -/
theorem pcFree_demand {α : Type} {f : Regs → Option α} (h : ∀ r q, f (Regs.atOffset r q) = f r) :
    PcFree (demand f : Exec O α) := by
  intro r q
  simp only [demand, h, Act.bind_assoc, Act.pure_bind]

/-- Stores do not look at the counter. -/
theorem pcFree_storeAll (store : Value → Value → Request) (block : Value) :
    ∀ (vs : List Value) (i : Nat), PcFree (storeAll store block i vs : Exec O Unit)
  | [], _ => pcFree_pure _
  | _ :: vs, i => (pcFree_ask _).bind fun _ => pcFree_storeAll store block vs (i + 1)

/-- An allocation does not look at the counter. -/
theorem pcFree_allocClosure (small : Bool) (wosize start : Nat) (nvars : Word) :
    PcFree (allocClosure small wosize start nvars : Exec O Unit) := by
  have hreg : ∀ {α : Type} (f : Regs → α), (∀ r q, f (Regs.atOffset r q) = f r) →
      PcFree (reg f : Exec O α) := fun f hf r q => by
    show pure (f (Regs.atOffset r q), Regs.atOffset r q) = _
    rw [hf]
    rfl
  have hset : ∀ v, PcFree (setAccu v : Exec O Unit) := fun v r q => rfl
  have hvalues : PcFree (values nvars.toInt.toNat : Exec O (List Value)) :=
    pcFree_demand fun _ _ => rfl
  have hsmall : PcFree (allocSmall wosize closureTag : Exec O Value) :=
    (pcFree_demand fun _ _ => rfl).bind fun _ => pcFree_ask _
  unfold allocClosure
  split
  · exact hsmall.bind fun _ => (hset _).bind fun _ => (hreg _ fun _ _ => rfl).bind fun _ =>
      hvalues.bind fun _ => pcFree_storeAll _ _ _ _
  · exact (pcFree_ask _).bind fun _ => (hset _).bind fun _ => (hreg _ fun _ _ => rfl).bind fun _ =>
      hvalues.bind fun _ => pcFree_storeAll _ _ _ _

/-- With `nfuncs < 1` nothing is left after the allocation. -/
theorem doClosureRec_none {nfuncs nvars : Word} (h : ¬ 1 ≤ nfuncs.toInt) {q q' : Nat}
    (ls ls' : List Int) :
    Sim Eq ((doClosureRec im nfuncs nvars ls : Exec O Unit) (r.atOffset q))
      (doClosureRec im nfuncs nvars ls' (r.atOffset q')) := by
  have hpush : PcFree (pushIfVars nvars : Exec O Unit) := by
    unfold pushIfVars
    split
    · exact fun r q => rfl
    · exact pcFree_pure ()
  have hfalse : ∀ {α : Type} (f : Unit → Exec O α),
      (require (decide (1 ≤ nfuncs.toInt)) >>= f) = stuck := fun f => by
    funext r
    rw [exec_bind, require_stuck (decide_eq_false h), Act.stuck_bind]
    rfl
  obtain ⟨x, hx, hrun⟩ : ∃ x : Exec O Unit, PcFree x ∧
      ∀ ls, doClosureRec im nfuncs nvars ls = x >>= fun _ => stuck := by
    refine ⟨_, hpush.bind fun _ => pcFree_allocClosure
      (decide (((nfuncs * 2 - 1 + nvars).signExtend 64).toNat ≤ maxYoungWosize))
      ((nfuncs * 2 - 1 + nvars).signExtend 64).toNat (nfuncs.toInt * 2 - 1).toNat nvars,
      fun ls => ?_⟩
    simp only [doClosureRec, hfalse, exec_bind_assoc]
  rw [hrun, hrun, exec_bind, exec_bind, hx, hx, Act.bind_assoc, Act.bind_assoc]
  exact Sim.same _

/-- `CLOSUREREC` reads its labels after its two counts, as the decoder does. -/
theorem agrees_closureRec (hfit : ∀ e ∈ labelOperandsOf code own .closureRec, SumFits e) :
    Agrees (O := O) im code own (own + 1) (interpCase im code .closureRec)
      (readOperands .closureRec) := by
  intro is q hr regs
  have hlabels := labels_closureRec hfit hr
  simp only [readOperands, readsTo_u32_bind, readsTo_position_bind, readsTo_labelList_bind,
    readsTo_pure, labelOperandsOf] at *
  obtain ⟨n, hn, v, hv, hle, ls, hls, rfl, rfl⟩ := hr
  simp only [hn, map_labelTarget_labelTable] at hlabels
  have hlen : ls.length = u32OfWord n := by
    rw [length_of_mapM_resolveLabel hls, List.length_take, List.length_drop,
      Nat.min_eq_left hle]
  have hl : labelsOf [.closureRec ls (u32OfWord v)] = ls := List.append_nil _
  rw [hl] at hlabels
  rw [interpCase, exec_bind, fetch_apply hn, Act.pure_bind, exec_bind, fetch_apply hv,
    Act.pure_bind, meanings_singleton, meaning, hlen, ofU32_u32OfWord, ofU32_u32OfWord]
  by_cases hpos : 1 ≤ n.toInt
  · have htoNat : n.toInt.toNat = u32OfWord n := by
      have hcond := BitVec.toInt_eq_toNat_cond n
      have hlt := n.isLt
      show n.toInt.toNat = n.toNat
      split at hcond <;> omega
    rw [htoNat, exec_bind, targets_apply hle, Act.pure_bind]
    show Sim Eq (next (doClosureRec im n v
      (((code.drop (own + 3)).take (u32OfWord n)).map fun w => labelTarget (own + 3, w))) _) _
    rw [hlabels]
    exact Sim.same _
  · have htoNat : n.toInt.toNat ≤ code.length - (own + 1 + 1 + 1) := by
      have := BitVec.toInt_eq_toNat_cond n
      split at this <;> omega
    rw [exec_bind, targets_apply htoNat, Act.pure_bind, next, exec_bind, next, exec_bind]
    exact (doClosureRec_none hpos _ _).bind fun x y hxy => by
      rw [hxy]
      exact Sim.same _

/-! ### Opcodes read with these forms. -/

/-- It is enough that the case simulates the instruction from every register file. -/
theorem agrees_next {x y : Exec O Unit} {i : Instruction Nat} (hi : meaning im own i = next y)
    (h : ∀ r : Regs, Sim Eq (x r) (y r)) :
    Agrees im code own p (next x) (pure [i]) := by
  refine agrees_pure fun regs => ?_
  rw [meanings_singleton, hi, next, exec_bind, next, exec_bind]
  refine (h _).bind fun a b hab => ?_
  rw [hab]
  exact Sim.same _

/-- `APPTERM1` to `APPTERM3`. -/
theorem agrees_appTermFew {n : Nat} (hn : (ofU32 n).toInt = n)
    (hextra : BitVec.ofNat 64 (n - 1) = (ofU32 n - 1).signExtend 64) :
    Agrees im code own p
      (fetch code >>= fun slotsize => next (doAppTermFew im n slotsize) : Exec O Next)
      (Reader.u32 >>= fun slotsize => pure [.applyTerm n slotsize] : Reader _) :=
  agrees_fetch_u32 fun w _ => agrees_next (y := doAppTerm im (ofU32 n) w)
    (by rw [meaning, ofU32_u32OfWord]) fun _ => doAppTermFew_sim hn hextra

/-- `MAKEBLOCK1` to `MAKEBLOCK3`, with a tag below 256. -/
theorem agrees_makeBlockFew {n : Nat} (hn : n + 1 ≤ maxYoungWosize)
    (htag : ∀ tag, code[p]? = some tag → usizeOfWord tag < 256)
    (hsize : usizeOfWord (ofU32 (n + 1)) = n + 1) :
    Agrees im code own p (fetch code >>= fun tag =>
        next (doMakeBlockFew (n + 1) (usizeOfWord tag)) : Exec O Next)
      (Reader.u8 >>= fun tag => pure [.makeBlock (n + 1) tag] : Reader _) :=
  agrees_fetch_u8 fun w hw => agrees_next (y := doMakeBlock (n + 1) (usizeOfWord w))
    (by rw [meaning, hsize, u8OfWord_eq (htag w hw)]; exact Nat.succ_ne_zero n)
    fun _ => doMakeBlockFew_sim hn

/-- No block of size 0 is allocated: the case has no meaning. -/
theorem doMakeBlock_zero (tag : Nat) : (doMakeBlock 0 tag : Exec O Unit) r = Act.stuck := by
  rw [doMakeBlock, if_pos (Nat.zero_le _), exec_bind, allocSmall, exec_bind,
    require_stuck (decide_eq_false (by decide)), Act.stuck_bind, Act.stuck_bind]

/-- `MAKEBLOCK` of no field is not allowed to `Alloc_small`. -/
theorem agrees_makeBlock (htag : ∀ tag, code[p + 1]? = some tag → usizeOfWord tag < 256) :
    Agrees im code own p (fetch code >>= fun wosize => fetch code >>= fun tag =>
        next (doMakeBlock (usizeOfWord wosize) (usizeOfWord tag)) : Exec O Next)
      (Reader.u32 >>= fun wosize => Reader.u8 >>= fun tag =>
        pure [.makeBlock wosize tag] : Reader _) := by
  refine agrees_fetch_u32 fun w _ => agrees_fetch_u8 fun t ht => ?_
  by_cases hw : w = 0
  · subst hw
    refine agrees_pure fun regs => ?_
    rw [next, exec_bind]
    show Sim Eq (doMakeBlock 0 _ _ >>= _) _
    rw [doMakeBlock_zero, Act.stuck_bind]
    exact Sim.stuck
  · refine agrees_single ?_
    obtain ⟨n, hn⟩ : ∃ n, u32OfWord w = n + 1 := by
      refine Nat.exists_eq_succ_of_ne_zero fun h0 => hw ?_
      exact BitVec.eq_of_toNat_eq h0
    have hw' : ofU32 (n + 1) = w := hn ▸ ofU32_u32OfWord w
    rw [hn, meaning, hw', u8OfWord_eq (htag t ht)]
    exact Nat.succ_ne_zero n

/-- Reading the counter reads no word. -/
theorem agrees_offset {k : Int → Exec O Next} {r : Reader (List (Instruction Nat))}
    (h : Agrees im code own p (k p) r) : Agrees im code own p (offset >>= k) r := by
  intro is q hr regs
  rw [exec_bind, offset_apply, Act.pure_bind]
  exact h is q hr regs

end Forms

/-! ## §5. Every opcode. -/

section Opcodes

variable {off : Nat}

/-- **The instructions of every opcode have the effect of its case.** -/
theorem agrees_readOperands (op : Opcode)
    (hfit : ∀ e ∈ labelOperandsOf code off op, SumFits e)
    (htag : ∀ tag, tagOperandOf code off op = some tag → usizeOfWord tag < 256) :
    Agrees (O := O) im code off (off + 1) (interpCase im code op) (readOperands op) := by
  cases op
  -- no operand, one instruction
  case acc0 | acc1 | acc2 | acc3 | acc4 | acc5 | acc6 | acc7 | push | envAcc1 | envAcc2
      | envAcc3 | envAcc4 | apply1 | apply2 | apply3 | restart | offsetClosureM2
      | offsetClosure0 | offsetClosure2 | getField0 | getField1 | getField2 | getField3
      | setField0 | setField1 | setField2 | setField3 | vecTLength | getVecTItem
      | setVecTItem | getStringChar | getBytesChar | setBytesChar | boolNot | checkSignals
      | const0 | const1 | const2 | const3 | negInt | addInt | subInt | mulInt | divInt
      | modInt | andInt | orInt | xorInt | lslInt | lsrInt | asrInt | eq | neq | ltInt
      | leInt | gtInt | geInt | uLtInt | uGeInt | isInt | getMethod | getDynMet | stop
      | event | break_ =>
    exact agrees_single rfl
  -- a `PUSH`, then the short form
  case pushAcc1 | pushAcc2 | pushAcc3 | pushAcc4 | pushAcc5 | pushAcc6 | pushAcc7
      | pushEnvAcc1 | pushEnvAcc2 | pushEnvAcc3 | pushEnvAcc4 | pushOffsetClosureM2
      | pushOffsetClosure0 | pushOffsetClosure2 | pushConst0 | pushConst1 | pushConst2
      | pushConst3 =>
    exact agrees_push rfl
  -- one operand, unsigned here and a word of the code there
  case acc | pop | assign | envAcc | apply | return_ | getGlobal | setGlobal | getField
      | setField | getFloatField | setFloatField | makeFloatBlock | cCall1 | cCall2 | cCall3
      | cCall4 | cCall5 =>
    exact agrees_u32 fun w => by simp only [meaning, ofU32_u32OfWord]
  case pushAcc | pushEnvAcc | pushGetGlobal =>
    exact agrees_push_u32 fun w => by simp only [meaning, ofU32_u32OfWord]
  case offsetClosure | constInt | offsetInt | offsetRef =>
    exact agrees_sint fun w => by simp only [meaning, ofI32_toInt]
  case pushOffsetClosure | pushConstInt =>
    exact agrees_push_sint fun w => by simp only [meaning, ofI32_toInt]
  -- an address, relative to the word that holds it
  case pushRetAddr | branch | branchIf | branchIfNot | pushTrap =>
    exact agrees_label hfit fun l => rfl
  case bEq | bNeq | bLtInt | bLeInt | bGtInt | bGeInt | bULtInt | bUGeInt =>
    exact agrees_fetch_sint fun w _ => agrees_label hfit fun l => by
      simp only [meaning, ofI32_toInt]
  case appTerm | cCallN =>
    exact agrees_fetch_u32 fun v _ => agrees_u32 fun w => by
      simp only [meaning, ofU32_u32OfWord]
  case closure =>
    exact agrees_fetch_u32 fun v _ => agrees_label hfit fun l => by
      simp only [meaning, ofU32_u32OfWord]
  -- `PUSHACC0` is `PUSH`: the accumulator is unchanged by the `ACC 0` after it
  case pushAcc0 => exact agrees_push pushThen_acc0.symm
  case atom0 => exact agrees_single rfl
  case pushAtom0 => exact agrees_push rfl
  case getGlobalField =>
    exact agrees_fetch_u32 fun n _ => agrees_getGlobalField
  case pushGetGlobalField =>
    rw [interpCase, pushThen_fetch]
    exact agrees_fetch_u32 fun n _ => agrees_push_getGlobalField
  case getPubMet => exact agrees_getPubMet
  -- a tag is cut to u8
  case atom => exact agrees_fetch_u8 fun w hw => agrees_single (by
      rw [meaning, ofNat_u8OfWord (htag w hw)])
  case pushAtom =>
    rw [interpCase, pushThen_fetch]
    exact agrees_fetch_u8 fun w hw => agrees_push (by rw [meaning, ofNat_u8OfWord (htag w hw)])
  case makeBlock => exact agrees_makeBlock htag
  case makeBlock1 => exact agrees_makeBlockFew (by decide) htag rfl
  case makeBlock2 => exact agrees_makeBlockFew (by decide) htag rfl
  case makeBlock3 => exact agrees_makeBlockFew (by decide) htag rfl
  case appTerm1 => exact agrees_appTermFew rfl rfl
  case appTerm2 => exact agrees_appTermFew rfl rfl
  case appTerm3 => exact agrees_appTermFew rfl rfl
  case switch => exact agrees_switch hfit
  case closureRec => exact agrees_closureRec hfit
  -- these read nothing, but their meaning names the offset of the opcode
  case popTrap | raise | reRaise | raiseNoTrace =>
    refine agrees_offset (agrees_single ?_)
    rw [Nat.cast_succ, Int.add_sub_cancel]
    rfl
  case grab =>
    refine agrees_fetch_u32 fun w _ => agrees_offset (agrees_single ?_)
    have hpc : ((off + 1 + 1 : Nat) : Int) - 3 = off - 1 := by omega
    rw [hpc, meaning, ofU32_u32OfWord]

end Opcodes

/-! ## §6. The stream. -/

section Stream

variable {off off' : Nat} {is : List (Instruction Nat)}

/-- The step of the interpreter at an offset, and the instructions decoded there. -/
theorem interpStep_agrees (hfit : ∀ e ∈ labelOperands code off, SumFits e)
    (htag : ∀ op tag, opcodeAt code off = some op → tagOperandOf code off op = some tag →
      usizeOfWord tag < 256)
    (hd : decodeAt code off = .ok (is, off')) (r : Regs) :
    Sim (O := O) Eq (interpStep im code (r.atOffset off)) (runOpcode im off off' is r) := by
  obtain ⟨op, hop, hr⟩ := decodeAt_eq_ok.mp hd
  rw [labelOperands_eq hop] at hfit
  obtain ⟨w, hw, hwop⟩ := Option.bind_eq_some_iff.mp hop
  rw [interpStep, exec_bind, fetch_apply hw, Act.pure_bind]
  simp only [hwop]
  exact agrees_readOperands op hfit (fun tag => htag op tag hop) is off' hr r

/-- What the iterator yields for one opcode. -/
structure Stretch where
  offset : Nat
  instrs : List (Instruction Nat)
  after : Nat

/-- The items of a stretch. -/
def Stretch.items (s : Stretch) : List (Rust InstructionParseError (Instruction Nat) × Nat) :=
  (.ok (.labelDef s.offset), s.after) :: s.instrs.map (fun i => (.ok i, s.after))

/-- The opcodes that are fetched when control falls through from an offset. -/
inductive FallsThrough (code : List Word) : Nat → List Stretch → Nat → Prop where
  | nil (off : Nat) : FallsThrough code off [] off
  | cons {s : Stretch} {ss : List Stretch} {last : Nat}
      (hn : nextOpcode code s.offset = some s.after) (h : FallsThrough code s.after ss last) :
      FallsThrough code s.offset (s :: ss) last

/-- A stretch says what the interpreter does at its offset: the same labels, and
in every state in which the interpreter's case has a meaning the same requests and the
same registers after it. -/
def Stretch.Sound (im : Image) (code : List Word) (s : Stretch) : Prop :=
  (labelOperands code s.offset).map labelTarget = (labelsOf s.instrs).map Int.ofNat ∧
    ∀ (O : Oracle Effect Value) (r : Regs),
      Sim (O := O) Eq (interpStep im code (r.atOffset s.offset))
        (runOpcode im s.offset s.after s.instrs r)

/-- **The iterator yields what the interpreter executes.**  Its items are the
opcodes at the offsets that are fetched by falling through, each followed by
instructions with its labels and its effect, up to the end of the words or to a
single error; and there is no error exactly when the words split completely.  The
effect is the same unless the interpreter's case has no meaning (`MAKEBLOCK 0 5` is
stuck); a request that raises ends the case in both. -/
theorem instructionsFrom_agrees {start : Nat} (hstart : start ≤ code.length)
    (hfit : OperandsFit code start) :
    ∃ (ss : List Stretch) (last : Nat), FallsThrough code start ss last ∧
      (∀ s ∈ ss, s.Sound im code) ∧
      ((Splits code start ∧ last = code.length ∧
          instructionsFrom code start = ss.flatMap Stretch.items) ∨
        (¬ Splits code start ∧ ∃ e,
          instructionsFrom code start = ss.flatMap Stretch.items ++ [(.error e, last)])) := by
  rw [instructionsFrom_eq]
  by_cases hend : code.length ≤ start
  · obtain rfl : start = code.length := Nat.le_antisymm hstart hend
    rw [if_pos hend]
    exact ⟨[], code.length, .nil _, by simp, .inl ⟨.done, rfl, rfl⟩⟩
  · rw [if_neg hend]
    cases hd : decodeAt code start with
    | error e =>
        refine ⟨[], start, .nil _, by simp, .inr ⟨?_, e, rfl⟩⟩
        intro hsplits
        cases hsplits with
        | done => exact hend (Nat.le_refl _)
        | step hn hle hlabels hrest =>
            obtain ⟨is, hok⟩ := (exists_decodeAt (hfit _ .start).1).mpr ⟨hn, hle, hlabels⟩
            rw [hd] at hok
            cases hok
    | ok p =>
        obtain ⟨is, off'⟩ := p
        obtain ⟨hlt, hle, -, -⟩ := decodeAt_bounds hd
        obtain ⟨hn, -, hlabels⟩ := (exists_decodeAt (hfit _ .start).1).mp ⟨is, hd⟩
        -- the words split from here exactly if they do after the first opcode
        have hsplits : Splits code start ↔ Splits code off' := by
          refine ⟨fun h => ?_, .step hn hle hlabels⟩
          cases h with
          | done => exact absurd (Nat.le_refl _) hend
          | step hn' _ _ hrest =>
              rw [hn] at hn'
              cases hn'
              exact hrest
        obtain ⟨ss, last, hfalls, hsound, hitems⟩ :=
          instructionsFrom_agrees hle (hfit.next hn)
        refine ⟨⟨start, is, off'⟩ :: ss, last, .cons (s := ⟨start, is, off'⟩) hn hfalls, ?_, ?_⟩
        · intro s hs
          rcases List.mem_cons.mp hs with rfl | hs
          · exact ⟨labels_decodeAt (hfit _ .start).1 hd, fun O r =>
              interpStep_agrees (hfit _ .start).1 (hfit _ .start).2 hd r⟩
          · exact hsound s hs
        · rw [hsplits, List.flatMap_cons]
          dsimp only
          refine hitems.imp (fun h => ?_) (fun h => ?_)
          · exact ⟨h.1, h.2.1, by rw [h.2.2]; rfl⟩
          · obtain ⟨hns, e, he⟩ := h
            exact ⟨hns, e, by rw [he, ← List.append_assoc]; rfl⟩
termination_by code.length - start

/-- `PUSHATOM 5`, a `BRANCH` to the next opcode, and `STOP`. -/
def atomBranchStop : List Word := [61, 5, 84, 1, 143]

/-- The code of the example has small operands. -/
theorem operandsFit_atomBranchStop : OperandsFit atomBranchStop 0 := by
  refine operandsFit_of_all fun off hoff => ?_
  have hnolabels {es : List (Nat × Word)} (h : es = []) : ∀ e ∈ es, SumFits e := by
    simp [h]
  have hfive : usizeOfWord 5 < 256 := by decide
  rcases off with _ | _ | _ | _ | _ | off
  · refine ⟨hnolabels rfl, fun op hop tag htag => ?_⟩
    obtain rfl : Opcode.pushAtom = op := Option.some.inj hop
    obtain rfl : 5 = tag := Option.some.inj htag
    exact hfive
  · refine ⟨hnolabels rfl, fun op hop tag htag => ?_⟩
    obtain rfl : Opcode.acc5 = op := Option.some.inj hop
    cases htag
  · refine ⟨fun e he => ?_, fun op hop tag htag => ?_⟩
    · obtain rfl := List.mem_singleton.mp he
      decide
    · obtain rfl : Opcode.branch = op := Option.some.inj hop
      cases htag
  · refine ⟨hnolabels rfl, fun op hop tag htag => ?_⟩
    obtain rfl : Opcode.acc1 = op := Option.some.inj hop
    cases htag
  · refine ⟨hnolabels rfl, fun op hop tag htag => ?_⟩
    obtain rfl : Opcode.stop = op := Option.some.inj hop
    cases htag
  · exact absurd hoff (by simp [atomBranchStop])

/-- On `PUSHATOM 5; BRANCH; STOP`. -/
theorem instructionsFrom_agrees_atomBranchStop :
    (0 ≤ atomBranchStop.length ∧ OperandsFit atomBranchStop 0) ∧
      ∃ (ss : List Stretch) (last : Nat), FallsThrough atomBranchStop 0 ss last ∧
        (∀ s ∈ ss, s.Sound ⟨0, 0, 0, 0, 0⟩ atomBranchStop) ∧
        ((Splits atomBranchStop 0 ∧ last = atomBranchStop.length ∧
            instructionsFrom atomBranchStop 0 = ss.flatMap Stretch.items) ∨
          (¬ Splits atomBranchStop 0 ∧ ∃ e, instructionsFrom atomBranchStop 0 =
            ss.flatMap Stretch.items ++ [(.error e, last)])) :=
  ⟨⟨Nat.zero_le _, operandsFit_atomBranchStop⟩,
    instructionsFrom_agrees (Nat.zero_le _) operandsFit_atomBranchStop⟩

end Stream

end OcamlJit.Bytecode

/-
  OcamlJit.Interp.Machine
  ───────────────────────
  **WHAT EACH INSTRUCTION MEANS** (`runtime/interp.c`).

  The state is the accumulator, the environment and the stack, top first.
  Everything else an instruction touches is a request (`Interp.Values`).

  An application is one request: it takes its arguments (and the return frame
  that `PUSH_RETADDR` made for it) off the stack and leaves the result in the
  accumulator.  The words of a return frame can be popped and overwritten, but
  there is no value to read in them.
-/
import OcamlJit.Interp.Values

namespace OcamlJit.Interp

open OcamlJit.Lib OcamlJit.Instructions

/-! ## §1. States. -/

/-- A word of the stack. -/
inductive Slot where
  | val (v : Value)
  /-- One of the three words of a return frame. -/
  | frame
  deriving Repr, DecidableEq

/-- The value in a word. -/
def Slot.value? : Slot → Option Value
  | .val v => some v
  | .frame => none

/-- `accu`, `env` and the stack from `sp` on. -/
structure State where
  accu : Value
  env : Value
  stack : List Slot
  deriving Repr, DecidableEq

/-- How the code of a closure ends. -/
inductive Outcome where
  | returned (v : Value) (stack : List Slot)
  | tailCall (f : Value) (args : List Value) (stack : List Slot)
  | raised (kind : RaiseKind) (v : Value)
  | stopped (v : Value) (stack : List Slot)
  deriving Repr, DecidableEq

namespace State

/-- `sp[n]`. -/
def pick? (s : State) (n : Nat) : Option Value := s.stack[n]? >>= Slot.value?

/-- `sp[0]` to `sp[n - 1]`. -/
def picks? (s : State) (n : Nat) : Option (List Value) :=
  if n ≤ s.stack.length then (s.stack.take n).mapM Slot.value? else none

/-- `sp += n`. -/
def drop? (s : State) (n : Nat) : Option State :=
  if n ≤ s.stack.length then some { s with stack := s.stack.drop n } else none

/-- `*--sp = v`. -/
def pushed (s : State) (v : Value) : State := { s with stack := .val v :: s.stack }

/-- `accu = v`. -/
def withAccu (s : State) (v : Value) : State := { s with accu := v }

end State

section Words

variable {s s' : State} {n m : Nat} {v : Value} {ws : List Value}

/-- A word that can be picked is a value. -/
theorem pick?_eq_some (h : s.pick? n = some v) : s.stack[n]? = some (.val v) := by
  obtain ⟨slot, hslot, hv⟩ := Option.bind_eq_some_iff.mp h
  cases slot with
  | frame => cases hv
  | val w =>
      cases hv
      exact hslot

/-- Words that can be dropped are there. -/
theorem drop?_eq_some (h : s.drop? n = some s') :
    n ≤ s.stack.length ∧ s' = { s with stack := s.stack.drop n } := by
  unfold State.drop? at h
  split at h
  · injection h with h
    exact ⟨‹_›, h.symm⟩
  · cases h

/-- Dropping leaves the accumulator. -/
theorem drop?_accu (h : s.drop? n = some s') : s'.accu = s.accu := by
  obtain ⟨-, rfl⟩ := drop?_eq_some h
  rfl

/-- Slots that are all values. -/
theorem mapM_value?_eq_some : ∀ {slots : List Slot} {ws : List Value},
    slots.mapM Slot.value? = some ws → slots = ws.map .val
  | [], ws, h => by
      cases h
      rfl
  | slot :: slots, ws, h => by
      rw [List.mapM_cons] at h
      obtain ⟨w, hw, h⟩ := Option.bind_eq_some_iff.mp h
      obtain ⟨ws', hws, h⟩ := Option.bind_eq_some_iff.mp h
      cases h
      rw [List.map_cons, ← mapM_value?_eq_some hws]
      cases slot with
      | frame => cases hw
      | val v =>
          cases hw
          rfl

/-- Words that can be picked are there, and are values. -/
theorem picks?_eq_some (h : s.picks? n = some ws) :
    n ≤ s.stack.length ∧ s.stack.take n = ws.map .val := by
  unfold State.picks? at h
  split at h
  · exact ⟨‹_›, mapM_value?_eq_some h⟩
  · cases h

/-- As many words as were asked for. -/
theorem length_of_picks? (h : s.picks? n = some ws) : ws.length = n := by
  obtain ⟨hle, htake⟩ := picks?_eq_some h
  have hlen := congrArg List.length htake
  rwa [List.length_take, List.length_map, Nat.min_eq_left hle, eq_comm] at hlen

/-- Each of them is where it was. -/
theorem word_of_picks? (h : s.picks? n = some ws) {i : Nat} (hi : ws[i]? = some v) :
    s.stack[i]? = some (.val v) := by
  have hin : i < n := length_of_picks? h ▸ (List.getElem?_eq_some_iff.mp hi).1
  obtain ⟨-, htake⟩ := picks?_eq_some h
  rw [← List.getElem?_take_of_lt hin, htake, List.getElem?_map, hi]
  rfl

/-- Taking words off in two parts. -/
theorem drop?_add (h : s.drop? (n + m) = some s') :
    ∃ s₁, s.drop? n = some s₁ ∧ s₁.drop? m = some s' := by
  obtain ⟨hle, rfl⟩ := drop?_eq_some h
  refine ⟨_, if_pos (by omega), ?_⟩
  unfold State.drop?
  rw [if_pos (by simp; omega), List.drop_drop]

/-- Dropping does not look at the accumulator. -/
theorem drop?_withAccu (h : s.drop? n = some s') (w : Value) :
    (s.withAccu w).drop? n = some (s'.withAccu w) := by
  obtain ⟨hle, rfl⟩ := drop?_eq_some h
  exact if_pos hle

end Words

/-! ## §2. Meanings. -/

section Meaning

variable {O : Oracle Request Value} (rt : Layout)

/-- `accu = sp[n]`. -/
def doAcc (n : Nat) (s : State) : Act O State := do
  pure (s.withAccu (← Act.ofOption (s.pick? n)))

/-- `accu = Field(env, n)`. -/
def doEnvAcc (n : Nat) (s : State) : Act O State := do
  pure (s.withAccu (← Act.perform (.load (field s.env (operand n)))))

/-- `*--sp = accu`. -/
def doPush (s : State) : Act O State := pure (s.pushed s.accu)

/-- `sp += n`. -/
def doPop (n : Nat) (s : State) : Act O State := Act.ofOption (s.drop? n)

/-- `sp[n] = accu; accu = Val_unit`. -/
def doAssign (n : Nat) (s : State) : Act O State :=
  if n < s.stack.length then
    pure { s with stack := s.stack.set n (.val s.accu), accu := valUnit }
  else Act.stuck

/-- `PUSH_RETADDR`. -/
def doPushRetAddr (s : State) : Act O State :=
  pure { s with stack := .frame :: .frame :: .frame :: s.stack }

/-- An application to `nargs` arguments, over a return frame of `frame` words. -/
def doApply (nargs frame : Nat) (s : State) : Act O State := do
  let args ← Act.ofOption (s.picks? nargs)
  let s' ← Act.ofOption (s.drop? (nargs + frame))
  let v ← Act.perform (.apply s.accu args)
  pure (s'.withAccu v)

/-- Initialising stores of `vs` to the fields of `block` from `i` on. -/
def storeFields (store : Value → Value → Request) (block : Value) :
    Nat → List Value → Act O Unit
  | _, [] => pure ()
  | i, v :: vs => do
      let _ ← Act.perform (store (fieldN block i) v)
      storeFields store block (i + 1) vs

/-- A new block whose fields from `start` on are `vs`: in the minor heap if it
fits, else in the major heap. -/
def allocBlock (wosize tag start : Nat) (vs : List Value) : Act O Value :=
  if wosize ≤ maxYoungWosize then do
    let block ← Act.perform (.allocSmall wosize tag)
    storeFields .store block start vs
    pure block
  else do
    let block ← Act.perform (.allocShr wosize tag)
    storeFields .camlInitialize block start vs
    pure block

/-- `if (nvars > 0) *--sp = accu`. -/
def spillAccu (nvars : Nat) (s : State) : State := if nvars > 0 then s.pushed s.accu else s

/-- `CLOSURE`. -/
def doClosure (l nvars : Nat) (s : State) : Act O State := do
  let s := spillAccu nvars s
  let vars ← Act.ofOption (s.picks? nvars)
  let s' ← Act.ofOption (s.drop? nvars)
  let block ← allocBlock (1 + nvars) closureTag 1 vars
  let _ ← Act.perform (.store block (rt.codePointer l))
  pure (s'.withAccu block)

/-- The loop of `CLOSUREREC` over the functions after the first. -/
def storeInfixes (block : Value) : Nat → List Nat → State → Act O State
  | _, [], s => pure s
  | i, l :: ls, s => do
      let _ ← Act.perform (.store (fieldN block (2 * i - 1)) (makeHeader (i * 2) infixTag))
      let _ ← Act.perform (.store (fieldN block (2 * i)) (rt.codePointer l))
      storeInfixes block (i + 1) ls (s.pushed (fieldN block (2 * i)))

/-- `CLOSUREREC`. -/
def doClosureRec (ls : List Nat) (nvars : Nat) (s : State) : Act O State :=
  match ls with
  | [] => Act.stuck
  | l :: rest => do
      let s := spillAccu nvars s
      let vars ← Act.ofOption (s.picks? nvars)
      let s' ← Act.ofOption (s.drop? nvars)
      let block ← allocBlock (ls.length * 2 - 1 + nvars) closureTag (ls.length * 2 - 1) vars
      let _ ← Act.perform (.store block (rt.codePointer l))
      storeInfixes rt block 1 rest ((s'.withAccu block).pushed block)

/-- `accu = env + n * sizeof(value)`. -/
def doOffsetClosure (n : Int) (s : State) : Act O State :=
  pure (s.withAccu (s.env + BitVec.ofInt 64 (n * 8)))

/-- `accu = Field(caml_global_data, n)`. -/
def doGetGlobal (n : Nat) (s : State) : Act O State := do
  let globals ← Act.perform (.load rt.globalData)
  pure (s.withAccu (← Act.perform (.load (field globals (operand n)))))

/-- `caml_modify(&Field(caml_global_data, n), accu); accu = Val_unit`. -/
def doSetGlobal (n : Nat) (s : State) : Act O State := do
  let globals ← Act.perform (.load rt.globalData)
  let _ ← Act.perform (.camlModify (field globals (operand n)) s.accu)
  pure (s.withAccu valUnit)

/-- `accu = Val_int(n)`. -/
def doConst (n : Int) (s : State) : Act O State := pure (s.withAccu (valInt n))

/-- `ATOM` and `MAKEBLOCK`. -/
def doMakeBlock (size tag : Nat) (s : State) : Act O State :=
  if size = 0 then pure (s.withAccu (rt.atom tag))
  else do
    let fields ← Act.ofOption (s.picks? (size - 1))
    let s' ← Act.ofOption (s.drop? (size - 1))
    pure (s'.withAccu (← allocBlock size tag 0 (s.accu :: fields)))

/-- `Store_double_flat_field(block, i, Double_val(v))` for each of `vs`. -/
def storeDoubles (block : Value) : Nat → List Value → Act O Unit
  | _, [] => pure ()
  | i, v :: vs => do
      let d ← Act.perform (.load v)
      let _ ← Act.perform (.store (fieldN block i) d)
      storeDoubles block (i + 1) vs

/-- `MAKEFLOATBLOCK`. -/
def doMakeFloatBlock (size : Nat) (s : State) : Act O State := do
  let fields ← Act.ofOption (s.picks? (size - 1))
  let s' ← Act.ofOption (s.drop? (size - 1))
  let block ← Act.perform
    (if size ≤ maxYoungWosize then .allocSmall size doubleArrayTag
     else .allocShr size doubleArrayTag)
  storeDoubles block 0 (s.accu :: fields)
  pure (s'.withAccu block)

/-- `accu = Field(accu, n)`. -/
def doGetField (n : Nat) (s : State) : Act O State := do
  pure (s.withAccu (← Act.perform (.load (field s.accu (operand n)))))

/-- `caml_modify(&Field(accu, n), *sp++); accu = Val_unit`. -/
def doSetField (n : Nat) (s : State) : Act O State := do
  let v ← Act.ofOption (s.pick? 0)
  let s' ← Act.ofOption (s.drop? 1)
  let _ ← Act.perform (.camlModify (field s.accu (operand n)) v)
  pure (s'.withAccu valUnit)

/-- `GETFLOATFIELD`. -/
def doGetFloatField (n : Nat) (s : State) : Act O State := do
  let d ← Act.perform (.load (field s.accu (operand n)))
  let block ← Act.perform (.allocSmall 1 doubleTag)
  let _ ← Act.perform (.store block d)
  pure (s.withAccu block)

/-- `SETFLOATFIELD`. -/
def doSetFloatField (n : Nat) (s : State) : Act O State := do
  let v ← Act.ofOption (s.pick? 0)
  let s' ← Act.ofOption (s.drop? 1)
  let d ← Act.perform (.load v)
  let _ ← Act.perform (.store (field s.accu (operand n)) d)
  pure (s'.withAccu valUnit)

/-- `VECTLENGTH`. -/
def doVecTLength (s : State) : Act O State := do
  pure (s.withAccu (← Act.perform (.vectLength s.accu)))

/-- `accu = Field(accu, Long_val(sp[0])); sp += 1`. -/
def doGetVecTItem (s : State) : Act O State := do
  let i ← Act.ofOption (s.pick? 0)
  let s' ← Act.ofOption (s.drop? 1)
  pure (s'.withAccu (← Act.perform (.load (field s.accu (longVal i)))))

/-- `caml_modify(&Field(accu, Long_val(sp[0])), sp[1]); accu = Val_unit; sp += 2`. -/
def doSetVecTItem (s : State) : Act O State := do
  let i ← Act.ofOption (s.pick? 0)
  let v ← Act.ofOption (s.pick? 1)
  let s' ← Act.ofOption (s.drop? 2)
  let _ ← Act.perform (.camlModify (field s.accu (longVal i)) v)
  pure (s'.withAccu valUnit)

/-- `accu = Val_int(Byte_u(accu, Long_val(sp[0]))); sp += 1`. -/
def doGetBytesChar (s : State) : Act O State := do
  let i ← Act.ofOption (s.pick? 0)
  let s' ← Act.ofOption (s.drop? 1)
  let b ← Act.perform (.load8 (s.accu + longVal i))
  pure (s'.withAccu (valLong ((b.setWidth 8).setWidth 64)))

/-- `Byte_u(accu, Long_val(sp[0])) = Int_val(sp[1]); sp += 2; accu = Val_unit`. -/
def doSetBytesChar (s : State) : Act O State := do
  let i ← Act.ofOption (s.pick? 0)
  let v ← Act.ofOption (s.pick? 1)
  let s' ← Act.ofOption (s.drop? 2)
  let _ ← Act.perform (.store8 (s.accu + longVal i) ((intVal v).setWidth 8))
  pure (s'.withAccu valUnit)

/-- `accu = Val_not(accu)`. -/
def doBoolNot (s : State) : Act O State :=
  pure (s.withAccu (valFalse + valTrue - s.accu))

/-- `if (caml_something_to_do) goto process_actions`. -/
def doCheckSignals (s : State) : Act O State := do
  let todo ← Act.perform (.load32 rt.somethingToDo)
  if todo.setWidth 32 = 0 then pure s
  else do
    let _ ← Act.perform .processPendingActions
    pure s

/-- `C_CALL1` to `C_CALLN`: the accumulator and `extra` words of the stack. -/
def doCCall (id extra : Nat) (s : State) : Act O State := do
  let args ← Act.ofOption (s.picks? extra)
  let s' ← Act.ofOption (s.drop? extra)
  pure (s'.withAccu (← Act.perform (.cCall id (s.accu :: args))))

/-- `if (divisor == 0) caml_raise_zero_divide()`, then the quotient. -/
def divide (f : BitVec 64 → BitVec 64 → BitVec 64) (a b : Value) : Act O Value :=
  if longVal b = 0 then do
    let _ ← Act.perform .raiseZeroDivide
    Act.stuck
  else pure (valLong (f (longVal a) (longVal b)))

/-- A shift by `Long_val(b)`; C gives it a meaning for 0 to 63 only. -/
def shiftBy (f : Nat → Value) (b : Value) : Act O Value :=
  if (longVal b).toNat < 64 then pure (f (longVal b).toNat) else Act.stuck

/-- The operators of the tagged arithmetic. -/
def arith (op : ArithOp) (a b : Value) : Act O Value :=
  match op with
  | .add => pure (a + b - 1)
  | .sub => pure (a - b + 1)
  | .mul => pure (valLong (longVal a * longVal b))
  | .div => divide BitVec.sdiv a b
  | .mod => divide BitVec.srem a b
  | .and => pure (a &&& b)
  | .or => pure (a ||| b)
  | .xor => pure ((a ^^^ b) ||| 1)
  | .lsl => shiftBy (fun n => ((a - 1) <<< n) + 1) b
  | .lsr => shiftBy (fun n => (a >>> n) ||| 1) b
  | .asr => shiftBy (fun n => a.sshiftRight n ||| 1) b

/-- `ADDINT` to `ASRINT`. -/
def doArithInt (op : ArithOp) (s : State) : Act O State := do
  let b ← Act.ofOption (s.pick? 0)
  let s' ← Act.ofOption (s.drop? 1)
  pure (s'.withAccu (← arith op s.accu b))

/-- `accu = 2 - accu`. -/
def doNegInt (s : State) : Act O State := pure (s.withAccu (2 - s.accu))

/-- `accu = Val_int(accu tst *sp++)`. -/
def doIntCmp (cmp : Comp) (s : State) : Act O State := do
  let b ← Act.ofOption (s.pick? 0)
  let s' ← Act.ofOption (s.drop? 1)
  pure (s'.withAccu (if compHolds cmp s.accu b then valTrue else valFalse))

/-- `accu += n << 1`. -/
def doOffsetInt (n : Int) (s : State) : Act O State :=
  pure (s.withAccu (s.accu + doubledOperand n))

/-- `Field(accu, 0) += n << 1; accu = Val_unit`. -/
def doOffsetRef (n : Int) (s : State) : Act O State := do
  let old ← Act.perform (.load s.accu)
  let _ ← Act.perform (.store s.accu (old + doubledOperand n))
  pure (s.withAccu valUnit)

/-- `accu = Val_long(accu & 1)`. -/
def doIsInt (s : State) : Act O State := pure (s.withAccu (valLong (s.accu &&& 1)))

/-- `accu = Lookup(sp[0], accu)`. -/
def doGetMethod (s : State) : Act O State := do
  let obj ← Act.ofOption (s.pick? 0)
  let methods ← Act.perform (.load obj)
  pure (s.withAccu (← Act.perform (.load (field methods (intVal s.accu)))))

/-- `GETDYNMET`. -/
def doGetDynMet (s : State) : Act O State := do
  let obj ← Act.ofOption (s.pick? 0)
  pure (s.withAccu (← Act.perform (.getDynMet s.accu obj)))

/-! ## §3. Branch conditions and ends. -/

/-- `accu != Val_false`. -/
def branchTaken (s : State) : Bool := s.accu != valFalse

/-- `n tst Long_val(accu)`. -/
def cmpTaken (cmp : Comp) (n : Int) (s : State) : Bool :=
  compHolds cmp (BitVec.ofInt 64 n) (longVal s.accu)

/-- The label `SWITCH` goes to: by the tag of a block, or by the integer. -/
def switchTarget (ints tags : List Nat) (s : State) : Act O Nat :=
  if s.accu &&& 1 = 0 then do
    let tag ← Act.perform (.load8 (s.accu - 8))
    Act.ofOption (tags[(tag.setWidth 8).toNat]?)
  else Act.ofOption (ints[(longVal s.accu).toNat]?)

/-- `RETURN`, up to the check of `extra_args`. -/
def doReturn (toPop : Nat) (s : State) : Act O Outcome := do
  let s' ← Act.ofOption (s.drop? toPop)
  pure (.returned s.accu s'.stack)

/-- `APPTERM`, up to the jump. -/
def doTailCall (nargs toPop : Nat) (s : State) : Act O Outcome := do
  let args ← Act.ofOption (s.picks? nargs)
  let s' ← Act.ofOption (s.drop? toPop)
  pure (.tailCall s.accu args s'.stack)

end Meaning

end OcamlJit.Interp

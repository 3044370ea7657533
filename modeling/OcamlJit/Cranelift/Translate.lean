/-
  OcamlJit.Cranelift.Translate
  ────────────────────────────
  **FROM BASIC BLOCKS TO IR** (`cranelift_compiler/mod.rs`).

  `FunctionTranslator` as a state: the tracked stack size and the number of the
  last value.  A method (`Emit`) hands on what it appends to the current block.
  Each method of the source is one definition.  `with_context` only wraps an error, so an error is
  its root cause.

  What Cranelift itself does with the finished function (`define_function`) is
  not modelled; sealing blocks is bookkeeping of its SSA construction.
-/
import OcamlJit.BasicBlocks.Types
import OcamlJit.Cranelift.Ir
import OcamlJit.Lib.Rust

namespace OcamlJit.Cranelift

open OcamlJit.Lib OcamlJit.Instructions OcamlJit.Interp OcamlJit.BasicBlocks

/-! ## §1. The translator. -/

/-- `enum Arity`. -/
inductive Arity where
  | n1 | n2 | n3 | n4 | n5
  | varArgs (nargs : Nat)
  deriving Repr, DecidableEq

/-- Why a closure is not translated. -/
inductive TranslateError where
  /-- "Stack overflow". -/
  | stackOverflow
  /-- "Stack underflow on pick". -/
  | underflowOnPick
  /-- "Stack underflow on assign". -/
  | underflowOnAssign
  /-- "Stack underflow on pop". -/
  | underflowOnPop
  /-- "Expected stack size {}, got stack size {}". -/
  | expectedStackSize (expected got : Nat)
  /-- "Unimplemented instruction: {:?}". -/
  | unimplementedInstruction (i : BasicBlockInstruction)
  /-- "Unimplemented exit: {:?}". -/
  | unimplementedExit (x : BasicBlockExit)
  /-- "Could not find closure {:?}". -/
  | couldNotFindClosure (l : Nat)
  /-- "Unimplemented: VarArgs c_call". -/
  | unimplementedVarArgs
  /-- "Conflicting c-call arities: {:?} first then {:?}". -/
  | conflictingArities (known arity : Arity)
  /-- A failed `ensure!` on the closure's arity, an argument count or a table. -/
  | arityAboveFive
  | noArguments
  | emptySwitch
  deriving Repr, DecidableEq

/-- What stays the same during a translation. -/
structure TranslatorEnv where
  /-- The length of `stack_vars`. -/
  stackVars : Nat
  /-- The length of `blocks`. -/
  blocks : Nat
  lookupClosureCode : Nat → Option Value
  atomTableAddr : Value
  useCallTraces : Bool

/-- `struct FunctionTranslator`. -/
structure Translator where
  stackSize : Nat
  lastValue : Nat
  usedCCalls : List Nat
  /-- `Primitives::c_calls`. -/
  cCalls : List (Nat × Arity)
  deriving Repr, DecidableEq

/-- A method of the translator, with the operations it appends. -/
def Emit (α : Type) : Type := Translator → Rust TranslateError (α × Translator × List Op)

namespace Emit

variable {α β γ : Type}

instance : Monad Emit where
  pure a := fun τ => .ok (a, τ, [])
  bind m f := fun τ => do
    let (a, τ₁, ops₁) ← m τ
    let (b, τ₂, ops₂) ← f a τ₁
    pure (b, τ₂, ops₁ ++ ops₂)

/-- Two parts that succeed, with the operations of the first and of the second. -/
theorem bind_eq_ok {m : Emit α} {f : α → Emit β} {τ τ' : Translator} {b : β}
    {ops : List Op} : (m >>= f) τ = .ok (b, τ', ops) ↔
      ∃ a τ₁ ops₁ ops₂, m τ = .ok (a, τ₁, ops₁) ∧ f a τ₁ = .ok (b, τ', ops₂) ∧
        ops = ops₁ ++ ops₂ := by
  show ((m τ >>= fun p => f p.1 p.2.1 >>= fun r =>
    .ok (r.1, r.2.1, p.2.2 ++ r.2.2)) = .ok (b, τ', ops)) ↔ _
  constructor
  · intro h
    obtain ⟨⟨a, τ₁, ops₁⟩, hm, h⟩ := Lib.bind_eq_ok.mp h
    obtain ⟨⟨b', τ₂, ops₂⟩, hf, h⟩ := Lib.bind_eq_ok.mp h
    cases h
    exact ⟨a, τ₁, ops₁, ops₂, hm, hf, rfl⟩
  · rintro ⟨a, τ₁, ops₁, ops₂, hm, hf, rfl⟩
    exact Lib.bind_eq_ok.mpr ⟨_, hm, Lib.bind_eq_ok.mpr ⟨_, hf, rfl⟩⟩

/-- It does not matter how parts are grouped. -/
theorem bind_assoc (m : Emit α) (f : α → Emit β) (g : β → Emit γ) :
    (m >>= f >>= g) = m >>= fun a => f a >>= g := by
  funext τ
  show ((m τ >>= fun p => f p.1 p.2.1 >>= fun r => .ok (r.1, r.2.1, p.2.2 ++ r.2.2)) >>=
      fun p => g p.1 p.2.1 >>= fun r => .ok (r.1, r.2.1, p.2.2 ++ r.2.2))
    = m τ >>= fun p => (f p.1 p.2.1 >>= fun q => g q.1 q.2.1 >>= fun r =>
        .ok (r.1, r.2.1, q.2.2 ++ r.2.2)) >>= fun r => .ok (r.1, r.2.1, p.2.2 ++ r.2.2)
  cases m τ with
  | error e => rfl
  | ok p =>
      simp only [ok_bind]
      cases f p.1 p.2.1 with
      | error e => rfl
      | ok q =>
          simp only [ok_bind]
          cases g q.1 q.2.1 with
          | error e => rfl
          | ok r => simp only [ok_bind, List.append_assoc]

/-- Emitting nothing first. -/
theorem pure_bind (a : α) (f : α → Emit β) : (pure a >>= f) = f a := by
  funext τ
  show (f a τ >>= fun r => .ok (r.1, r.2.1, [] ++ r.2.2)) = f a τ
  cases f a τ <;> rfl

/-- Emitting nothing last. -/
theorem bind_pure (m : Emit α) : (m >>= pure) = m := by
  funext τ
  show (m τ >>= fun p => .ok (p.1, p.2.1, p.2.2 ++ [])) = m τ
  cases m τ with
  | error e => rfl
  | ok p => simp only [ok_bind, List.append_nil]

instance : LawfulMonad Emit := LawfulMonad.mk' Emit bind_pure pure_bind bind_assoc

end Emit

/-- The state of the translator. -/
def current : Emit Translator := fun τ => .ok (τ, τ, [])

/-- A change of the translator's state. -/
def update (f : Translator → Translator) : Emit Unit := fun τ => .ok ((), f τ, [])

/-- `bail!`. -/
def bail {α : Type} (e : TranslateError) : Emit α := fun _ => err e

/-- A panic. -/
def panics {α : Type} : Emit α := fun _ => panicked

/-- `bail!` under a condition. -/
def bailIf (c : Prop) [Decidable c] (e : TranslateError) : Emit Unit :=
  if c then bail e else pure ()

/-- A panic under a condition. -/
def panicIf (c : Prop) [Decidable c] : Emit Unit := if c then panics else pure ()

/-- An operation that defines the next value. -/
def define (op : Val → Op) : Emit Val := fun τ =>
  .ok (τ.lastValue + 1, { τ with lastValue := τ.lastValue + 1 }, [op (τ.lastValue + 1)])

/-- An operation without a result. -/
def emit (op : Op) : Emit Unit := fun τ => .ok ((), τ, [op])

/-- An instruction that only computes. -/
def ins (e : Expr) : Emit Val := define (.ins · e)

/-- `x as i32`. -/
def asI32 (n : Nat) : Int := (BitVec.ofNat 32 n).toInt

/-- `n as i32 * 8`, with overflow checks. -/
def fieldOffset (n : Nat) : Emit Int :=
  if -2 ^ 31 ≤ asI32 n * 8 ∧ asI32 n * 8 < 2 ^ 31 then pure (asI32 n * 8) else panics

/-- `i64_to_value`. -/
def i64ToValue (i : Int) : Value := valInt i

/-- `comp_to_cc`. -/
def compToCc : Comp → IntCC
  | .eq => .equal
  | .ne => .notEqual
  | .lt => .signedLessThan
  | .le => .signedLessThanOrEqual
  | .gt => .signedGreaterThan
  | .ge => .signedGreaterThanOrEqual
  | .uLt => .unsignedLessThan
  | .uGe => .unsignedGreaterThanOrEqual

section Translate

variable (k : TranslatorEnv)

/-! ## §2. Helpers. -/

/-- `if self.options.use_call_traces`. -/
def traced (m : Emit Unit) : Emit Unit := if k.useCallTraces then m else pure ()

def intToRef (v : Val) : Emit Val := ins (.rawBitcast v)

def refToInt (v : Val) : Emit Val := ins (.rawBitcast v)

def valueToLong (v : Val) : Emit Val := ins (.sshrImm v 1)

def longToValue (v : Val) : Emit Val := do
  let doubled ← ins (.iadd v v)
  ins (.iaddImm doubled 1)

/-- `self.stack_vars[i]`. -/
def stackVar (i : Nat) : Emit Var := if i < k.stackVars then pure (.stack i) else panics

def pushRef (v : Val) : Emit Unit := do
  let τ ← current
  bailIf (τ.stackSize ≥ k.stackVars) .stackOverflow
  let x ← stackVar k τ.stackSize
  emit (.defVar x v)
  update fun τ => { τ with stackSize := τ.stackSize + 1 }

/-- `count` times `push_ref(v)`. -/
def pushTimes (v : Val) : Nat → Emit Unit
  | 0 => pure ()
  | count + 1 => do
      pushRef k v
      pushTimes v count

def pushDummy (size : Nat) : Emit Unit := do
  let zeroRef ← ins .null
  pushTimes k zeroRef size

def pushInt (v : Val) : Emit Unit := do
  let r ← intToRef v
  pushRef k r

def pickRef (n : Nat) : Emit Val := do
  let τ ← current
  bailIf (n ≥ τ.stackSize) .underflowOnPick
  let x ← stackVar k (τ.stackSize - n - 1)
  define (.useVar · x)

/-- `pick_ref(i)`, `pick_ref(i + 1)`, …: `count` of them. -/
def pickRefs : Nat → Nat → Emit (List Val)
  | _, 0 => pure []
  | i, count + 1 => do
      let v ← pickRef k i
      let vs ← pickRefs (i + 1) count
      pure (v :: vs)

def pickInt (n : Nat) : Emit Val := do
  let r ← pickRef k n
  refToInt r

def assignRef (n : Nat) (v : Val) : Emit Unit := do
  let τ ← current
  bailIf (n ≥ τ.stackSize) .underflowOnAssign
  let x ← stackVar k (τ.stackSize - n - 1)
  emit (.defVar x v)

def pop (n : Nat) : Emit Unit := do
  let τ ← current
  bailIf (n > τ.stackSize) .underflowOnPop
  update fun τ => { τ with stackSize := τ.stackSize - n }

def setAccRef (v : Val) : Emit Unit := emit (.defVar .acc v)

def setAccInt (v : Val) : Emit Unit := do
  let r ← intToRef v
  setAccRef r

def setAccUnit : Emit Unit := do
  let u ← ins (.iconst 1)
  setAccInt u

def getAccRef : Emit Val := define (.useVar · .acc)

def getAccInt : Emit Val := do
  let r ← getAccRef
  refToInt r

/-- `call_primitive` of a function with a result. -/
def callPrimitiveValue (f : PrimitiveFunction) (args : List Val) : Emit Val :=
  define fun dst => .call f (some dst) args

/-- `call_primitive` of a function without one. -/
def callPrimitiveUnit (f : PrimitiveFunction) (args : List Val) : Emit Unit :=
  emit (.call f none args)

def pushLastNItemsForReal (count : Nat) : Emit Unit := do
  -- `count as i32`: the loop does nothing for a negative one
  let vs ← pickRefs k 0 (asI32 count).toNat
  emit (.pushOcamlStack vs)

/-- A trace of an application: its arguments are put on the OCaml stack and
taken off again. -/
def emitApplyTrace (closure : Val) (numArgs : Nat) : Emit Unit := traced k do
  let vs ← pickRefs k 0 (asI32 numArgs).toNat
  callPrimitiveUnit .emitApplyTrace (closure :: vs)

def emitApply (numArgs : Nat) : Emit Unit := do
  let closure ← getAccRef
  emitApplyTrace k closure numArgs
  -- `unreachable!` in the `match`
  panicIf (numArgs = 0)
  let args ← pickRefs k 0 numArgs
  pop numArgs
  let result ← define (.apply · closure args)
  setAccRef result

/-- The number of arguments taken from the stack. -/
def Arity.fromStack : Arity → Nat
  | .n1 => 0
  | .n2 => 1
  | .n3 => 2
  | .n4 => 3
  | .n5 => 4
  | .varArgs nargs => nargs - 1

/-- `get_or_initialise_c_call`. -/
def getOrInitialiseCCall (id : Nat) (arity : Arity) : Emit Unit := do
  let τ ← current
  match τ.cCalls.lookup id with
  | some known => bailIf (known ≠ arity) (.conflictingArities known arity)
  | none => update fun τ => { τ with cCalls := (id, arity) :: τ.cCalls }

/-- The function's own table of callees comes first. -/
def declareCCall (id : Nat) (arity : Arity) : Emit Unit := do
  let τ ← current
  if id ∈ τ.usedCCalls then pure ()
  else
    getOrInitialiseCCall id arity
    update fun τ => { τ with usedCCalls := id :: τ.usedCCalls }

def cCall (id : Nat) (arity : Arity) : Emit Unit := do
  declareCCall id arity
  match arity with
  | .varArgs _ => bail .unimplementedVarArgs
  | arity =>
      let accu ← getAccRef
      let rest ← pickRefs k 0 arity.fromStack
      pop arity.fromStack
      traced k (callPrimitiveUnit .emitCCallTrace (accu :: rest))
      let result ← define fun dst => .cCall dst id (accu :: rest)
      setAccRef result
      traced k (callPrimitiveUnit .emitReturnTrace [result])

def checkDivZero (divisor : Val) : Emit Unit := do
  let res ← ins (.icmpImm .equal divisor 1)
  emit (.callIfNonzero res .camlRaiseZeroDivide true)

def checkSignals : Emit Unit := do
  let addr ← ins (.symbolValue .camlSomethingToDoAddr)
  let todo ← define (.load · .i32 addr 0)
  emit (.callIfNonzero todo .camlProcessPendingActions false)

/-- The stores of `alloc` into a small block, from field `i` on. -/
def storeContents (block : Val) : Nat → List (Option Val) → Emit Unit
  | _, [] => pure ()
  | i, none :: contents => storeContents block (i + 1) contents
  | i, some v :: contents => do
      emit (.store v block (i * 8))
      storeContents block (i + 1) contents

/-- The `caml_initialize` calls of `alloc`, from field `i` on. -/
def initializeContents (block : Val) : Nat → List (Option Val) → Emit Unit
  | _, [] => pure ()
  | i, none :: contents => initializeContents block (i + 1) contents
  | i, some v :: contents => do
      let addr ← ins (.iaddImm block (i * 8))
      callPrimitiveUnit .camlInitialize [addr, v]
      initializeContents block (i + 1) contents

def alloc (contents : List (Option Val)) (tag : Nat) : Emit Val := do
  if contents.length ≤ maxYoungWosize then
    let block ← define (.allocSmall · contents.length tag)
    storeContents block 0 contents
    pure block
  else
    let wosize ← ins (.iconst (BitVec.ofNat 64 contents.length))
    let tag ← ins (.iconst (BitVec.ofNat 64 tag))
    let block ← callPrimitiveValue .camlAllocShr [wosize, tag]
    let blockInt ← refToInt block
    initializeContents blockInt 0 contents
    pure block

/-! ## §3. Instructions. -/

def lookupCode (l : Nat) : Emit Value := do
  match k.lookupClosureCode l with
  | some p => pure p
  | none => bail (.couldNotFindClosure l)

/-- `if nvars > 0`: the accumulator goes onto the stack. -/
def spillAcc (nvars : Nat) : Emit Unit :=
  if nvars > 0 then do
    let accu ← getAccRef
    pushRef k accu
  else pure ()

def translateClosure (codeval nvars : Nat) : Emit Unit := do
  spillAcc k nvars
  let vars ← pickRefs k 0 nvars
  pop nvars
  let block ← alloc (none :: vars.map some) closureTag
  let codePtr ← lookupCode k codeval
  let blockAddr ← refToInt block
  let codePtrLoc ← ins (.iconst codePtr)
  emit (.store codePtrLoc blockAddr 0)
  setAccRef block

/-- The loop of `ClosureRec` over the code pointers after the first. -/
def storeInfixPointers (base : Val) : Nat → List Value → Emit Unit
  | _, [] => pure ()
  | i, codePointer :: rest => do
      let pointer ← ins (.iconst codePointer)
      let header ← ins (.iconst (makeHeader (i * 2) infixTag))
      emit (.store header base (asI32 (8 * (2 * i - 1))))
      emit (.store pointer base (asI32 (8 * 2 * i)))
      let infixPtr ← ins (.iaddImm base (8 * 2 * i))
      pushInt k infixPtr
      storeInfixPointers base (i + 1) rest

def translateClosureRec (funcs : List Nat) (nvars : Nat) : Emit Unit := do
  match ← funcs.mapM (lookupCode k) with
  -- `funcs.len() * 2 - 1` of no functions
  | [] => panics
  | first :: rest =>
      -- without variables there is nothing to spill, to pick and to pop
      spillAcc k nvars
      let vars ← pickRefs k 0 nvars
      pop nvars
      let block ← alloc (List.replicate (funcs.length * 2 - 1) none ++ vars.map some) closureTag
      let base ← refToInt block
      let pointer ← ins (.iconst first)
      emit (.store pointer base 0)
      pushInt k base
      storeInfixPointers k base 1 rest

def translateMakeBlock (wosize tag : Nat) : Emit Unit := do
  if wosize = 0 then
    if k.atomTableAddr.toNat + 8 * tag < 2 ^ 64 then
      let addr ← ins (.iconst (k.atomTableAddr + 8 * BitVec.ofNat 64 tag))
      setAccInt addr
    else panics
  else
    let accu ← getAccRef
    let vars ← pickRefs k 0 (wosize - 1)
    let block ← alloc (some accu :: vars.map some) tag
    setAccRef block
    pop (wosize - 1)
    traced k (callPrimitiveUnit .makeBlockTrace [block])

/-- `ptr` of `SetField`. -/
def pointerAt (accu : Val) (offset : Nat) : Emit Val :=
  if offset > 0 then ins (.iaddImm accu offset) else pure accu

/-- The value of an arithmetic operator. -/
def translateArith (op : ArithOp) (a b : Val) : Emit Val :=
  match op with
  | .add => do
      let added ← ins (.iadd a b)
      ins (.iaddImm added (-1))
  | .sub => do
      let subbed ← ins (.isub a b)
      ins (.iaddImm subbed 1)
  | .mul => do
      let al ← valueToLong a
      let bl ← valueToLong b
      let rl ← ins (.imul al bl)
      longToValue rl
  | .div => do
      checkDivZero b
      let al ← valueToLong a
      let bl ← valueToLong b
      let rl ← define (.sdiv · al bl)
      longToValue rl
  | .mod => do
      checkDivZero b
      let al ← valueToLong a
      let bl ← valueToLong b
      let rl ← define (.srem · al bl)
      longToValue rl
  | .and => ins (.band a b)
  | .or => ins (.bor a b)
  | .xor => do
      let x ← ins (.bxor a b)
      ins (.borImm x 1)
  | .lsl => do
      let shift ← valueToLong b
      let adec ← ins (.iaddImm a (-1))
      let shifted ← ins (.ishl adec shift)
      ins (.iaddImm shifted 1)
  | .lsr => do
      let shift ← valueToLong b
      let shifted ← ins (.ushr a shift)
      ins (.borImm shifted 1)
  | .asr => do
      let shift ← valueToLong b
      let shifted ← ins (.sshr a shift)
      ins (.borImm shifted 1)

def translateInstruction : BasicBlockInstruction → Emit Unit
  | .acc n => do
      let v ← pickRef k n
      setAccRef v
  | .envAcc n => do
      let offset ← fieldOffset n
      let v ← define (.load · .i64 0 offset)
      setAccRef v
  | .push => do
      let v ← getAccRef
      pushRef k v
  | .pop n => pop n
  | .assign n => do
      let accu ← getAccRef
      assignRef k n accu
      setAccUnit
  | .apply1 => emitApply k 1
  | .apply2 => emitApply k 2
  | .apply3 => emitApply k 3
  | .pushRetAddr => pushDummy k 3
  | .apply nargs => do
      bailIf (nargs = 0) .noArguments
      emitApply k nargs
      pop 3
  | .closure l nvars => translateClosure k l nvars
  | .closureRec ls nvars => translateClosureRec k ls nvars
  | .makeBlock wosize tag => translateMakeBlock k wosize tag
  | .offsetClosure n => do
      let env ← refToInt 0
      let result ← ins (.iaddImm env (n * 8))
      setAccInt result
  | .getGlobal n => do
      let addr ← ins (.symbolValue .globalDataAddr)
      let globals ← define (.load · .i64 addr 0)
      let offset ← fieldOffset n
      let result ← define (.load · .i64 globals offset)
      setAccRef result
  | .getField n => do
      let accu ← getAccRef
      let offset ← fieldOffset n
      let res ← define (.load · .i64 accu offset)
      setAccRef res
  | .setField n => do
      -- `*i * 8` on `u32`
      panicIf (n * 8 ≥ 2 ^ 32)
      let accu ← getAccInt
      let ptr ← pointerAt accu (n * 8)
      let v ← pickRef k 0
      pop 1
      callPrimitiveUnit .camlModify [ptr, v]
      setAccUnit
  | .getVecTItem => do
      let i ← pickInt k 0
      pop 1
      let flipped ← ins (.bxorImm i 1)
      let bytes ← ins (.ishlImm flipped 2)
      let accu ← getAccRef
      let item ← define (.loadComplex · .i64 accu bytes)
      setAccRef item
  | .setVecTItem => do
      let i ← pickInt k 0
      let v ← pickRef k 1
      pop 2
      let flipped ← ins (.bxorImm i 1)
      let bytes ← ins (.ishlImm flipped 2)
      let accu ← getAccInt
      let ptr ← ins (.iadd accu bytes)
      callPrimitiveUnit .camlModify [ptr, v]
      setAccUnit
  | .getBytesChar => do
      let i ← pickInt k 0
      pop 1
      let offset ← valueToLong i
      let accu ← getAccRef
      let byte ← define (.loadComplex · .i8 accu offset)
      let byteLong ← ins (.uextend8 byte)
      let byteVal ← longToValue byteLong
      setAccInt byteVal
  | .setBytesChar => do
      let i ← pickInt k 0
      let v ← pickInt k 1
      pop 2
      let offset ← valueToLong i
      let accu ← getAccRef
      let long ← valueToLong v
      let byte ← ins (.ireduce8 long)
      emit (.storeComplex8 byte accu offset)
      setAccUnit
  | .offsetRef n => do
      let accu ← getAccRef
      let old ← define (.load · .i64 accu 0)
      let new ← ins (.iaddImm old (n * 2))
      emit (.store new accu 0)
      setAccUnit
  | .const n => do
      let int ← ins (.iconst (i64ToValue n))
      let ref ← intToRef int
      setAccRef ref
  | .boolNot => do
      let v ← getAccInt
      let res ← ins (.bxorImm v 2)
      setAccInt res
  | .negInt => do
      let two ← ins (.iconst 2)
      let acc ← getAccInt
      let res ← ins (.isub two acc)
      setAccInt res
  | .arithInt op => do
      let a ← getAccInt
      let b ← pickInt k 0
      pop 1
      let result ← translateArith op a b
      setAccInt result
  | .isInt => do
      let acc ← getAccInt
      let anded ← ins (.bandImm acc 1)
      let res ← longToValue anded
      setAccInt res
  | .intCmp cmp => do
      let x ← getAccInt
      let y ← pickInt k 0
      pop 1
      let t ← ins (.iconst 3)
      let f ← ins (.iconst 1)
      let res ← ins (.selectif (compToCc cmp) x y t f)
      setAccInt res
  | .offsetInt n => do
      let acc ← getAccInt
      let added ← ins (.iaddImm acc (n * 2))
      setAccInt added
  | .cCall1 id => cCall k id .n1
  | .cCall2 id => cCall k id .n2
  | .cCall3 id => cCall k id .n3
  | .cCall4 id => cCall k id .n4
  | .cCall5 id => cCall k id .n5
  | .cCallN nargs id => cCall k id (.varArgs nargs)
  | .vecTLength => do
      let accu ← getAccRef
      let result ← callPrimitiveValue .jitSupportVectLength [accu]
      setAccRef result
  | .checkSignals => checkSignals
  | .getDynMet => do
      let accu ← getAccRef
      let tos ← pickRef k 0
      let result ← callPrimitiveValue .jitSupportGetDynMet [accu, tos]
      setAccRef result
  | i => bail (.unimplementedInstruction i)

/-! ## §4. Exits, blocks and functions. -/

/-- `self.blocks[l]`. -/
def blockRef (l : Nat) : Emit Nat := if l < k.blocks then pure l else panics

/-- A side block for the `Switch` helper: what `m` emits goes there. -/
def inSideBlock (m : Emit Val) (entries : List Nat) : Emit SwitchBlock := fun τ => do
  let (key, τ', ops) ← m τ
  pure (⟨ops, key, entries⟩, τ', [])

def emitIntSwitch (ints : List Nat) : Emit SwitchBlock := do
  let entries ← ints.mapM (blockRef k)
  inSideBlock (do
    let accu ← getAccInt
    let reduced ← ins (.ireduce32 accu)
    ins (.sshrImm32 reduced 1)) entries

def emitTagSwitch (tags : List Nat) : Emit SwitchBlock := do
  let entries ← tags.mapM (blockRef k)
  inSideBlock (do
    let accu ← getAccRef
    define (.load · .i8 accu (-8))) entries

/-- The trace before the return block. -/
def returnTrace : Emit Unit := traced k do
  let result ← getAccRef
  callPrimitiveUnit .emitReturnTrace [result]

def translateExit : BasicBlockExit → Emit Terminator
  | .branch l => do pure (.jump (← blockRef k l))
  | .branchIf thenBlock elseBlock => do
      let acc ← getAccInt
      let cond ← ins (.icmpImm .equal acc 1)
      pure (.brz cond (← blockRef k thenBlock) (← blockRef k elseBlock))
  | .branchCmp cmp constant thenBlock elseBlock => do
      let a ← ins (.iconst (i64ToValue constant))
      let b ← getAccInt
      pure (.brIcmp (compToCc cmp) a b (← blockRef k thenBlock) (← blockRef k elseBlock))
  | .switch ints tags => do
      if ints ≠ [] ∧ tags ≠ [] then
        let accu ← getAccInt
        let lsb ← ins (.bandImm accu 1)
        let intsBlock ← emitIntSwitch k ints
        let tagsBlock ← emitTagSwitch k tags
        pure (.brzSwitch lsb tagsBlock intsBlock)
      else if ints ≠ [] then pure (.switch (← emitIntSwitch k ints))
      else
        bailIf (tags = []) .emptySwitch
        pure (.switch (← emitTagSwitch k tags))
  | .return_ toPop => do
      returnTrace k
      pop toPop
      pure .ret
  | .tailCall args toPop => do
      returnTrace k
      pushLastNItemsForReal k args
      let extraArgs ← ins (.iconst (BitVec.ofNat 64 args))
      emit (.defVar .returnExtraArgs extraArgs)
      pop toPop
      pure .ret
  | .raise _ => do
      let accu ← getAccRef
      pure (.raise accu)
  | x => bail (.unimplementedExit x)

/-- The instructions of a block in order. -/
def translateInstructions : List BasicBlockInstruction → Emit Unit
  | [] => pure ()
  | i :: is => do
      translateInstruction k i
      translateInstructions is

def translateBlock (b : BasicBlock) : Emit Terminator := do
  update fun τ => { τ with stackSize := b.startStackSize }
  translateInstructions k b.instructions
  let terminator ← translateExit k b.exit
  let τ ← current
  bailIf (τ.stackSize ≠ b.endStackSize) (.expectedStackSize b.endStackSize τ.stackSize)
  pure terminator

/-- The blocks in order. -/
def translateBlocks : List BasicBlock → Translator → Rust TranslateError (List IrBlock)
  | [], _ => pure []
  | b :: bs, τ => do
      let (terminator, τ', ops) ← translateBlock k b τ
      let rest ← translateBlocks bs τ'
      pure (⟨ops, terminator⟩ :: rest)

/-- `def_var(stack_vars[arity - i - 1], params[i + 1])` from argument `i` on. -/
def defineArgs (arity : Nat) : Nat → Emit Unit
  | 0 => pure ()
  | n + 1 => do
      -- the argument `i` with `arity = i + (n + 1)`
      let x ← stackVar k n
      emit (.defVar x (arity - n))
      defineArgs arity n

/-- `def_var(stack_vars[i], v)` for `count` slots from `i` on. -/
def zeroStack (v : Val) : Nat → Nat → Emit Unit
  | _, 0 => pure ()
  | i, count + 1 => do
      let x ← stackVar k i
      emit (.defVar x v)
      zeroStack v (i + 1) count

/-- `create_translator`, after the block parameters. -/
def createTranslator (c : BasicClosure) : Emit Unit := do
  defineArgs k c.arity c.arity
  let zeroRef ← ins .null
  let zeroInt ← ins (.iconst 0)
  emit (.defVar .acc zeroRef)
  zeroStack k zeroRef c.arity (c.maxStackSize - c.arity)
  emit (.defVar .returnExtraArgs zeroInt)

end Translate

/-- `enum CompilationResult`. -/
inductive CompilationResult where
  | unsupportedClosure
  | supportedClosure (f : IrFunction)
  deriving Repr, DecidableEq

/-- What `create_translator` is given and builds for a closure. -/
def translatorEnv (lookupClosureCode : Nat → Option Value) (atomTableAddr : Value)
    (useCallTraces : Bool) (c : BasicClosure) : TranslatorEnv :=
  ⟨c.maxStackSize + 1, c.blocks.length, lookupClosureCode, atomTableAddr, useCallTraces⟩

/-- `compile_closure`, up to `define_function`.  `cCalls` is what earlier
closures declared. -/
def compileClosure (lookupClosureCode : Nat → Option Value) (atomTableAddr : Value)
    (useCallTraces : Bool) (cCalls : List (Nat × Arity)) (c : BasicClosure) :
    Rust TranslateError CompilationResult :=
  if c.hasTrapHandlers then .ok .unsupportedClosure
  else do
    ensure (c.arity ≤ 5) .arityAboveFive
    -- `blocks[0]`
    (if c.blocks = [] then panicked else pure ())
    let k := translatorEnv lookupClosureCode atomTableAddr useCallTraces c
    let (_, τ, prologue) ← createTranslator k c ⟨c.arity, c.arity, [], cCalls⟩
    let blocks ← translateBlocks k c.blocks τ
    pure (.supportedClosure ⟨prologue, blocks⟩)

/-- A successful compilation translates the prologue and the blocks. -/
theorem compileClosure_eq_ok {lookup : Nat → Option Value} {atomTable : Value} {traces : Bool}
    {cCalls : List (Nat × Arity)} {c : BasicClosure} {f : IrFunction}
    (h : compileClosure lookup atomTable traces cCalls c = .ok (.supportedClosure f)) :
    c.hasTrapHandlers = false ∧ c.arity ≤ 5 ∧ ∃ τ,
      createTranslator (translatorEnv lookup atomTable traces c) c ⟨c.arity, c.arity, [], cCalls⟩
        = .ok ((), τ, f.prologue) ∧
      translateBlocks (translatorEnv lookup atomTable traces c) c.blocks τ = .ok f.blocks := by
  unfold compileClosure at h
  split at h
  · cases h
  · rename_i htrap
    obtain ⟨_, harity, h⟩ := bind_eq_ok.mp h
    obtain ⟨_, -, h⟩ := bind_eq_ok.mp h
    obtain ⟨⟨_, τ, prologue⟩, hpro, h⟩ := bind_eq_ok.mp h
    obtain ⟨blocks, hblocks, h⟩ := bind_eq_ok.mp h
    cases h
    refine ⟨by simpa using htrap, ?_, τ, hpro, hblocks⟩
    unfold ensure at harity
    split at harity
    · assumption
    · cases harity

end OcamlJit.Cranelift

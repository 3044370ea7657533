/-
  OcamlJit.Cranelift.Ir
  ─────────────────────
  **THE IR THE OPTIMISING COMPILER BUILDS, AND HOW IT RUNS.**

  The part of Cranelift's IR that `cranelift_compiler/mod.rs` emits.  Values are
  numbered in the order they are defined; variables of the `FunctionBuilder`
  (`def_var`, `use_var`) are kept as they are, before SSA construction.

  Four sequences of the source are one operation each, because what happens
  inside them is not visible in a run of the closure:

    • `allocSmall` — the inlined `Alloc_small` of `alloc_small`,
    • `apply` — the calls, the frame and the loop over a returned tail call of
      `emit_apply`,
    • `pushOcamlStack` — the stores and the new `extern_sp` of
      `push_last_n_items_for_real`,
    • `callIfNonzero` — a branch around a call (`check_div_zero`,
      `check_signals`).
-/
import OcamlJit.Interp.Values
import OcamlJit.Lib.Transition

namespace OcamlJit.Cranelift

open OcamlJit.Lib OcamlJit.Instructions OcamlJit.Interp

/-! ## §1. Syntax. -/

/-- A variable of the `FunctionBuilder`. -/
inductive Var where
  | acc
  | stack (i : Nat)
  | returnExtraArgs
  deriving Repr, DecidableEq

/-- A value, by its number.  A value of fewer than 64 bits is in the low bits of
its word. -/
abbrev Val := Nat

/-- `IntCC`. -/
inductive IntCC where
  | equal | notEqual | signedLessThan | signedLessThanOrEqual | signedGreaterThan
  | signedGreaterThanOrEqual | unsignedLessThan | unsignedGreaterThanOrEqual
  deriving Repr, DecidableEq

/-- `enum CraneliftPrimitiveValue`, as far as this IR refers to it. -/
inductive PrimitiveValue where
  | globalDataAddr | camlSomethingToDoAddr
  deriving Repr, DecidableEq

/-- `enum CraneliftPrimitiveFunction`, as far as this IR calls it. -/
inductive PrimitiveFunction where
  | emitApplyTrace | emitCCallTrace | emitReturnTrace | makeBlockTrace
  | camlAllocShr | camlInitialize | camlModify
  | camlRaiseZeroDivide | camlProcessPendingActions
  | jitSupportVectLength | jitSupportGetDynMet
  deriving Repr, DecidableEq

/-- The type of a memory access. -/
inductive Ty where
  | i8 | i32 | i64
  deriving Repr, DecidableEq

/-- Instructions that only compute a value. -/
inductive Expr where
  | iconst (w : BitVec 64)
  | null
  | rawBitcast (a : Val)
  | symbolValue (g : PrimitiveValue)
  | iadd (a b : Val)
  | isub (a b : Val)
  | imul (a b : Val)
  | band (a b : Val)
  | bor (a b : Val)
  | bxor (a b : Val)
  | ishl (a b : Val)
  | ushr (a b : Val)
  | sshr (a b : Val)
  | iaddImm (a : Val) (k : Int)
  | bandImm (a : Val) (k : Int)
  | borImm (a : Val) (k : Int)
  | bxorImm (a : Val) (k : Int)
  | ishlImm (a : Val) (k : Nat)
  | sshrImm (a : Val) (k : Nat)
  /-- `sshr_imm` of a 32-bit value. -/
  | sshrImm32 (a : Val) (k : Nat)
  | icmpImm (cc : IntCC) (a : Val) (k : Int)
  /-- `ifcmp x y` and the `selectif` on its flags. -/
  | selectif (cc : IntCC) (x y t f : Val)
  | ireduce8 (a : Val)
  | ireduce32 (a : Val)
  /-- `uextend` of an 8-bit value. -/
  | uextend8 (a : Val)
  deriving Repr, DecidableEq

/-- An operation of a block. -/
inductive Op where
  | useVar (dst : Val) (x : Var)
  | defVar (x : Var) (v : Val)
  | ins (dst : Val) (e : Expr)
  | sdiv (dst a b : Val)
  | srem (dst a b : Val)
  | load (dst : Val) (ty : Ty) (base : Val) (offset : Int)
  | loadComplex (dst : Val) (ty : Ty) (a b : Val)
  | store (v base : Val) (offset : Int)
  /-- `store_complex` of an 8-bit value. -/
  | storeComplex8 (v a b : Val)
  | call (f : PrimitiveFunction) (dst : Option Val) (args : List Val)
  | cCall (dst : Val) (id : Nat) (args : List Val)
  | allocSmall (dst : Val) (wosize tag : Nat)
  | apply (dst f : Val) (args : List Val)
  | pushOcamlStack (vs : List Val)
  /-- `brz cond` over a call of `f`, followed by a trap if `noReturn`. -/
  | callIfNonzero (cond : Val) (f : PrimitiveFunction) (noReturn : Bool)
  deriving Repr, DecidableEq

/-- A block made for the `Switch` helper: how it computes the key, and the
entries 0, 1, …; every other key traps. -/
structure SwitchBlock where
  ops : List Op
  key : Val
  entries : List Nat
  deriving Repr, DecidableEq

/-- How a block ends. -/
inductive Terminator where
  | jump (b : Nat)
  /-- `brz cond onZero; jump onNonzero`. -/
  | brz (cond : Val) (onZero onNonzero : Nat)
  /-- `br_icmp cc a b thenBlock; jump elseBlock`. -/
  | brIcmp (cc : IntCC) (a b : Val) (thenBlock elseBlock : Nat)
  | switch (table : SwitchBlock)
  /-- `brz cond onZero; jump onNonzero` to two switch blocks. -/
  | brzSwitch (cond : Val) (onZero onNonzero : SwitchBlock)
  /-- A jump to the return block. -/
  | ret
  /-- A call of `caml_raise` and a trap. -/
  | raise (v : Val)
  deriving Repr, DecidableEq

structure IrBlock where
  ops : List Op
  terminator : Terminator
  deriving Repr, DecidableEq

/-- A compiled function.  Value 0 is the environment and the arguments follow;
`prologue` stands at the start of block 0, to which nothing jumps. -/
structure IrFunction where
  prologue : List Op
  blocks : List IrBlock
  deriving Repr, DecidableEq

/-! ## §2. Running. -/

structure IrState where
  vals : Val → Value
  vars : Var → Value
  /-- What was put on the OCaml stack, last word first. -/
  ocamlStack : List Value

namespace IrState

/-- Define a value. -/
def setVal (σ : IrState) (dst : Val) (w : Value) : IrState :=
  { σ with vals := fun v => if v = dst then w else σ.vals v }

/-- `def_var`. -/
def setVar (σ : IrState) (x : Var) (w : Value) : IrState :=
  { σ with vars := fun y => if y = x then w else σ.vars y }

@[simp] theorem vals_setVal (σ : IrState) (d v : Val) (w : Value) :
    (σ.setVal d w).vals v = if v = d then w else σ.vals v := rfl

@[simp] theorem vars_setVal (σ : IrState) (d : Val) (w : Value) :
    (σ.setVal d w).vars = σ.vars := rfl

@[simp] theorem ocamlStack_setVal (σ : IrState) (d : Val) (w : Value) :
    (σ.setVal d w).ocamlStack = σ.ocamlStack := rfl

@[simp] theorem vals_setVar (σ : IrState) (x : Var) (w : Value) :
    (σ.setVar x w).vals = σ.vals := rfl

@[simp] theorem vars_setVar (σ : IrState) (x y : Var) (w : Value) :
    (σ.setVar x w).vars y = if y = x then w else σ.vars y := rfl

@[simp] theorem ocamlStack_setVar (σ : IrState) (x : Var) (w : Value) :
    (σ.setVar x w).ocamlStack = σ.ocamlStack := rfl

end IrState

/-- The comparison a condition code stands for. -/
def IntCC.holds : IntCC → BitVec 64 → BitVec 64 → Bool
  | .equal, x, y => x == y
  | .notEqual, x, y => x != y
  | .signedLessThan, x, y => x.slt y
  | .signedLessThanOrEqual, x, y => x.sle y
  | .signedGreaterThan, x, y => y.slt x
  | .signedGreaterThanOrEqual, x, y => y.sle x
  | .unsignedLessThan, x, y => x.ult y
  | .unsignedGreaterThanOrEqual, x, y => y.ule x

section Run

variable {O : Oracle Request Value} (rt : Layout)

/-- The value of an expression; a shift amount is taken modulo 64. -/
def Expr.eval (vals : Val → Value) : Expr → Value
  | .iconst w => w
  | .null => 0
  | .rawBitcast a => vals a
  | .symbolValue .globalDataAddr => rt.globalData
  | .symbolValue .camlSomethingToDoAddr => rt.somethingToDo
  | .iadd a b => vals a + vals b
  | .isub a b => vals a - vals b
  | .imul a b => vals a * vals b
  | .band a b => vals a &&& vals b
  | .bor a b => vals a ||| vals b
  | .bxor a b => vals a ^^^ vals b
  | .ishl a b => vals a <<< ((vals b).toNat % 64)
  | .ushr a b => vals a >>> ((vals b).toNat % 64)
  | .sshr a b => (vals a).sshiftRight ((vals b).toNat % 64)
  | .iaddImm a k => vals a + BitVec.ofInt 64 k
  | .bandImm a k => vals a &&& BitVec.ofInt 64 k
  | .borImm a k => vals a ||| BitVec.ofInt 64 k
  | .bxorImm a k => vals a ^^^ BitVec.ofInt 64 k
  | .ishlImm a k => vals a <<< k
  | .sshrImm a k => (vals a).sshiftRight k
  | .sshrImm32 a k => (((vals a).setWidth 32).sshiftRight k).setWidth 64
  | .icmpImm cc a k => if cc.holds (vals a) (BitVec.ofInt 64 k) then 1 else 0
  | .selectif cc x y t f => if cc.holds (vals x) (vals y) then vals t else vals f
  | .ireduce8 a => ((vals a).setWidth 8).setWidth 64
  | .ireduce32 a => ((vals a).setWidth 32).setWidth 64
  | .uextend8 a => ((vals a).setWidth 8).setWidth 64

/-- A load of the given type. -/
def loadAt : Ty → Value → Act O Value
  | .i64, addr => Act.perform (.load addr)
  | .i32, addr => do pure (((← Act.perform (.load32 addr)).setWidth 32).setWidth 64)
  | .i8, addr => do pure (((← Act.perform (.load8 addr)).setWidth 8).setWidth 64)

/-- A call of a primitive.  Traces are not part of what the program does. -/
def callPrimitive : PrimitiveFunction → List Value → Act O Value
  | .camlAllocShr, [wosize, tag] => Act.perform (.allocShr wosize.toNat tag.toNat)
  | .camlInitialize, [addr, v] => Act.perform (.camlInitialize addr v)
  | .camlModify, [addr, v] => Act.perform (.camlModify addr v)
  | .camlRaiseZeroDivide, [] => Act.perform .raiseZeroDivide
  | .camlProcessPendingActions, [] => Act.perform .processPendingActions
  | .jitSupportVectLength, [v] => Act.perform (.vectLength v)
  | .jitSupportGetDynMet, [tag, obj] => Act.perform (.getDynMet tag obj)
  | .emitApplyTrace, _ | .emitCCallTrace, _ | .emitReturnTrace, _ | .makeBlockTrace, _ =>
      pure 0
  | _, _ => Act.stuck

/-- One operation.  A trap has no meaning. -/
def runOp (σ : IrState) : Op → Act O IrState
  | .useVar dst x => pure (σ.setVal dst (σ.vars x))
  | .defVar x v => pure (σ.setVar x (σ.vals v))
  | .ins dst e => pure (σ.setVal dst (e.eval rt σ.vals))
  | .sdiv dst a b =>
      if σ.vals b = 0 ∨ (σ.vals a = BitVec.intMin 64 ∧ σ.vals b = -1) then Act.stuck
      else pure (σ.setVal dst ((σ.vals a).sdiv (σ.vals b)))
  | .srem dst a b =>
      if σ.vals b = 0 then Act.stuck
      else pure (σ.setVal dst ((σ.vals a).srem (σ.vals b)))
  | .load dst ty base offset => do
      pure (σ.setVal dst (← loadAt ty (σ.vals base + BitVec.ofInt 64 offset)))
  | .loadComplex dst ty a b => do
      pure (σ.setVal dst (← loadAt ty (σ.vals a + σ.vals b)))
  | .store v base offset => do
      let _ ← Act.perform (.store (σ.vals base + BitVec.ofInt 64 offset) (σ.vals v))
      pure σ
  | .storeComplex8 v a b => do
      let _ ← Act.perform (.store8 (σ.vals a + σ.vals b) ((σ.vals v).setWidth 8))
      pure σ
  | .call f dst args => do
      let w ← callPrimitive f (args.map σ.vals)
      pure (dst.elim σ (σ.setVal · w))
  | .cCall dst id args => do
      pure (σ.setVal dst (← Act.perform (.cCall id (args.map σ.vals))))
  | .allocSmall dst wosize tag => do
      pure (σ.setVal dst (← Act.perform (.allocSmall wosize tag)))
  | .apply dst f args => do
      pure (σ.setVal dst (← Act.perform (.apply (σ.vals f) (args.map σ.vals))))
  | .pushOcamlStack vs => pure { σ with ocamlStack := vs.map σ.vals ++ σ.ocamlStack }
  | .callIfNonzero cond f noReturn =>
      if σ.vals cond = 0 then pure σ
      else do
        let _ ← callPrimitive f []
        if noReturn then Act.stuck else pure σ

/-- Operations in order. -/
def runOps : List Op → IrState → Act O IrState
  | [], σ => pure σ
  | op :: ops, σ => do runOps ops (← runOp rt σ op)

/-- How a compiled function ends. -/
inductive Result where
  | returned (v : Value)
  | tailCall (f : Value) (args : List Value)
  | raised (v : Value)
  deriving Repr, DecidableEq

/-- The return block: a value, or a closure and the number of its arguments on
the OCaml stack. -/
def IrState.result (σ : IrState) : Result :=
  if σ.vars .returnExtraArgs = 0 then .returned (σ.vars .acc)
  else .tailCall (σ.vars .acc) (σ.ocamlStack.take (σ.vars .returnExtraArgs).toNat)

/-- A switch block, up to the block it goes to. -/
def SwitchBlock.run (t : SwitchBlock) (σ : IrState) : Act O (IrState × Nat) := do
  let σ' ← runOps rt t.ops σ
  pure (σ', ← Act.ofOption t.entries[(σ'.vals t.key).toNat]?)

/-- The end of a block: the next block, or the result. -/
def Terminator.run (σ : IrState) : Terminator → Act O (IrState × Nat ⊕ Result)
  | .jump b => pure (.inl (σ, b))
  | .brz cond onZero onNonzero =>
      pure (.inl (σ, if σ.vals cond = 0 then onZero else onNonzero))
  | .brIcmp cc a b thenBlock elseBlock =>
      pure (.inl (σ, if cc.holds (σ.vals a) (σ.vals b) then thenBlock else elseBlock))
  | .switch table => do pure (.inl (← table.run rt σ))
  | .brzSwitch cond onZero onNonzero => do
      pure (.inl (← (if σ.vals cond = 0 then onZero else onNonzero).run rt σ))
  | .ret => pure (.inr σ.result)
  | .raise v => pure (.inr (.raised (σ.vals v)))

/-- A block about to run. -/
structure IrConfig where
  block : Nat
  state : IrState

/-- One step: a whole block. -/
def irStep (f : IrFunction) (c : IrConfig) : Act O (Progress IrConfig Result) := do
  let b ← Act.ofOption f.blocks[c.block]?
  let σ ← runOps rt b.ops c.state
  match ← b.terminator.run rt σ with
  | .inl (σ', i) => pure (.running ⟨i, σ'⟩)
  | .inr r => pure (.done r)

/-- A call of the function: the prologue, and then block 0. -/
def IrFunction.enter (f : IrFunction) (env : Value) (args : List Value) : Act O IrConfig := do
  let params : IrState := ⟨fun v => (env :: args).getD v 0, fun _ => 0, []⟩
  pure ⟨0, ← runOps rt f.prologue params⟩

end Run

end OcamlJit.Cranelift

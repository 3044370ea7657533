/-
  OcamlJit.Interp.Values
  ──────────────────────
  OCaml values as 64-bit words (`mlvalues.h`), and the requests the running
  code makes to the rest of the system: memory, allocator, applications and
  primitives.  What a moving collector does is not visible here: a word that
  denotes a block denotes it until the end.
-/
import OcamlJit.Instructions.Types
import OcamlJit.Lib.Effects

namespace OcamlJit.Interp

open OcamlJit.Lib OcamlJit.Instructions

/-! ## §1. Words. -/

/-- `value`. -/
abbrev Value := BitVec 64

/-- `Val_long(x)`. -/
def valLong (x : BitVec 64) : Value := (x <<< 1) + 1

/-- `Val_int(x)` of an `int`. -/
def valInt (x : Int) : Value := valLong (BitVec.ofInt 64 x)

/-- `Long_val(x)`. -/
def longVal (v : Value) : BitVec 64 := v.sshiftRight 1

/-- `Int_val(x)`, as it is converted back to a word. -/
def intVal (v : Value) : BitVec 64 := ((longVal v).setWidth 32).signExtend 64

/-- `Val_unit`, `Val_false` and `Val_true`. -/
def valUnit : Value := 1

@[inherit_doc valUnit] def valFalse : Value := 1

@[inherit_doc valUnit] def valTrue : Value := 3

/-- An operand word of the bytecode as an index: `opcode_t` is a signed 32-bit
integer. -/
def operand (n : Nat) : BitVec 64 := (BitVec.ofNat 32 n).signExtend 64

/-- `n << 1` of an operand, computed on `int` before it is added to a word. -/
def doubledOperand (n : Int) : BitVec 64 := ((BitVec.ofInt 32 n) <<< 1).signExtend 64

/-- `&Field(v, i)`. -/
def field (v : Value) (i : BitVec 64) : Value := v + 8 * i

/-- `&Field(v, i)` for a small index. -/
def fieldN (v : Value) (i : Nat) : Value := field v (BitVec.ofNat 64 i)

/-- `Max_young_wosize`. -/
def maxYoungWosize : Nat := 256

/-- `Closure_tag`. -/
def closureTag : Nat := 247

/-- `Infix_tag`. -/
def infixTag : Nat := 249

/-- `Double_tag`. -/
def doubleTag : Nat := 253

/-- `Double_array_tag`. -/
def doubleArrayTag : Nat := 254

/-- `Make_header(wosize, tag, Caml_white)`. -/
def makeHeader (wosize tag : Nat) : Value := BitVec.ofNat 64 (wosize * 2 ^ 10 + tag)

/-- The comparison a `Comp` stands for. -/
def compHolds : Comp → BitVec 64 → BitVec 64 → Bool
  | .eq, x, y => x == y
  | .ne, x, y => x != y
  | .lt, x, y => x.slt y
  | .le, x, y => x.sle y
  | .gt, x, y => y.slt x
  | .ge, x, y => y.sle x
  | .uLt, x, y => x.ult y
  | .uGe, x, y => y.ule x

/-! ## §2. Requests. -/

/-- What running code asks for. -/
inductive Request where
  | load (addr : Value)
  | load8 (addr : Value)
  | load32 (addr : Value)
  | store (addr v : Value)
  | store8 (addr : Value) (v : BitVec 8)
  /-- `Alloc_small`, and `caml_alloc_shr`; the answer is the block. -/
  | allocSmall (wosize tag : Nat)
  | allocShr (wosize tag : Nat)
  /-- `caml_initialize` and `caml_modify`. -/
  | camlInitialize (addr v : Value)
  | camlModify (addr v : Value)
  /-- An application of `f`; the answer is its result. -/
  | apply (f : Value) (args : List Value)
  /-- A C primitive. -/
  | cCall (id : Nat) (args : List Value)
  | vectLength (v : Value)
  | getDynMet (tag obj : Value)
  /-- `caml_process_pending_actions`. -/
  | processPendingActions
  /-- `caml_raise_zero_divide`. -/
  | raiseZeroDivide
  deriving Repr, DecidableEq

/-- Addresses the linker and the loader fix. -/
structure Layout where
  /-- `&caml_global_data`. -/
  globalData : Value
  /-- `&caml_something_to_do`. -/
  somethingToDo : Value
  /-- The table `caml_atom_table` points to. -/
  atomTable : Value
  /-- The code pointer stored in a closure of the function at a label. -/
  codePointer : Nat → Value

/-- `Atom(tag)`. -/
def Layout.atom (rt : Layout) (tag : Nat) : Value :=
  rt.atomTable + 8 * BitVec.ofNat 64 tag + 8

end OcamlJit.Interp

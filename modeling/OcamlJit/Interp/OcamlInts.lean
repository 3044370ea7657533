/-
  OcamlJit.Interp.OcamlInts
  ─────────────────────────
  **WHAT THE ARITHMETIC OF THE INTERPRETER COMPUTES.**

  An OCaml integer has 63 bits and is kept tagged in a word.  `intArith` and
  `intCompare` are the operations of the language on such integers, wrapping
  around; here is that `interp.c` does them on the tagged words, for all
  integers.
-/
import OcamlJit.Cranelift.Words
import OcamlJit.Lib.Tagged

namespace OcamlJit.Interp

open OcamlJit.Lib OcamlJit.Instructions OcamlJit.Cranelift

/-! ## §1. Integers. -/

/-- An `int` of OCaml. -/
abbrev OcamlInt := BitVec 63

/-- Its word. -/
def tagged (x : OcamlInt) : Value := tag x

/-- The integer in a word. -/
def untagged (v : Value) : OcamlInt := untag (w := 63) v

/-- `+`, `-`, `*`, `/`, `mod`, `land`, `lor`, `lxor`, `lsl`, `lsr` and `asr`. -/
def intArith : ArithOp → OcamlInt → OcamlInt → OcamlInt
  | .add, x, y => x + y
  | .sub, x, y => x - y
  | .mul, x, y => x * y
  | .div, x, y => x.sdiv y
  | .mod, x, y => x.srem y
  | .and, x, y => x &&& y
  | .or, x, y => x ||| y
  | .xor, x, y => x ^^^ y
  | .lsl, x, y => x <<< y.toNat
  | .lsr, x, y => x >>> y.toNat
  | .asr, x, y => x.sshiftRight y.toNat

/-- The comparisons, the last two unsigned. -/
def intCompare : Comp → OcamlInt → OcamlInt → Bool
  | .eq, x, y => x == y
  | .ne, x, y => x != y
  | .lt, x, y => x.slt y
  | .le, x, y => x.sle y
  | .gt, x, y => y.slt x
  | .ge, x, y => y.sle x
  | .uLt, x, y => x.ult y
  | .uGe, x, y => y.ule x

/-- `Val_bool`. -/
def valBool (b : Bool) : Value := if b then valTrue else valFalse

/-- No number is lost. -/
theorem untagged_tagged (x : OcamlInt) : untagged (tagged x) = x := untag_tag x

/-- A tagged word is an integer. -/
theorem isLong_tagged (x : OcamlInt) : isLong (tagged x) = true := by
  have hand : tagged x &&& 1 = 1 := by
    apply BitVec.eq_of_toNat_eq
    have hx : (tagged x).toNat = 2 * x.toNat + 1 := toNat_tag x
    rw [BitVec.toNat_and, hx]
    show (2 * x.toNat + 1) &&& 1 = 1
    rw [Nat.and_one_is_mod]
    omega
  unfold isLong
  rw [hand]
  rfl

/-- `Val_long` tags what fits. -/
theorem valLong_eq_retag (v : BitVec 64) : valLong v = retag (w := 63) v :=
  (add_self_add_one v).symm

/-- And so does `Val_int`. -/
theorem valInt_eq_tagged (n : Int) : valInt n = tagged (BitVec.ofInt 63 n) := by
  rw [valInt, valLong_ofInt]
  exact (tag_ofInt (w := 63) n).symm

/-- `Long_val` gives the number back. -/
theorem longVal_tagged (x : OcamlInt) : longVal (tagged x) = BitVec.ofInt 64 x.toInt :=
  sshiftRight_tag (by decide) x

/-- Only zero is zero. -/
theorem longVal_tagged_eq_zero_iff (x : OcamlInt) : longVal (tagged x) = 0 ↔ x = 0 :=
  sshiftRight_tag_eq_zero_iff x (by decide)

/-- A small integer as a shift count. -/
theorem toNat_longVal_tagged {x : OcamlInt} (h : x.toNat < 2 ^ 62) :
    (longVal (tagged x)).toNat = x.toNat := by
  rw [longVal_tagged, BitVec.toInt_eq_toNat_of_lt (by omega), BitVec.ofInt_natCast,
    BitVec.toNat_ofNat, Nat.mod_eq_of_lt (by omega)]

/-! ## §2. The interpreter's arithmetic. -/

section Arith

variable {O : Oracle Request Value}

/-- The operators with a shift count. -/
def isShift : ArithOp → Bool
  | .lsl | .lsr | .asr => true
  | _ => false

/-- The operators with a divisor. -/
def isDivision : ArithOp → Bool
  | .div | .mod => true
  | _ => false

/-- A division by a number that is not zero. -/
theorem divide_tagged {f : BitVec 64 → BitVec 64 → BitVec 64}
    {g : OcamlInt → OcamlInt → OcamlInt} {x y : OcamlInt} (hy : y ≠ 0)
    (hfg : retag (w := 63) (f (longVal (tagged x)) (longVal (tagged y))) = tag (g x y)) :
    (divide f (tagged x) (tagged y) : Act O Value) = pure (tagged (g x y)) := by
  unfold divide
  rw [if_neg (fun h => hy ((longVal_tagged_eq_zero_iff y).mp h)), valLong_eq_retag]
  exact congrArg pure hfg

/-- A shift by less than the word. -/
theorem shiftBy_tagged {f : Nat → Value} {y z : OcamlInt} (hy : y.toNat < 64)
    (hf : f y.toNat = tagged z) : (shiftBy f (tagged y) : Act O Value) = pure (tagged z) := by
  unfold shiftBy
  rw [toNat_longVal_tagged (Nat.lt_trans hy (by decide)), if_pos hy, hf]

/-- **The arithmetic wraps around to 63 bits**: the result is tagged again and
is that of the language. -/
theorem arith_tagged (op : ArithOp) (x y : OcamlInt) (hshift : isShift op = true → y.toNat < 64)
    (hdiv : isDivision op = true → y ≠ 0) :
    (arith op (tagged x) (tagged y) : Act O Value) = pure (tagged (intArith op x y)) := by
  cases op with
  | add => exact congrArg pure (tag_add_tag x y)
  | sub => exact congrArg pure (tag_sub_tag x y)
  | mul => exact congrArg pure ((valLong_eq_retag _).trans (retag_mul x y (by decide)))
  | div => exact divide_tagged (hdiv rfl) (retag_sdiv x y (by decide))
  | mod => exact divide_tagged (hdiv rfl) (retag_srem x y (by decide))
  | and => exact congrArg pure (tag_and_tag x y)
  | or => exact congrArg pure (tag_or_tag x y)
  | xor => exact congrArg pure (tag_xor_tag x y)
  | lsl =>
      exact shiftBy_tagged (f := fun n => ((tagged x - 1) <<< n) + 1) (hshift rfl)
        (tag_shiftLeft x _)
  | lsr =>
      exact shiftBy_tagged (f := fun n => (tagged x >>> n) ||| 1) (hshift rfl)
        (tag_ushiftRight x _)
  | asr =>
      exact shiftBy_tagged (f := fun n => (tagged x).sshiftRight n ||| 1) (hshift rfl)
        (tag_sshiftRight x _)

/-- A division by 0 raises. -/
theorem arith_zero {op : ArithOp} (h : isDivision op = true) (a : Value) :
    (arith op a (tagged 0) : Act O Value)
      = Act.perform .raiseZeroDivide >>= fun _ => Act.stuck := by
  cases op with
  | div => rfl
  | mod => rfl
  | _ => cases h

/-- Comparing tagged words compares the integers. -/
theorem compHolds_tagged (cmp : Comp) (x y : OcamlInt) :
    compHolds cmp (tagged x) (tagged y) = intCompare cmp x y := by
  cases cmp with
  | eq => exact tag_beq_tag x y
  | ne => exact congrArg not (tag_beq_tag x y)
  | lt => exact tag_slt_tag x y (by decide)
  | le => exact tag_sle_tag x y (by decide)
  | gt => exact tag_slt_tag y x (by decide)
  | ge => exact tag_sle_tag y x (by decide)
  | uLt => exact tag_ult_tag x y
  | uGe => exact tag_ule_tag y x

/-- A branch compares the immediate with the integer. -/
theorem cmpTaken_tagged {n : Int} (hn : immediateOk n = true) (cmp : Comp) (x : OcamlInt)
    (env : Value) (stack : List Slot) :
    cmpTaken cmp n ⟨tagged x, env, stack⟩ = intCompare cmp (BitVec.ofInt 63 n) x := by
  show compHolds cmp (BitVec.ofInt 64 n) (longVal (tagged x)) = _
  rw [← compHolds_valInt hn (.inl (isLong_tagged x)), valInt_eq_tagged, compHolds_tagged]

/-- An immediate is added doubled, without a tag bit. -/
theorem tagged_add_doubledOperand {n : Int} (hn : immediateOk n = true) (x : OcamlInt) :
    tagged x + doubledOperand n = tagged (x + BitVec.ofInt 63 n) := by
  rw [doubledOperand_eq hn]
  exact tag_add_ofInt x n

/-- The lowest bit, tagged, is whether the word is an integer. -/
theorem valLong_and_one (v : Value) : valLong (v &&& 1) = valBool (isLong v) := by
  unfold isLong valBool
  have hmod : (v &&& 1).toNat = v.toNat % 2 := by
    rw [BitVec.toNat_and]
    exact Nat.and_one_is_mod _
  rcases Nat.mod_two_eq_zero_or_one v.toNat with h | h
  · rw [show v &&& 1 = 0 from BitVec.eq_of_toNat_eq (hmod.trans h)]
    rfl
  · rw [show v &&& 1 = 1 from BitVec.eq_of_toNat_eq (hmod.trans h)]
    rfl

end Arith

end OcamlJit.Interp

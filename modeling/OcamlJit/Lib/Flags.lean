/-
  OcamlJit.Lib.Flags
  ──────────────────
  **CONDITION CODES AFTER A COMPARISON.**

  The flags `cmp a b` sets are those of the subtraction `a - b`; each condition
  code of x86 is a formula over them.  `holds_cmpFlags` says which comparison of
  `a` and `b` each one is, at any width.
-/
import Mathlib.Algebra.Ring.Int.Defs
import Mathlib.Algebra.Ring.Nat
import Mathlib.Data.BitVec

namespace OcamlJit.Lib

variable {w : Nat}

/-! ## §1. Flags. -/

/-- ZF, SF, OF and CF. -/
structure Flags where
  zero : Bool
  sign : Bool
  overflow : Bool
  carry : Bool
  deriving Repr, DecidableEq

/-- The flags of `a - b`. -/
def cmpFlags (a b : BitVec w) : Flags where
  zero := a - b == 0
  sign := (a - b).msb
  overflow := a.msb != b.msb && (a - b).msb != a.msb
  carry := a.ult b

/-- The condition codes, signed and unsigned. -/
inductive Cond where
  | e | ne | l | le | g | ge | b | ae
  deriving Repr, DecidableEq

/-- The formula of a condition code. -/
def Cond.holds (f : Flags) : Cond → Bool
  | .e => f.zero
  | .ne => !f.zero
  | .l => f.sign != f.overflow
  | .le => f.zero || f.sign != f.overflow
  | .g => !f.zero && f.sign == f.overflow
  | .ge => f.sign == f.overflow
  | .b => f.carry
  | .ae => !f.carry

/-- The comparison a condition code is for. -/
def Cond.compares (x y : BitVec w) : Cond → Bool
  | .e => x == y
  | .ne => x != y
  | .l => x.slt y
  | .le => x.sle y
  | .g => y.slt x
  | .ge => y.sle x
  | .b => x.ult y
  | .ae => y.ule x

/-! ## §2. What the flags say. -/

theorem zero_cmpFlags (x y : BitVec w) : (cmpFlags x y).zero = (x == y) := by
  show (x - y == 0) = (x == y)
  rw [Bool.eq_iff_iff, beq_iff_eq, beq_iff_eq, sub_eq_zero]

/-- Between words of one sign nothing overflows. -/
theorem msb_sub {x y : BitVec w} (h : x.msb = y.msb) : (x - y).msb = x.ult y := by
  cases w with
  | zero => simp [BitVec.eq_nil x, BitVec.eq_nil y]
  | succ n =>
      have hx := x.isLt
      have hy := y.isLt
      have hmsb : 2 ^ n ≤ x.toNat ↔ 2 ^ n ≤ y.toNat := by
        rw [BitVec.msb_eq_decide, BitVec.msb_eq_decide, decide_eq_decide] at h
        exact h
      rw [BitVec.msb_eq_decide, BitVec.ult_eq_decide, BitVec.toNat_sub, decide_eq_decide]
      rw [Nat.pow_succ] at hx hy ⊢
      show 2 ^ n ≤ _ ↔ _
      by_cases hlt : x.toNat < y.toNat
      · rw [Nat.mod_eq_of_lt (by omega)]
        omega
      · rw [show 2 ^ n * 2 - y.toNat + x.toNat = 2 ^ n * 2 + (x.toNat - y.toNat) by omega,
          Nat.add_mod_left, Nat.mod_eq_of_lt (by omega)]
        omega

theorem sign_cmpFlags (x y : BitVec w) :
    ((cmpFlags x y).sign != (cmpFlags x y).overflow) = x.slt y := by
  show ((x - y).msb != (x.msb != y.msb && (x - y).msb != x.msb)) = _
  rw [BitVec.slt_eq_ult]
  by_cases h : x.msb = y.msb
  · rw [msb_sub h, h]
    simp
  · -- the smaller word is the negative one
    rw [BitVec.ult_eq_msb_of_msb_neq h]
    cases hx : x.msb <;> cases hy : y.msb <;> simp [hx, hy] at h ⊢

/-- **After `cmp x y` a condition code compares `x` and `y`.** -/
theorem holds_cmpFlags (x y : BitVec w) (c : Cond) : c.holds (cmpFlags x y) = c.compares x y := by
  have hzero := zero_cmpFlags x y
  have hsign := sign_cmpFlags x y
  have hge : ((cmpFlags x y).sign == (cmpFlags x y).overflow) = !x.slt y := by
    rw [← hsign]
    cases (cmpFlags x y).sign <;> cases (cmpFlags x y).overflow <;> rfl
  cases c with
  | e => exact hzero
  | ne =>
      show (!(cmpFlags x y).zero) = _
      rw [hzero]
      rfl
  | l => exact hsign
  | le =>
      show ((cmpFlags x y).zero || _) = _
      rw [hzero, hsign, Bool.or_comm]
      exact BitVec.sle_eq_slt_or_eq.symm
  | g =>
      show (!(cmpFlags x y).zero && _) = _
      rw [hzero, hge, Bool.and_comm, ← BitVec.sle_eq_not_slt]
      show (y.sle x && x != y) = y.slt x
      rw [BitVec.slt_eq_sle_and_ne, bne_comm]
  | ge =>
      show ((cmpFlags x y).sign == _) = _
      rw [hge, ← BitVec.sle_eq_not_slt]
      rfl
  | b => rfl
  | ae => exact (BitVec.ule_eq_not_ult y x).symm

end OcamlJit.Lib

/-
  OcamlJit.Lib.Tagged
  ───────────────────
  **INTEGERS WITH A TAG BIT.**

  A `w`-bit integer is kept in a word of `w + 1` bits, shifted left by one and
  with the lowest bit set (`tag`).  Every operation on the integers has a short
  sequence on the tagged words; here are the ones in use, each as an equation
  between words, at any width.

  The arithmetic ones go through `tag_ofInt`: tagging is `n ↦ 2 * n + 1` on
  integers of any size, so it does not matter whether they wrap around to `w`
  bits before it or to `w + 1` bits after it.  The bitwise ones go bit by bit.
-/
import Mathlib.Algebra.Ring.Int.Defs
import Mathlib.Algebra.Ring.Nat
import Mathlib.Data.BitVec
import Mathlib.Tactic.Ring

namespace OcamlJit.Lib

variable {w : Nat}

/-! ## §1. Tagging. -/

/-- A tagged integer. -/
def tag (x : BitVec w) : BitVec (w + 1) := x.concat true

/-- The integer in a word. -/
def untag (v : BitVec (w + 1)) : BitVec w := v.extractLsb' 1 w

/-- The integer in a whole word, tagged. -/
def retag (v : BitVec (w + 1)) : BitVec (w + 1) := v + v + 1

@[simp] theorem toNat_tag (x : BitVec w) : (tag x).toNat = 2 * x.toNat + 1 := by
  unfold tag
  rw [BitVec.toNat_concat, Bool.toNat_true, Nat.mul_comm]

/-- A tagged word stands for twice its number and one. -/
theorem toInt_tag (hw : 0 < w) (x : BitVec w) : (tag x).toInt = 2 * x.toInt + 1 := by
  unfold tag
  rw [BitVec.toInt_concat, if_neg (Nat.ne_of_gt hw), Int.mul_comm]
  rfl

@[simp] theorem untag_tag (x : BitVec w) : untag (tag x) = x := by
  apply BitVec.eq_of_toNat_eq
  have hx := x.isLt
  unfold untag
  rw [BitVec.extractLsb'_toNat, toNat_tag, Nat.shiftRight_eq_div_pow, Nat.pow_one]
  rw [show (2 * x.toNat + 1) / 2 = x.toNat by omega, Nat.mod_eq_of_lt hx]

/-- **No number is lost**. -/
theorem tag_injective : Function.Injective (tag (w := w)) := by
  intro x y h
  rw [← untag_tag x, h, untag_tag]

/-- Tagging is `n ↦ 2 * n + 1`, wherever the wrap-around takes place. -/
theorem tag_ofInt (n : Int) : tag (BitVec.ofInt w n) = BitVec.ofInt (w + 1) (2 * n + 1) := by
  apply BitVec.eq_of_toNat_eq
  have hpos : (0 : Int) < 2 ^ w := Int.pow_pos (by decide)
  have hmod : (2 * n + 1) % (2 ^ w * 2) = 2 * (n % 2 ^ w) + 1 := by
    have hn := Int.emod_add_mul_ediv n (2 ^ w)
    have hlow := Int.emod_nonneg n (Int.ne_of_gt hpos)
    have hhigh := Int.emod_lt_of_pos n hpos
    have hsum : 2 * n + 1 = (2 * (n % 2 ^ w) + 1) + (2 ^ w * 2) * (n / 2 ^ w) := by
      rw [show (2 : Int) ^ w * 2 * (n / 2 ^ w) = 2 * (2 ^ w * (n / 2 ^ w)) by ring]
      omega
    rw [hsum, Int.add_mul_emod_self_left, Int.emod_eq_of_lt (by omega) (by omega)]
  have hlow := Int.emod_nonneg n (Int.ne_of_gt hpos)
  rw [toNat_tag, BitVec.toNat_ofInt, BitVec.toNat_ofInt, Nat.pow_succ]
  push_cast
  rw [hmod]
  omega

/-- The tagged word of a number, by its value. -/
theorem tag_eq_ofInt (x : BitVec w) : tag x = BitVec.ofInt (w + 1) (2 * x.toInt + 1) := by
  rw [← tag_ofInt, BitVec.ofInt_toInt]

/-- Tagging a full word cuts it to a number. -/
theorem retag_ofInt (n : Int) :
    retag (BitVec.ofInt (w + 1) n) = tag (BitVec.ofInt w n) := by
  unfold retag
  rw [tag_ofInt, Int.two_mul, BitVec.ofInt_add, BitVec.ofInt_add]
  rfl

/-- The integer in a tagged word, in a whole word. -/
theorem sshiftRight_tag (hw : 0 < w) (x : BitVec w) :
    (tag x).sshiftRight 1 = BitVec.ofInt (w + 1) x.toInt := by
  rw [← BitVec.ofInt_toInt (x := (tag x).sshiftRight 1), BitVec.toInt_sshiftRight, toInt_tag hw,
    Int.shiftRight_eq_div_pow, Nat.pow_one]
  congr 1
  omega

/-! ## §2. Arithmetic. -/

section Arithmetic

variable (x y : BitVec w)

/-- Subtraction wraps around. -/
theorem ofInt_sub (m n : Int) :
    BitVec.ofInt w (m - n) = BitVec.ofInt w m - BitVec.ofInt w n := by
  rw [Int.sub_eq_add_neg, BitVec.ofInt_add, BitVec.ofInt_neg, ← BitVec.sub_eq_add_neg]

/-- Wrapping around to more bits first changes nothing. -/
theorem ofInt_bmod {v : Nat} (h : w ≤ v) (n : Int) :
    BitVec.ofInt w (n.bmod (2 ^ v)) = BitVec.ofInt w n := by
  apply BitVec.eq_of_toInt_eq
  rw [BitVec.toInt_ofInt, BitVec.toInt_ofInt, Int.bmod_bmod_of_dvd (Nat.pow_dvd_pow 2 h)]

/-- A number fits a full word. -/
theorem toInt_ofInt_toInt : (BitVec.ofInt (w + 1) x.toInt).toInt = x.toInt :=
  BitVec.toInt_signExtend_of_le (Nat.le_succ w)

/-- Addition takes one tag bit off. -/
theorem tag_add_tag : tag x + tag y - 1 = tag (x + y) := by
  conv_rhs => rw [← BitVec.ofInt_toInt (x := x), ← BitVec.ofInt_toInt (x := y)]
  rw [← BitVec.ofInt_add, tag_ofInt, tag_eq_ofInt, tag_eq_ofInt]
  rw [show 2 * (x.toInt + y.toInt) + 1 = (2 * x.toInt + 1) + (2 * y.toInt + 1) - 1 by ring,
    ofInt_sub, BitVec.ofInt_add _ (2 * y.toInt + 1)]
  rfl

/-- Subtraction puts one back. -/
theorem tag_sub_tag : tag x - tag y + 1 = tag (x - y) := by
  conv_rhs => rw [← BitVec.ofInt_toInt (x := x), ← BitVec.ofInt_toInt (x := y)]
  rw [← ofInt_sub, tag_ofInt, tag_eq_ofInt, tag_eq_ofInt]
  rw [show 2 * (x.toInt - y.toInt) + 1 = (2 * x.toInt + 1) - (2 * y.toInt + 1) + 1 by ring,
    BitVec.ofInt_add (2 * x.toInt + 1 - (2 * y.toInt + 1)), ofInt_sub]
  rfl

/-- Negation. -/
theorem two_sub_tag : 2 - tag x = tag (-x) := by
  conv_rhs => rw [← BitVec.ofInt_toInt (x := x)]
  rw [← BitVec.ofInt_neg, tag_ofInt, tag_eq_ofInt]
  rw [show 2 * -x.toInt + 1 = 2 - (2 * x.toInt + 1) by ring, ofInt_sub]
  rfl

/-- Adding an untagged integer to a tagged one. -/
theorem tag_add_ofInt (n : Int) :
    tag x + BitVec.ofInt (w + 1) (n * 2) = tag (x + BitVec.ofInt w n) := by
  conv_rhs => rw [← BitVec.ofInt_toInt (x := x)]
  rw [← BitVec.ofInt_add, tag_ofInt, tag_eq_ofInt, ← BitVec.ofInt_add]
  congr 1
  ring

/-- Multiplication, of the untagged words. -/
theorem retag_mul (hw : 0 < w) :
    retag ((tag x).sshiftRight 1 * (tag y).sshiftRight 1) = tag (x * y) := by
  conv_rhs => rw [← BitVec.ofInt_toInt (x := x), ← BitVec.ofInt_toInt (x := y)]
  rw [sshiftRight_tag hw, sshiftRight_tag hw, ← BitVec.ofInt_mul, retag_ofInt, BitVec.ofInt_mul]

/-- Division, of the untagged words. -/
theorem retag_sdiv (hw : 0 < w) :
    retag (((tag x).sshiftRight 1).sdiv ((tag y).sshiftRight 1)) = tag (x.sdiv y) := by
  rw [sshiftRight_tag hw, sshiftRight_tag hw, ← BitVec.ofInt_toInt (x := BitVec.sdiv _ _),
    BitVec.toInt_sdiv, retag_ofInt, ← BitVec.ofInt_toInt (x := x.sdiv y), BitVec.toInt_sdiv,
    toInt_ofInt_toInt, toInt_ofInt_toInt, ofInt_bmod (Nat.le_succ w), ofInt_bmod (Nat.le_refl w)]

/-- The remainder, of the untagged words. -/
theorem retag_srem (hw : 0 < w) :
    retag (((tag x).sshiftRight 1).srem ((tag y).sshiftRight 1)) = tag (x.srem y) := by
  rw [sshiftRight_tag hw, sshiftRight_tag hw, ← BitVec.ofInt_toInt (x := BitVec.srem _ _),
    BitVec.toInt_srem, retag_ofInt, toInt_ofInt_toInt x, toInt_ofInt_toInt y,
    ← BitVec.toInt_srem, BitVec.ofInt_toInt]

/-- Only zero untags to zero. -/
theorem sshiftRight_tag_eq_zero_iff (hw : 0 < w) : (tag x).sshiftRight 1 = 0 ↔ x = 0 := by
  rw [sshiftRight_tag hw]
  constructor
  · intro h
    have h := congrArg BitVec.toInt h
    rw [toInt_ofInt_toInt] at h
    exact BitVec.eq_of_toInt_eq (by simpa using h)
  · rintro rfl
    simp

end Arithmetic

/-! ## §3. Bits. -/

section Bits

variable (x y : BitVec w) (n : Nat)

theorem one_eq_concat : (1 : BitVec (w + 1)) = (0 : BitVec w).concat true :=
  BitVec.zero_concat_true.symm

/-- Conjunction keeps the tag bits. -/
theorem tag_and_tag : tag x &&& tag y = tag (x &&& y) := BitVec.concat_and_concat ..

/-- And so does disjunction. -/
theorem tag_or_tag : tag x ||| tag y = tag (x ||| y) := BitVec.concat_or_concat ..

/-- Exclusive disjunction loses them, and one is put back. -/
theorem tag_xor_tag : (tag x ^^^ tag y) ||| 1 = tag (x ^^^ y) := by
  unfold tag
  rw [one_eq_concat, BitVec.concat_xor_concat, BitVec.concat_or_concat]
  simp

/-- The tag bit is the lowest one. -/
theorem concat_add_one : x.concat false + 1 = tag x := by
  apply BitVec.eq_of_toNat_eq
  have hx := x.isLt
  have hone : (1 : BitVec (w + 1)).toNat = 1 := by simp
  rw [BitVec.toNat_add, hone, BitVec.toNat_concat, toNat_tag, Bool.toNat_false, Nat.pow_succ,
    Nat.mod_eq_of_lt (by omega)]
  omega

/-- And it is taken off by subtraction. -/
theorem tag_sub_one : tag x - 1 = x.concat false := by
  rw [← concat_add_one, BitVec.add_sub_cancel]

/-- A shift to the left, without the tag bit. -/
theorem tag_shiftLeft : ((tag x - 1) <<< n) + 1 = tag (x <<< n) := by
  have hshift : x.concat false <<< n = (x <<< n).concat false := by
    apply BitVec.eq_of_getLsbD_eq
    intro i hi
    simp only [BitVec.getLsbD_shiftLeft, BitVec.getLsbD_concat]
    by_cases hn : i < n
    · rcases Nat.eq_zero_or_pos i with rfl | hpos
      · simp [hn]
      · simp [hn, show i - 1 < n by omega, Nat.ne_of_gt hpos]
    · rcases Nat.lt_or_eq_of_le (Nat.le_of_not_lt hn) with hlt | rfl
      · simp [hn, hi, show i - n ≠ 0 by omega, show i ≠ 0 by omega, show ¬ i - 1 < n by omega,
          show i - 1 < w by omega, show i - n - 1 = i - 1 - n by omega]
      · simp [hi]
        omega
  rw [tag_sub_one, hshift, concat_add_one]

/-- A logical shift to the right, and the tag bit put back. -/
theorem tag_ushiftRight : (tag x >>> n) ||| 1 = tag (x >>> n) := by
  unfold tag
  rw [one_eq_concat]
  apply BitVec.eq_of_getLsbD_eq
  intro i hi
  cases i with
  | zero => simp
  | succ i => simp [BitVec.getLsbD_ushiftRight, ← Nat.add_assoc]

/-- An arithmetic shift to the right, and the tag bit put back. -/
theorem tag_sshiftRight : (tag x).sshiftRight n ||| 1 = tag (x.sshiftRight n) := by
  unfold tag
  rw [one_eq_concat]
  apply BitVec.eq_of_getLsbD_eq
  intro i hi
  cases i with
  | zero => simp
  | succ i =>
      have hw : 0 < w := by omega
      simp [BitVec.getLsbD_sshiftRight, ← Nat.add_assoc, BitVec.msb_concat, hw]

end Bits

/-! ## §4. Comparisons. -/

section Comparisons

variable (x y : BitVec w)

/-- Tagged words are in the order of their numbers. -/
theorem tag_slt_tag (hw : 0 < w) : (tag x).slt (tag y) = x.slt y := by
  rw [BitVec.slt_eq_decide, BitVec.slt_eq_decide, toInt_tag hw, toInt_tag hw, decide_eq_decide]
  omega

/-- The same for `≤`. -/
theorem tag_sle_tag (hw : 0 < w) : (tag x).sle (tag y) = x.sle y := by
  rw [BitVec.sle_eq_decide, BitVec.sle_eq_decide, toInt_tag hw, toInt_tag hw, decide_eq_decide]
  omega

/-- The unsigned order is kept as well. -/
theorem tag_ult_tag : (tag x).ult (tag y) = x.ult y := by
  rw [BitVec.ult_eq_decide, BitVec.ult_eq_decide, toNat_tag, toNat_tag, decide_eq_decide]
  omega

/-- The same for `≤`. -/
theorem tag_ule_tag : (tag x).ule (tag y) = x.ule y := by
  rw [BitVec.ule_eq_decide, BitVec.ule_eq_decide, toNat_tag, toNat_tag, decide_eq_decide]
  omega

/-- Tagged words are equal when their numbers are. -/
theorem tag_beq_tag : (tag x == tag y) = (x == y) := by
  rw [Bool.eq_iff_iff, beq_iff_eq, beq_iff_eq, tag_injective.eq_iff]

end Comparisons

end OcamlJit.Lib

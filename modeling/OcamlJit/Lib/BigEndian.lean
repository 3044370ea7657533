/-
  OcamlJit.Lib.BigEndian
  ──────────────────────
  **NUMBERS AS BYTES, MOST SIGNIFICANT FIRST.**

  `beBytes k n` are the `k` low bytes of `n`, `beNat` reads bytes back, and
  `beInt k` reads `k` bytes as a signed number.
-/
import Mathlib.Algebra.Ring.Int.Defs
import Mathlib.Algebra.Ring.Nat
import Mathlib.Data.Nat.Basic
import Mathlib.Tactic.Ring

namespace OcamlJit.Lib

/-! ## §1. Unsigned numbers. -/

/-- The `k` low bytes of `n`. -/
def beBytes : Nat → Nat → List UInt8
  | 0, _ => []
  | k + 1, n => UInt8.ofNat (n / 256 ^ k) :: beBytes k n

/-- The number the bytes stand for. -/
def beNat (bytes : List UInt8) : Nat := bytes.foldl (fun acc b => acc * 256 + b.toNat) 0

@[simp] theorem length_beBytes (k n : Nat) : (beBytes k n).length = k := by
  induction k with
  | zero => rfl
  | succ k ih => rw [beBytes, List.length_cons, ih]

/-- Reading the bytes of a number gives its lowest bytes. -/
theorem foldl_beBytes (n : Nat) : ∀ k acc : Nat,
    (beBytes k n).foldl (fun acc b => acc * 256 + b.toNat) acc = acc * 256 ^ k + n % 256 ^ k
  | 0, acc => by simp [beBytes, Nat.mod_one]
  | k + 1, acc => by
      have hmod : n % 256 ^ (k + 1) = n % 256 ^ k + 256 ^ k * (n / 256 ^ k % 256) := by
        rw [Nat.pow_succ, Nat.mod_mul]
      rw [beBytes, List.foldl_cons, foldl_beBytes n k, UInt8.toNat_ofNat', hmod, Nat.pow_succ]
      show (acc * 256 + n / 256 ^ k % 256) * 256 ^ k + n % 256 ^ k = _
      ring

/-- Reading back what was written. -/
@[simp] theorem beNat_beBytes (k n : Nat) : beNat (beBytes k n) = n % 256 ^ k := by
  unfold beNat
  rw [foldl_beBytes, Nat.zero_mul, Nat.zero_add]

/-- What was read before counts for more. -/
theorem foldl_bytes : ∀ (bytes : List UInt8) (acc : Nat),
    bytes.foldl (fun acc b => acc * 256 + b.toNat) acc = acc * 256 ^ bytes.length + beNat bytes
  | [], acc => by simp [beNat]
  | b :: bytes, acc => by
      show bytes.foldl _ (acc * 256 + b.toNat) = _ + bytes.foldl _ (0 * 256 + b.toNat)
      rw [foldl_bytes bytes, foldl_bytes bytes (0 * 256 + b.toNat), List.length_cons, Nat.pow_succ]
      ring

/-- The first byte counts most. -/
theorem beNat_cons (b : UInt8) (bytes : List UInt8) :
    beNat (b :: bytes) = b.toNat * 256 ^ bytes.length + beNat bytes := by
  show bytes.foldl _ (0 * 256 + b.toNat) = _
  rw [foldl_bytes, Nat.zero_mul, Nat.zero_add]

/-- So many bytes are below so many powers of 256. -/
theorem beNat_lt : ∀ bytes : List UInt8, beNat bytes < 256 ^ bytes.length
  | [] => by decide
  | b :: bytes => by
      have ih := beNat_lt bytes
      have hb : b.toNat < 256 := b.toNat_lt
      have hle : b.toNat * 256 ^ bytes.length ≤ 255 * 256 ^ bytes.length :=
        Nat.mul_le_mul_right _ (by omega)
      rw [beNat_cons, List.length_cons, Nat.pow_succ]
      omega

/-- The high bytes come before the low ones. -/
theorem beBytes_add (j n : Nat) : ∀ k : Nat,
    beBytes (k + j) n = beBytes k (n / 256 ^ j) ++ beBytes j n
  | 0 => by rw [Nat.zero_add, beBytes, List.nil_append]
  | k + 1 => by
      rw [Nat.add_right_comm, beBytes, beBytes, beBytes_add j n k, Nat.div_div_eq_div_mul,
        ← Nat.pow_add, Nat.add_comm j k]
      rfl

/-! ## §2. Signed numbers. -/

/-- The `k` bytes of a signed number, in two's complement. -/
def beIntBytes (k : Nat) (i : Int) : List UInt8 := beBytes k (i % 256 ^ k).toNat

/-- `n` as a signed number of `k` bytes. -/
def toSigned (k n : Nat) : Int := if 2 * n < 256 ^ k then n else n - 256 ^ k

@[simp] theorem length_beIntBytes (k : Nat) (i : Int) : (beIntBytes k i).length = k :=
  length_beBytes ..

/-- A negative number is read as its complement. -/
theorem beNat_beIntBytes (k : Nat) (i : Int) :
    beNat (beIntBytes k i) = (i % 256 ^ k).toNat := by
  have hpos : (0 : Int) < 256 ^ k := Int.pow_pos (by decide)
  have hlt := Int.emod_lt_of_pos i hpos
  have hnonneg := Int.emod_nonneg i (Int.ne_of_gt hpos)
  rw [beIntBytes, beNat_beBytes]
  refine Nat.mod_eq_of_lt ?_
  have : ((256 ^ k : Nat) : Int) = 256 ^ k := by push_cast; rfl
  omega

/-- A number in range is read back. -/
theorem toSigned_beIntBytes {k : Nat} {i : Int} (hlo : -256 ^ k ≤ 2 * i) (hhi : 2 * i < 256 ^ k) :
    toSigned k (beNat (beIntBytes k i)) = i := by
  have hcast : ((256 ^ k : Nat) : Int) = 256 ^ k := by push_cast; rfl
  have hpos : (0 : Int) < 256 ^ k := Int.pow_pos (by decide)
  rw [beNat_beIntBytes]
  unfold toSigned
  rcases Int.lt_or_le i 0 with hneg | hnonneg
  · have hmod : i % 256 ^ k = i + 256 ^ k := by
      rw [← Int.add_emod_right, Int.emod_eq_of_lt (by omega) (by omega)]
    rw [hmod, if_neg (by omega)]
    omega
  · rw [Int.emod_eq_of_lt hnonneg (by omega), if_pos (by omega)]
    omega

end OcamlJit.Lib

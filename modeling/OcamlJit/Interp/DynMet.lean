/-
  OcamlJit.Interp.DynMet
  ──────────────────────
  **METHOD LOOKUP BY TAG** (`jit_support_get_dyn_met` in `jit_support.c`; the
  loop is the one of `GETDYNMET` in `interp.c`, word for word).

  A method table holds the number `n` of its methods in field 0, and the method
  `k` and its tag in the fields `2k` and `2k + 1`.  The search works on field
  indices: the middle is made odd by `| 1`, the upper bound steps down by 2, and
  the bound it starts from is the tagged length.  Position `k` of
  `Lib.BinarySearch` is field `2k + 1` here (`searchLoop_eq`).
-/
import OcamlJit.Interp.Values
import OcamlJit.Lib.BinarySearch

namespace OcamlJit.Interp

open OcamlJit.Lib

/-! ## §1. The source. -/

/-- The words of the heap. -/
abbrev Words := Value → Value

/-- `Field(v, i)` for an index of type `int`. -/
def Words.fieldInt (mem : Words) (v : Value) (i : BitVec 32) : Value :=
  mem (field v (i.signExtend 64))

/-- `((li+hi) >> 1) | 1`. -/
def oddMiddle (li hi : BitVec 32) : BitVec 32 := (li + hi).sshiftRight 1 ||| 1

/-- The `while` loop: where it ends, and the fields it reads. -/
def searchLoop (mem : Words) (meths tag : Value) :
    Nat → BitVec 32 → BitVec 32 → Option (BitVec 32 × List (BitVec 32))
  | 0, _, _ => none
  | fuel + 1, li, hi =>
      if li.slt hi then
        let mi := oddMiddle li hi
        (if tag.slt (mem.fieldInt meths mi) then searchLoop mem meths tag fuel li (mi - 2)
          else searchLoop mem meths tag fuel mi hi).map fun r => (r.1, mi :: r.2)
      else some (li, [])

/-- `jit_support_get_dyn_met`: what it returns, and the fields of the method table
that the loop reads.  `hi` is the low half of field 0. -/
def jitSupportGetDynMet (mem : Words) (fuel : Nat) (tag obj : Value) :
    Option (Value × List (BitVec 32)) :=
  let meths := mem.fieldInt obj 0
  (searchLoop mem meths tag fuel 3 ((mem.fieldInt meths 0).setWidth 32)).map fun r =>
    (mem.fieldInt meths (r.1 - 1), r.2)

/-! ## §2. Field indices. -/

/-- The field of the tag of method `k`. -/
def tagField (k : Nat) : BitVec 32 := BitVec.ofNat 32 (2 * k + 1)

/-- The field of method `k`. -/
def methodField (k : Nat) : BitVec 32 := BitVec.ofNat 32 (2 * k)

theorem toNat_tagField {k : Nat} (h : k < 2 ^ 29) : (tagField k).toNat = 2 * k + 1 := by
  unfold tagField
  rw [BitVec.toNat_ofNat, Nat.mod_eq_of_lt (by omega)]

theorem toInt_tagField {k : Nat} (h : k < 2 ^ 29) : (tagField k).toInt = 2 * k + 1 := by
  rw [BitVec.toInt_eq_toNat_of_lt (by rw [toNat_tagField h]; omega), toNat_tagField h]
  omega

theorem tagField_slt {a b : Nat} (ha : a < 2 ^ 29) (hb : b < 2 ^ 29) :
    (tagField a).slt (tagField b) = decide (a < b) := by
  rw [BitVec.slt, toInt_tagField ha, toInt_tagField hb]
  exact decide_eq_decide.mpr (by omega)

/-- **The middle is the field of the middle position.** -/
theorem oddMiddle_tagField {a b : Nat} (ha : a < 2 ^ 29) (hb : b < 2 ^ 29) :
    oddMiddle (tagField a) (tagField b) = tagField (BinarySearch.middle a b) := by
  have hsum : (tagField a + tagField b).toNat = 2 * (a + b + 1) := by
    rw [BitVec.toNat_add, toNat_tagField ha, toNat_tagField hb, Nat.mod_eq_of_lt (by omega)]
    omega
  have hmsb : (tagField a + tagField b).msb = false := by
    rw [BitVec.msb_eq_false_iff_two_mul_lt, hsum]
    omega
  have hhalf : ((tagField a + tagField b).sshiftRight 1).toNat = a + b + 1 := by
    rw [BitVec.sshiftRight_eq_of_msb_false hmsb, BitVec.toNat_ushiftRight, hsum,
      Nat.shiftRight_eq_div_pow]
    omega
  apply BitVec.eq_of_toNat_eq
  unfold oddMiddle
  rw [BitVec.toNat_or, hhalf, toNat_tagField (by unfold BinarySearch.middle; omega)]
  show (a + b + 1) ||| 1 = _
  have hdiv : (a + b + 1 ||| 1) / 2 = (a + b + 1) / 2 := by
    rw [Nat.or_div_two]
    exact Nat.or_zero _
  have hodd : (a + b + 1 ||| 1) % 2 = 1 := Nat.or_mod_two_eq_one.mpr (.inr rfl)
  unfold BinarySearch.middle
  omega

/-- `mi - 2` is the tag before. -/
theorem tagField_sub_two {k : Nat} (hpos : 0 < k) (hk : k < 2 ^ 29) :
    tagField k - 2 = tagField (k - 1) := by
  apply BitVec.eq_of_toNat_eq
  rw [BitVec.toNat_sub, toNat_tagField hk, toNat_tagField (by omega)]
  show (2 ^ 32 - 2 + (2 * k + 1)) % 2 ^ 32 = _
  omega

/-- `li - 1` is the method of the tag. -/
theorem tagField_sub_one {k : Nat} (hk : k < 2 ^ 29) : tagField k - 1 = methodField k := by
  apply BitVec.eq_of_toNat_eq
  rw [BitVec.toNat_sub, toNat_tagField hk]
  unfold methodField
  rw [BitVec.toNat_ofNat]
  show (2 ^ 32 - 1 + (2 * k + 1)) % 2 ^ 32 = _
  omega

/-! ## §3. The search. -/

/-- The tag of method `k`, as the signed number it is compared as. -/
def Words.tagOf (mem : Words) (meths : Value) (k : Nat) : Int :=
  (mem.fieldInt meths (tagField k)).toInt

/-- **The loop is binary search on the tags.** -/
theorem searchLoop_eq (mem : Words) (meths tag : Value) (fuel : Nat) :
    ∀ {a b : Nat}, b < 2 ^ 29 → a ≤ b →
      searchLoop mem meths tag fuel (tagField a) (tagField b)
        = (BinarySearch.search (mem.tagOf meths) tag.toInt fuel a b).map fun r =>
            (tagField r.1, r.2.map tagField) := by
  induction fuel with
  | zero =>
      intro a b _ _
      rfl
  | succ fuel ih =>
      intro a b hb hle
      unfold searchLoop BinarySearch.search
      rw [tagField_slt (by omega) hb]
      by_cases hab : a < b
      · have hlo := BinarySearch.lt_middle hab
        have hhi := BinarySearch.middle_le hab
        rw [if_pos (decide_eq_true hab), if_pos hab]
        dsimp only
        rw [oddMiddle_tagField (by omega) hb, tagField_sub_two (by omega) (by omega),
          ih (by omega) (by omega), ih hb hhi]
        -- signed comparison of words is comparison of integers
        show Option.map _ (if decide (tag.toInt < mem.tagOf meths (BinarySearch.middle a b)) = true
          then _ else _) = _
        by_cases htag : tag.toInt < mem.tagOf meths (BinarySearch.middle a b)
        · rw [if_pos (decide_eq_true htag), if_pos htag]
          simp only [Option.map_map, Function.comp_def, List.map_cons]
        · rw [if_neg (fun h => htag (of_decide_eq_true h)), if_neg htag]
          simp only [Option.map_map, Function.comp_def, List.map_cons]
      · rw [if_neg (fun h => hab (of_decide_eq_true h)), if_neg hab]
        rfl

/-! ## §4. Method tables. -/

/-- A method table of `n` methods. -/
structure MethodTable (mem : Words) (meths : Value) (n : Nat) : Prop where
  nonempty : 1 ≤ n
  small : n < 2 ^ 29
  /-- Field 0 is the tagged `n`. -/
  length : mem.fieldInt meths 0 = valInt n
  /-- The tags increase, as signed words. -/
  increasing : ∀ j k, 1 ≤ j → j < k → k ≤ n →
    (mem.fieldInt meths (tagField j)).slt (mem.fieldInt meths (tagField k))

theorem MethodTable.hi {mem : Words} {meths : Value} {n : Nat} (h : MethodTable mem meths n) :
    (mem.fieldInt meths 0).setWidth 32 = tagField n := by
  have hsmall := h.small
  rw [h.length]
  apply BitVec.eq_of_toNat_eq
  rw [toNat_tagField hsmall]
  unfold valInt valLong
  rw [BitVec.toNat_setWidth, BitVec.toNat_add, BitVec.toNat_shiftLeft, BitVec.ofInt_natCast,
    BitVec.toNat_ofNat, Nat.shiftLeft_eq]
  show ((n % 2 ^ 64 * 2 ^ 1) % 2 ^ 64 + 1) % 2 ^ 64 % 2 ^ 32 = _
  omega

/-- **A tag that is in the table is found**: the search ends after as many rounds
as `n` can be halved, it reads none but the fields 3, 5, …, 2n + 1, and what is
returned is the method stored with the tag. -/
theorem jitSupportGetDynMet_finds (mem : Words) (obj tag : Value) (n k : Nat)
    (htable : MethodTable mem (mem.fieldInt obj 0) n) (hpos : 1 ≤ k) (hle : k ≤ n)
    (htag : mem.fieldInt (mem.fieldInt obj 0) (tagField k) = tag) :
    ∀ fuel, n ≤ 2 ^ fuel → ∃ searched,
      jitSupportGetDynMet mem (fuel + 1) tag obj
        = some (mem.fieldInt (mem.fieldInt obj 0) (methodField k), searched) ∧
      ∀ i ∈ searched, ∃ j, 1 ≤ j ∧ j ≤ n ∧ i = tagField j := by
  intro fuel hfuel
  have hsmall := htable.small
  have hinc : BinarySearch.Increasing (mem.tagOf (mem.fieldInt obj 0)) 1 n := by
    intro i j hi hij hj
    exact of_decide_eq_true (htable.increasing i j hi hij hj)
  obtain ⟨probes, hfound, hprobes⟩ : ∃ probes,
      BinarySearch.search (mem.tagOf (mem.fieldInt obj 0)) (mem.tagOf (mem.fieldInt obj 0) k)
        (fuel + 1) 1 n = some (k, probes) ∧ ∀ p ∈ probes, 1 < p ∧ p ≤ n :=
    BinarySearch.search_finds hinc hpos hle (by omega)
  have hkey : mem.tagOf (mem.fieldInt obj 0) k = tag.toInt := by
    rw [← htag]
    rfl
  rw [hkey] at hfound
  refine ⟨probes.map tagField, ?_, ?_⟩
  · unfold jitSupportGetDynMet
    dsimp only
    rw [htable.hi]
    show (searchLoop mem _ _ (fuel + 1) (tagField 1) _).map _ = _
    rw [searchLoop_eq mem _ _ (fuel + 1) hsmall htable.nonempty, hfound]
    show some (mem.fieldInt _ (tagField k - 1), _) = _
    rw [tagField_sub_one (by omega)]
  · intro i hi
    obtain ⟨p, hp, rfl⟩ := List.mem_map.mp hi
    have := hprobes p hp
    exact ⟨p, by omega, this.2, rfl⟩

/-- An object at address 1000 whose method table at 2000 has three methods, the
first of them under a negative tag. -/
def threeMethods : Words := fun a =>
  (([(1000, 2000), (2000, 7), (2016, 400), (2024, -3), (2032, 408), (2040, 5), (2048, 416),
    (2056, 9)] : List (Value × Value)).lookup a).getD 0

theorem threeMethods_table : MethodTable threeMethods (threeMethods.fieldInt 1000 0) 3 where
  nonempty := by decide
  small := by decide
  length := by decide
  increasing := by
    intro j k hj hjk hk
    have hcases : (j = 1 ∧ k = 2) ∨ (j = 1 ∧ k = 3) ∨ (j = 2 ∧ k = 3) := by omega
    rcases hcases with ⟨rfl, rfl⟩ | ⟨rfl, rfl⟩ | ⟨rfl, rfl⟩ <;> decide

/-- The negative tag is found. -/
theorem jitSupportGetDynMet_finds_negative : ∃ searched,
    jitSupportGetDynMet threeMethods 3 (-3) 1000
      = some (threeMethods.fieldInt (threeMethods.fieldInt 1000 0) (methodField 1), searched) ∧
    ∀ i ∈ searched, ∃ j, 1 ≤ j ∧ j ≤ 3 ∧ i = tagField j :=
  jitSupportGetDynMet_finds threeMethods 1000 (-3) 3 1 threeMethods_table (by decide) (by decide)
    (by decide) 2 (by decide)

end OcamlJit.Interp

/-
  OcamlJit.Baseline.Indexing
  ──────────────────────────
  **WHERE VECTOR AND BYTES ACCESSES GO.**

  Each backend turns the tagged index on the stack into an address in its own
  way.  They all compute `base + 8 * i`, or `base + i` for bytes, with one
  exception: the baseline code of `GETVECTITEM` takes the index from the low half
  of its word, so from index `2 ^ 31` on it reads an earlier element
  (`accesses_iff`), and not what `SETVECTITEM` has written there.
-/
import OcamlJit.Baseline.EmitInstruction
import OcamlJit.Cranelift.Succeeds
import OcamlJit.Interp.OcamlInts

namespace OcamlJit.Baseline

open OcamlJit.Lib OcamlJit.Instructions OcamlJit.Interp OcamlJit.BasicBlocks OcamlJit.Cranelift

/-! ## §1. Accesses. -/

/-- The instructions with an index. -/
inductive Access where
  | getVecTItem | setVecTItem | getBytesChar | setBytesChar
  deriving Repr, DecidableEq

namespace Access

def decoded : Access → Instruction Nat
  | .getVecTItem => .getVecTItem
  | .setVecTItem => .setVecTItem
  | .getBytesChar => .getBytesChar
  | .setBytesChar => .setBytesChar

def recorded : Access → BasicBlockInstruction
  | .getVecTItem => .getVecTItem
  | .setVecTItem => .setVecTItem
  | .getBytesChar => .getBytesChar
  | .setBytesChar => .setBytesChar

/-- The size of the largest array, or bytes, a header can describe: `2 ^ 54 - 1`
words. -/
def maxSize : Access → Nat
  | .getVecTItem | .setVecTItem => 2 ^ 54 - 1
  | .getBytesChar | .setBytesChar => 8 * (2 ^ 54 - 1)

/-- The words on top of the stack: the index, and the new value for a store. -/
def operands (i : Nat) (v : Value) : Access → List Slot
  | .getVecTItem | .getBytesChar => [.val (tagged (BitVec.ofNat 63 i))]
  | .setVecTItem | .setBytesChar => [.val (tagged (BitVec.ofNat 63 i)), .val v]

/-- `base + 8 * i`, or `base + i`. -/
def address (base : Value) (i : Nat) : Access → Value
  | .getVecTItem | .setVecTItem => base + BitVec.ofNat 64 (8 * i)
  | .getBytesChar | .setBytesChar => base + BitVec.ofNat 64 i

/-- The access at its address, and the accumulator after it. -/
def perform {O : Oracle Request Value} (base : Value) (i : Nat) (v : Value) (a : Access) :
    Act O Value :=
  match a with
  | .getVecTItem => Act.perform (.load (a.address base i))
  | .setVecTItem => do
      let _ ← Act.perform (.camlModify (a.address base i) v)
      pure valUnit
  | .getBytesChar => do
      let b ← Act.perform (.load8 (a.address base i))
      pure (valLong ((b.setWidth 8).setWidth 64))
  | .setBytesChar => do
      let _ ← Act.perform (.store8 (a.address base i) ((intVal v).setWidth 8))
      pure valUnit

end Access

/-- All backends access index `i` at its address. -/
def Accesses (a : Access) (i : Nat) : Prop :=
  ∀ (O : Oracle Request Value) (rt : Layout) (base v env : Value) (rest : List Slot),
    instrMeaning rt a.decoded ⟨base, env, a.operands i v ++ rest⟩
        = (do pure ⟨← a.perform base i v, env, rest⟩ : Act O State) ∧
      Emitted O a.decoded ⟨base, env, a.operands i v ++ rest⟩
        (do pure (⟨← a.perform base i v, env, rest⟩, .next)) ∧
      TranslatedTo O rt a.recorded ⟨base, env, a.operands i v ++ rest⟩
        (do pure ⟨← a.perform base i v, env, rest⟩)

/-! ## §2. Indices. -/

section Words

variable {i : Nat}

theorem longVal_index (h : i < 2 ^ 62) :
    longVal (tagged (BitVec.ofNat 63 i)) = BitVec.ofNat 64 i := by
  have hnat : (BitVec.ofNat 63 i).toNat = i := by
    rw [BitVec.toNat_ofNat, Nat.mod_eq_of_lt (by omega)]
  apply BitVec.eq_of_toNat_eq
  rw [toNat_longVal_tagged (by omega), hnat, BitVec.toNat_ofNat, Nat.mod_eq_of_lt (by omega)]

/-- A logical shift takes the tag off an index as well. -/
theorem ushiftRight_index (h : i < 2 ^ 62) :
    tagged (BitVec.ofNat 63 i) >>> 1 = BitVec.ofNat 64 i := by
  apply BitVec.eq_of_toNat_eq
  have htag : (tagged (BitVec.ofNat 63 i)).toNat = 2 * i + 1 := by
    have h' := toNat_tag (BitVec.ofNat 63 i)
    rwa [BitVec.toNat_ofNat, Nat.mod_eq_of_lt (by omega)] at h'
  rw [BitVec.toNat_ushiftRight, Nat.shiftRight_eq_div_pow, BitVec.toNat_ofNat, htag]
  omega

/-- The low half has room for 31 bits of the index. -/
theorem lowHalf_index (h : i < 2 ^ 62) :
    ((((tagged (BitVec.ofNat 63 i)).setWidth 32) >>> 1).setWidth 64 : Value)
      = BitVec.ofNat 64 (i % 2 ^ 31) := by
  apply BitVec.eq_of_toNat_eq
  have htag : (tagged (BitVec.ofNat 63 i)).toNat = 2 * i + 1 := by
    have h' := toNat_tag (BitVec.ofNat 63 i)
    rwa [BitVec.toNat_ofNat, Nat.mod_eq_of_lt (by omega)] at h'
  rw [BitVec.toNat_setWidth, BitVec.toNat_ushiftRight, BitVec.toNat_setWidth,
    Nat.shiftRight_eq_div_pow, BitVec.toNat_ofNat, htag]
  omega

theorem mul_index (i : Nat) : 8 * BitVec.ofNat 64 i = BitVec.ofNat 64 (8 * i) := by
  apply BitVec.eq_of_toNat_eq
  simp

/-- The byte of a word, untagged by either shift. -/
theorem byte_of_ushiftRight (v : Value) : (v >>> 1).setWidth 8 = (intVal v).setWidth 8 := by
  rw [← byte_of_intVal]
  ext j hj
  simp only [BitVec.getElem_setWidth, BitVec.getLsbD_setWidth, BitVec.getLsbD_ushiftRight, longVal,
    BitVec.getLsbD_sshiftRight]
  simp [show j < 64 by omega, show 1 + j < 64 by omega, hj]

end Words

/-! ## §3. The baseline code. -/

section Emitted

variable {O : Oracle Request Value} {base env i v : Value} {rest : List Slot}

theorem getVecTItem_emitted :
    Emitted O .getVecTItem ⟨base, env, .val i :: rest⟩ (do
      let w ← Act.perform (.load (base + 8 * ((i.setWidth 32) >>> 1).setWidth 64))
      pure (⟨w, env, rest⟩, .next)) := by
  rintro trash ⟨regs, stack, flags⟩ hstate
  obtain ⟨rfl, rfl, rfl⟩ := State.mk.inj hstate
  simp [emitGetVecTItem]

theorem setVecTItem_emitted :
    Emitted O .setVecTItem ⟨base, env, .val i :: .val v :: rest⟩ (do
      let _ ← Act.perform (.camlModify (base + (8 : Value) * (i >>> 1)) v)
      pure (⟨valUnit, env, rest⟩, .next)) := by
  rintro trash ⟨regs, stack, flags⟩ hstate
  obtain ⟨rfl, rfl, rfl⟩ := State.mk.inj hstate
  simp [emitSetVecTItem, Cpu.afterCall, valUnit]

theorem getBytesChar_emitted :
    Emitted O .getBytesChar ⟨base, env, .val i :: rest⟩ (do
      let b ← Act.perform (.load8 (base + (i >>> 1)))
      pure (⟨valLong ((b.setWidth 8).setWidth 64), env, rest⟩, .next)) := by
  rintro trash ⟨regs, stack, flags⟩ hstate
  obtain ⟨rfl, rfl, rfl⟩ := State.mk.inj hstate
  simp [emitGetBytesChar, ← add_self_add_one]

theorem setBytesChar_emitted :
    Emitted O .setBytesChar ⟨base, env, .val i :: .val v :: rest⟩ (do
      let _ ← Act.perform (.store8 (base + (i >>> 1)) ((v >>> 1).setWidth 8))
      pure (⟨valUnit, env, rest⟩, .next)) := by
  rintro trash ⟨regs, stack, flags⟩ hstate
  obtain ⟨rfl, rfl, rfl⟩ := State.mk.inj hstate
  simp [emitSetBytesChar, valUnit]

end Emitted

/-! ## §4. Which accesses go right. -/

section Accesses

variable {O : Oracle Request Value} {i : Nat} (rt : Layout) (base v env : Value)
  (rest : List Slot)

theorem Access.interp (a : Access) (h : i < 2 ^ 62) :
    instrMeaning rt a.decoded ⟨base, env, a.operands i v ++ rest⟩
      = (do pure ⟨← a.perform base i v, env, rest⟩ : Act O State) := by
  have hlong := longVal_index h
  cases a with
  | getVecTItem =>
      show (Act.perform (Request.load (field base (longVal _))) >>= _) = _
      rw [hlong, field, mul_index]
      rfl
  | setVecTItem =>
      show (Act.perform (Request.camlModify (field base (longVal _)) v) >>= _)
        = (Act.perform _ >>= _) >>= _
      rw [hlong, field, mul_index, Act.bind_assoc]
      rfl
  | getBytesChar =>
      show (Act.perform (Request.load8 (base + longVal _)) >>= _) = (Act.perform _ >>= _) >>= _
      rw [hlong, Act.bind_assoc]
      rfl
  | setBytesChar =>
      show (Act.perform (Request.store8 (base + longVal _) _) >>= _) = (Act.perform _ >>= _) >>= _
      rw [hlong, Act.bind_assoc]
      rfl

/-- What a read of a vector does in the baseline code. -/
theorem getVecTItem_emitted_index (h : i < 2 ^ 62) :
    Emitted O .getVecTItem ⟨base, env, Access.operands i v .getVecTItem ++ rest⟩ (do
      let w ← Act.perform (.load (base + BitVec.ofNat 64 (8 * (i % 2 ^ 31))))
      pure (⟨w, env, rest⟩, .next)) := by
  rw [← mul_index, ← lowHalf_index h]
  exact getVecTItem_emitted

theorem Access.emitted (a : Access) (h : i < 2 ^ 62) (hread : a = .getVecTItem → i < 2 ^ 31) :
    Emitted O a.decoded ⟨base, env, a.operands i v ++ rest⟩
      (do pure (⟨← a.perform base i v, env, rest⟩, .next)) := by
  have hindex := ushiftRight_index h
  cases a with
  | getVecTItem =>
      have hget := getVecTItem_emitted_index (O := O) base v env rest h
      rwa [Nat.mod_eq_of_lt (hread rfl)] at hget
  | setVecTItem =>
      have hset : Emitted O .setVecTItem
          ⟨base, env, .val (tagged (BitVec.ofNat 63 i)) :: .val v :: rest⟩ _ := setVecTItem_emitted
      rw [hindex, mul_index] at hset
      show Emitted O _ _ ((Act.perform _ >>= _) >>= _)
      rw [Act.bind_assoc]
      exact hset
  | getBytesChar =>
      have hget : Emitted O .getBytesChar
          ⟨base, env, .val (tagged (BitVec.ofNat 63 i)) :: rest⟩ _ := getBytesChar_emitted
      rw [hindex] at hget
      show Emitted O _ _ ((Act.perform _ >>= _) >>= _)
      rw [Act.bind_assoc]
      exact hget
  | setBytesChar =>
      have hset : Emitted O .setBytesChar
          ⟨base, env, .val (tagged (BitVec.ofNat 63 i)) :: .val v :: rest⟩ _ := setBytesChar_emitted
      rw [hindex, byte_of_ushiftRight] at hset
      show Emitted O _ _ ((Act.perform _ >>= _) >>= _)
      rw [Act.bind_assoc]
      exact hset

theorem Access.translated (a : Access) (h : i < 2 ^ 62) :
    TranslatedTo O rt a.recorded ⟨base, env, a.operands i v ++ rest⟩
      (do pure ⟨← a.perform base i v, env, rest⟩) := by
  rw [← a.interp rt base v env rest h]
  have hlong := isLong_tagged (BitVec.ofNat 63 i)
  cases a with
  | getVecTItem =>
      exact .of_sim rt rfl (Nat.succ_le_succ (Nat.zero_le _)) (fun _ h => nomatch h)
        (eq_false fun h => h.1) rfl fun k τ σ hM => getVecTItem_sim hM not_false hlong
  | setVecTItem =>
      exact .of_sim rt rfl (Nat.succ_le_succ (Nat.succ_le_succ (Nat.zero_le _)))
        (fun _ h => nomatch h) (eq_false fun h => h.1) rfl
        fun k τ σ hM => setVecTItem_sim hM not_false hlong
  | getBytesChar =>
      exact .of_sim rt rfl (Nat.succ_le_succ (Nat.zero_le _)) (fun _ h => nomatch h)
        (eq_false fun h => h.1) rfl fun k τ σ hM => getBytesChar_sim hM not_false
  | setBytesChar =>
      exact .of_sim rt rfl (Nat.succ_le_succ (Nat.succ_le_succ (Nat.zero_le _)))
        (fun _ h => nomatch h) (eq_false fun h => h.1) rfl
        fun k τ σ hM => setBytesChar_sim hM not_false

end Accesses

/-- One piece of code does one thing. -/
theorem Emitted.unique {O : Oracle Request Value} {i : Instruction Nat} {s : State}
    {x y : Act O (State × Exit)} (hx : Emitted O i s x) (hy : Emitted O i s y) : x = y := by
  let c : Cpu := ⟨fun r => if r = .accu then s.accu else s.env, s.stack, none⟩
  exact (hx (fun _ => 0) c rfl).symm.trans (hy (fun _ => 0) c rfl)

/-- Different indices have different addresses. -/
theorem address_injective {base : Value} {i j : Nat} (hi : i < 2 ^ 54) (hj : j < 2 ^ 54)
    (h : base + BitVec.ofNat 64 (8 * i) = base + BitVec.ofNat 64 (8 * j)) : i = j := by
  have h := congrArg BitVec.toNat (add_left_cancel h)
  rw [BitVec.toNat_ofNat, BitVec.toNat_ofNat, Nat.mod_eq_of_lt (by omega),
    Nat.mod_eq_of_lt (by omega)] at h
  omega

/-- Every word read is its own address. -/
def addressMemory : Oracle Request Value where
  World := Unit
  perform
    | .load a, w => (.ok a, w)
    | _, w => (.ok 0, w)

/-- A read that goes to its address has an index of 31 bits. -/
theorem lt_of_accesses {i : Nat} (h : i < 2 ^ 54 - 1) (hacc : Accesses .getVecTItem i) :
    i < 2 ^ 31 := by
  obtain ⟨-, hemitted, -⟩ := hacc addressMemory ⟨0, 0, 0, fun _ => 0⟩ 0 0 0 []
  have hsame := hemitted.unique (getVecTItem_emitted_index (O := addressMemory) 0 0 0 [] (by omega))
  have hrun := congrFun hsame ⟨(), []⟩
  have haccu : (0 : Value) + BitVec.ofNat 64 (8 * i) = 0 + BitVec.ofNat 64 (8 * (i % 2 ^ 31)) := by
    injection hrun with hok
    injection hok with hpair
    injection hpair with hstate
    injection hstate
  have hmod := address_injective (by omega) (by omega) haccu
  omega

/-! ## §5. Reading back. -/

/-- A memory of words; `caml_modify` stores one. -/
def wordMemory : Oracle Request Value where
  World := Value → Value
  perform
    | .load a, m => (.ok (m a), m)
    | .store a v, m | .camlModify a v, m => (.ok 0, fun b => if b = a then v else m b)
    | _, m => (.ok 0, m)

/-- The baseline code reads at index `i` what it has stored there. -/
def EmittedReadsBack (i : Nat) : Prop :=
  ∀ (trash : Reg → Value) (c c' : Cpu) (base v env env' : Value) (rest rest' : List Slot)
    (l : Log wordMemory),
    c.state = ⟨base, env, Access.operands i v .setVecTItem ++ rest⟩ →
    c'.state = ⟨base, env', Access.operands i v .getVecTItem ++ rest'⟩ →
    ((do
      let _ ← runEmitted trash .setVecTItem c
      let p ← runEmitted trash .getVecTItem c'
      pure p.1.state.accu : Act wordMemory Value) l).1 = .ok v

/-- The IR does. -/
def TranslatedReadsBack (i : Nat) : Prop :=
  ∀ (rt : Layout) (k : TranslatorEnv) (τ₁ τ₂ : Translator) (σ₁ σ₂ : IrState)
    (base v env env' : Value) (rest rest' : List Slot) (l : Log wordMemory),
    Matches ⟨base, env, Access.operands i v .setVecTItem ++ rest⟩ False τ₁.stackSize σ₁ →
    Matches ⟨base, env', Access.operands i v .getVecTItem ++ rest'⟩ False τ₂.stackSize σ₂ →
    τ₁.stackSize ≤ k.stackVars → τ₂.stackSize ≤ k.stackVars →
    ∃ τ₁' τ₂' set get, translateInstruction k .setVecTItem τ₁ = .ok ((), τ₁', set) ∧
      translateInstruction k .getVecTItem τ₂ = .ok ((), τ₂', get) ∧
      ((do
        let _ ← runOps rt set σ₁
        let σ ← runOps rt get σ₂
        pure (σ.vars .acc) : Act wordMemory Value) l).1 = .ok v

section ReadBack

variable {i : Nat}

/-- What reading back comes to: a store and a load. -/
theorem emitted_setGet (h : i < 2 ^ 62) {trash : Reg → Value} {c c' : Cpu}
    {base v env env' : Value} {rest rest' : List Slot}
    (hc : c.state = ⟨base, env, Access.operands i v .setVecTItem ++ rest⟩)
    (hc' : c'.state = ⟨base, env', Access.operands i v .getVecTItem ++ rest'⟩) :
    (do
      let _ ← runEmitted trash .setVecTItem c
      let p ← runEmitted trash .getVecTItem c'
      pure p.1.state.accu : Act wordMemory Value)
    = (do
      let _ ← Act.perform (.camlModify (base + BitVec.ofNat 64 (8 * i)) v)
      Act.perform (.load (base + BitVec.ofNat 64 (8 * (i % 2 ^ 31))))) := by
  have hset := Access.emitted (O := wordMemory) base v env rest .setVecTItem h (fun h => nomatch h)
    trash c hc
  have hget := getVecTItem_emitted_index (O := wordMemory) base v env' rest' h trash c' hc'
  calc
    _ = (do
        let _ ← (do pure (visibleExit (← runEmitted trash .setVecTItem c)))
        let q ← (do pure (visibleExit (← runEmitted trash .getVecTItem c')))
        pure q.1.accu : Act wordMemory Value) := by
      simp only [Act.bind_assoc, Act.pure_bind]
      rfl
    _ = _ := by
      have hset : (do pure (visibleExit (← runEmitted trash .setVecTItem c))) = _ := hset
      rw [hset, hget]
      simp only [Act.bind_assoc, Act.pure_bind, Act.bind_pure, Access.perform, Access.address]

/-- **The baseline code reads back what it has stored up to index `2 ^ 31`.** -/
theorem emittedReadsBack_iff (h : i < 2 ^ 54 - 1) : EmittedReadsBack i ↔ i < 2 ^ 31 := by
  constructor
  · intro hback
    by_contra hlarge
    -- a store of `Val_true` over zeros
    let cpu (a : Access) : Cpu := ⟨fun _ => 0, a.operands i valTrue ++ [], none⟩
    have hcpu : ∀ a, (cpu a).state = ⟨0, 0, Access.operands i valTrue a ++ []⟩ := fun _ => rfl
    have hrun := hback (fun _ => 0) (cpu .setVecTItem) (cpu .getVecTItem) 0 valTrue 0 0 [] []
      ⟨fun _ => 0, []⟩ (hcpu _) (hcpu _)
    rw [emitted_setGet (by omega) (hcpu .setVecTItem) (hcpu .getVecTItem)] at hrun
    have hne : (0 : Value) + BitVec.ofNat 64 (8 * (i % 2 ^ 31)) ≠ 0 + BitVec.ofNat 64 (8 * i) := by
      intro heq
      have := address_injective (by omega) (by omega) heq
      omega
    have hzero : (Except.ok (if (0 : Value) + BitVec.ofNat 64 (8 * (i % 2 ^ 31))
        = 0 + BitVec.ofNat 64 (8 * i) then valTrue else 0) : Except (Halt Value) Value)
        = .ok valTrue := hrun
    rw [if_neg hne] at hzero
    exact absurd hzero (by decide)
  · intro hlt trash c c' base v env env' rest rest' l hc hc'
    rw [emitted_setGet (by omega) hc hc', Nat.mod_eq_of_lt hlt]
    exact congrArg Except.ok (if_pos rfl)

/-- **The IR always does.** -/
theorem translatedReadsBack (h : i < 2 ^ 54 - 1) : TranslatedReadsBack i := by
  intro rt k τ₁ τ₂ σ₁ σ₂ base v env env' rest rest' l hM₁ hM₂ hroom₁ hroom₂
  obtain ⟨τ₁', set, hset, hsim⟩ := Access.translated (O := wordMemory) rt base v env rest
    .setVecTItem (by omega) k τ₁ σ₁ hM₁ hroom₁
  obtain ⟨τ₂', get, hget, hsim'⟩ := Access.translated (O := wordMemory) rt base v env' rest'
    .getVecTItem (by omega) k τ₂ σ₂ hM₂ hroom₂
  refine ⟨τ₁', τ₂', set, get, hset, hget, ?_⟩
  have hboth : Sim (fun w w' : Value => w = w') _ (do
      let _ ← runOps rt set σ₁
      let σ ← runOps rt get σ₂
      pure (σ.vars .acc)) :=
    hsim.bind fun _ _ _ => hsim'.bind fun s' σ' hM => Sim.pure (hM.accu not_false).symm
  rcases hboth l with hstuck | ⟨-, hr⟩
  · cases hstuck
  · revert hr
    generalize ((do
      let _ ← runOps rt set σ₁
      let σ ← runOps rt get σ₂
      pure (σ.vars .acc) : Act wordMemory Value) l).1 = r
    intro hr
    cases r with
    | error e => exact hr.elim
    | ok w =>
        have hw : (if base + BitVec.ofNat 64 (8 * i) = base + BitVec.ofNat 64 (8 * i) then v
            else l.world (base + BitVec.ofNat 64 (8 * i))) = w := hr
        rw [← hw, if_pos rfl]

end ReadBack

/-- **Which accesses go to their address.**  On all backends every access does,
but for a `GETVECTITEM` of the baseline code at an index from `2 ^ 31` on; there
it does not see what `SETVECTITEM` has stored. -/
theorem accesses_iff {a : Access} {i : Nat} (h : i < a.maxSize) :
    (Accesses a i ↔ (a = .getVecTItem → i < 2 ^ 31)) ∧
    (i < 2 ^ 54 - 1 → TranslatedReadsBack i ∧ (EmittedReadsBack i ↔ i < 2 ^ 31)) := by
  refine ⟨⟨?_, fun hread => ?_⟩, fun hvec => ⟨translatedReadsBack hvec, emittedReadsBack_iff hvec⟩⟩
  · rintro hacc rfl
    exact lt_of_accesses h hacc
  · have hsmall : i < 2 ^ 62 := by
      cases a <;> simp only [Access.maxSize] at h <;> omega
    exact fun O rt base v env rest => ⟨a.interp rt base v env rest hsmall,
      a.emitted base v env rest hsmall hread, a.translated rt base v env rest hsmall⟩

/-- A store far out goes to its address; index 5 is read back. -/
theorem accesses_iff_far : Accesses .setVecTItem (2 ^ 40) ∧ EmittedReadsBack 5 := by
  have hfar := accesses_iff (a := .setVecTItem) (i := 2 ^ 40) (by decide)
  have hback := accesses_iff (a := .setVecTItem) (i := 5) (by decide)
  exact ⟨hfar.1.mpr (fun h => nomatch h), (hback.2 (by decide)).2.mpr (by decide)⟩

/-- Element `2 ^ 31` of an array is not what is read, and a value stored there
is not read back. -/
theorem getVecTItem_truncates : 2 ^ 31 < Access.getVecTItem.maxSize ∧
    ¬ Accesses .getVecTItem (2 ^ 31) ∧ ¬ EmittedReadsBack (2 ^ 31) :=
  ⟨by decide, fun h => absurd (lt_of_accesses (by decide) h) (by decide),
    fun h => absurd ((emittedReadsBack_iff (by decide)).mp h) (by decide)⟩

end OcamlJit.Baseline

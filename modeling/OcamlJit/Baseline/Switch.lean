/-
  OcamlJit.Baseline.Switch
  ────────────────────────
  **THE WAYS A SWITCH IS DISPATCHED.**

  `interp.c` indexes the words behind `SWITCH` with the accumulator.  The decoder
  splits them into two tables (§2); the baseline code compares the accumulator
  with every integer, and the low byte of the header with every tag (§3); the
  conversion renames the tables to blocks, for a Cranelift switch (§4).  All of
  them go to the same place (`switch_agrees`).
-/
import OcamlJit.Baseline.Indexing
import OcamlJit.Baseline.Arithmetic
import OcamlJit.BasicBlocks.Simulation

namespace OcamlJit.Baseline

open OcamlJit.Lib OcamlJit.Instructions OcamlJit.Interp OcamlJit.BasicBlocks OcamlJit.Cranelift

/-! ## §1. The instruction. -/

/-- At `off` the code has a `SWITCH` with `n` integer and `m` tag cases; entry `j`
of its table is the offset `location j`, relative to the table. -/
structure SwitchAt (code : List Word) (off n m : Nat) (location : Nat → Nat) : Prop where
  opcode : ∃ w, code[off]? = some w ∧ Opcode.fromI32 w = some .switch
  sizes : code[off + 1]? = some (BitVec.ofNat 32 (n + 2 ^ 16 * m))
  ints : n ≤ 0xFFFF
  tags : m ≤ 256
  nonempty : 0 < n ∨ 0 < m
  entry : ∀ j < n + m, ∃ w, code[off + 2 + j]? = some w ∧
    (location j : Int) = (off + 2 : Nat) + w.toInt ∧ location j < 2 ^ 31
  /-- Offsets are 32-bit integers. -/
  offset : off + 2 < 2 ^ 31

/-- `count` entries of the table from entry `base` on. -/
def tableOf (location : Nat → Nat) (base count : Nat) : List Nat :=
  (List.range' base count).map location

@[simp] theorem length_tableOf (location : Nat → Nat) (base count : Nat) :
    (tableOf location base count).length = count := by simp [tableOf]

/-- The accumulator selects entry `j`: it is an integer, or a block with a tag, for
which there is a case.  The tag is the low byte of the header, and the first
byte of it in memory. -/
inductive Selects {O : Oracle Request Value} (w : O.World) (n m : Nat) (accu : Value) :
    Nat → Prop where
  | int (i : Nat) (hi : i < n) (haccu : accu = tagged (BitVec.ofNat 63 i)) : Selects w n m accu i
  | block (tag : Nat) (htag : tag < m) (heven : accu &&& 1 = 0) {header byte : Value}
      {w₁ w₂ : O.World} (hload : O.perform (.load (accu - 8)) w = (.ok header, w₁))
      (hload8 : O.perform (.load8 (accu - 8)) w = (.ok byte, w₂))
      (hheader : header.setWidth 8 = BitVec.ofNat 8 tag)
      (hbyte : byte.setWidth 8 = BitVec.ofNat 8 tag) : Selects w n m accu (n + tag)

section Interp

variable {O : Oracle Request Value}

/-- `SWITCH` of `interp.c`: from the offset after the opcode to the one it goes
on at. -/
def interpSwitch (code : List Word) (pc : Nat) (accu : Value) : Act O Int := do
  let sizes ← Act.ofOption code[pc]?
  let pc := pc + 1
  if accu &&& 1 = 0 then
    let tag ← Act.perform (.load8 (accu - 8))
    let rel ← Act.ofOption code[pc + ((sizes &&& 0xFFFF).toNat + (tag.setWidth 8).toNat)]?
    pure (pc + rel.toInt)
  else
    let rel ← Act.ofOption code[pc + (longVal accu).toNat]?
    pure (pc + rel.toInt)

end Interp

/-! ## §2. Decoding. -/

section Decode

variable {code : List Word} {off n m : Nat} {location : Nat → Nat}

theorem SwitchAt.sizes_lt (h : SwitchAt code off n m location) : n + 2 ^ 16 * m < 2 ^ 32 := by
  have := h.ints
  have := h.tags
  omega

/-- The label list of `count` entries from entry `base` on. -/
theorem getLabelList_eq {position : Nat} (hpos : position < 2 ^ 31) :
    ∀ (count p base : Nat),
    (∀ j < count, ∃ w, code[p + j]? = some w ∧
      (location (base + j) : Int) = (position : Nat) + w.toInt ∧ location (base + j) < 2 ^ 31) →
    Reader.getLabelList count position ⟨code.drop p, p⟩
      = .ok (tableOf location base count, ⟨code.drop (p + count), p + count⟩)
  | 0, _, _, _ => rfl
  | count + 1, p, base, h => by
      obtain ⟨w, hw, hloc, hlt⟩ := h 0 (Nat.succ_pos count)
      rw [Nat.add_zero] at hw hloc hlt
      have hdrop : code.drop p = w :: code.drop (p + 1) := by
        obtain ⟨hat, rfl⟩ := List.getElem?_eq_some_iff.mp hw
        exact List.drop_eq_getElem_cons hat
      have hresolve : Reader.resolveLabel position w = .ok (location base) := by
        have hint : (BitVec.ofNat 32 position).toInt = position := by
          rw [BitVec.toInt_eq_toNat_of_lt (by rw [BitVec.toNat_ofNat]; omega), BitVec.toNat_ofNat]
          omega
        unfold Reader.resolveLabel
        simp only [hint, ← hloc]
        rw [if_neg (by omega), if_neg (by omega)]
        rfl
      have hrest := getLabelList_eq hpos count (p + 1) (base + 1) fun j hj => by
        have hj' := h (j + 1) (Nat.succ_lt_succ hj)
        rw [show p + 1 + j = p + (j + 1) by omega, show base + 1 + j = base + (j + 1) by omega]
        exact hj'
      have hlabel : Reader.labelAt position ⟨code.drop p, p⟩
          = .ok (location base, ⟨code.drop (p + 1), p + 1⟩) := by
        rw [hdrop]
        show (Reader.resolveLabel position w).map _ = _
        rw [hresolve]
        rfl
      refine reader_bind_ok.mpr ⟨_, _, hlabel, reader_bind_ok.mpr ⟨_, _, hrest, ?_⟩⟩
      rw [show p + 1 + count = p + (count + 1) by omega]
      rfl

/-- The tables the decoder makes. -/
theorem SwitchAt.decoded (h : SwitchAt code off n m location) :
    decodeAt code off = .ok ([.switch (tableOf location 0 n)
      (tableOf location n m)], off + 2 + n + m) := by
  have hword : ∀ {p : Nat} {w : Word}, code[p]? = some w →
      Reader.i32 ⟨code.drop p, p⟩ = .ok (w, ⟨code.drop (p + 1), p + 1⟩) := by
    intro p w hw
    obtain ⟨hp, rfl⟩ := List.getElem?_eq_some_iff.mp hw
    rw [List.drop_eq_getElem_cons hp]
    rfl
  obtain ⟨w, hw, hop⟩ := h.opcode
  have hopcode : Reader.opcode ⟨code.drop off, off⟩ = .ok (.switch, ⟨code.drop (off + 1), off + 1⟩) := by
    refine reader_bind_ok.mpr ⟨_, _, hword hw, ?_⟩
    rw [hop]
    rfl
  have hsizes : Reader.u32 ⟨code.drop (off + 1), off + 1⟩
      = .ok (n + 2 ^ 16 * m, ⟨code.drop (off + 2), off + 2⟩) := by
    refine reader_bind_ok.mpr ⟨_, _, hword h.sizes, ?_⟩
    have hnat : u32OfWord (BitVec.ofNat 32 (n + 2 ^ 16 * m)) = n + 2 ^ 16 * m := by
      show (BitVec.ofNat 32 (n + 2 ^ 16 * m)).toNat = _
      rw [BitVec.toNat_ofNat, Nat.mod_eq_of_lt h.sizes_lt]
    rw [hnat]
    rfl
  -- the tags come after the integers, and count from the same word
  have hints := getLabelList_eq h.offset n (off + 2) 0 fun j hj => by
    rw [Nat.zero_add]
    exact h.entry j (by omega)
  have htags := getLabelList_eq h.offset m (off + 2 + n) n fun j hj => by
    rw [show off + 2 + n + j = off + 2 + (n + j) by omega]
    exact h.entry (n + j) (by omega)
  have hmod : (n + 2 ^ 16 * m) % 2 ^ 16 = n := by
    have := h.ints
    omega
  have hdiv : (n + 2 ^ 16 * m) / 2 ^ 16 = m := by
    have := h.ints
    omega
  have hread : readInstrs ⟨code.drop off, off⟩ = .ok ([.switch (tableOf location 0 n)
      (tableOf location n m)], ⟨code.drop (off + 2 + n + m), off + 2 + n + m⟩) := by
    refine reader_bind_ok.mpr ⟨_, _, hopcode, reader_bind_ok.mpr ⟨_, _, hsizes,
      reader_bind_ok.mpr ⟨_, _, rfl, ?_⟩⟩⟩
    rw [hmod, hdiv]
    exact reader_bind_ok.mpr ⟨_, _, hints, reader_bind_ok.mpr ⟨_, _, htags, rfl⟩⟩
  unfold decodeAt
  rw [hread]
  rfl

end Decode

/-! ## §3. The chain of comparisons. -/

section Chain

variable {O : Oracle Request Value} (trash : Reg → Value)

theorem toNat_valInt {i : Nat} (h : i < 2 ^ 62) : (valInt i).toNat = 2 * i + 1 := by
  rw [valInt_eq_tagged, BitVec.ofInt_natCast]
  show (tag (BitVec.ofNat 63 i)).toNat = _
  rw [toNat_tag, BitVec.toNat_ofNat, Nat.mod_eq_of_lt (by omega)]

theorem valInt_natCast_injective {i j : Nat} (hi : i < 2 ^ 62) (hj : j < 2 ^ 62)
    (h : valInt i = valInt j) : i = j := by
  have h := congrArg BitVec.toNat h
  rw [toNat_valInt hi, toNat_valInt hj] at h
  omega

/-- One comparison with an integer. -/
theorem runSwitchInt {i : Nat} (hi : i < 2 ^ 16) (l : Nat) (ints : List Nat) (rest : List Line)
    (c : Cpu) : ∃ c' : Cpu, c'.state = c.state ∧
      (runLines trash none (emitSwitchInts i (l :: ints) ++ rest) c : Act O (Cpu × Exit))
        = if c.regs .accu = valInt i then pure (c', .label l)
          else runLines trash none (emitSwitchInts (i + 1) ints ++ rest) c' := by
  have himm : immediateOk i = true := decide_eq_true (by omega)
  have hextend := signExtend_camlI32OfInt himm
  refine ⟨{ ((c.set .rax ((BitVec.ofInt 32 (camlI32OfInt i)).setWidth 64)).set .rax (valInt i)) with
    flags := some (cmpFlags (c.regs .accu) (valInt i)) }, ?_, ?_⟩
  · simp
  · simp [emitSwitchInts, setWidth_ofInt_low, hextend, holds_cmpFlags, Cond.compares]

/-- One comparison with a tag. -/
theorem runSwitchTag (i l : Nat) (tags : List Nat) (rest : List Line) (c : Cpu) :
    ∃ c' : Cpu, c'.state = c.state ∧ c'.regs .rax = c.regs .rax ∧
      (runLines trash none (emitSwitchBlocks i (l :: tags) ++ rest) c : Act O (Cpu × Exit))
        = if (c.regs .rax).setWidth 8 = BitVec.ofNat 8 i then pure (c', .label l)
          else runLines trash none (emitSwitchBlocks (i + 1) tags ++ rest) c' := by
  refine ⟨{ c with flags := some (cmpFlags ((c.regs .rax).setWidth 8) (BitVec.ofInt 8 i)) },
    rfl, rfl, ?_⟩
  simp [emitSwitchBlocks, holds_cmpFlags, Cond.compares]

/-- The comparisons with the integers from `i` on do not find the accumulator. -/
theorem runSwitchInts_pass (rest : List Line) : ∀ (ints : List Nat) (i : Nat) (c : Cpu),
    i + ints.length ≤ 2 ^ 16 →
    (∀ j < i + ints.length, c.regs .accu ≠ valInt j) → ∃ c' : Cpu, c'.state = c.state ∧
      (runLines trash none (emitSwitchInts i ints ++ rest) c : Act O (Cpu × Exit))
        = runLines trash none rest c'
  | [], _, c, _, _ => ⟨c, rfl, rfl⟩
  | l :: ints, i, c, hi, hne => by
      rw [List.length_cons] at hi hne
      obtain ⟨c₁, hc₁, hrun₁⟩ := runSwitchInt (O := O) trash (i := i) (by omega) l ints rest c
      have haccu : c₁.regs .accu = c.regs .accu := congrArg State.accu hc₁
      obtain ⟨c₂, hc₂, hrun₂⟩ := runSwitchInts_pass rest ints (i + 1) c₁ (by omega) fun j hj => by
        rw [haccu]
        exact hne j (by omega)
      refine ⟨c₂, hc₂.trans hc₁, ?_⟩
      rw [hrun₁, if_neg (hne i (by omega)), hrun₂]

/-- They do find it. -/
theorem runSwitchInts_hit (rest : List Line) {v l : Nat} : ∀ (ints : List Nat) (i : Nat) (c : Cpu),
    i + ints.length ≤ 2 ^ 16 → c.regs .accu = valInt v → i ≤ v → ints[v - i]? = some l →
    ∃ c' : Cpu, c'.state = c.state ∧
      (runLines trash none (emitSwitchInts i ints ++ rest) c : Act O (Cpu × Exit))
        = pure (c', .label l)
  | [], _, _, _, _, _, hget => nomatch hget
  | l' :: ints, i, c, hi, hv, hle, hget => by
      rw [List.length_cons] at hi
      obtain ⟨c₁, hc₁, hrun₁⟩ := runSwitchInt (O := O) trash (i := i) (by omega) l' ints rest c
      by_cases heq : i = v
      · subst heq
        rw [Nat.sub_self] at hget
        cases hget
        exact ⟨c₁, hc₁, by rw [hrun₁, if_pos hv]⟩
      · have hlt : v - (i + 1) < ints.length := by
          obtain ⟨hlt, -⟩ := List.getElem?_eq_some_iff.mp hget
          rw [List.length_cons] at hlt
          omega
        have hne : c.regs .accu ≠ valInt i := by
          rw [hv]
          intro h
          exact heq (valInt_natCast_injective (by omega) (by omega) h).symm
        rw [show v - i = v - (i + 1) + 1 by omega, List.getElem?_cons_succ] at hget
        obtain ⟨c₂, hc₂, hrun₂⟩ := runSwitchInts_hit rest ints (i + 1) c₁ (by omega)
          ((congrArg State.accu hc₁).trans hv) (by omega) hget
        exact ⟨c₂, hc₂.trans hc₁, by rw [hrun₁, if_neg hne, hrun₂]⟩

/-- The comparisons with the tags from `i` on find the byte. -/
theorem runSwitchTags_hit (rest : List Line) {t l : Nat} : ∀ (tags : List Nat) (i : Nat) (c : Cpu),
    i + tags.length ≤ 256 → (c.regs .rax).setWidth 8 = BitVec.ofNat 8 t → i ≤ t →
    tags[t - i]? = some l → ∃ c' : Cpu, c'.state = c.state ∧
      (runLines trash none (emitSwitchBlocks i tags ++ rest) c : Act O (Cpu × Exit))
        = pure (c', .label l)
  | [], _, _, _, _, _, hget => nomatch hget
  | l' :: tags, i, c, hi, ht, hle, hget => by
      rw [List.length_cons] at hi
      obtain ⟨c₁, hc₁, hrax, hrun₁⟩ := runSwitchTag (O := O) trash i l' tags rest c
      by_cases heq : i = t
      · subst heq
        rw [Nat.sub_self] at hget
        cases hget
        exact ⟨c₁, hc₁, by rw [hrun₁, if_pos ht]⟩
      · have hlt : t - (i + 1) < tags.length := by
          obtain ⟨hlt, -⟩ := List.getElem?_eq_some_iff.mp hget
          rw [List.length_cons] at hlt
          omega
        have hne : (c.regs .rax).setWidth 8 ≠ BitVec.ofNat 8 i := by
          rw [ht]
          intro h
          have h := congrArg BitVec.toNat h
          rw [BitVec.toNat_ofNat, BitVec.toNat_ofNat] at h
          omega
        rw [show t - i = t - (i + 1) + 1 by omega, List.getElem?_cons_succ] at hget
        obtain ⟨c₂, hc₂, hrun₂⟩ := runSwitchTags_hit rest tags (i + 1) c₁ (by omega)
          (by rw [hrax, ht]) (by omega) hget
        exact ⟨c₂, hc₂.trans hc₁, by rw [hrun₁, if_neg hne, hrun₂]⟩

end Chain

/-! ## §4. Where it goes. -/

section Selected

variable {O : Oracle Request Value} {code : List Word} {off n m j : Nat} {location : Nat → Nat}
  {w : O.World} {accu : Value}

theorem Selects.lt (h : Selects w n m accu j) : j < n + m := by
  cases h with
  | int _ hi => omega
  | block _ htag => omega

theorem tagged_odd (x : OcamlInt) : ¬ tagged x &&& 1 = 0 := by
  intro heven
  have hodd := isLong_tagged x
  rw [isLong, heven] at hodd
  cases hodd

/-- The interpreter indexes the table. -/
theorem interpSwitch_eq (h : SwitchAt code off n m location) (hsel : Selects w n m accu j)
    (trace : List Request) :
    ((interpSwitch code (off + 1) accu : Act O Int) ⟨w, trace⟩).1 = .ok (location j) := by
  have hints := h.ints
  obtain ⟨rel, hrel, hloc, -⟩ := h.entry j hsel.lt
  unfold interpSwitch
  rw [h.sizes]
  cases hsel with
  | int i hi haccu =>
      subst haccu
      show ((if tagged (BitVec.ofNat 63 j) &&& 1 = 0 then _ else _ : Act O Int) _).1 = _
      rw [if_neg (tagged_odd _), longVal_index (by omega), BitVec.toNat_ofNat,
        Nat.mod_eq_of_lt (by omega), hrel, hloc]
      rfl
  | block tag htag heven hload hload8 hheader hbyte =>
      have htags := h.tags
      have hsizes : (BitVec.ofNat 32 (n + 2 ^ 16 * m) &&& 0xFFFF).toNat = n := by
        rw [BitVec.toNat_and, BitVec.toNat_ofNat, Nat.mod_eq_of_lt h.sizes_lt]
        show (n + 2 ^ 16 * m) &&& (2 ^ 16 - 1) = n
        rw [Nat.and_two_pow_sub_one_eq_mod]
        omega
      have htagnat : (BitVec.ofNat 8 tag).toNat = tag := by
        rw [BitVec.toNat_ofNat, Nat.mod_eq_of_lt (by omega)]
      show ((if accu &&& 1 = 0 then _ else _ : Act O Int) _).1 = _
      rw [if_pos heven, Act.bind_apply, Act.perform, hload8]
      simp only [hbyte, hsizes, htagnat]
      rw [hrel, hloc]
      rfl

theorem getElem?_table {base count i : Nat} (hi : i < count) :
    (tableOf location base count)[i]? = some (location (base + i)) := by
  rw [tableOf, List.getElem?_map, List.getElem?_range' hi, Nat.one_mul]
  rfl

/-- The decoded tables are indexed alike. -/
theorem switchTarget_eq (h : SwitchAt code off n m location) (hsel : Selects w n m accu j)
    (env : Value) (stack : List Slot) (trace : List Request) :
    ∃ l, (switchTarget (tableOf location 0 n) (tableOf location n m)
      ⟨accu, env, stack⟩ : Act O Nat) ⟨w, trace⟩ = (.ok (location j), l) := by
  have hints := h.ints
  unfold switchTarget
  cases hsel with
  | int i hi haccu =>
      subst haccu
      refine ⟨⟨w, trace⟩, ?_⟩
      rw [if_neg (tagged_odd _), longVal_index (by omega), BitVec.toNat_ofNat,
        Nat.mod_eq_of_lt (by omega), getElem?_table hi, Nat.zero_add]
      rfl
  | block tag htag heven hload hload8 hheader hbyte =>
      have htags := h.tags
      have htagnat : (BitVec.ofNat 8 tag).toNat = tag := by
        rw [BitVec.toNat_ofNat, Nat.mod_eq_of_lt (by omega)]
      rw [if_pos heven, Act.bind_apply, Act.perform, hload8]
      simp only [hbyte, htagnat, getElem?_table htag]
      exact ⟨_, rfl⟩

/-- The chain of comparisons finds the entry. -/
theorem switch_emitted (h : SwitchAt code off n m location) (hsel : Selects w n m accu j)
    (trash : Reg → Value) (c : Cpu) (haccu : c.regs .accu = accu) (trace : List Request) :
    ((do pure (visibleExit (← runEmitted trash (.switch (tableOf location 0 n)
      (tableOf location n m)) c)) : Act O (State × Exit)) ⟨w, trace⟩).1
      = .ok (c.state, .label (location j)) := by
  have hints := h.ints
  have hlen := length_tableOf location 0 n
  show (((runLines trash none (emitSwitch _ _) c : Act O (Cpu × Exit)) >>= _) _).1 = _
  unfold emitSwitch
  cases hsel with
  | int i hi hint =>
      have hval : c.regs .accu = valInt j := by
        rw [haccu, hint, valInt_eq_tagged, BitVec.ofInt_natCast]
      obtain ⟨c', hc', hrun⟩ := runSwitchInts_hit (O := O) trash _
        (tableOf location 0 n) 0 c (by omega) hval
        (Nat.zero_le j) (getElem?_table hi)
      rw [hrun, Nat.sub_zero, Nat.zero_add, ← hc']
      rfl
  -- no integer case fits an even word, so the header is loaded
  | block tag htag heven hload hload8 hheader hbyte =>
      have htags := h.tags
      obtain ⟨c₁, hc₁, hrun₁⟩ := runSwitchInts_pass (O := O) trash
        (.ins (.load .rax ⟨.accu, none, -8⟩) ::
          (emitSwitchBlocks 0 (tableOf location n m) ++ [.ins (.call .fatalMessage)]))
        (tableOf location 0 n) 0 c (by omega) fun i _ hval => by
          rw [haccu, valInt_eq_tagged] at hval
          rw [hval] at heven
          exact tagged_odd _ heven
      have haccu₁ : c₁.regs .accu = accu := (congrArg State.accu hc₁).trans haccu
      have haddr : (⟨.accu, none, -8⟩ : Address).eval c₁ = accu - 8 := by
        show c₁.regs .accu + 0 + BitVec.ofInt 64 (-8) = _
        rw [haccu₁, add_zero, BitVec.sub_eq_add_neg]
        rfl
      obtain ⟨c₂, hc₂, hrun₂⟩ := runSwitchTags_hit (O := O) trash [.ins (.call .fatalMessage)]
        (tableOf location n m) 0 (c₁.set .rax _) (by simp; omega)
        hheader (Nat.zero_le tag) (getElem?_table htag)
      rw [hrun₁, runLines, Ins.run, haddr]
      simp only [Act.bind_assoc, Act.pure_bind]
      rw [Act.bind_apply, Act.perform, hload]
      dsimp only
      have hstate : c₂.state = c.state := hc₂.trans hc₁
      rw [hrun₂, Nat.sub_zero, ← hstate]
      rfl

/-- The Cranelift switch, its labels renamed by `f`. -/
theorem switch_translated (h : SwitchAt code off n m location) (hsel : Selects w n m accu j)
    (f : Nat → Nat) (rt : Layout) {k : TranslatorEnv} (hk : ∀ j < n + m, f (location j) < k.blocks)
    {env : Value} {stack : List Slot} {τ : Translator} {σ : IrState}
    (hM : Matches ⟨accu, env, stack⟩ False τ.stackSize σ) (trace : List Request) :
    ∃ t τ' ops σ', translateExit k ((BasicBlockExit.switch (tableOf location 0 n)
        (tableOf location n m)).mapLabels f) τ = .ok (t, τ', ops) ∧
      ((runOps rt ops σ >>= t.run rt : Act O (IrState × Nat ⊕ Result)) ⟨w, trace⟩).1
        = .ok (.inl (σ', f (location j))) ∧
      Matches ⟨accu, env, stack⟩ False τ'.stackSize σ' := by
  have hints := h.ints
  have htags := h.tags
  have hsome : (tableOf location 0 n).map f ≠ [] ∨ (tableOf location n m).map f ≠ [] := by
    rw [← List.length_pos_iff, ← List.length_pos_iff]
    simpa using h.nonempty
  -- a block only meets the tag table, so that table is not empty
  have hlong : isLong accu || (tableOf location n m).map f != [] := by
    cases hsel with
    | int i hi haccu => rw [haccu, isLong_tagged, Bool.true_or]
    | block tag htag =>
        have hne : (tableOf location n m).map f ≠ [] := by
          rw [← List.length_pos_iff]
          simp
          omega
        simp [hne]
  have hops : exitOperandsOk (.switch ((tableOf location 0 n).map f) ((tableOf location n m).map f))
      ⟨accu, env, stack⟩ = true := by
    refine Bool.and_eq_true_iff.mpr ⟨?_, hlong⟩
    simp only [exitImmediates, immediateOk, List.all_cons, List.all_nil, List.length_map,
      length_tableOf, Bool.and_true, Bool.and_eq_true, decide_eq_true_eq]
    omega
  have hblocks : ∀ l ∈ (BasicBlockExit.switch ((tableOf location 0 n).map f)
      ((tableOf location n m).map f)).targets, l < k.blocks := by
    intro l hl
    simp only [BasicBlockExit.targets, tableOf, List.mem_append, List.mem_map, List.mem_range'_1]
      at hl
    rcases hl with ⟨_, ⟨i, hi, rfl⟩, rfl⟩ | ⟨_, ⟨i, hi, rfl⟩, rfl⟩
    · exact hk i (by omega)
    · exact hk i (by omega)
  obtain ⟨l, hz⟩ := switchTarget_eq h hsel env stack trace
  have htranslated := ExitTranslatedTo.of_sim (O := O) rt
    (fun k n hblocks => switch_succeeds k hsome hblocks)
    (show runExit _ _ = (switchTarget _ _ _ >>= _) from Act.bind_assoc _ _ _)
    (fun k τ σ hM => switch_sim hM not_false _ _ hops)
  obtain ⟨t, τ', ops, hτ', hsim⟩ := htranslated k τ σ hM hblocks
  refine ⟨t, τ', ops, ?_⟩
  have hz' : (switchTarget ((tableOf location 0 n).map f) ((tableOf location n m).map f)
      ⟨accu, env, stack⟩ : Act O Nat) ⟨w, trace⟩ = (.ok (f (location j)), l) := by
    rw [switchTarget_map, Act.bind_apply, hz]
    rfl
  -- the target is known, so the simulation is not excused by stuckness
  rcases hsim ⟨w, trace⟩ with hstuck | ⟨-, hr⟩
  · rw [hz'] at hstuck
    cases hstuck
  · rw [hz'] at hr
    revert hr
    generalize ((runOps rt ops σ >>= t.run rt : Act O (IrState × Nat ⊕ Result)) ⟨w, trace⟩).1 = r
    intro hr
    cases r with
    | error e => exact hr.elim
    | ok p =>
        obtain ⟨σ', rfl, hM'⟩ := hr
        exact ⟨σ', hτ', rfl, hM'⟩

end Selected

/-! ## §5. The block that ends in it. -/

section Recorded

variable {code : List Word} {off n m entry : Nat} {location : Nat → Nat} {c : BasicClosure}

/-- Block `i` of the closure records the code from its offset up to the `SWITCH`,
and has its tables, renamed to the ids of the blocks at their offsets. -/
theorem switch_recorded (h : SwitchAt code off n m location)
    (hc : parseToBasicBlocks code entry = .ok c) (hr : Reached code entry [] off) :
    ∃ bs arity st, findBlockStartsDfs code (searchFuel code) [entry] entry = .ok bs ∧
      visit code bs (searchFuel code) .initial entry none (arity % 2 ^ 32) .first = .ok st ∧
      Numbered arity st c ∧
      (∃ (i : Nat) (b : BasicBlock) (o size : Nat), c.blocks[i]? = some b ∧ st.offsets[i]? = some o ∧
        Passes code bs o b.startStackSize
          [.switch (tableOf location 0 n) (tableOf location n m)] (off + 2 + n + m) size
          b.instructions ∧
        b.exit = (BasicBlockExit.switch (tableOf location 0 n) (tableOf location n m)).mapLabels
          st.idOf) ∧
      ∀ j < n + m, st.offsets[st.idOf (location j)]? = some (location j) := by
  obtain ⟨arity, st, ⟨bs, hbs, -, hst⟩, hn⟩ := parseToBasicBlocks_eq_ok hc
  have hs := visit_searched hst
  have hreach := hr.fetch h.decoded
  refine ⟨bs, arity, st, hbs, hst, hn, ?_, fun j hj => ?_⟩
  · obtain ⟨f, hf, p, size, pre, hseen, hpass⟩ := reached_passed hs hreach
    obtain ⟨b, hb, hfin⟩ := hn.block_of_finished hs hf
    obtain ⟨f', p', hf', hp', hbeq⟩ := hn.block _ b hb
    rw [hfin] at hf'
    cases hf'
    rw [hseen] at hp'
    cases hp'
    obtain ⟨p', x, hseen', -, hscan, hexit, -, -⟩ := (hs.blocks f hf).scanned
    rw [hseen] at hseen'
    cases hseen'
    -- the scan of that block passes the `SWITCH`, and ends there
    obtain ⟨is', his, hrest⟩ := hpass.scan hscan
    cases hrest with
    | more _ hstay => cases hstay
    | exit _ hx _ =>
        cases hx
        rw [List.append_nil] at his
        refine ⟨_, b, f.offset, size, hb, Numbered.getElem?_offsets hfin, ?_, ?_⟩
        · rw [hbeq]
          show Passes code bs f.offset p.startStackSize _ _ _ f.instructions
          rw [his]
          exact hpass
        · rw [hbeq]
          show f.exit.mapLabels st.idOf = _
          rw [← hexit]
  -- each entry of the tables is a target, hence an offset the search has seen
  · have hmem : location j ∈ tableOf location 0 n ++ tableOf location n m := by
      simp only [tableOf, List.mem_append, List.mem_map, List.mem_range'_1]
      by_cases hlt : j < n
      · exact .inl ⟨j, ⟨by omega, by omega⟩, rfl⟩
      · exact .inr ⟨j, ⟨by omega, by omega⟩, rfl⟩
    obtain ⟨s, pending, hseen, -⟩ :=
      seen_of_control hs rfl (reached_passed hs hreach) (.inl hmem)
    exact List.getElem?_idxOf ((Numbered.mem_offsets hs).mpr (by rw [hseen]; rfl))

end Recorded

/-- **Every backend goes on at the selected entry**: the interpreter on the words,
and after the decoder the chain of comparisons, and the Cranelift switch at the
end of the block that records the code up to the `SWITCH`. -/
theorem switch_agrees {code : List Word} {off n m : Nat} {location : Nat → Nat}
    (h : SwitchAt code off n m location) :
    ∃ ints tags off', decodeAt code off = .ok ([.switch ints tags], off') ∧
      ∀ (O : Oracle Request Value) (w : O.World) (accu : Value) (j : Nat), Selects w n m accu j →
      ∀ (env : Value) (stack : List Slot) (trace : List Request),
        ((interpSwitch code (off + 1) accu : Act O Int) ⟨w, trace⟩).1 = .ok (location j) ∧
        (∀ (trash : Reg → Value) (c : Cpu), c.state = ⟨accu, env, stack⟩ →
          ((do pure (visibleExit (← runEmitted trash (.switch ints tags) c)) :
            Act O (State × Exit)) ⟨w, trace⟩).1
              = .ok (⟨accu, env, stack⟩, .label (location j))) ∧
        ∀ (entry : Nat) (c : BasicClosure), parseToBasicBlocks code entry = .ok c →
          Reached code entry [] off →
          ∃ (bs : List Nat) (arity : Nat) (st : SearchState) (i : Nat) (b : BasicBlock)
              (o size : Nat),
            findBlockStartsDfs code (searchFuel code) [entry] entry = .ok bs ∧
            visit code bs (searchFuel code) .initial entry none (arity % 2 ^ 32) .first = .ok st ∧
            Numbered arity st c ∧ c.blocks[i]? = some b ∧ st.offsets[i]? = some o ∧
            Passes code bs o b.startStackSize [.switch ints tags] off' size b.instructions ∧
            ∀ (rt : Layout) (k : TranslatorEnv) (τ : Translator) (σ : IrState),
              Matches ⟨accu, env, stack⟩ False τ.stackSize σ → k.blocks = c.blocks.length →
              ∃ t τ' ops σ' i', translateExit k b.exit τ = .ok (t, τ', ops) ∧
                ((runOps rt ops σ >>= t.run rt : Act O (IrState × Nat ⊕ Result)) ⟨w, trace⟩).1
                  = .ok (.inl (σ', i')) ∧
                st.offsets[i']? = some (location j) ∧
                Matches ⟨accu, env, stack⟩ False τ'.stackSize σ' := by
  refine ⟨_, _, _, h.decoded, fun O w accu j hsel env stack trace =>
    ⟨interpSwitch_eq h hsel trace, ?_, ?_⟩⟩
  -- the chain of comparisons
  · intro trash c hc
    rw [← hc]
    exact switch_emitted h hsel trash c (congrArg State.accu hc) trace
  -- the recorded block, and the switch at its end
  · intro entry c hc hr
    obtain ⟨bs, arity, st, hbs, hst, hn, ⟨i, b, o, size, hb, ho, hpass, hexit⟩, hloc⟩ :=
      switch_recorded h hc hr
    refine ⟨bs, arity, st, i, b, o, size, hbs, hst, hn, hb, ho, hpass, ?_⟩
    intro rt k τ σ hM hk
    have hids : ∀ j < n + m, st.idOf (location j) < k.blocks := by
      intro j hj
      obtain ⟨hlt, -⟩ := List.getElem?_eq_some_iff.mp (hloc j hj)
      rw [SearchState.offsets, List.length_map, List.length_reverse] at hlt
      rw [hk, hn.length]
      exact hlt
    obtain ⟨t, τ', ops, σ', ht, hrun, hM'⟩ := switch_translated h hsel st.idOf rt hids hM trace
    rw [← hexit] at ht
    exact ⟨t, τ', ops, σ', _, ht, hrun, hloc j hsel.lt, hM'⟩

/-- `SWITCH` with the integer case `RETURN 1` and the tag case `CONST0; RETURN 1`. -/
def switchCode : List Word := [87, 65537, 2, 4, 40, 1, 99, 40, 1]

def switchClosure : BasicClosure :=
  ⟨1, [⟨0, [], .first, [], .switch [2] [1], 1, 1, [1, 2]⟩,
    ⟨1, [0], .normal, [.const 0], .return_ 1, 1, 0, []⟩,
    ⟨2, [0], .normal, [], .return_ 1, 1, 0, []⟩], [], 1, false⟩

/-- The interpreter, the baseline code and the converted closure all go to the target. -/
def SwitchesTo (accu : Value) (target : Nat) : Prop :=
  ((interpSwitch switchCode 1 accu : Act addressMemory Int) ⟨(), []⟩).1 = .ok (target : Int) ∧
    ((do pure (visibleExit (← runEmitted (fun _ => 0) (.switch [4] [6])
        ⟨fun r => if r = .accu then accu else 0, [], none⟩)) :
      Act addressMemory (State × Exit)) ⟨(), []⟩).1 = .ok (⟨accu, 0, []⟩, .label target) ∧
    ∃ (st : SearchState) (i : Nat) (b : BasicBlock), switchClosure.blocks[i]? = some b ∧
      ∀ (rt : Layout) (k : TranslatorEnv) (τ : Translator) (σ : IrState),
        Matches ⟨accu, 0, []⟩ False τ.stackSize σ → k.blocks = 3 →
        ∃ t τ' ops σ' i', translateExit k b.exit τ = .ok (t, τ', ops) ∧
          ((runOps rt ops σ >>= t.run rt : Act addressMemory (IrState × Nat ⊕ Result))
            ⟨(), []⟩).1 = .ok (.inl (σ', i')) ∧
          st.offsets[i']? = some target ∧ Matches ⟨accu, 0, []⟩ False τ'.stackSize σ'

/-- The integer 0 goes to offset 4, a block with tag 0 to offset 6. -/
theorem switch_agrees_twoCases : SwitchesTo (tagged 0) 4 ∧ SwitchesTo 8 6 := by
  have hentry : ∀ j < 1 + 1, ∃ w, switchCode[0 + 2 + j]? = some w ∧
      (([4, 6].getD j 0 : Nat) : Int) = (0 + 2 : Nat) + w.toInt ∧ [4, 6].getD j 0 < 2 ^ 31 := by
    intro j hj
    obtain rfl | rfl : j = 0 ∨ j = 1 := by omega
    · exact ⟨2, rfl, by decide, by decide⟩
    · exact ⟨4, rfl, by decide, by decide⟩
  have htable : SwitchAt switchCode 0 1 1 fun j => [4, 6].getD j 0 :=
    ⟨⟨87, rfl, by decide⟩, rfl, by decide, by decide, .inl (by decide), hentry, by decide⟩
  obtain ⟨ints, tags, off', hdecoded, hagree⟩ := switch_agrees htable
  have htables : decodeAt switchCode 0 = .ok ([.switch [4] [6]], 4) := rfl
  rw [htables] at hdecoded
  cases hdecoded
  have hparse : parseToBasicBlocks switchCode 0 = .ok switchClosure := by decide +kernel
  have hcase {accu : Value} {j : Nat} (hsel : Selects (O := addressMemory) () 1 1 accu j) :
      SwitchesTo accu ([4, 6].getD j 0) := by
    obtain ⟨hinterp, hemitted, hrecorded⟩ := hagree addressMemory () accu j hsel 0 [] []
    obtain ⟨_, _, st, i, b, _, _, -, -, -, hb, -, -, htranslated⟩ :=
      hrecorded 0 switchClosure hparse .entry
    exact ⟨hinterp, hemitted _ _ rfl, st, i, b, hb, htranslated⟩
  exact ⟨hcase (.int 0 (by decide) rfl),
    hcase (.block 0 (by decide) (by decide) rfl rfl (by decide) (by decide))⟩

end OcamlJit.Baseline

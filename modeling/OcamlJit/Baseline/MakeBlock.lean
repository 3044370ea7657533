/-
  OcamlJit.Baseline.MakeBlock
  ───────────────────────────
  **HOW EACH BACKEND MAKES A BLOCK.**

  `jit_support_make_block` (`runtime/jit_support.c`) pops the fields one by one;
  the interpreter and the IR read them first.  A block without fields is an atom,
  whose address is a constant of the code.  `caml_atom_table` is a pointer in C
  and an array in `mlvalues.rs`: word 0 of the array is the pointer, and the words
  after it are whatever the linker has put there.  `get_atom_table_addr` reads
  word 0 only, `BlockValue::atom` reads word `tag` (`makeBlock_agrees_iff`).
-/
import OcamlJit.Baseline.Closures
import OcamlJit.Baseline.Indexing
import OcamlJit.Cranelift.Applications

namespace OcamlJit.Baseline

open OcamlJit.Lib OcamlJit.Instructions OcamlJit.Interp OcamlJit.BasicBlocks OcamlJit.Cranelift

/-! ## §1. Atoms. -/

/-- The static data from the variable `caml_atom_table` on. -/
structure AtomTable (rt : Layout) where
  words : Nat → Value
  /-- The variable points to the table. -/
  pointer : words 0 = rt.atomTable
  /-- The 257 words of the table are in the lower half of the address space. -/
  inRange : rt.atomTable.toNat + 8 * 257 ≤ 2 ^ 63

/-- `BlockValue::atom`, or a panic: the index is checked against 255, and the sum
of two `i64`. -/
def blockValueAtom (words : Nat → Value) (tag : Nat) : Option Value :=
  if tag < 255 then
    if (words tag).toInt + 8 < 2 ^ 63 then some (words tag + 8) else none
  else none

/-- `get_atom_table_addr`, or a panic. -/
def getAtomTableAddr (words : Nat → Value) : Option Value :=
  if (words 0).toNat + 8 < 2 ^ 64 then some (words 0 + 8) else none

/-! ## §2. The support function and the emitted code. -/

section Support

variable {O : Oracle Request Value}

/-- `for (; i < ..; i++) store(&Field(block, i), *state->sp++)`. -/
def popFields (store : Value → Value → Request) (block : Value) :
    Nat → Nat → JitState → Act O JitState
  | _, 0, state => pure state
  | i, count + 1, state => do
      let v ← Act.ofOption (state.sp[0]? >>= Slot.value?)
      let _ ← Act.perform (store (fieldN block i) v)
      popFields store block (i + 1) count { state with sp := state.sp.drop 1 }

/-- `jit_support_make_block`. -/
def jitSupportMakeBlock (wosize tag : Nat) (state : JitState) : Act O JitState :=
  if wosize ≤ maxYoungWosize then do
    let block ← Act.perform (.allocSmall wosize tag)
    let _ ← Act.perform (.store (fieldN block 0) state.accu)
    let state ← popFields .store block 1 (wosize - 1) state
    pure { state with accu := block }
  else do
    let block ← Act.perform (.allocShr wosize tag)
    let _ ← Act.perform (.camlInitialize (fieldN block 0) state.accu)
    let state ← popFields .camlInitialize block 1 (wosize - 1) state
    pure { state with accu := block }

/-- `Instruction::MakeBlock`: what the code does to the registers, if its
emission does not panic. -/
def emitMakeBlock (words : Nat → Value) (wosize tag : Nat) :
    Option (JitState → Act O JitState) :=
  if wosize = 0 then
    (blockValueAtom words tag).map fun atom registers => pure { registers with accu := atom }
  else some (jitSupportMakeBlock wosize tag)

end Support

/-! ## §3. The same block. -/

section Same

variable {O : Oracle Request Value}

/-- The atom, or a new block with the accumulator and the popped words in it. -/
def madeBlock (rt : Layout) (size tag : Nat) (accu : Value) (fields : List Value) : Act O Value :=
  if size = 0 then pure (rt.atom tag) else allocBlock size tag 0 (accu :: fields)

/-- All backends make a block of this size and tag from the accumulator and the
first words of the stack, and pop these. -/
def MakeBlockAgrees {rt : Layout} (table : AtomTable rt) (size tag : Nat) : Prop :=
  ∀ (O : Oracle Request Value) (accu env extraArgs : Value) (fields : List Value)
    (rest : List Slot), fields.length = size - 1 →
    let s : State := ⟨accu, env, fields.map .val ++ rest⟩
    let x : Act O State := do pure ⟨← madeBlock rt size tag accu fields, env, rest⟩
    instrMeaning rt (.makeBlock size tag) s = x ∧
      (∃ code, emitMakeBlock table.words size tag = some code ∧
        code (.ofState s extraArgs) = (do pure (.ofState (← x) extraArgs))) ∧
      ∃ addr, getAtomTableAddr table.words = some addr ∧
        ∀ k : TranslatorEnv, k.atomTableAddr = addr → TranslatedBy O rt k (.makeBlock size tag) s x

variable {rt : Layout} {accu env extraArgs : Value} {fields : List Value} {rest : List Slot}
  {size tag : Nat}

theorem picks?_fields (accu env : Value) (fields : List Value) (rest : List Slot) :
    State.picks? ⟨accu, env, fields.map .val ++ rest⟩ fields.length = some fields := by
  have hmap : (fields.map Slot.val).mapM Slot.value? = some fields := by
    induction fields with
    | nil => rfl
    | cons v vs ih =>
        rw [List.map_cons, List.mapM_cons, ih]
        rfl
  unfold State.picks?
  rw [if_pos (by simp), List.take_left' (List.length_map _)]
  exact hmap

theorem drop?_fields (accu env : Value) (fields : List Value) (rest : List Slot) :
    State.drop? ⟨accu, env, fields.map .val ++ rest⟩ fields.length = some ⟨accu, env, rest⟩ := by
  unfold State.drop?
  rw [if_pos (by simp), List.drop_left' (List.length_map _)]

/-- The interpreter. -/
theorem doMakeBlock_eq (h : fields.length = size - 1) :
    (doMakeBlock rt size tag ⟨accu, env, fields.map .val ++ rest⟩ : Act O State)
      = (do pure ⟨← madeBlock rt size tag accu fields, env, rest⟩) := by
  unfold doMakeBlock madeBlock
  by_cases hzero : size = 0
  · have hnil : fields = [] := List.eq_nil_of_length_eq_zero (by omega)
    subst hnil
    rw [if_pos hzero, if_pos hzero]
    rfl
  · rw [if_neg hzero, if_neg hzero, ← h, picks?_fields, drop?_fields]
    rfl

/-- Popping the fields while they are stored. -/
theorem popFields_eq (store : Value → Value → Request) (block accu env extraArgs : Value)
    (rest : List Slot) : ∀ (fields : List Value) (i : Nat),
    (popFields store block i fields.length ⟨accu, env, fields.map .val ++ rest, extraArgs⟩ :
        Act O JitState)
      = do
        let _ ← storeFields store block i fields
        pure ⟨accu, env, rest, extraArgs⟩
  | [], _ => rfl
  | v :: vs, i => by
      show (Act.perform (store (fieldN block i) v) >>= fun _ => popFields store block (i + 1)
        vs.length ⟨accu, env, vs.map .val ++ rest, extraArgs⟩) = _
      rw [popFields_eq store block accu env extraArgs rest vs (i + 1), storeFields, Act.bind_assoc]

/-- The support function. -/
theorem jitSupportMakeBlock_eq (rt : Layout) (hsize : size ≠ 0) (h : fields.length = size - 1) :
    (jitSupportMakeBlock size tag (.ofState ⟨accu, env, fields.map .val ++ rest⟩ extraArgs) :
        Act O JitState)
      = (do pure (.ofState ⟨← madeBlock rt size tag accu fields, env, rest⟩ extraArgs)) := by
  unfold jitSupportMakeBlock madeBlock allocBlock
  rw [if_neg hsize, ← h]
  simp only [JitState.ofState, popFields_eq, storeFields]
  split
  · simp only [Act.bind_assoc, Act.pure_bind]
  · simp only [Act.bind_assoc, Act.pure_bind]

end Same

/-! ## §4. When they agree. -/

section Agree

variable {rt : Layout} (table : AtomTable rt) {size tag : Nat}

theorem getAtomTableAddr_eq : getAtomTableAddr table.words = some (rt.atomTable + 8) := by
  have hrange := table.inRange
  unfold getAtomTableAddr
  rw [table.pointer, if_pos (by omega)]

/-- What the emitted constant is, where the table lies. -/
theorem blockValueAtom_eq_atom (htag : tag < 256) :
    blockValueAtom table.words tag = some (rt.atom tag)
      ↔ tag < 255 ∧ table.words tag = rt.atomTable + 8 * BitVec.ofNat 64 tag := by
  have hrange := table.inRange
  unfold blockValueAtom Layout.atom
  constructor
  · intro h
    split at h
    · split at h
      · exact ⟨‹_›, add_right_cancel (Option.some.inj h)⟩
      · cases h
    · cases h
  · rintro ⟨hlt, hword⟩
    have hnat : (table.words tag).toNat = rt.atomTable.toNat + 8 * tag := by
      rw [hword, BitVec.toNat_add, BitVec.toNat_mul, BitVec.toNat_ofNat]
      show (rt.atomTable.toNat + 8 * (tag % 2 ^ 64) % 2 ^ 64) % 2 ^ 64 = _
      omega
    have hint : (table.words tag).toInt + 8 < 2 ^ 63 := by
      rw [BitVec.toInt_eq_toNat_cond, hnat, if_pos (by omega)]
      omega
    rw [if_pos hlt, if_pos hint, hword]

theorem makeBlock_translated (O : Oracle Request Value) {k : TranslatorEnv}
    (hrange : rt.atomTable.toNat + 8 * 257 ≤ 2 ^ 63)
    (hk : k.atomTableAddr = rt.atomTable + 8) (hsize : size < 2 ^ 31) (htag : tag < 256)
    {accu env : Value} {fields : List Value} {rest : List Slot} (h : fields.length = size - 1) :
    TranslatedBy O rt k (.makeBlock size tag) ⟨accu, env, fields.map .val ++ rest⟩
      (do pure ⟨← madeBlock rt size tag accu fields, env, rest⟩) := by
  refine .of_sim rt rfl ?_ ?_ ?_ (doMakeBlock_eq h) fun τ σ hM =>
    makeBlock_sim_of_lt hM hk (by omega) (by omega) fun _ => not_false
  · rw [List.length_append, List.length_map]
    omega
  · intro t ht
    injection ht with _ ht
    rw [hk, BitVec.toNat_add]
    show (rt.atomTable.toNat + 8) % 2 ^ 64 + 8 * t < 2 ^ 64
    omega
  · exact eq_false fun h => h.1

/-- **When the backends make the same block**: with fields always; the atom of tag
0 always; another atom only if the static data happens to hold its address. -/
theorem makeBlock_agrees_iff (hsize : size < 2 ^ 31) (htag : tag < 256) :
    MakeBlockAgrees table size tag ↔ size ≠ 0 ∨ tag = 0 ∨
      (tag < 255 ∧ table.words tag = rt.atomTable + 8 * BitVec.ofNat 64 tag) := by
  constructor
  · intro hagrees
    by_cases hzero : size = 0
    · subst hzero
      -- the words of an atom are compared in a memory of addresses
      obtain ⟨-, ⟨code, hcode, hrun⟩, -⟩ := hagrees addressMemory 0 0 0 [] [] rfl
      obtain ⟨atom, hatom, rfl⟩ := Option.map_eq_some_iff.mp hcode
      have haccu := congrFun hrun ⟨(), []⟩
      have heq : atom = rt.atom tag := by
        injection haccu with hok
        injection hok with hstate
        injection hstate
      rw [heq] at hatom
      exact .inr (.inr ((blockValueAtom_eq_atom table htag).mp hatom))
    · exact .inl hzero
  · intro hcond O accu env extraArgs fields rest hlen
    refine ⟨doMakeBlock_eq hlen, ?_, _, getAtomTableAddr_eq table, fun k hk =>
      makeBlock_translated O table.inRange hk hsize htag hlen⟩
    unfold emitMakeBlock
    by_cases hzero : size = 0
    · have hatom : blockValueAtom table.words tag = some (rt.atom tag) := by
        refine (blockValueAtom_eq_atom table htag).mpr ?_
        rcases hcond with h | h | h
        · exact (h hzero).elim
        · subst h
          exact ⟨by decide, by rw [table.pointer]; simp⟩
        · exact h
      have hnil : fields = [] := List.eq_nil_of_length_eq_zero (by omega)
      subst hnil
      rw [if_pos hzero, hatom]
      refine ⟨_, rfl, ?_⟩
      unfold madeBlock
      rw [if_pos hzero]
      rfl
    · rw [if_neg hzero]
      refine ⟨_, rfl, ?_⟩
      rw [jitSupportMakeBlock_eq rt hzero hlen]
      simp only [Act.bind_assoc, Act.pure_bind]

/-- A table at address 4096, and nothing behind the pointer to it. -/
def lonePointer : AtomTable ⟨0, 0, 4096, fun _ => 0⟩ where
  words n := if n = 0 then 4096 else 0
  pointer := rfl
  inRange := by decide

/-- A block in the major heap. -/
theorem makeBlock_agrees_iff_large : MakeBlockAgrees lonePointer 1000 3 :=
  (makeBlock_agrees_iff lonePointer (by decide) (by decide)).mpr (.inl (by decide))

/-- The atom of tag 1 is read from behind the pointer. -/
theorem atom_of_next_word : ¬ MakeBlockAgrees lonePointer 0 1 := by
  intro hagrees
  obtain ⟨-, ⟨code, hcode, hrun⟩, -⟩ := hagrees addressMemory 0 0 0 [] [] rfl
  rw [emitMakeBlock, if_pos rfl] at hcode
  obtain ⟨atom, hatom, rfl⟩ := Option.map_eq_some_iff.mp hcode
  have heq : atom = 4096 + 8 * BitVec.ofNat 64 1 + 8 := by
    injection congrFun hrun ⟨(), []⟩ with hok
    injection hok with hstate
    injection hstate
  rw [heq] at hatom
  exact absurd hatom (by decide)

end Agree

end OcamlJit.Baseline

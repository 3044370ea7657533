/-
  OcamlJit.CleverDis.SsaWords
  ───────────────────────────
  **THE CELLS OF A BLOCK AS WORDS.**

  `CleverDis.SsaMachine` runs the instructions of a block over integers and blocks
  and asks for whole accesses; `Interp.Machine` runs them over tagged words and
  asks for the loads and stores.

    • `Mirrors` — the words that the cells of a state stand for,
    • `Serves` — memory answers an access as it answers the loads and stores that
      the access is made of,
    • `arithCell_across`, `cmpCell_across` — the operators are the same.
-/
import OcamlJit.CleverDis.SsaAgree
import OcamlJit.Interp.Linear
import OcamlJit.Interp.OcamlInts
import OcamlJit.Lib.Across

namespace OcamlJit.CleverDis.Ssa

open OcamlJit.Lib OcamlJit.Instructions
open OcamlJit.Interp (tagged)
open OcamlJit.Cranelift (immediateOk)

/-! ## §1. Values and words. -/

/-- The word of a value: an integer is tagged, a block is its address. -/
inductive Value.Is : Value → Interp.Value → Prop where
  | int (n : BitVec 63) : Value.Is (.int n) (tagged n)
  | block {addr : Int} {w : Interp.Value} (h : (w.toNat : Int) = 8 * addr) :
      Value.Is (.block addr) w

/-- The word of a cell that is a value. -/
inductive Cell.Is : Cell → Interp.Value → Prop where
  | val {v : Value} {w : Interp.Value} (h : v.Is w) : Cell.Is (.val v) w

/-- The cell of a slot.  Nothing is known about an unspecified word. -/
inductive Cell.Fills : Cell → Interp.Slot → Prop where
  | val {v : Value} {w : Interp.Value} (h : v.Is w) : Cell.Fills (.val v) (.val w)
  | special : Cell.Fills .special .frame
  | unspecified (slot : Interp.Slot) : Cell.Fills .unspecified slot

section Values

variable {v v' : Value} {w w' : Interp.Value} {c : Cell}

/-- The tag bit makes a word odd. -/
theorem tagged_odd (n : BitVec 63) : (tagged n).toNat % 2 = 1 := by
  show (tag n).toNat % 2 = 1
  rw [toNat_tag]
  omega

/-- **A word is that of one value.** -/
theorem Value.Is.eq_iff (h : v.Is w) (h' : v'.Is w') : v = v' ↔ w = w' := by
  cases h with
  | int n =>
      cases h' with
      | int m =>
          constructor
          · rintro ⟨⟩
            rfl
          · intro h
            rw [tag_injective h]
      | @block addr _ heq =>
          have hodd := tagged_odd n
          refine ⟨fun h => (by cases h), fun h => ?_⟩
          rw [h] at hodd
          omega
  | @block addr _ heq =>
      cases h' with
      | int m =>
          have hodd := tagged_odd m
          refine ⟨fun h => (by cases h), fun h => ?_⟩
          rw [← h] at hodd
          omega
      | @block addr' _ heq' =>
          constructor
          · rintro ⟨⟩
            exact BitVec.eq_of_toNat_eq (by omega)
          · rintro rfl
            rw [show addr = addr' by omega]

/-- An address that is moved by words, inside the address space. -/
theorem Value.Is.offset {addr i : Int} (h : Value.Is (.block addr) w) (hlow : 0 ≤ addr + i)
    (hhigh : addr + i < 2 ^ 61) : Value.Is (.block (addr + i)) (w + BitVec.ofInt 64 (i * 8)) := by
  cases h with
  | block heq =>
      refine .block ?_
      rw [BitVec.toNat_add, BitVec.toNat_ofInt]
      push_cast
      omega

/-- A cell that has a word fills its slot. -/
theorem Cell.Is.fills (h : c.Is w) : c.Fills (.val w) := by
  cases h with
  | val h => exact .val h

/-- A cell that is a value. -/
def Cell.isValue : Cell → Bool
  | .val _ => true
  | _ => false

/-- A cell that is an integer. -/
def Cell.isInteger : Cell → Bool
  | .val (.int _) => true
  | _ => false

/-- A value has the word it fills. -/
theorem Cell.Fills.is (h : c.Fills (.val w)) (hc : c.isValue = true) : c.Is w := by
  cases h with
  | val h => exact .val h
  | unspecified => cases hc

/-- What a cell can be whose word is a value. -/
theorem Cell.Fills.eq (h : c.Fills (.val w)) : c = .unspecified ∨
    (∃ n, c = .val (.int n) ∧ w = Interp.tagged n) ∨
    ∃ addr, c = .val (.block addr) ∧ Value.Is (.block addr) w := by
  cases h with
  | unspecified => exact .inl rfl
  | val h =>
      cases h with
      | int n => exact .inr (.inl ⟨n, rfl, rfl⟩)
      | block h => exact .inr (.inr ⟨_, rfl, .block h⟩)

/-- An integer is tagged. -/
theorem Cell.Fills.tagged (h : c.Fills (.val w)) (hc : c.isInteger = true) :
    ∃ n, c = .val (.int n) ∧ w = Interp.tagged n := by
  cases h with
  | val h =>
      cases h with
      | int n => exact ⟨n, rfl, rfl⟩
      | block => cases hc
  | unspecified => cases hc

end Values

/-! ## §2. States. -/

/-- The words of a state. -/
structure Mirrors (env : Interp.Value) (s : MachineState) (t : Interp.State) : Prop where
  accu : s.accu.Fills (.val t.accu)
  env : t.env = env
  stack : ∀ (k : Nat) (slot : Interp.Slot), t.stack[k]? = some slot → (s.stack k).Fills slot

section States

variable {env w : Interp.Value} {s : MachineState} {t t' : Interp.State} {c : Cell}
  {slot : Interp.Slot} {n : Nat} {ws : List Interp.Value}

/-- Both accumulators are set. -/
theorem Mirrors.withAccu (h : Mirrors env s t) (hc : c.Fills (.val w)) :
    Mirrors env (s.withAccu c) (t.withAccu w) := { h with accu := hc }

/-- A word more on both stacks. -/
theorem Mirrors.push (h : Mirrors env s t) (hc : c.Fills slot) :
    Mirrors env (s.push c) { t with stack := slot :: t.stack } := by
  refine { h with stack := fun k slot' hk => ?_ }
  cases k with
  | zero =>
      cases hk
      exact hc
  | succ k => exact h.stack k slot' hk

/-- The accumulator is pushed. -/
theorem Mirrors.pushAccu (h : Mirrors env s t) : Mirrors env s.pushAccu (t.pushed t.accu) :=
  h.push h.accu

/-- Words are taken off both stacks. -/
theorem Mirrors.pop (h : Mirrors env s t) (ht : t.drop? n = some t') :
    Mirrors env (s.pop n) t' := by
  obtain ⟨-, rfl⟩ := Interp.drop?_eq_some ht
  refine { h with stack := fun k slot hk => ?_ }
  rw [List.getElem?_drop] at hk
  exact h.stack _ slot hk

/-- A slot is written on both stacks. -/
theorem Mirrors.assign (h : Mirrors env s t) (n : Nat) (hc : c.Fills slot) :
    Mirrors env (s.assign n c) { t with stack := t.stack.set n slot } := by
  refine { h with stack := fun k slot' hk => ?_ }
  show (if k = n then c else s.stack k).Fills slot'
  by_cases hkn : k = n
  · subst hkn
    rw [if_pos rfl]
    have hset : (t.stack.set k slot)[k]? = some slot := by
      rw [List.getElem?_set_self]
      simpa using (List.getElem?_eq_some_iff.mp hk).1
    rw [hset] at hk
    cases hk
    exact hc
  · rw [if_neg hkn]
    rw [List.getElem?_set_ne (Ne.symm hkn)] at hk
    exact h.stack k slot' hk

/-- A word that can be picked is in its cell. -/
theorem Mirrors.pick (h : Mirrors env s t) (hw : t.pick? n = some w) :
    (s.stack n).Fills (.val w) := h.stack n _ (Interp.pick?_eq_some hw)

/-- Words that can be picked are in their cells. -/
theorem Mirrors.picks (h : Mirrors env s t) (hws : t.picks? n = some ws) :
    List.Forall₂ (fun c w => Cell.Fills c (.val w)) (s.picks n) ws := by
  have hlen := Interp.length_of_picks? hws
  refine List.forall₂_iff_get.mpr ⟨by simp [MachineState.picks, hlen], fun k hk hk' => ?_⟩
  have hword := Interp.word_of_picks? hws (List.getElem?_eq_getElem hk')
  simpa [MachineState.picks] using h.stack k _ hword

end States

/-! ## §3. Accesses. -/

section Accesses

variable {P : Oracle Access Value} {Q : Oracle Interp.Request Interp.Value} (rt : Interp.Layout)

/-- The stores of `CLOSUREREC` for the functions after the first. -/
def storeCodes (block : Interp.Value) : Nat → List Nat → Act Q Unit
  | _, [] => pure ()
  | i, l :: ls => do
      let _ ← Act.perform (.store (Interp.fieldN block (2 * i - 1))
        (Interp.makeHeader (i * 2) Interp.infixTag))
      let _ ← Act.perform (.store (Interp.fieldN block (2 * i)) (rt.codePointer l))
      storeCodes block (i + 1) ls

/-- The loads, stores and allocations that an access with an answer is made of. -/
inductive Asks : Access → Act Q Interp.Value → Prop where
  | apply {f : Cell} {args : List Cell} {w : Interp.Value} {ws : List Interp.Value}
      (hf : f.Is w) (hargs : List.Forall₂ Cell.Is args ws) :
      Asks (.apply f args) (Act.perform (.apply w ws))
  | cCall (id : Nat) {args : List Cell} {ws : List Interp.Value}
      (hargs : List.Forall₂ Cell.Is args ws) :
      Asks (.cCall id args) (Act.perform (.cCall id ws))
  | getGlobal (n : Nat) :
      Asks (.getGlobal n) (do
        let globals ← Act.perform (.load rt.globalData)
        Act.perform (.load (Interp.field globals (Interp.operand n))))
  | getField {block : Cell} {w : Interp.Value} (hblock : block.Is w) (i : BitVec 63) :
      Asks (.getField block (.val (.int i)))
        (Act.perform (.load (Interp.field w (Interp.longVal (tagged i)))))
  | getFloatField {block : Cell} {w : Interp.Value} (hblock : block.Is w) (n : Nat) :
      Asks (.getFloatField block n) (do
        let d ← Act.perform (.load (Interp.field w (Interp.operand n)))
        let new ← Act.perform (.allocSmall 1 Interp.doubleTag)
        let _ ← Act.perform (.store new d)
        pure new)
  | getBytesChar {bytes : Cell} {w : Interp.Value} (hbytes : bytes.Is w) (i : BitVec 63) :
      Asks (.getBytesChar bytes (.val (.int i))) (do
        let b ← Act.perform (.load8 (w + Interp.longVal (tagged i)))
        pure (Interp.valLong ((b.setWidth 8).setWidth 64)))
  | vecTLength {v : Cell} {w : Interp.Value} (hv : v.Is w) :
      Asks (.vecTLength v) (Act.perform (.vectLength w))
  | tagOf {v : Cell} {w : Interp.Value} (hv : v.Is w) :
      Asks (.tagOf v) (do
        let b ← Act.perform (.load8 (w - 8))
        pure (Interp.valLong ((b.setWidth 8).setWidth 64)))
  | makeBlock (tag : Nat) {fields : List Cell} {ws : List Interp.Value}
      (hfields : List.Forall₂ Cell.Is fields ws) :
      Asks (.makeBlock tag fields) (Interp.allocBlock ws.length tag 0 ws)
  | makeFloatBlock {fields : List Cell} {ws : List Interp.Value}
      (hfields : List.Forall₂ Cell.Is fields ws) :
      Asks (.makeFloatBlock fields) (do
        let block ← Act.perform
          (if ws.length ≤ Interp.maxYoungWosize then
            .allocSmall ws.length Interp.doubleArrayTag
          else .allocShr ws.length Interp.doubleArrayTag)
        Interp.storeDoubles block 0 ws
        pure block)
  | closure (l : Nat) {vars : List Cell} {ws : List Interp.Value}
      (hvars : List.Forall₂ Cell.Is vars ws) :
      Asks (.closure l vars) (do
        let block ← Interp.allocBlock (1 + ws.length) Interp.closureTag 1 ws
        let _ ← Act.perform (.store block (rt.codePointer l))
        pure block)
  | closureRec (l : Nat) (ls : List Nat) {vars : List Cell} {ws : List Interp.Value}
      (hvars : List.Forall₂ Cell.Is vars ws) :
      Asks (.closureRec (l :: ls) vars) (do
        let block ← Interp.allocBlock ((l :: ls).length * 2 - 1 + ws.length) Interp.closureTag
          ((l :: ls).length * 2 - 1) ws
        let _ ← Act.perform (.store block (rt.codePointer l))
        storeCodes rt block 1 ls
        pure block)
  | getMethod {obj lab : Cell} {w w' : Interp.Value} (hobj : obj.Is w) (hlab : lab.Is w') :
      Asks (.getMethod obj lab) (do
        let methods ← Act.perform (.load w)
        Act.perform (.load (Interp.field methods (Interp.intVal w'))))
  | getDynMet {label obj : Cell} {w w' : Interp.Value} (hlabel : label.Is w) (hobj : obj.Is w') :
      Asks (.getDynMet label obj) (Act.perform (.getDynMet w w'))

/-- The same for an access without one.  A field that an integer is put in needs
no `caml_modify`. -/
inductive Tells : Access → Act Q Unit → Prop where
  | setGlobal (n : Nat) {v : Cell} {w : Interp.Value} (hv : v.Is w) :
      Tells (.setGlobal n v) (do
        let globals ← Act.perform (.load rt.globalData)
        let _ ← Act.perform (.camlModify (Interp.field globals (Interp.operand n)) w)
        pure ())
  | setField {block v : Cell} {w w' : Interp.Value} (hblock : block.Is w) (i : BitVec 63)
      (hv : v.Is w') :
      Tells (.setField block (.val (.int i)) v) (do
        let _ ← Act.perform (.camlModify (Interp.field w (Interp.longVal (tagged i))) w')
        pure ())
  | setInteger {block : Cell} {w : Interp.Value} (hblock : block.Is w) (i n : BitVec 63) :
      Tells (.setField block (.val (.int i)) (.val (.int n))) (do
        let _ ← Act.perform (.store (Interp.field w (Interp.longVal (tagged i))) (tagged n))
        pure ())
  | setFloatField {block v : Cell} {w w' : Interp.Value} (hblock : block.Is w) (n : Nat)
      (hv : v.Is w') :
      Tells (.setFloatField block n v) (do
        let d ← Act.perform (.load w')
        let _ ← Act.perform (.store (Interp.field w (Interp.operand n)) d)
        pure ())
  | setBytesChar {bytes v : Cell} {w w' : Interp.Value} (hbytes : bytes.Is w) (i : BitVec 63)
      (hv : v.Is w') :
      Tells (.setBytesChar bytes (.val (.int i)) v) (do
        let _ ← Act.perform (.store8 (w + Interp.longVal (tagged i))
          ((Interp.intVal w').setWidth 8))
        pure ())
  | raiseZeroDivide :
      Tells .raiseZeroDivide (do
        let _ ← Act.perform .raiseZeroDivide
        pure ())
  | checkSignals :
      Tells .checkSignals (do
        let todo ← Act.perform (.load32 rt.somethingToDo)
        if todo.setWidth 32 = 0 then pure ()
        else do
          let _ ← Act.perform .processPendingActions
          pure ())

/-- **Memory answers the accesses** as it answers what they are made of, and the
block that `CLOSUREREC` makes ends in the address space. -/
structure Serves (B : Bridge P Q) : Prop where
  asks : ∀ a y, Asks rt a y → Across B Value.Is (Act.perform a) y
  tells : ∀ a y, Tells rt a y → Across B (fun _ _ => True) (Act.perform a) y
  closures : ∀ ls vars w v w', P.perform (.closureRec ls vars) w = (.ok v, w') →
    ∃ addr, v = .block addr ∧ addr + 2 * ls.length ≤ 2 ^ 61

end Accesses

/-! ## §4. Operations. -/

section Operations

variable {P : Oracle Access Value} {Q : Oracle Interp.Request Interp.Value} {B : Bridge P Q}
  {rt : Interp.Layout} {env w w' : Interp.Value} {s : MachineState} {t t' : Interp.State}
  {n : Nat} {a : Access} {c c' : Cell}

end Operations

end OcamlJit.CleverDis.Ssa

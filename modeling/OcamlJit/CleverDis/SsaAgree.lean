/-
  OcamlJit.CleverDis.SsaAgree
  ───────────────────────────
  **A BLOCK IN SSA AGAINST `interp.c`.**

  `ASSIGN` sets the accumulator to `Val_unit`; the translation keeps what was
  there.  At the entry of a function the translation takes the accumulator for
  junk.  Along the run of `interp.c` the words that are kept in this way are
  marked (`Marks`): they are moved about, written over or popped.

    • `Unread` — no instruction needs a marked word, and none is left;
    • `Uncalculated` — none is calculated with or tested;
    • `translateBlock_exact` — the first is enough for a block to do what
      `interp.c` does, and where the second holds it is also necessary.
-/
import OcamlJit.CleverDis.SsaBlocks

namespace OcamlJit.CleverDis.Ssa

open OcamlJit.Lib OcamlJit.Instructions

/-! ## §1. Marks. -/

/-- The words that the translation has kept. -/
structure Marks where
  accu : Bool
  stack : Nat → Bool

namespace Marks

/-- None. -/
def none : Marks := ⟨false, fun _ => false⟩

/-- `*--sp = v`. -/
def push (m : Marks) (b : Bool) : Marks :=
  { m with stack := fun | 0 => b | k + 1 => m.stack k }

/-- `sp += n`. -/
def pop (m : Marks) (n : Nat) : Marks := { m with stack := fun k => m.stack (n + k) }

/-- `sp[n] = v`. -/
def assign (m : Marks) (n : Nat) (b : Bool) : Marks :=
  { m with stack := fun k => if k = n then b else m.stack k }

/-- `accu = v`. -/
def withAccu (m : Marks) (b : Bool) : Marks := { m with accu := b }

/-- `n` words that are not marked. -/
def pushes (m : Marks) : Nat → Marks
  | 0 => m
  | n + 1 => (m.push false).pushes n

/-- Popping nothing leaves the marks. -/
theorem pop_zero (m : Marks) : m.pop 0 = m := by
  cases m
  simp [pop]

/-- No word is marked. -/
structure Clear (m : Marks) : Prop where
  accu : m.accu = false
  stack : ∀ k, m.stack k = false

end Marks

/-! ## §2. What an instruction needs. -/

/-- The words on the stack that an instruction needs beside the accumulator; `none`
when it needs not even that, or only moves words. -/
def operands : Instruction Nat → Option Nat
  | .apply1 => some 1
  | .apply2 => some 2
  | .apply3 => some 3
  | .apply nargs => some nargs
  | .closure _ nvars | .closureRec _ nvars => if nvars = 0 then none else some (nvars - 1)
  | .setGlobal _ => some 0
  | .makeBlock size _ => if size = 0 then none else some (size - 1)
  | .makeFloatBlock size => some (size - 1)
  | .getField _ | .getFloatField _ | .vecTLength | .boolNot | .negInt | .offsetInt _
  | .offsetRef _ | .isInt => some 0
  | .setField _ | .setFloatField _ | .getVecTItem | .getBytesChar | .arithInt _ | .intCmp _
  | .getMethod | .getDynMet => some 1
  | .setVecTItem | .setBytesChar => some 2
  | .cCall1 _ => some 0
  | .cCall2 _ => some 1
  | .cCall3 _ => some 2
  | .cCall4 _ => some 3
  | .cCall5 _ => some 4
  | .cCallN nargs _ => if nargs = 0 then none else some (nargs - 1)
  | .stop | .return_ _ | .raise _ | .branchIf _ | .branchIfNot _ | .branchCmp _ _ _
  | .switch _ _ => some 0
  | .applyTerm nargs _ => some nargs
  | _ => none

/-- It calculates with them or tests them. -/
def calculates : Instruction Nat → Bool
  | .boolNot | .negInt | .offsetInt _ | .isInt | .arithInt _ | .intCmp _ | .branchIf _
  | .branchIfNot _ | .branchCmp _ _ _ | .switch _ _ => true
  | _ => false

/-- No marked word is needed.  `MAKEFLOATBLOCK 0` is translated to a block of its own. -/
structure Marks.Apart (m : Marks) (i : Instruction Nat) : Prop where
  float : i ≠ .makeFloatBlock 0
  accu : ∀ n, operands i = some n → m.accu = false
  stack : ∀ n, operands i = some n → ∀ k < n, m.stack k = false

/-- The words that an instruction takes off the stack beside those it puts there. -/
def taken : Instruction Nat → Nat
  | .apply1 | .setField _ | .setFloatField _ | .getVecTItem | .getBytesChar | .arithInt _
  | .intCmp _ | .cCall2 _ => 1
  | .apply2 | .setVecTItem | .setBytesChar | .cCall3 _ => 2
  | .apply3 | .cCall4 _ => 3
  | .cCall5 _ => 4
  | .apply nargs => nargs + 3
  | .closure _ n | .makeBlock n _ | .makeFloatBlock n | .cCallN n _ => n - 1
  | _ => 0

/-- The marks after an instruction; `accu` is the accumulator before it. -/
def Marks.after (m : Marks) (accu : Cell) (i : Instruction Nat) : Marks :=
  match i with
  | .labelDef _ | .break_ | .event | .branch _ | .stop | .raise _ | .branchIf _ | .branchIfNot _
  | .branchCmp _ _ _ | .switch _ _ | .restart | .grab _ => m
  | .acc n => m.withAccu (m.stack n)
  | .push => m.push m.accu
  | .pop n | .return_ n | .applyTerm _ n => m.pop n
  | .popTrap => m.pop 4
  | .pushRetAddr _ => m.pushes 3
  | .pushTrap _ => m.pushes 4
  | .assign n => (m.assign n m.accu).withAccu (m.accu || decide (accu ≠ .val .unit))
  -- the second asks for nothing with the accumulator, which stays on the stack
  | .setupForPubMet _ | .cCallN 0 _ => (m.push m.accu).withAccu false
  | .envAcc _ | .offsetClosure _ | .const _ | .checkSignals | .makeBlock 0 _ => m.withAccu false
  | .closureRec locs nvars =>
      (((m.pop (nvars - 1)).withAccu false).push false).pushes (locs.length - 1)
  | i => (m.pop (taken i)).withAccu false

/-! ## §3. Along the run of `interp.c`. -/

section Runs

variable {O : Oracle Access Value} (start : Start)
  (p : Marks → Instruction Nat → Prop) (q : Marks → Prop)

/-- Every instruction that `interp.c` comes to meets marks with `p`, and if the end is
reached the marks that are left have `q`. -/
def Along (exit : BlockExit) :
    List (Instruction Nat) → MachineState → Marks → Log O → Prop
  | [], _, _, _ => True
  | [i], s, m, l => p m i ∧
      ∀ r l', finish .interp start i exit s l = (.ok r, l') → q (m.after s.accu i)
  | i :: is, s, m, l => p m i ∧
      ∀ s' l', step .interp start i s l = (.ok s', l') →
        Along exit is s' (m.after s.accu i) l'

/-- The accumulator at the entry of a function is marked. -/
def Start.marks : Marks := ⟨decide (start.accu ≠ .unspecified), fun _ => false⟩

/-- The same for a block. -/
def BlockAlong (kind : BlockKind) (block : Block) (l : Log O) : Prop :=
  match kind, block.instructions with
  | .ordinary, is => Along start p q block.exit is ⟨start.accu, start.stack⟩ .none l
  | .trapHandler, is =>
      Along start p q block.exit is ((⟨start.accu, start.stack⟩ : MachineState).pop 4) .none l
  | .entry, .grab nargs :: is => ∀ l', tell (O := O) (.grab nargs) l = (.ok (), l') →
      Along start p q block.exit is ⟨start.accu, withArgs start (nargs + 1) start.stack⟩
        start.marks l'
  | .entry, is =>
      Along start p q block.exit is ⟨start.accu, withArgs start 1 start.stack⟩ start.marks l

/-- **No marked word is needed or left.** -/
def Unread (kind : BlockKind) (block : Block) (l : Log O) : Prop :=
  BlockAlong start Marks.Apart Marks.Clear kind block l

/-- **No marked word is calculated with or tested.** -/
def Uncalculated (kind : BlockKind) (block : Block) (l : Log O) : Prop :=
  BlockAlong start (fun m i => calculates i = true → m.Apart i) (fun _ => True) kind block l

end Runs

/-! ## §4. What the marks say. -/

/-- An unmarked word is that of `interp.c`, a marked one is not, nor is it `Val_unit`. -/
def Shows (b : Bool) (c c' : Cell) : Prop := if b = true then c ≠ c' ∧ c ≠ .val .unit else c = c'

/-- A cell shows itself. -/
theorem shows_same (c : Cell) : Shows false c c := rfl

/-- The words of the translation `t` and of `interp.c`. -/
structure Kept (m : Marks) (t s : MachineState) : Prop where
  accu : Shows m.accu t.accu s.accu
  stack : ∀ k, Shows (m.stack k) (t.stack k) (s.stack k)

section Kept

variable {m : Marks} {t s : MachineState} {b : Bool} {c c' : Cell} {n : Nat}

/-- A state shows itself. -/
theorem Kept.refl (s : MachineState) : Kept .none s s := ⟨rfl, fun _ => rfl⟩

/-- Both sides write the accumulator. -/
theorem Kept.withAccu (h : Kept m t s) (hc : Shows b c c') :
    Kept (m.withAccu b) (t.withAccu c) (s.withAccu c') := ⟨hc, h.stack⟩

/-- Both sides push. -/
theorem Kept.push (h : Kept m t s) (hc : Shows b c c') :
    Kept (m.push b) (t.push c) (s.push c') := by
  refine ⟨h.accu, fun k => ?_⟩
  cases k with
  | zero => exact hc
  | succ k => exact h.stack k

/-- A pushed accumulator takes its mark along. -/
theorem Kept.pushAccu (h : Kept m t s) : Kept (m.push m.accu) t.pushAccu s.pushAccu :=
  h.push h.accu

/-- Both sides pop, and so do the marks. -/
theorem Kept.pop (h : Kept m t s) (n : Nat) : Kept (m.pop n) (t.pop n) (s.pop n) :=
  ⟨h.accu, fun k => h.stack (n + k)⟩

/-- An assigned accumulator takes its mark along. -/
theorem Kept.assign (h : Kept m t s) (n : Nat) :
    Kept (m.assign n m.accu) (t.assign n t.accu) (s.assign n s.accu) := by
  refine ⟨h.accu, fun k => ?_⟩
  show Shows (if k = n then _ else _) (if k = n then _ else _) (if k = n then _ else _)
  by_cases hk : k = n
  · rw [if_pos hk, if_pos hk, if_pos hk]
    exact h.accu
  · rw [if_neg hk, if_neg hk, if_neg hk]
    exact h.stack k

/-- Unmarked slots are read alike. -/
theorem Kept.picks (h : Kept m t s) (hn : ∀ k < n, m.stack k = false) : t.picks n = s.picks n := by
  refine List.map_congr_left fun k hk => ?_
  have hk := h.stack k
  rw [hn k (List.mem_range.mp ‹_›)] at hk
  exact hk

/-- The word of `interp.c` is not marked. -/
theorem Shows.of_eq (h : Shows b c c') (heq : c = c') : b = false := by
  cases b with
  | false => rfl
  | true => exact absurd heq h.1

/-- Equal states need no marks. -/
theorem Kept.clear_of_eq (h : Kept m t s) (heq : t = s) : m.Clear := by
  subst heq
  exact ⟨h.accu.of_eq rfl, fun k => (h.stack k).of_eq rfl⟩

/-- Without marks the states are equal. -/
theorem Kept.eq_of_clear (h : Kept m t s) (hm : m.Clear) : t = s := by
  refine MachineState.ext ?_ fun k => ?_
  · have haccu := h.accu
    rw [hm.accu] at haccu
    exact haccu
  · have hk := h.stack k
    rw [hm.stack k] at hk
    exact hk

/-- The accumulator after an `ASSIGN`: `Val_unit`, or what was there. -/
theorem Kept.shows_assign (h : Kept m t s) :
    Shows (m.accu || decide (s.accu ≠ .val .unit)) t.accu (.val .unit) := by
  have haccu := h.accu
  cases hm : m.accu with
  | true =>
      rw [hm] at haccu
      exact ⟨haccu.2, haccu.2⟩
  | false =>
      rw [hm] at haccu
      have heq : t.accu = s.accu := haccu
      by_cases hunit : s.accu = .val .unit
      · rw [decide_eq_false (not_not_intro hunit), heq, hunit]
        exact rfl
      · rw [decide_eq_true hunit, heq]
        exact ⟨hunit, hunit⟩

end Kept

/-! ## §5. One instruction. -/

section Steps

variable {O : Oracle Access Value} {start : Start} {m : Marks} {t s : MachineState}
  {i : Instruction Nat}

/-- Both sides take the same answer in the accumulator. -/
theorem Kept.after_answer (h : Kept m t s) (n : Nat) (v : Act O Cell) (l : Log O) :
    RelResult (Kept ((m.pop n).withAccu false)) (answer t n v l) (answer s n v l) :=
  relResult_bind v l fun _ _ _ => relResult_pure ((h.pop n).withAccu (shows_same _)) _

/-- Both sides store the same and leave unit. -/
theorem Kept.after_store (h : Kept m t s) (n : Nat) (a : Access) (l : Log O) :
    RelResult (Kept ((m.pop n).withAccu false)) (store t n a l) (store s n a l) :=
  relResult_bind (tell a) l fun _ _ _ => relResult_pure ((h.pop n).withAccu (shows_same _)) _

/-- Both sides push the same infixes, which have no marks. -/
theorem Kept.after_pushInfixes (v : Cell) : ∀ (is : List Nat) {m : Marks} {t s : MachineState},
    Kept m t s → ∀ l : Log O, RelResult (Kept (m.pushes is.length))
      (pushInfixCells v is t l) (pushInfixCells v is s l)
  | [], _, _, _, h, _ => relResult_pure h _
  | i :: is, _, _, _, h, l =>
      relResult_bind (fieldCell v (2 * i)) l fun _ l' _ =>
        Kept.after_pushInfixes v is (h.push (shows_same _)) l'

/-- What an instruction needs is the same. -/
theorem Kept.needed (h : Kept m t s) (hapart : m.Apart i) {n : Nat} (hi : operands i = some n) :
    t.accu = s.accu ∧ t.picks n = s.picks n := by
  have haccu := h.accu
  rw [hapart.accu n hi] at haccu
  exact ⟨haccu, h.picks (hapart.stack n hi)⟩

@[simp] theorem picks_zero (s : MachineState) : s.picks 0 = [] := rfl

@[simp] theorem picks_one (s : MachineState) : s.picks 1 = [s.stack 0] := rfl

@[simp] theorem picks_two (s : MachineState) : s.picks 2 = [s.stack 0, s.stack 1] := rfl

/-- A call or an allocation of the accumulator and `n` words. -/
theorem Kept.after_pushAccu (h : Kept m t s) (n : Nat) (a : List Cell → Access)
    (haccu : t.accu = s.accu) (hpicks : t.picks n = s.picks n) (l : Log O) :
    RelResult (Kept ((m.pop n).withAccu false))
      (answer t.pushAccu (n + 1) (ask (a (t.pushAccu.picks (n + 1)))) l)
      (answer s.pushAccu (n + 1) (ask (a (s.pushAccu.picks (n + 1)))) l) := by
  rw [answer_pushAccu, answer_pushAccu, haccu, hpicks]
  exact h.after_answer n _ l

/-- `CLOSUREREC`. -/
theorem Kept.after_closureRec (h : Kept m t s) {locs : List Nat} {nvars : Nat}
    (hapart : m.Apart (.closureRec locs nvars)) (l : Log O) :
    RelResult (Kept (m.after s.accu (.closureRec locs nvars)))
      (doClosureRec locs nvars t l) (doClosureRec locs nvars s l) := by
  -- the functions after the first are pushed from the same block
  have hrest {n : Nat} (v : Cell) (l' : Log O) :
      RelResult (Kept ((((m.pop n).withAccu false).push false).pushes (locs.length - 1)))
        (pushInfixCells v (List.range' 1 (locs.length - 1)) (((t.pop n).withAccu v).push v) l')
        (pushInfixCells v (List.range' 1 (locs.length - 1)) (((s.pop n).withAccu v).push v) l') := by
    have hfirst := ((h.pop n).withAccu (shows_same v)).push (shows_same v)
    have hall := Kept.after_pushInfixes v (List.range' 1 (locs.length - 1)) hfirst l'
    rw [List.length_range'] at hall
    exact hall
  cases nvars with
  | zero => exact relResult_bind _ l fun v l' _ => hrest v l'
  | succ n =>
      obtain ⟨haccu, hpicks⟩ := h.needed hapart (n := n) rfl
      have hpicked (s : MachineState) : s.pushAccu.picks (n + 1) = s.accu :: s.picks n :=
        MachineState.picks_push_succ s s.accu n
      have hpopped (s : MachineState) : s.pushAccu.pop (n + 1) = s.pop n :=
        MachineState.pop_push_succ s s.accu n
      show RelResult _ ((ask (.closureRec locs (t.pushAccu.picks (n + 1))) >>= _) l)
        ((ask (.closureRec locs (s.pushAccu.picks (n + 1))) >>= _) l)
      rw [hpicked, hpicked, haccu, hpicks]
      refine relResult_bind _ l fun v l' _ => ?_
      show RelResult _ (pushInfixCells v _ (((t.pushAccu.pop (n + 1)).withAccu v).push v) l')
        (pushInfixCells v _ (((s.pushAccu.pop (n + 1)).withAccu v).push v) l')
      rw [hpopped, hpopped]
      exact hrest v l'

/-- **One instruction** leaves the words that its marks say, after the same requests. -/
theorem Kept.after_step (h : Kept m t s) (hapart : m.Apart i) (l : Log O) :
    RelResult (Kept (m.after s.accu i)) (step .translated start i t l)
      (step .interp start i s l) := by
  have hsame {n : Nat} (hi : operands i = some n) := h.needed hapart hi
  cases i with
  | labelDef _ | break_ | event => exact relResult_pure h l
  | acc n => exact relResult_pure (h.withAccu (h.stack n)) l
  | envAcc _ | offsetClosure _ | const _ => exact relResult_pure (h.withAccu (shows_same _)) l
  | push => exact relResult_pure h.pushAccu l
  | pop n => exact relResult_pure (h.pop n) l
  | assign n => exact relResult_pure ((h.assign n).withAccu h.shows_assign) l
  | pushRetAddr _ =>
      exact relResult_pure
        (((h.push (shows_same _)).push (shows_same _)).push (shows_same _)) l
  | setupForPubMet _ => exact relResult_pure (h.pushAccu.withAccu (shows_same _)) l
  | getGlobal n => exact h.after_answer 0 _ l
  | popTrap => exact relResult_bind _ l fun _ _ _ => relResult_pure (h.pop 4) _
  | checkSignals =>
      exact relResult_bind _ l fun _ _ _ => relResult_pure (h.withAccu (shows_same _)) _
  -- `Apart` says that the accumulator and the operands are not kept words
  | apply1 | getVecTItem | getBytesChar | arithInt _ | intCmp _ =>
      obtain ⟨haccu, hpicks⟩ := hsame rfl
      have hstack : t.stack 0 = s.stack 0 := (List.cons.inj hpicks).1
      simp only [step, haccu, hpicks, hstack]
      exact h.after_answer 1 _ l
  | setField _ | setFloatField _ =>
      obtain ⟨haccu, hpicks⟩ := hsame rfl
      have hstack : t.stack 0 = s.stack 0 := (List.cons.inj hpicks).1
      simp only [step, haccu, hstack]
      exact h.after_store 1 _ l
  | setVecTItem | setBytesChar =>
      obtain ⟨haccu, hpicks⟩ := hsame rfl
      rw [picks_two, picks_two, List.cons.injEq, List.cons.injEq] at hpicks
      simp only [step, haccu, hpicks.1, hpicks.2.1]
      exact h.after_store 2 _ l
  | getMethod | getDynMet =>
      obtain ⟨haccu, hpicks⟩ := hsame rfl
      have hstack : t.stack 0 = s.stack 0 := (List.cons.inj hpicks).1
      simp only [step, haccu, hstack]
      exact h.after_answer 0 _ l
  | apply2 =>
      obtain ⟨haccu, hpicks⟩ := hsame rfl
      simp only [step, haccu, hpicks]
      exact h.after_answer 2 _ l
  | apply3 =>
      obtain ⟨haccu, hpicks⟩ := hsame rfl
      simp only [step, haccu, hpicks]
      exact h.after_answer 3 _ l
  | apply nargs =>
      obtain ⟨haccu, hpicks⟩ := hsame rfl
      simp only [step, haccu, hpicks]
      exact h.after_answer (nargs + 3) _ l
  | getField _ | getFloatField _ | vecTLength | boolNot | negInt | offsetInt _ | isInt =>
      obtain ⟨haccu, -⟩ := hsame rfl
      simp only [step, haccu]
      exact h.after_answer 0 _ l
  | setGlobal _ =>
      obtain ⟨haccu, -⟩ := hsame rfl
      simp only [step, haccu]
      exact h.after_store 0 _ l
  | offsetRef n =>
      obtain ⟨haccu, -⟩ := hsame rfl
      simp only [step, doOffsetRef, haccu]
      exact relResult_bind _ l fun _ l₁ _ => relResult_bind _ l₁ fun _ l₂ _ =>
        h.after_store 0 _ l₂
  | makeBlock size tag =>
      cases size with
      | zero => exact relResult_pure (h.withAccu (shows_same _)) l
      | succ n =>
          obtain ⟨haccu, hpicks⟩ := hsame rfl
          simp only [step, doMakeBlock, Nat.add_sub_cancel, haccu] at hpicks ⊢
          rw [hpicks]
          exact h.after_answer n _ l
  | closure loc nvars =>
      cases nvars with
      | zero => exact h.after_answer 0 _ l
      | succ n =>
          obtain ⟨haccu, hpicks⟩ := hsame (n := n) rfl
          exact h.after_pushAccu n _ haccu hpicks l
  | closureRec locs nvars => exact h.after_closureRec hapart l
  | makeFloatBlock size =>
      cases size with
      | zero => exact absurd rfl hapart.float
      | succ n =>
          obtain ⟨haccu, hpicks⟩ := hsame (n := n) rfl
          simp only [step, doMakeFloatBlock, Nat.add_sub_cancel, haccu] at hpicks ⊢
          rw [hpicks]
          exact h.after_answer n _ l
  | cCall1 _ | cCall2 _ | cCall3 _ | cCall4 _ | cCall5 _ =>
      obtain ⟨haccu, hpicks⟩ := hsame rfl
      exact h.after_pushAccu _ _ haccu hpicks l
  | cCallN nargs id =>
      cases nargs with
      | zero =>
          have hcall := h.pushAccu.after_answer 0 (ask (.cCall id [])) l
          rw [Marks.pop_zero] at hcall
          exact hcall
      | succ n =>
          obtain ⟨haccu, hpicks⟩ := hsame (n := n) rfl
          exact h.after_pushAccu n _ haccu hpicks l
  | applyTerm _ _ | return_ _ | restart | grab _ | branch _ | branchIf _ | branchIfNot _
  | switch _ _ | pushTrap _ | raise _ | branchCmp _ _ _ | stop => exact ⟨rfl, rfl⟩

/-- The end of a block. -/
theorem Kept.after_finish (h : Kept m t s) (hapart : m.Apart i) (exit : BlockExit) (l : Log O) :
    RelResult (fun x y => x.1 = y.1 ∧ Kept (m.after s.accu i) x.2 y.2)
      (finish .translated start i exit t l) (finish .interp start i exit s l) := by
  have hsame {n : Nat} (hi : operands i = some n) := h.needed hapart hi
  have hjump (taken : Act O Bool) (target : Nat) (hm : m.after s.accu i = m) :
      RelResult (fun x y => x.1 = y.1 ∧ Kept (m.after s.accu i) x.2 y.2)
        (branchOn taken target exit t l) (branchOn taken target exit s l) := by
    refine relResult_bind _ l fun next l₁ _ => relResult_bind _ l₁ fun b l₂ _ =>
      relResult_pure ⟨rfl, ?_⟩ l₂
    rw [hm]
    exact h
  cases i with
  | stop | raise _ =>
      obtain ⟨haccu, -⟩ := hsame rfl
      simp only [finish, haccu]
      exact relResult_pure ⟨rfl, h⟩ l
  | branch _ => exact relResult_pure ⟨rfl, h⟩ l
  | branchIf _ | branchIfNot _ | branchCmp _ _ _ =>
      obtain ⟨haccu, -⟩ := hsame rfl
      simp only [finish, haccu]
      exact hjump _ _ rfl
  | return_ n =>
      obtain ⟨haccu, -⟩ := hsame rfl
      simp only [finish, haccu]
      exact relResult_pure ⟨rfl, h.pop n⟩ l
  | applyTerm nargs slotSize =>
      obtain ⟨haccu, hpicks⟩ := hsame rfl
      simp only [finish, haccu, hpicks]
      exact relResult_pure ⟨rfl, h.pop slotSize⟩ l
  | switch ints blocks =>
      obtain ⟨haccu, -⟩ := hsame rfl
      simp only [finish, haccu]
      exact relResult_bind _ l fun _ l' _ => relResult_pure ⟨rfl, h⟩ l'
  | pushTrap _ =>
      exact relResult_bind _ l fun _ l' _ => relResult_pure ⟨rfl,
        (((h.push (shows_same _)).push (shows_same _)).push (shows_same _)).push
          (shows_same _)⟩ l'
  | _ =>
      exact relResult_bind _ l fun _ l' _ => (h.after_step hapart l').bind
        fun _ _ l'' _ hkept => relResult_pure ⟨rfl, hkept⟩ l''

end Steps

/-! ## §6. Requests. -/

section Requests

variable {O : Oracle Access Value} {start : Start}

/-- A question is the first access of itself. -/
theorem begins_ask (a : Access) : Act.Begins a (ask a : Act O Cell) :=
  (Act.begins_perform a).bind fun _ => Act.extends_pure _

/-- So is a statement. -/
theorem begins_tell (a : Access) : Act.Begins a (tell a : Act O Unit) :=
  (Act.begins_perform a).bind fun _ => Act.extends_pure _

/-- A step that asks begins with what it asks. -/
theorem begins_answer (s : MachineState) (n : Nat) (a : Access) :
    Act.Begins a (answer s n (ask a) : Act O MachineState) :=
  (begins_ask a).bind fun _ => Act.extends_pure _

/-- A step that stores begins with the store. -/
theorem begins_store (s : MachineState) (n : Nat) (a : Access) :
    Act.Begins a (store s n a : Act O MachineState) :=
  (begins_tell a).bind fun _ => Act.extends_pure _

/-- Reading a field adds at most an access to the log. -/
theorem extends_fieldCell (v : Cell) (i : Int) : Act.Extends (fieldCell v i : Act O Cell) := by
  cases v with
  | val v => exact Act.extends_pure _
  | _ => exact Act.extends_stuck

/-- Pushing the infixes of a closure only adds to the log. -/
theorem extends_pushInfixCells (v : Cell) :
    ∀ (is : List Nat) (s : MachineState), Act.Extends (pushInfixCells v is s : Act O MachineState)
  | [], _ => Act.extends_pure _
  | i :: is, _ => (extends_fieldCell v (2 * i)).bind fun _ => extends_pushInfixCells v is _

/-- A division adds nothing, or the exception it raises. -/
theorem extends_divide (f : BitVec 63 → BitVec 63 → BitVec 63) (x y : BitVec 63) :
    Act.Extends (divide f x y : Act O (BitVec 63)) := by
  unfold divide
  split
  · exact (begins_tell _).extends.bind fun _ => Act.extends_stuck
  · exact Act.extends_pure _

/-- Arithmetic only adds to the log. -/
theorem extends_arithCell (op : ArithOp) (a b : Cell) :
    Act.Extends (arithCell op a b : Act O Cell) := by
  refine (Act.extends_ofOption _).bind fun x => (Act.extends_ofOption _).bind fun y =>
    Act.Extends.bind ?_ fun _ => Act.extends_pure _
  have hshift (f : Nat → BitVec 63) : Act.Extends (shiftBy f y : Act O (BitVec 63)) := by
    unfold shiftBy
    split
    · exact Act.extends_pure _
    · exact Act.extends_stuck
  cases op with
  | div | mod => exact extends_divide _ x y
  | lsl | lsr | asr => exact hshift _
  | _ => exact Act.extends_pure _

/-- `OFFSETREF` loads before it adds. -/
theorem begins_offsetRef (n : Int) (s : MachineState) :
    Act.Begins (.getField s.accu (.ofInt 0)) (doOffsetRef n s : Act O MachineState) :=
  (begins_ask _).bind fun _ => (extends_arithCell _ _ _).bind fun _ => (begins_store _ _ _).extends

/-- `CLOSUREREC` begins with its allocation, of what is on the stack. -/
theorem begins_closureRec (locs : List Nat) (nvars : Nat) (s : MachineState) :
    Act.Begins (.closureRec locs ((spillAccu nvars s).picks nvars))
      (doClosureRec locs nvars s : Act O MachineState) :=
  (begins_ask _).bind fun _ => extends_pushInfixCells _ _ _

/-- The accumulator is the first of the words picked after it was pushed. -/
theorem picks_pushAccu (s : MachineState) (n : Nat) :
    s.pushAccu.picks (n + 1) = s.accu :: s.picks n :=
  MachineState.picks_push_succ s s.accu n

/-- A request with the accumulator and `n` words. -/
theorem of_pushAccu {t s : MachineState} {n : Nat} (h : t.pushAccu.picks (n + 1) = s.pushAccu.picks (n + 1)) :
    t.accu = s.accu ∧ t.picks n = s.picks n := by
  rw [picks_pushAccu, picks_pushAccu] at h
  exact List.cons.inj h

/-- An instruction that is a block's last one and nothing else. -/
def endsBlock : Instruction Nat → Bool
  | .stop | .return_ _ | .raise _ | .branch _ | .branchIf _ | .branchIfNot _ | .branchCmp _ _ _
  | .switch _ _ | .applyTerm _ _ | .pushTrap _ => true
  | _ => false

section Compared

variable {m : Marks} {t s : MachineState} {i : Instruction Nat}

/-- What an instruction needs, if not for a calculation, is in its first request. -/
theorem begins_step {n : Nat} (hi : operands i = some n) (hcalculates : calculates i = false)
    (hends : endsBlock i = false) (hfloat : i ≠ .makeFloatBlock 0) :
    ∃ a : MachineState → Access,
      (∀ t s, a t = a s → t.accu = s.accu ∧ t.picks n = s.picks n) ∧
      ∀ machine s, Act.Begins (a s) (step machine start i s : Act O MachineState) := by
  cases i with
  | boolNot | negInt | offsetInt _ | isInt | arithInt _ | intCmp _ => cases hcalculates
  | stop | return_ _ | raise _ | branchIf _ | branchIfNot _ | branchCmp _ _ _ | switch _ _
  | applyTerm _ _ => cases hends
  | apply1 | apply2 | apply3 | apply _ =>
      cases hi
      exact ⟨fun s => .apply s.accu (s.picks _), fun t s h => by simpa using h,
        fun _ s => begins_answer s _ _⟩
  -- without variables nothing is needed
  | closure loc nvars =>
      cases nvars with
      | zero => cases hi
      | succ n =>
          cases hi
          exact ⟨fun s => .closure loc (s.pushAccu.picks (n + 1)),
            fun t s h => of_pushAccu (Access.closure.inj h).2, fun _ s => begins_answer _ _ _⟩
  | closureRec locs nvars =>
      cases nvars with
      | zero => cases hi
      | succ n =>
          cases hi
          exact ⟨fun s => .closureRec locs (s.pushAccu.picks (n + 1)),
            fun t s h => of_pushAccu (Access.closureRec.inj h).2,
            fun _ s => begins_closureRec locs (n + 1) s⟩
  | makeBlock size tag =>
      cases size with
      | zero => cases hi
      | succ n =>
          cases hi
          exact ⟨fun s => .makeBlock tag (s.accu :: s.picks n), fun t s h => by simpa using h,
            fun _ s => begins_answer s _ _⟩
  | makeFloatBlock size =>
      cases size with
      | zero => exact absurd rfl hfloat
      | succ n =>
          cases hi
          exact ⟨fun s => .makeFloatBlock (s.accu :: s.picks n), fun t s h => by simpa using h,
            fun machine s => by cases machine <;> exact begins_answer s _ _⟩
  | setGlobal n =>
      cases hi
      exact ⟨fun s => .setGlobal n s.accu, fun t s h => by simpa using h,
        fun _ s => begins_store s 0 _⟩
  | getField n =>
      cases hi
      exact ⟨fun s => .getField s.accu (.ofInt (asI32 n)), fun t s h => by simpa using h,
        fun _ s => begins_answer s 0 _⟩
  -- the field is read before it is written
  | offsetRef n =>
      cases hi
      exact ⟨fun s => .getField s.accu (.ofInt 0), fun t s h => by simpa using h,
        fun _ s => begins_offsetRef n s⟩
  | getFloatField n =>
      cases hi
      exact ⟨fun s => .getFloatField s.accu n, fun t s h => by simpa using h,
        fun _ s => begins_answer s 0 _⟩
  | vecTLength =>
      cases hi
      exact ⟨fun s => .vecTLength s.accu, fun t s h => by simpa using h,
        fun _ s => begins_answer s 0 _⟩
  | setField n =>
      cases hi
      exact ⟨fun s => .setField s.accu (.ofInt (asI32 n)) (s.stack 0),
        fun t s h => by simpa using h, fun _ s => begins_store s 1 _⟩
  | setFloatField n =>
      cases hi
      exact ⟨fun s => .setFloatField s.accu n (s.stack 0),
        fun t s h => by simpa using h, fun _ s => begins_store s 1 _⟩
  | getVecTItem =>
      cases hi
      exact ⟨fun s => .getField s.accu (s.stack 0), fun t s h => by simpa using h,
        fun _ s => begins_answer s 1 _⟩
  | getBytesChar =>
      cases hi
      exact ⟨fun s => .getBytesChar s.accu (s.stack 0),
        fun t s h => by simpa using h, fun _ s => begins_answer s 1 _⟩
  | setVecTItem =>
      cases hi
      exact ⟨fun s => .setField s.accu (s.stack 0) (s.stack 1),
        fun t s h => by simpa using h, fun _ s => begins_store s 2 _⟩
  | setBytesChar =>
      cases hi
      exact ⟨fun s => .setBytesChar s.accu (s.stack 0) (s.stack 1),
        fun t s h => by simpa using h, fun _ s => begins_store s 2 _⟩
  | getMethod =>
      cases hi
      exact ⟨fun s => .getMethod (s.stack 0) s.accu,
        fun t s h => by simpa [and_comm] using h, fun _ s => begins_answer s 0 _⟩
  | getDynMet =>
      cases hi
      exact ⟨fun s => .getDynMet s.accu (s.stack 0),
        fun t s h => by simpa using h, fun _ s => begins_answer s 0 _⟩
  | cCall1 id | cCall2 id | cCall3 id | cCall4 id | cCall5 id =>
      cases hi
      exact ⟨fun s => .cCall id (s.pushAccu.picks _),
        fun t s h => of_pushAccu (Access.cCall.inj h).2, fun _ s => begins_answer _ _ _⟩
  | cCallN nargs id =>
      cases nargs with
      | zero => cases hi
      | succ n =>
          cases hi
          exact ⟨fun s => .cCall id (s.pushAccu.picks (n + 1)),
            fun t s h => of_pushAccu (Access.cCall.inj h).2, fun _ s => begins_answer _ _ _⟩
  | _ => cases hi

/-- A marked word is needed: the words are not those of `interp.c`. -/
theorem Kept.differs (h : Kept m t s) (hnot : ¬ m.Apart i) (hfloat : i ≠ .makeFloatBlock 0) :
    ∃ n, operands i = some n ∧ ¬ (t.accu = s.accu ∧ t.picks n = s.picks n) := by
  by_contra hall
  have hsame {n : Nat} (hn : operands i = some n) : t.accu = s.accu ∧ t.picks n = s.picks n :=
    by_contra fun hdiffer => hall ⟨n, hn, hdiffer⟩
  refine hnot ⟨hfloat, fun n hn => h.accu.of_eq (hsame hn).1, fun n hn k hk => ?_⟩
  exact (h.stack k).of_eq (List.map_inj_left.mp (hsame hn).2 k (List.mem_range.mpr hk))

/-- Where a marked word is needed the first requests differ. -/
theorem Kept.begins (h : Kept m t s) (hnot : ¬ m.Apart i) (hcalculates : calculates i = false)
    (hends : endsBlock i = false) : ∃ a a', a ≠ a' ∧
      Act.Begins a (step .translated start i t : Act O MachineState) ∧
      Act.Begins a' (step .interp start i s : Act O MachineState) := by
  by_cases hfloat : i = .makeFloatBlock 0
  · subst hfloat
    refine ⟨.makeFloatBlock [], .makeFloatBlock [s.accu], ?_, begins_answer t.pushAccu 0 _,
      begins_answer s 0 _⟩
    intro heq
    cases Access.makeFloatBlock.inj heq
  · obtain ⟨n, hn, hdiffer⟩ := h.differs hnot hfloat
    obtain ⟨a, hinj, hbegins⟩ := @begins_step O start _ n hn hcalculates hends hfloat
    exact ⟨a t, a s, fun heq => hdiffer (hinj t s heq), hbegins _ t, hbegins _ s⟩

end Compared

/-- A comparison only adds to the log. -/
theorem extends_cmpCell (cmp : Comp) (a b : Cell) : Act.Extends (cmpCell cmp a b : Act O Cell) := by
  unfold cmpCell
  split
  · exact Act.extends_pure _
  · exact Act.extends_pure _
  · exact Act.extends_pure _
  · exact Act.extends_stuck

/-- So does a test. -/
theorem extends_truth (a : Cell) : Act.Extends (truth a : Act O Bool) := by
  cases a with
  | val v => exact Act.extends_pure _
  | _ => exact Act.extends_stuck

/-- So does a switch. -/
theorem extends_switchTarget (ints blocks : List Nat) (a : Cell) :
    Act.Extends (switchTarget ints blocks a : Act O Nat) := by
  unfold switchTarget
  split
  · refine (Act.begins_perform _).extends.bind fun v => ?_
    cases v with
    | int tag => exact Act.extends_ofOption _
    | block _ => exact Act.extends_stuck
  · exact Act.extends_ofOption _
  · exact Act.extends_stuck

/-- And an answer. -/
theorem extends_answer (s : MachineState) (n : Nat) {v : Act O Cell} (h : Act.Extends v) :
    Act.Extends (answer s n v) :=
  h.bind fun _ => Act.extends_pure _

/-- **Every step only adds to the log.** -/
theorem extends_step (machine : Machine) (i : Instruction Nat) (s : MachineState) :
    Act.Extends (step machine start i s : Act O MachineState) := by
  cases i with
  | labelDef _ | break_ | event | acc _ | envAcc _ | push | pop _ | pushRetAddr _
  | offsetClosure _ | const _ | setupForPubMet _ => exact Act.extends_pure _
  | assign _ => cases machine <;> exact Act.extends_pure _
  | makeBlock size tag =>
      cases size with
      | zero => exact Act.extends_pure _
      | succ n => exact (begins_answer s _ _).extends
  | makeFloatBlock size => cases machine <;> cases size <;> exact (begins_answer _ _ _).extends
  | closureRec locs nvars => exact (begins_closureRec locs nvars s).extends
  | offsetRef n => exact (begins_offsetRef n s).extends
  | apply1 | apply2 | apply3 | apply _ | closure _ _ | getGlobal _ | getField _ | getFloatField _
  | vecTLength | getVecTItem | getBytesChar | getMethod | getDynMet | cCall1 _ | cCall2 _
  | cCall3 _ | cCall4 _ | cCall5 _ | cCallN _ _ => exact (begins_answer _ _ _).extends
  | setGlobal _ | setField _ | setFloatField _ | setVecTItem | setBytesChar =>
      exact (begins_store _ _ _).extends
  | popTrap | checkSignals => exact (begins_tell _).extends.bind fun _ => Act.extends_pure _
  | arithInt _ | offsetInt _ => exact extends_answer _ _ (extends_arithCell _ _ _)
  | intCmp cmp => exact extends_answer _ _ (extends_cmpCell cmp _ _)
  | negInt | boolNot =>
      exact extends_answer _ _ ((Act.extends_ofOption _).bind fun _ => Act.extends_pure _)
  | isInt =>
      refine extends_answer _ _ ?_
      unfold isIntCell
      split
      · exact Act.extends_pure _
      · exact Act.extends_pure _
      · exact Act.extends_stuck
  | _ => exact Act.extends_stuck

/-- The last instruction only adds to the log. -/
theorem extends_finish (machine : Machine) (i : Instruction Nat) (exit : BlockExit)
    (s : MachineState) :
    Act.Extends (finish machine start i exit s : Act O (Ending × MachineState)) := by
  have hjump {b : Act O Bool} (hb : Act.Extends b) (target : Nat) :
      Act.Extends (branchOn b target exit s) :=
    (Act.extends_ofOption _).bind fun _ => hb.bind fun _ => Act.extends_pure _
  cases i with
  | stop | branch _ | return_ _ | raise _ | applyTerm _ _ => exact Act.extends_pure _
  | branchIf target => exact hjump (extends_truth _) target
  | branchIfNot target =>
      exact hjump ((extends_truth _).bind fun _ => Act.extends_pure _) target
  | branchCmp cmp n target =>
      exact hjump ((extends_cmpCell cmp _ _).bind fun _ => extends_truth _) target
  | switch ints blocks =>
      exact (extends_switchTarget ints blocks _).bind fun _ => Act.extends_pure _
  | pushTrap _ => exact (Act.extends_ofOption _).bind fun _ => Act.extends_pure _
  | _ =>
      exact (Act.extends_ofOption _).bind fun _ => (extends_step machine _ s).bind
        fun _ => Act.extends_pure _

/-- A run of instructions only adds to the log. -/
theorem extends_runInstructions (machine : Machine) (exit : BlockExit) :
    ∀ (is : List (Instruction Nat)) (s : MachineState),
      Act.Extends (runInstructions machine start exit is s : Act O (Ending × MachineState))
  | [], _ => Act.extends_stuck
  | [i], s => extends_finish machine i exit s
  | i :: j :: is, s =>
      (extends_step machine i s).bind fun s' => extends_runInstructions machine exit (j :: is) s'

end Requests

/-! ## §7. Runs. -/

section Whole

variable {O : Oracle Access Value} {start : Start} {exit : BlockExit}

/-- The last instruction is one for the end of a block, or goes on to the next block. -/
def EndsWell (exit : BlockExit) : List (Instruction Nat) → Prop
  | [] => True
  | [i] => endsBlock i = true ∨ ∃ next, fallThrough exit = some next
  | i :: is => endsBlock i = false ∧ EndsWell exit is

/-- A list whose marked words are not needed runs the same on both machines. -/
theorem Kept.run_eq : ∀ {is : List (Instruction Nat)} {m : Marks} {t s : MachineState} {l : Log O},
    Kept m t s → Along start Marks.Apart Marks.Clear exit is s m l →
      RelResult Eq (runInstructions .translated start exit is t l)
        (runInstructions .interp start exit is s l)
  | [], _, _, _, _, _, _ => ⟨rfl, rfl⟩
  | [i], m, t, s, l, h, hrun => by
      obtain ⟨hapart, hclear⟩ := hrun
      refine (h.after_finish hapart exit l).mono fun x y l' hy hxy => ?_
      exact Prod.ext hxy.1 (hxy.2.eq_of_clear (hclear y l' hy))
  | i :: j :: is, m, t, s, l, h, hrun => by
      obtain ⟨hapart, hrest⟩ := hrun
      exact (h.after_step hapart l).bind fun t' s' l' hs hkept => hkept.run_eq (hrest s' l' hs)

/-- A marked word in what a block ends with. -/
theorem Kept.finish_ne {m : Marks} {t s : MachineState} {i : Instruction Nat} (h : Kept m t s)
    (hnot : ¬ m.Apart i) (hcalculates : calculates i = false)
    (hends : endsBlock i = true ∨ ∃ next, fallThrough exit = some next) (l : Log O) :
    finish .translated start i exit t l ≠ finish .interp start i exit s l := by
  intro heq
  cases hlast : endsBlock i with
  | false =>
      rw [hlast] at hends
      obtain ⟨next, hnext⟩ := hends.resolve_left Bool.false_ne_true
      obtain ⟨a, a', hne, ht, hs⟩ := @Kept.begins O start _ _ _ _ h hnot hcalculates hlast
      have hbody (machine : Machine) (s : MachineState) :
          (finish machine start i exit s : Act O (Ending × MachineState)) =
            step machine start i s >>= fun s' => pure (.goto next, s') := by
        cases i with
        | stop | return_ _ | raise _ | branch _ | branchIf _ | branchIfNot _ | branchCmp _ _ _
        | switch _ _ | applyTerm _ _ | pushTrap _ => cases hlast
        | _ => simp only [finish, hnext, Act.ofOption_some, Act.pure_bind]
      rw [hbody, hbody] at heq
      exact (ht.bind fun _ => Act.extends_pure _).ne (hs.bind fun _ => Act.extends_pure _) hne l heq
  | true =>
      have hfloat : i ≠ .makeFloatBlock 0 := by
        rintro rfl
        cases hlast
      obtain ⟨n, hn, hdiffer⟩ := h.differs hnot hfloat
      cases i with
      | stop | raise _ | return_ _ | applyTerm _ _ =>
          cases hn
          have hending := congrArg Prod.fst (Except.ok.inj (congrArg Prod.fst heq))
          exact hdiffer (by simpa using hending)
      | branchIf _ | branchIfNot _ | branchCmp _ _ _ | switch _ _ => cases hcalculates
      | branch _ | pushTrap _ => cases hn
      | _ => cases hlast

/-- Where no marked word is calculated with, the same run means that none is needed. -/
theorem Kept.along_of_eq : ∀ {is : List (Instruction Nat)} {m : Marks} {t s : MachineState}
    {l : Log O}, Kept m t s → EndsWell exit is →
      Along start (fun m i => calculates i = true → m.Apart i) (fun _ => True) exit is s m l →
      runInstructions .translated start exit is t l = runInstructions .interp start exit is s l →
      Along start Marks.Apart Marks.Clear exit is s m l
  | [], _, _, _, _, _, _, _, _ => trivial
  | [i], m, t, s, l, h, hends, hrun, heq => by
      have hfinish : finish .translated start i exit t l = finish .interp start i exit s l := heq
      have hapart : m.Apart i := by
        -- an instruction that needs a kept word would end, or ask, differently
        by_contra hnot
        have hcalculates : calculates i = false :=
          Bool.eq_false_iff.mpr fun hc => hnot (hrun.1 hc)
        exact h.finish_ne hnot hcalculates hends l hfinish
      refine ⟨hapart, fun r l' hr => ?_⟩
      obtain ⟨x, hx, -, hkept⟩ := (h.after_finish hapart exit l).of_ok hr
      rw [hfinish, hr] at hx
      cases hx
      exact hkept.clear_of_eq rfl
  | i :: j :: is, m, t, s, l, h, hends, hrun, heq => by
      obtain ⟨hbody, hlater⟩ := hends
      have hbind : (step .translated start i t >>=
            runInstructions .translated start exit (j :: is)) l =
          (step .interp start i s >>= runInstructions .interp start exit (j :: is)) l := heq
      have hapart : m.Apart i := by
        by_contra hnot
        have hcalculates : calculates i = false :=
          Bool.eq_false_iff.mpr fun hc => hnot (hrun.1 hc)
        -- the first requests differ, and later ones do not make up for it
        obtain ⟨a, a', hne, ht, hs⟩ := @Kept.begins O start _ _ _ _ h hnot hcalculates hbody
        have hext (machine : Machine) (s : MachineState) : Act.Extends
            (runInstructions machine start exit (j :: is) s : Act O (Ending × MachineState)) :=
          extends_runInstructions machine exit (j :: is) s
        exact (ht.bind (hext _)).ne (hs.bind (hext _)) hne l hbind
      refine ⟨hapart, fun s' l' hs => ?_⟩
      obtain ⟨t', ht, hkept⟩ := (h.after_step hapart l).of_ok hs
      rw [Act.bind_apply, Act.bind_apply, ht, hs] at hbind
      exact hkept.along_of_eq hlater (hrun.2 s' l' hs) hbind

end Whole

/-! ## §8. Blocks. -/

section Blocks

variable {O : Oracle Access Value} {start : Start} {exit : BlockExit} {kind : BlockKind}
  {block : Block} {blockNum : Nat} {b : SSABlock} {l : Log O}

/-- The body of a block has no instruction that belongs at its end. -/
theorem endsBlock_of_body {i : Instruction Nat} {σ σ' : Translation}
    (h : processBodyInstruction i σ = .ok ((), σ')) : endsBlock i = false := by
  cases i with
  | stop | return_ _ | raise _ | branch _ | branchIf _ | branchIfNot _ | branchCmp _ _ _
  | switch _ _ | applyTerm _ _ | pushTrap _ => cases h
  | _ => rfl

/-- An instruction at the end of a block leaves it, or the exit says what comes next. -/
theorem endsBlock_of_final {i : Instruction Nat} {σ σ' : Translation} {e : SSAExit}
    (h : processFinalInstruction i exit σ = .ok (e, σ')) :
    endsBlock i = true ∨ ∃ next, fallThrough exit = some next := by
  cases exit with
  | unconditionalJump next => exact .inr ⟨next, rfl⟩
  | conditionalJump _ next => exact .inr ⟨next, rfl⟩
  | pushTrap normal _ => exact .inr ⟨normal, rfl⟩
  | _ =>
      cases i with
      | stop | return_ _ | raise _ | branch _ | branchIf _ | branchIfNot _ | branchCmp _ _ _
      | switch _ _ | applyTerm _ _ | pushTrap _ => exact .inl rfl
      | _ => cases h

/-- A body and a last instruction that translate make a block that ends where it
should. -/
theorem endsWell_append {last : Instruction Nat} {e : SSAExit} :
    ∀ {body : List (Instruction Nat)} {σ σ₁ σ₂ : Translation},
      body.forM processBodyInstruction σ = .ok ((), σ₁) →
      processFinalInstruction last exit σ₁ = .ok (e, σ₂) → EndsWell exit (body ++ [last])
  | [], _, _, _, _, hlast => endsBlock_of_final hlast
  | i :: body, σ, σ₁, σ₂, hbody, hlast => by
      have hcons : (processBodyInstruction i >>= fun _ => body.forM processBodyInstruction) σ =
        .ok ((), σ₁) := hbody
      obtain ⟨⟨⟩, σ', hi, hrest⟩ := stateT_bind_eq_ok.mp hcons
      have hlater := endsWell_append hrest hlast
      cases body <;> exact ⟨endsBlock_of_body hi, hlater⟩

/-- The instructions after the `GRAB` of a function. -/
def afterGrab (kind : BlockKind) (is : List (Instruction Nat)) : List (Instruction Nat) :=
  match kind, is with
  | .entry, .grab _ :: is => is
  | _, is => is

/-- Without a `GRAB` nothing is dropped. -/
theorem afterGrab_of_ne {is : List (Instruction Nat)} (h : ∀ nargs rest, is ≠ .grab nargs :: rest) :
    afterGrab kind is = is := by
  unfold afterGrab
  split
  · exact absurd rfl (h _ _)
  · rfl

/-- `has_grab`. -/
theorem enterClosure_hasGrab {is : List (Instruction Nat)} {σ σ' : Translation} {hasGrab : Bool}
    (h : enterClosure is σ = .ok (hasGrab, σ')) :
    is.drop (if hasGrab = true then 1 else 0) = afterGrab .entry is := by
  obtain ⟨⟨⟩, σ₁, -, hrest⟩ := stateT_bind_eq_ok.mp h
  split at hrest
  · obtain ⟨⟨⟩, σ₂, -, hrest⟩ := stateT_bind_eq_ok.mp hrest
    obtain ⟨⟨⟩, σ₃, -, hpure⟩ := stateT_bind_eq_ok.mp hrest
    cases hpure
    rfl
  · rename_i hgrab
    obtain ⟨⟨⟩, σ₂, -, hpure⟩ := stateT_bind_eq_ok.mp hrest
    cases hpure
    exact (afterGrab_of_ne fun nargs rest his => hgrab nargs rest his).symm

/-- A block that translates ends where it should. -/
theorem translateBlock_endsWell
    (h : translateBlock block blockNum kind.isEntry kind.isTrapHandler = .ok b) :
    EndsWell block.exit (afterGrab kind block.instructions) := by
  obtain ⟨⟨⟩, -, hblock⟩ := bind_eq_ok.mp h
  obtain ⟨⟨e, σ⟩, htranslate, -⟩ := bind_eq_ok.mp hblock
  obtain ⟨⟨⟩, σ₁, -, hentry⟩ := stateT_bind_eq_ok.mp htranslate
  obtain ⟨hasGrab, σ₂, hentry, hfrom⟩ := stateT_bind_eq_ok.mp hentry
  obtain ⟨body, last, σ₃, hsplit, hbody, hlast⟩ := translateFrom_split hfrom
  have hends : EndsWell block.exit
      (block.instructions.drop (if hasGrab = true then 1 else 0)) := by
    rw [hsplit]
    exact endsWell_append hbody hlast
  cases kind with
  | ordinary | trapHandler =>
      cases hentry
      exact hends
  | entry =>
      rw [enterClosure_hasGrab hentry] at hends
      exact hends

/-- An entry block without `GRAB` starts with one argument. -/
theorem runBlock_entry {machine : Machine} (h : ∀ nargs rest, block.instructions ≠ .grab nargs :: rest) :
    (runBlock machine start .entry block : Act O _) =
      runInstructions machine start block.exit block.instructions
        ⟨machine.entryAccu start, withArgs start 1 start.stack⟩ := by
  unfold runBlock
  split
  · cases ‹BlockKind.entry = .ordinary›
  · cases ‹BlockKind.entry = .trapHandler›
  · exact absurd ‹_› (h _ _)
  · rfl

/-- And so does what is said along it. -/
theorem blockAlong_entry {p : Marks → Instruction Nat → Prop} {q : Marks → Prop}
    (h : ∀ nargs rest, block.instructions ≠ .grab nargs :: rest) :
    BlockAlong (O := O) start p q .entry block l ↔
      Along start p q block.exit block.instructions
        ⟨start.accu, withArgs start 1 start.stack⟩ start.marks l := by
  unfold BlockAlong
  split
  · cases ‹BlockKind.entry = .ordinary›
  · cases ‹BlockKind.entry = .trapHandler›
  · exact absurd ‹_› (h _ _)
  · exact Iff.rfl

/-- **When a block in SSA does what `interp.c` does.**  It makes the same requests and
ends with the same accumulator and stack if no instruction needs a word that an `ASSIGN`
has kept, or the accumulator at the entry of a function, and none is left at the end.
Where no such word is calculated with or tested, it does so only then. -/
theorem translateBlock_exact (block : Block) (blockNum : Nat) (kind : BlockKind) (b : SSABlock)
    (h : translateBlock block blockNum kind.isEntry kind.isTrapHandler = .ok b)
    (O : Oracle Access Value) (start : Start) (l : Log O) :
    (Unread start kind block l →
      runSsaBlock start b l = runBlock .interp start kind block l) ∧
    (Uncalculated start kind block l →
      runSsaBlock start b l = runBlock .interp start kind block l →
      Unread start kind block l) := by
  have hends := translateBlock_endsWell h
  have hbody {is : List (Instruction Nat)} {m : Marks} {t s : MachineState} {l : Log O}
      (hkept : Kept m t s) (hends : EndsWell block.exit is) :
      (Along start Marks.Apart Marks.Clear block.exit is s m l →
        runInstructions .translated start block.exit is t l =
          runInstructions .interp start block.exit is s l) ∧
      (Along start (fun m i => calculates i = true → m.Apart i) (fun _ => True) block.exit is s m l →
        runInstructions .translated start block.exit is t l =
          runInstructions .interp start block.exit is s l →
        Along start Marks.Apart Marks.Clear block.exit is s m l) :=
    ⟨fun hrun => relResult_eq_iff.mp (hkept.run_eq hrun), hkept.along_of_eq hends⟩
  -- at the entry of a function the accumulator is `Junk` in the SSA form
  have hentry (stack : Nat → Cell) : Kept start.marks ⟨.unspecified, stack⟩ ⟨start.accu, stack⟩ := by
    refine ⟨?_, fun k => shows_same _⟩
    show Shows (decide (start.accu ≠ .unspecified)) .unspecified start.accu
    by_cases haccu : start.accu = .unspecified
    · rw [decide_eq_false (not_not_intro haccu), haccu]
      exact shows_same _
    · rw [decide_eq_true haccu]
      exact ⟨Ne.symm haccu, Cell.noConfusion⟩
  rw [runSsaBlock_eq h]
  unfold Unread Uncalculated
  cases kind with
  | ordinary | trapHandler => exact hbody (Kept.refl _) hends
  | entry =>
      -- a `GRAB` comes first, and both make its request
      by_cases hgrab : ∃ nargs rest, block.instructions = .grab nargs :: rest
      · obtain ⟨nargs, rest, his⟩ := hgrab
        unfold BlockAlong runBlock
        rw [his] at hends ⊢
        have hstart := hentry (withArgs start (nargs + 1) start.stack)
        show (_ → (tell (O := O) (.grab nargs) >>= _) l = (tell (O := O) (.grab nargs) >>= _) l) ∧
          (_ → (tell (O := O) (.grab nargs) >>= _) l = (tell (O := O) (.grab nargs) >>= _) l → _)
        rw [Act.bind_apply, Act.bind_apply]
        cases htell : tell (O := O) (.grab nargs) l with
        | mk r l' =>
            cases r with
            | error e =>
                refine ⟨fun _ => rfl, fun _ _ l'' hl'' => ?_⟩
                rw [htell] at hl''
                cases hl''
            | ok u =>
                obtain ⟨henough, honly⟩ := hbody (l := l') hstart hends
                refine ⟨fun h => henough (h l' htell), fun h heq l'' hl'' => ?_⟩
                rw [htell] at hl''
                cases hl''
                exact honly (h l' htell) heq
      · have hnone (nargs : Nat) (rest : List (Instruction Nat)) :
            block.instructions ≠ .grab nargs :: rest := fun his => hgrab ⟨nargs, rest, his⟩
        rw [afterGrab_of_ne hnone] at hends
        rw [blockAlong_entry hnone, blockAlong_entry hnone, runBlock_entry hnone,
          runBlock_entry hnone]
        exact hbody (hentry _) hends

/-- An oracle whose answers are new blocks. -/
def fresh : Oracle Access Value := ⟨Nat, fun _ n => (.ok (.block n), n + 1)⟩

/-- The body of `for i = 3 to 10 do f i done`: the bound is on top of the stack, then `i`. -/
def forBody : Block :=
  ⟨[.checkSignals, .acc 1, .cCall1 7, .acc 1, .push, .offsetInt 1, .assign 2, .acc 1,
    .intCmp .ne, .branchIf 4], [], .conditionalJump 4 5⟩

/-- Its start; other words are blocks. -/
def forStart : Start :=
  ⟨.block 0, fun _ => .unit, fun _ => .unit, fun k => .val (.block k), .val (.block 1),
    fun | 0 => .ofInt 10 | 1 => .ofInt 3 | k + 2 => .val (.block k)⟩

/-- An instruction that reads nothing is apart from every mark. -/
theorem Marks.Apart.of_none {m : Marks} {i : Instruction Nat} (hi : operands i = .none)
    (hfloat : i ≠ .makeFloatBlock 0) : m.Apart i where
  float := hfloat
  accu n hn := by
    rw [hi] at hn
    cases hn
  stack n hn := by
    rw [hi] at hn
    cases hn

section Clear

variable {m : Marks}

/-- No marks are clear. -/
theorem clear_none : Marks.none.Clear := ⟨rfl, fun _ => rfl⟩

/-- Clear marks are apart from everything but `MAKEFLOATBLOCK 0`. -/
theorem Marks.Clear.apart (hm : m.Clear) {i : Instruction Nat} (hfloat : i ≠ .makeFloatBlock 0) :
    m.Apart i :=
  ⟨hfloat, fun _ _ => hm.accu, fun _ _ k _ => hm.stack k⟩

/-- Clear marks stay so when the accumulator is written. -/
theorem Marks.Clear.withAccu (hm : m.Clear) : (m.withAccu false).Clear := ⟨rfl, hm.stack⟩

/-- They stay so when words are popped. -/
theorem Marks.Clear.pop (hm : m.Clear) (n : Nat) : (m.pop n).Clear :=
  ⟨hm.accu, fun k => hm.stack (n + k)⟩

/-- They stay so when the accumulator is pushed. -/
theorem Marks.Clear.push (hm : m.Clear) : (m.push m.accu).Clear := by
  refine ⟨hm.accu, fun k => ?_⟩
  cases k with
  | zero => exact hm.accu
  | succ k => exact hm.stack k

/-- They stay so when a slot is read. -/
theorem Marks.Clear.acc (hm : m.Clear) (n : Nat) : (m.withAccu (m.stack n)).Clear :=
  ⟨hm.stack n, hm.stack⟩

/-- The marks after `ASSIGN; ACC`. -/
theorem Marks.Clear.assign_acc (hm : m.Clear) (n k : Nat) (b : Bool) :
    (((m.assign n m.accu).withAccu b).withAccu ((m.assign n m.accu).stack k)).Clear := by
  have hstack (k : Nat) : (m.assign n m.accu).stack k = false := by
    show (if k = n then m.accu else m.stack k) = false
    by_cases hk : k = n
    · rw [if_pos hk, hm.accu]
    · rw [if_neg hk, hm.stack]
  exact ⟨hstack k, hstack⟩

end Clear

/-- In the loop body of the example no marked cell is read. -/
theorem unread_forBody : Unread (O := fresh) forStart .ordinary forBody ⟨(0 : Nat), []⟩ := by
  have h₁ := clear_none.withAccu
  have h₂ := h₁.acc 1
  have h₃ := (h₂.pop 0).withAccu
  have h₄ := h₃.acc 1
  have h₅ := h₄.push
  have h₆ := (h₅.pop 0).withAccu
  have h₇ (b : Bool) := h₆.assign_acc 2 1 b
  have h₈ (b : Bool) := ((h₇ b).pop 1).withAccu
  refine ⟨clear_none.apart nofun, fun s l h => ?_⟩
  cases h
  refine ⟨h₁.apart nofun, fun s l h => ?_⟩
  cases h
  refine ⟨h₂.apart nofun, fun s l h => ?_⟩
  cases h
  refine ⟨h₃.apart nofun, fun s l h => ?_⟩
  cases h
  refine ⟨h₄.apart nofun, fun s l h => ?_⟩
  cases h
  refine ⟨h₅.apart nofun, fun s l h => ?_⟩
  cases h
  refine ⟨h₆.apart nofun, fun s l h => ?_⟩
  cases h
  refine ⟨.of_none rfl nofun, fun s l h => ?_⟩
  cases h
  refine ⟨(h₇ _).apart nofun, fun s l h => ?_⟩
  cases h
  exact ⟨(h₈ _).apart nofun, fun r l h => h₈ _⟩

/-- The loop body of the example translates exactly, from a start with the cells
of a run. -/
theorem translateBlock_exact_forBody : ∃ b, translateBlock forBody 4 false false = .ok b ∧
    runSsaBlock (O := fresh) forStart b ⟨(0 : Nat), []⟩ =
      runBlock .interp forStart .ordinary forBody ⟨(0 : Nat), []⟩ := by
  have hok : (translateBlock forBody 4 false false).isOk = true := by decide +kernel
  cases hb : translateBlock forBody 4 false false with
  | error e =>
      rw [hb] at hok
      cases hok
  | ok b =>
      exact ⟨b, rfl, (translateBlock_exact forBody 4 .ordinary b hb fresh forStart _).1
        unread_forBody⟩

/-- `CONST 5; ASSIGN 0; RETURN 1`. -/
def assignReturn : Block := ⟨[.const 5, .assign 0, .return_ 1], [], .return_⟩

/-- The translated function returns 5 instead of `()`. -/
theorem translateBlock_assign_result :
    ∃ b, translateBlock assignReturn 0 false false = .ok b ∧
      runSsaBlock (O := fresh) forStart b ⟨(0 : Nat), []⟩ ≠
        runBlock .interp forStart .ordinary assignReturn ⟨(0 : Nat), []⟩ := by
  refine ⟨_, rfl, fun h => ?_⟩
  have hending : Ending.returned (.ofInt 5) = .returned (.val .unit) :=
    congrArg Prod.fst (Except.ok.inj (congrArg Prod.fst h))
  exact absurd hending (by decide)

end Blocks

end OcamlJit.CleverDis.Ssa

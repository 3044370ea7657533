/-
  OcamlJit.Lib.Readers
  ────────────────────
  **READING FROM A SOURCE THAT MAY GIVE LESS THAN IT IS ASKED FOR.**

  A source fills a buffer of `n` bytes from the front, as far as it gets in one
  call.  `Delivers` is what makes it a stream: it hands out a piece of what is
  left, in order, and an empty one only at the end or for an empty buffer.
  Then `readExact` gets all it wants when there is enough
  (`Delivers.readExact`), and reading buffer by buffer gives the data piece by
  piece (`Delivers.readEach`), to its end and not beyond (`Delivers.readsAll`).
-/
import OcamlJit.Lib.Rust

namespace OcamlJit.Lib

variable {ε σ : Type}

/-! ## §1. Sources. -/

/-- `Read::read`: the bytes for a buffer of the given size, and the source after
them. -/
abbrev Source (ε σ : Type) := σ → Nat → Rust ε (List UInt8 × σ)

/-- `Read::read_exact`: reading on into the rest of the buffer; `eof` when
nothing comes. -/
def readExactFrom (read : Source ε σ) (eof : ε) (n : Nat) (s : σ) : Rust ε (List UInt8 × σ) :=
  if _ : n = 0 then .ok ([], s)
  else do
    let p ← read s n
    if _ : p.1 = [] then err eof
    else do
      let rest ← readExactFrom read eof (n - p.1.length) p.2
      pure (p.1 ++ rest.1, rest.2)
  termination_by n
  decreasing_by
    have hpos : 0 < p.1.length := List.length_pos_iff.mpr ‹_›
    omega

/-- Reading into one buffer after the other; what they are filled with. -/
def readEach (read : Source ε σ) : List Nat → σ → Rust ε (List UInt8 × σ)
  | [], s => .ok ([], s)
  | n :: buffers, s => do
      let p ← read s n
      let rest ← readEach read buffers p.2
      pure (p.1 ++ rest.1, rest.2)

/-- **In the states `R` relates to some data, the source is the stream of it.** -/
def Delivers (read : Source ε σ) (R : σ → List UInt8 → Prop) : Prop :=
  ∀ s data n, R s data → ∃ out rest s', data = out ++ rest ∧ read s n = .ok (out, s') ∧
    R s' rest ∧ out.length ≤ n ∧ (0 < n → data ≠ [] → out ≠ [])

/-! ## §2. Reading from them. -/

section Delivers

variable {read : Source ε σ} {R : σ → List UInt8 → Prop}

/-- **What is asked for is read**, in however many calls. -/
theorem Delivers.readExact (h : Delivers read R) (eof : ε) (n : Nat) :
    ∀ s data more, R s (data ++ more) → data.length = n →
      ∃ s', readExactFrom read eof n s = .ok (data, s') ∧ R s' more := by
  induction n using Nat.strongRecOn with
  | ind n ih =>
      intro s data more hs hlen
      unfold readExactFrom
      by_cases hn : n = 0
      · obtain rfl : data = [] := List.length_eq_zero_iff.mp (hlen.trans hn)
        rw [dif_pos hn]
        exact ⟨s, rfl, hs⟩
      · obtain ⟨out, rest, s', hdata, hread, hs', hle, hne⟩ := h s (data ++ more) n hs
        have hout : out ≠ [] := by
          refine hne (by omega) fun hnil => hn ?_
          rw [← hlen, (List.append_eq_nil_iff.mp hnil).1, List.length_nil]
        have hpos : 0 < out.length := List.length_pos_iff.mpr hout
        -- the piece lies within the data
        obtain ⟨left, rfl⟩ : out <+: data :=
          List.prefix_of_prefix_length_le ⟨rest, hdata.symm⟩ ⟨more, rfl⟩ (by omega)
        rw [List.append_assoc] at hdata
        rw [← List.append_cancel_left hdata] at hs'
        rw [List.length_append] at hlen
        obtain ⟨s'', hread', hs''⟩ := ih (n - out.length) (by omega) s' left more hs' (by omega)
        refine ⟨s'', ?_, hs''⟩
        rw [dif_neg hn, hread]
        dsimp only [ok_bind]
        rw [dif_neg hout, hread']
        rfl

/-- **Buffer by buffer the data comes in order.**  When no buffer is empty, and
there are as many as bytes, all of it has come. -/
theorem Delivers.readEach (h : Delivers read R) (buffers : List Nat) :
    ∀ s data, R s data → ∃ out rest s', data = out ++ rest ∧
      readEach read buffers s = .ok (out, s') ∧ R s' rest ∧
      ((∀ n ∈ buffers, 0 < n) → data.length ≤ buffers.length → rest = []) := by
  induction buffers with
  | nil =>
      intro s data hs
      refine ⟨[], data, s, rfl, rfl, hs, fun _ hlen => ?_⟩
      exact List.length_eq_zero_iff.mp (Nat.le_zero.mp hlen)
  | cons n buffers ih =>
      intro s data hs
      obtain ⟨out, rest, s', hdata, hread, hs', -, hne⟩ := h s data n hs
      obtain ⟨out', rest', s'', hrest, hread', hs'', hall⟩ := ih s' rest hs'
      refine ⟨out ++ out', rest', s'', ?_, ?_, hs'', ?_⟩
      · rw [hdata, hrest, List.append_assoc]
      · unfold Lib.readEach
        rw [hread]
        dsimp only [ok_bind]
        rw [hread']
        rfl
      · intro hpos hlen
        have hn : 0 < n := hpos n List.mem_cons_self
        rw [List.length_cons] at hlen
        refine hall (fun m hm => hpos m (List.mem_cons_of_mem _ hm)) ?_
        by_cases hnil : data = []
        · rw [hnil] at hdata
          rw [(List.append_eq_nil_iff.mp hdata.symm).2]
          exact Nat.zero_le _
        · have hout : 0 < out.length := List.length_pos_iff.mpr (hne hn hnil)
          rw [hdata, List.length_append] at hlen
          omega

/-- **Reading from the state gives the data and nothing else**, whatever the
buffers are: what has been read is a piece from its front, all of it once a read
into a buffer that is not empty gives nothing, and at the latest when there were
as many such buffers as bytes. -/
def ReadsAll (read : Source ε σ) (s : σ) (data : List UInt8) : Prop :=
  ∀ buffers, ∃ out rest s', data = out ++ rest ∧ Lib.readEach read buffers s = .ok (out, s') ∧
    (∀ n s'', 0 < n → read s' n = .ok ([], s'') → rest = []) ∧
    ((∀ n ∈ buffers, 0 < n) → data.length ≤ buffers.length → rest = [])

theorem Delivers.readsAll (h : Delivers read R) {s : σ} {data : List UInt8} (hs : R s data) :
    ReadsAll read s data := by
  intro buffers
  obtain ⟨out, rest, s', hdata, hread, hs', hall⟩ := h.readEach buffers s data hs
  refine ⟨out, rest, s', hdata, hread, ?_, hall⟩
  intro n s'' hn hnil
  obtain ⟨out', rest', t, hrest, hread', -, -, hne⟩ := h s' rest n hs'
  rw [hread'] at hnil
  cases hnil
  exact not_not.mp fun h => hne hn h rfl

end Delivers

end OcamlJit.Lib

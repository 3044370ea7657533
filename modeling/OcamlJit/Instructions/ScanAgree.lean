/-
  OcamlJit.Instructions.ScanAgree
  ───────────────────────────────
  **THE SCANNER AGAINST THE DECODER.**

  The two walk the same words independently.  `Follows` says that wherever a
  decoding step succeeds, a scanning step succeeds too and lands on the same
  word; it composes along `>>=`, so it is checked once per opcode.

  The operand table of the scanner counts two operands for `ULTINT` and
  `UGEINT`, which have none.  On every array without these two opcodes (and
  without a closure entry `GRAB -1`, whose arity overflows) the scanner finds
  exactly the closures of the decoded stream: `closureScan_agrees`.  With one of
  them it can lose its place: `closureScan_loses_place`.
-/
import OcamlJit.Instructions.Decode
import OcamlJit.Instructions.ClosureScan

namespace OcamlJit.Instructions

open OcamlJit.Lib

namespace ClosureIterator

/-! ## §1. Scanning steps that follow decoding steps. -/

/-- Where the decoding step `r` succeeds, the scanning step `s` succeeds on the
same words with a related value. -/
def Follows {α β : Type} (code : List Word) (r : Reader α) (s : Scanner β)
    (R : α → β → Prop) : Prop :=
  ∀ p a c', r ⟨code.drop p, p⟩ = .ok (a, c') →
    c'.iter = code.drop c'.position ∧ ∃ b, s p = .ok (b, c'.position) ∧ R a b

/-- A scanner runs its parts one after the other. -/
theorem scanner_bind_ok {α β : Type} {x : Scanner α} {f : α → Scanner β}
    {p p' p'' : Nat} {a : α} {b : β} (hx : x p = .ok (a, p'))
    (hf : f a p' = .ok (b, p'')) : (x >>= f) p = .ok (b, p'') := by
  show (x p >>= fun q => f q.1 q.2) = _
  rw [hx]
  exact hf

/-- **The rule of sequence**: the scanner comes to the word the decoder comes to. -/
theorem Follows.bind {α β α' β' : Type} {code : List Word} {r : Reader α}
    {s : Scanner β} {R : α → β → Prop} {f : α → Reader α'} {g : β → Scanner β'}
    {R' : α' → β' → Prop} (h : Follows code r s R)
    (hfg : ∀ a b, R a b → Follows code (f a) (g b) R') :
    Follows code (r >>= f) (s >>= g) R' := by
  intro p a' c'' hr
  obtain ⟨a, c', h1, h2⟩ := reader_bind_ok.mp hr
  obtain ⟨hc, b, hs, hR⟩ := h p a c' h1
  obtain ⟨iter, position⟩ := c'
  simp only at hc
  subst hc
  obtain ⟨hc', b', hg, hR'⟩ := hfg a b hR position a' c'' h2
  exact ⟨hc', b', scanner_bind_ok hs hg, hR'⟩

/-- Nothing is read on either side. -/
theorem follows_pure {α β : Type} {code : List Word} {R : α → β → Prop} {a : α} {b : β}
    (h : R a b) : Follows code (pure a) (pure b) R := by
  intro p a' c' hr
  obtain ⟨rfl, rfl⟩ := reader_pure_ok.mp hr
  exact ⟨rfl, b, rfl, h⟩

/-- A weaker relation between what was read. -/
theorem Follows.mono {α β : Type} {code : List Word} {r : Reader α} {s : Scanner β}
    {R R' : α → β → Prop} (h : Follows code r s R) (hR : ∀ a b, R a b → R' a b) :
    Follows code r s R' := by
  intro p a c' hr
  obtain ⟨hc, b, hs, hb⟩ := h p a c' hr
  exact ⟨hc, b, hs, hR a b hb⟩

/-- Both read a word. -/
theorem i32_follows (code : List Word) : Follows code Reader.i32 (i32 code) Eq := by
  intro p v c' hr
  cases hp : code[p]? with
  | none =>
      rw [List.getElem?_eq_none_iff] at hp
      rw [List.drop_eq_nil_of_le hp] at hr
      exact absurd hr (by simp [Reader.i32, err])
  | some w =>
      obtain ⟨hlt, hw⟩ := List.getElem?_eq_some_iff.mp hp
      rw [List.drop_eq_getElem_cons hlt, hw] at hr
      simp only [Reader.i32, Except.ok.injEq, Prod.mk.injEq] at hr
      obtain ⟨rfl, rfl⟩ := hr
      refine ⟨rfl, w, ?_, rfl⟩
      simp [i32, hp]

theorem u32_follows (code : List Word) : Follows code Reader.u32 (u32 code) Eq :=
  (i32_follows code).bind fun _ _ h => follows_pure (by rw [h])

theorem currentPosition_follows (code : List Word) :
    Follows code Reader.currentPosition currentPosition Eq := by
  intro p a c' hr
  simp only [Reader.currentPosition, Except.ok.injEq, Prod.mk.injEq] at hr
  obtain ⟨rfl, rfl⟩ := hr
  exact ⟨rfl, p, rfl, rfl⟩

/-- The two label computations agree wherever the decoder's succeeds. -/
theorem resolveLabel_follows {position l : Nat} {rel : Word}
    (h : Reader.resolveLabel position rel = .ok l) :
    ClosureIterator.resolveLabel position rel = .ok l := by
  unfold Reader.resolveLabel panicked err at h
  unfold ClosureIterator.resolveLabel
  dsimp only at h ⊢
  split at h
  · cases h
  next hrange =>
    split at h
    · cases h
    next hneg =>
      rw [if_neg hrange, if_neg hneg]
      injection h with h
      rw [h]

theorem labelAt_follows (code : List Word) (position : Nat) :
    Follows code (Reader.labelAt position) (labelAt code position) Eq := by
  refine (i32_follows code).bind ?_
  rintro rel _ rfl p l c' hr
  cases hl : Reader.resolveLabel position rel with
  | error e =>
      rw [hl] at hr
      exact absurd hr (by simp [Except.map])
  | ok l' =>
      rw [hl] at hr
      simp only [Except.map, Except.ok.injEq, Prod.mk.injEq] at hr
      obtain ⟨rfl, rfl⟩ := hr
      refine ⟨rfl, l', ?_, rfl⟩
      rw [resolveLabel_follows hl]
      rfl

/-- Both read a label. -/
theorem label_follows (code : List Word) :
    Follows code Reader.label (label code) Eq := by
  refine (currentPosition_follows code).bind ?_
  rintro p _ rfl
  exact labelAt_follows code p

/-- Both read an opcode. -/
theorem opcode_follows (code : List Word) :
    Follows code Reader.opcode (opcode code) Eq := by
  intro p op c' hr
  obtain ⟨v, c1, h1, h2⟩ := reader_bind_ok.mp hr
  obtain ⟨hc1, w, hw, rfl⟩ := i32_follows code p v c1 h1
  cases hop : Opcode.fromI32 v with
  | none =>
      rw [hop] at h2
      exact absurd h2 (by simp [err])
  | some op' =>
      rw [hop] at h2
      obtain ⟨rfl, rfl⟩ := reader_pure_ok.mp h2
      refine ⟨hc1, op', ?_, rfl⟩
      unfold i32 at hw
      unfold opcode
      cases hp : code[p]? with
      | none =>
          rw [hp] at hw
          exact absurd hw (by simp [err])
      | some v' =>
          rw [hp] at hw
          simp only [Except.ok.injEq, Prod.mk.injEq] at hw
          obtain ⟨rfl, hpos⟩ := hw
          simp only [hop, hpos]

/-- Skipping `n` words follows any step that takes exactly `n` words. -/
theorem skip_follows (code : List Word) {α : Type} :
    ∀ (n : Nat) (r : Reader α), ReadsN n r →
      Follows code r (skip code n) fun _ _ => True := by
  intro n r hr p a c' hrun
  obtain ⟨hle, rfl⟩ := hr _ _ _ hrun
  simp only [List.length_drop] at hle
  refine ⟨by rw [List.drop_drop], (), ?_, trivial⟩
  have key : ∀ m q, q + m ≤ code.length → skip code m q = .ok ((), q + m) := by
    intro m
    induction m with
    | zero => intro q _; rfl
    | succ m ih =>
        intro q hq
        have hlt : q < code.length := by omega
        have hi : i32 code q = .ok (code[q], q + 1) := by
          simp [i32, List.getElem?_eq_getElem hlt]
        refine scanner_bind_ok hi ?_
        rw [ih (q + 1) (by omega)]
        congr 2
        omega
  cases n with
  | zero => rfl
  | succ n => exact key (n + 1) p (by omega)

/-! ## §2. Closure entries. -/

/-- `get_closure_at` succeeds at `l`. -/
def HasEntry (code : List Word) (l : Nat) : Prop :=
  ∃ f, getClosureAt code l = .ok f

/-- The closure at an offset knows its offset. -/
theorem getClosureAt_codeOffset {code : List Word} {l : Nat} {f : Closure}
    (h : getClosureAt code l = .ok f) : f.codeOffset = l := by
  unfold getClosureAt err at h
  split at h
  · cases h
  · split at h
    · split at h
      · cases h
      · obtain ⟨arity, -, h⟩ := bind_eq_ok.mp h
        cases h
        rfl
    · cases h
      rfl

/-- The entry of a closure: an opcode that decodes, and if it is `GRAB`, an
operand other than `-1`, whose arity would overflow. -/
theorem hasEntry_of_decodeAt {code : List Word} {l l' : Nat}
    {is : List (Instruction Nat)} (hd : decodeAt code l = .ok (is, l'))
    (hgrab : Instruction.grab (2 ^ 32 - 1) ∉ is) : HasEntry code l := by
  have hr := decodeAt_cursor hd
  obtain ⟨op, c1, hop, hr⟩ := reader_bind_ok.mp hr
  obtain ⟨v, c2, hv, hop⟩ := reader_bind_ok.mp hop
  obtain ⟨hc2, w, hw, rfl⟩ := i32_follows code l v c2 hv
  have hword : code[l]? = some v ∧ c2.position = l + 1 := by
    unfold i32 at hw
    cases hp : code[l]? with
    | none =>
        rw [hp] at hw
        exact absurd hw (by simp [err])
    | some v' =>
        rw [hp] at hw
        simp only [Except.ok.injEq, Prod.mk.injEq] at hw
        exact ⟨by rw [hw.1], hw.2.symm⟩
  unfold HasEntry getClosureAt
  rw [hword.1]
  simp only
  -- `get_closure_at` reads the arity from the operand of a `GRAB`
  by_cases hg : Opcode.fromI32 v = some .grab
  · rw [if_pos hg]
    rw [hg] at hop
    obtain ⟨rfl, rfl⟩ := reader_pure_ok.mp hop
    obtain ⟨n, c3, hn, hpure⟩ := reader_bind_ok.mp hr
    obtain ⟨rfl, -⟩ := reader_pure_ok.mp hpure
    obtain ⟨v2, c4, hv2, hn⟩ := reader_bind_ok.mp hn
    obtain ⟨rfl, -⟩ := reader_pure_ok.mp hn
    obtain ⟨iter, position⟩ := c2
    simp only at hc2 hword
    obtain ⟨hcode, rfl⟩ := hword
    subst hc2
    obtain ⟨-, w, hw2, rfl⟩ := i32_follows code (l + 1) v2 c4 hv2
    have hne : v2.toNat ≠ 2 ^ 32 - 1 := by
      intro h
      exact hgrab (by simp [u32OfWord, h])
    unfold i32 at hw2
    cases hp : code[l + 1]? with
    | none =>
        rw [hp] at hw2
        exact absurd hw2 (by simp [err])
    | some v' =>
        rw [hp] at hw2
        simp only [Except.ok.injEq, Prod.mk.injEq] at hw2
        obtain ⟨rfl, -⟩ := hw2
        -- the operand is sign extended, so only -1 is the largest usize
        have hsmall : usizeOfWord v' + 1 < 2 ^ 64 := by
          have h64 := (v'.signExtend 64).isLt
          rcases Nat.lt_or_ge ((v'.signExtend 64).toNat + 1) (2 ^ 64) with h | h
          · exact h
          · exfalso
            have hall : v'.signExtend 64 = -1#64 := by
              apply BitVec.eq_of_toNat_eq
              simp
              omega
            have hint : v'.toInt = (-1#32).toInt := by
              rw [← BitVec.toInt_signExtend_of_le (show 32 ≤ 64 by omega), hall]
              rfl
            exact hne (by rw [BitVec.eq_of_toInt_eq hint]; rfl)
        simp only [addU, if_pos hsmall, ok_bind, pure, Except.pure, Except.ok.injEq]
        exact ⟨_, rfl⟩
  · rw [if_neg hg]
    exact ⟨_, rfl⟩

/-! ## §3. One opcode. -/

/-- The scanner skips exactly the operand words the decoder reads, for every
opcode but the two unsigned comparisons. -/
theorem readOperands_readsN (op : Opcode) (hlt : op ≠ .uLtInt) (hge : op ≠ .uGeInt) :
    (scanCase op = .nullary → ReadsN 0 (readOperands op)) ∧
    (scanCase op = .unary → ReadsN 1 (readOperands op)) ∧
    (scanCase op = .binary → ReadsN 2 (readOperands op)) := by
  have hu32 := Reader.u32_readsN
  have hu8 := Reader.u8_readsN
  have hsint := Reader.sint_readsN
  have hlabel := Reader.label_readsN
  cases op <;> simp only [scanCase, readOperands, reduceCtorEq, false_implies, true_implies,
      true_and, and_true, ne_eq, not_true_eq_false, not_false_eq_true] at hlt hge ⊢ <;>
    repeat' (first
      | exact readsN_pure _
      | assumption
      | refine ReadsN.bind_one ?_ fun _ => ?_)

/-- Only the closure opcodes decode to closure instructions. -/
theorem readOperands_foundClosure (op : Opcode) (hc : scanCase op ≠ .closure)
    (hr : scanCase op ≠ .closureRec) :
    Yields (fun is => is.flatMap Instruction.foundClosure = []) (readOperands op) := by
  cases op <;> simp only [scanCase, readOperands, reduceCtorEq, ne_eq, not_true_eq_false,
      not_false_eq_true] at hc hr ⊢ <;>
    repeat' (first
      | exact yields_pure rfl
      | refine yields_bind fun _ => ?_)

/-- Reading the functions of a `CLOSUREREC` follows reading its labels. -/
theorem readFuncs_of_labels {code : List Word} {position : Nat} :
    ∀ {count p : Nat} {ls : List Nat} {c' : Cursor},
      Reader.getLabelList count position ⟨code.drop p, p⟩ = .ok (ls, c') →
      (∀ l ∈ ls, HasEntry code l) →
      c'.iter = code.drop c'.position ∧
        ∃ fs, readFuncs code count position p = .ok (fs, c'.position) ∧
          fs.map Closure.codeOffset = ls
  | 0, p, ls, c', h, _ => by
      obtain ⟨rfl, rfl⟩ := reader_pure_ok.mp h
      exact ⟨rfl, [], rfl, rfl⟩
  | count + 1, p, ls, c', h, hent => by
      obtain ⟨l, c1, hl, h⟩ := reader_bind_ok.mp h
      obtain ⟨ls', c2, hls, h⟩ := reader_bind_ok.mp h
      obtain ⟨rfl, rfl⟩ := reader_pure_ok.mp h
      obtain ⟨hc1, l', hl', rfl⟩ := labelAt_follows code position p l c1 hl
      obtain ⟨iter, q⟩ := c1
      simp only at hc1
      subst hc1
      obtain ⟨f, hf⟩ := hent l List.mem_cons_self
      obtain ⟨hc2, fs, hfs, hmap⟩ := readFuncs_of_labels hls
        fun k hk => hent k (List.mem_cons_of_mem l hk)
      refine ⟨hc2, f :: fs, ?_, ?_⟩
      · refine scanner_bind_ok hl' (scanner_bind_ok ?_ (scanner_bind_ok hfs rfl))
        show (getClosureAt code l >>= fun a => pure (a, q)) = _
        rw [hf]
        rfl
      · rw [List.map_cons, hmap, getClosureAt_codeOffset hf]

/-- **One turn of the scanner's loop** lands where the decoder lands and finds
the closure the decoder's instruction creates. -/
theorem scanOperands_agrees {code : List Word} {op : Opcode} (hlt : op ≠ .uLtInt)
    (hge : op ≠ .uGeInt) {p : Nat} {is : List (Instruction Nat)} {c' : Cursor}
    (h : readOperands op ⟨code.drop p, p⟩ = .ok (is, c'))
    (hent : ∀ l ∈ is.flatMap Instruction.closureLabels, HasEntry code l) :
    ∃ found, scanOperands code op p = .ok (found, c'.position) ∧
      found.toList.map FoundClosure.shape = is.flatMap Instruction.foundClosure := by
  -- the arms that only skip words
  have hskip : ∀ n, ReadsN n (readOperands op) → scanCase op ≠ .closure →
      scanCase op ≠ .closureRec →
      (do skip code n; pure none : Scanner (Option FoundClosure)) p
        = .ok (none, c'.position)
      ∧ is.flatMap Instruction.foundClosure = [] := by
    intro n hn hc hr
    obtain ⟨-, _, hs, -⟩ := skip_follows code n _ hn p is c' h
    exact ⟨scanner_bind_ok hs rfl, (readOperands_foundClosure op hc hr).elim h⟩
  obtain ⟨hnull, hun, hbin⟩ := readOperands_readsN op hlt hge
  unfold scanOperands
  cases hcase : scanCase op with
  | nullary =>
      obtain ⟨hs, hf⟩ := hskip 0 (hnull hcase) (by simp [hcase]) (by simp [hcase])
      exact ⟨none, hs, hf.symm⟩
  | unary =>
      obtain ⟨hs, hf⟩ := hskip 1 (hun hcase) (by simp [hcase]) (by simp [hcase])
      exact ⟨none, hs, hf.symm⟩
  | binary =>
      obtain ⟨hs, hf⟩ := hskip 2 (hbin hcase) (by simp [hcase]) (by simp [hcase])
      exact ⟨none, hs, hf.symm⟩
  -- the counts are read, and that many words skipped
  | switch =>
      have hop : op = .switch := by
        cases op <;> simp [scanCase] at hcase
        rfl
      subst hop
      have hf := (readOperands_foundClosure .switch (by simp [hcase]) (by simp [hcase])).elim h
      obtain ⟨n, c1, hn, h⟩ := reader_bind_ok.mp h
      obtain ⟨hc1, n', hn', rfl⟩ := u32_follows code p n c1 hn
      obtain ⟨iter, q⟩ := c1
      simp only at hc1
      subst hc1
      have hreads : ReadsN (n % 2 ^ 16 + n / 2 ^ 16) (do
          let pos ← Reader.currentPosition
          let ints ← Reader.getLabelList (n % 2 ^ 16) pos
          let tags ← Reader.getLabelList (n / 2 ^ 16) pos
          pure [Instruction.switch ints tags]) := by
        have hall := ReadsN.bind Reader.currentPosition_readsN fun pos =>
          (Reader.getLabelList_readsN (n % 2 ^ 16) pos).bind fun ints =>
            (Reader.getLabelList_readsN (n / 2 ^ 16) pos).bind fun tags =>
              readsN_pure [Instruction.switch ints tags]
        rwa [show 0 + n / 2 ^ 16 + n % 2 ^ 16 + 0 = n % 2 ^ 16 + n / 2 ^ 16 by omega] at hall
      obtain ⟨-, _, hs, -⟩ := skip_follows code _ _ hreads q is c' h
      exact ⟨none, scanner_bind_ok hn' (scanner_bind_ok hs rfl), hf.symm⟩
  -- the label is where `get_closure_at` looks
  | closure =>
      have hop : op = .closure := by
        cases op <;> simp [scanCase] at hcase
        rfl
      subst hop
      obtain ⟨n, c1, hn, h⟩ := reader_bind_ok.mp h
      obtain ⟨hc1, n', hn', rfl⟩ := u32_follows code p n c1 hn
      obtain ⟨iter, q⟩ := c1
      simp only at hc1
      subst hc1
      obtain ⟨l, c2, hl, h⟩ := reader_bind_ok.mp h
      obtain ⟨hc2, l', hl', rfl⟩ := label_follows code q l c2 hl
      obtain ⟨rfl, rfl⟩ := reader_pure_ok.mp h
      obtain ⟨f, hf⟩ := hent l (by simp [Instruction.closureLabels])
      refine ⟨some (.normal f n), ?_, ?_⟩
      · refine scanner_bind_ok hn' (scanner_bind_ok hl' ?_)
        show (getClosureAt code l >>= fun a => pure (a, c2.position)) >>= _ = _
        rw [hf]
        rfl
      · simp [FoundClosure.shape, Instruction.foundClosure, getClosureAt_codeOffset hf]
  -- the labels count from the word after the two counts
  | closureRec =>
      have hop : op = .closureRec := by
        cases op <;> simp [scanCase] at hcase
        rfl
      subst hop
      obtain ⟨nfuncs, c1, hn, h⟩ := reader_bind_ok.mp h
      obtain ⟨hc1, _, hn', rfl⟩ := u32_follows code p nfuncs c1 hn
      obtain ⟨iter, q⟩ := c1
      simp only at hc1
      subst hc1
      obtain ⟨nvars, c2, hv, h⟩ := reader_bind_ok.mp h
      obtain ⟨hc2, _, hv', rfl⟩ := u32_follows code q nvars c2 hv
      obtain ⟨iter, q'⟩ := c2
      simp only at hc2
      subst hc2
      obtain ⟨pos, c3, hpos, h⟩ := reader_bind_ok.mp h
      obtain ⟨hc3, _, hpos', rfl⟩ := currentPosition_follows code q' pos c3 hpos
      obtain ⟨iter, q''⟩ := c3
      simp only at hc3
      subst hc3
      obtain ⟨ls, c4, hls, h⟩ := reader_bind_ok.mp h
      obtain ⟨rfl, rfl⟩ := reader_pure_ok.mp h
      obtain ⟨-, fs, hfs, hmap⟩ := readFuncs_of_labels hls
        fun l hl => hent l (by simpa [Instruction.closureLabels] using hl)
      refine ⟨some (.rec_ fs nvars), ?_, ?_⟩
      · exact scanner_bind_ok hn' (scanner_bind_ok hv'
          (scanner_bind_ok hpos' (scanner_bind_ok hfs rfl)))
      · simp [FoundClosure.shape, Instruction.foundClosure, hmap]

/-! ## §4. Whole arrays. -/

/-- The scanner's entries and its operand table are right for the stream `is`. -/
structure ScanReady (code : List Word) (is : List (Instruction Nat)) : Prop where
  entries : ∀ l ∈ is.flatMap Instruction.closureLabels, HasEntry code l
  no_uLt : .intCmp .uLt ∉ is
  no_uGe : .intCmp .uGe ∉ is

/-- What is ready is ready without its first part. -/
theorem ScanReady.of_append {code : List Word} {js is : List (Instruction Nat)}
    (h : ScanReady code (js ++ is)) : ScanReady code is where
  entries l hl := h.entries l (by rw [List.flatMap_append]; exact List.mem_append_right _ hl)
  no_uLt hm := h.no_uLt (List.mem_append_right _ hm)
  no_uGe hm := h.no_uGe (List.mem_append_right _ hm)

/-- One opcode of a stream the scanner is ready for. -/
theorem scan_step {code : List Word} {off off' : Nat} {js rest : List (Instruction Nat)}
    (hd : decodeAt code off = .ok (js, off')) (hready : ScanReady code (js ++ rest)) :
    ∃ op found, opcode code off = .ok (op, off + 1) ∧
      scanOperands code op (off + 1) = .ok (found, off') ∧
      found.toList.map FoundClosure.shape = js.flatMap Instruction.foundClosure := by
  obtain ⟨op, c1, hop, hr⟩ := reader_bind_ok.mp (decodeAt_cursor hd)
  obtain ⟨-, rfl⟩ := Reader.opcode_readsN _ op c1 hop
  obtain ⟨-, op', hop', rfl⟩ := opcode_follows code off op _ hop
  simp only [List.drop_drop] at hr
  have hlt : op ≠ .uLtInt := by
    rintro rfl
    obtain ⟨rfl, -⟩ := reader_pure_ok.mp hr
    exact hready.no_uLt (by simp)
  have hge : op ≠ .uGeInt := by
    rintro rfl
    obtain ⟨rfl, -⟩ := reader_pure_ok.mp hr
    exact hready.no_uGe (by simp)
  obtain ⟨found, hs, hshape⟩ := scanOperands_agrees hlt hge hr fun l hl =>
    hready.entries l (by rw [List.flatMap_append]; exact List.mem_append_left _ hl)
  exact ⟨op, found, hop', hs, hshape⟩

/-- `next_closure_impl` from an instruction boundary: either no closure is left
and it stops at the end of the code, or it finds the next one and stands at the
boundary after it. -/
theorem nextClosureImpl_spec {code : List Word} {off : Nat} {is : List (Instruction Nat)}
    (hdec : Decodes code off is) :
    ∀ fuel, code.length - off < fuel → ScanReady code is →
      (is.flatMap Instruction.foundClosure = [] ∧
        nextClosureImpl code fuel off = .error (.error .atEnd)) ∨
      ∃ found off' rest, nextClosureImpl code fuel off = .ok (found, off') ∧
        Decodes code off' rest ∧ off < off' ∧ ScanReady code rest ∧
        is.flatMap Instruction.foundClosure
          = found.shape :: rest.flatMap Instruction.foundClosure := by
  induction hdec with
  | done =>
      intro fuel hfuel _
      cases fuel with
      | zero => exact absurd hfuel (Nat.not_lt_zero _)
      | succ fuel =>
          left
          refine ⟨rfl, ?_⟩
          show (opcode code code.length >>= fun q => _) = _
          simp [opcode, err]
  | @step off off' js rest hd hrest ih =>
      intro fuel hfuel hready
      obtain ⟨hlt, hle, -, -⟩ := decodeAt_bounds hd
      cases fuel with
      | zero => exact absurd hfuel (Nat.not_lt_zero _)
      | succ fuel =>
          have hready' : ScanReady code (js ++ rest) :=
            ScanReady.of_append (show ScanReady code ([_] ++ (js ++ rest)) from hready)
          obtain ⟨op, found, hop, hs, hshape⟩ := scan_step hd hready'
          have hflat : (Instruction.labelDef off :: js ++ rest).flatMap
              Instruction.foundClosure
                = found.toList.map FoundClosure.shape
                  ++ rest.flatMap Instruction.foundClosure := by
            rw [hshape, List.cons_append, List.flatMap_cons, List.flatMap_append]
            rfl
          rw [hflat]
          -- a closure is returned, and after another opcode the loop goes on
          cases found with
          | some found =>
              right
              refine ⟨found, off', rest, ?_, hrest, hlt, hready'.of_append, rfl⟩
              exact scanner_bind_ok hop (scanner_bind_ok hs rfl)
          | none =>
              have hrun : nextClosureImpl code (fuel + 1) off
                  = nextClosureImpl code fuel off' := by
                show (opcode code off >>= fun q => _) = _
                rw [hop]
                show (scanOperands code op (off + 1) >>= fun q => _) = _
                rw [hs]
                rfl
              rw [hrun]
              rcases ih fuel (by omega) hready'.of_append with ⟨hnil, hstop⟩ | h
              · left
                exact ⟨by simp [hnil], hstop⟩
              · right
                obtain ⟨f, off'', rest', hf, hdec', hlt', hready'', heq⟩ := h
                exact ⟨f, off'', rest', hf, hdec', by omega, hready'', by simp [heq]⟩

/-- Iterating from an instruction boundary finds the closures of the stream and
stops at the end of the code. -/
theorem collect_spec {code : List Word} :
    ∀ (fuel off : Nat) (is : List (Instruction Nat)), code.length - off < fuel →
      Decodes code off is → ScanReady code is →
      (collect code fuel off).1.map FoundClosure.shape
          = is.flatMap Instruction.foundClosure ∧
        (collect code fuel off).2 = .error .atEnd
  | 0, _, _, hfuel, _, _ => absurd hfuel (Nat.not_lt_zero _)
  | fuel + 1, off, is, hfuel, hdec, hready => by
      simp only [collect]
      rcases nextClosureImpl_spec hdec (code.length + 1) (by omega) hready with
        ⟨hnil, hstop⟩ | ⟨found, off', rest, hf, hdec', hlt, hready', heq⟩
      · rw [hstop, hnil]
        exact ⟨rfl, rfl⟩
      · have hle : off' ≤ code.length := by
          cases hdec' with
          | done => exact Nat.le_refl _
          | step hd _ => have := decodeAt_bounds hd; omega
        obtain ⟨h1, h2⟩ := collect_spec fuel off' rest (by omega) hdec' hready'
        rw [hf, heq, ← h1]
        exact ⟨rfl, h2⟩

end ClosureIterator

/-! ## §5. The closure table. -/

/-- A closure that was added is in the table, and what was there stays. -/
theorem addClosures_keys {l : Nat} :
    ∀ (fs : List Closure) (n : Nat) (t t' : ClosureTable),
      addClosures fs n t = .ok t' →
      (l ∈ fs.map Closure.codeOffset ∨ (t.get l).isSome = true) → (t'.get l).isSome = true
  | [], n, t, t', h, hl => by
      injection h with h
      subst h
      simpa using hl
  | f :: fs, n, t, t', h, hl => by
      obtain ⟨t1, h1, h⟩ := bind_eq_ok.mp h
      refine addClosures_keys fs (n + 1) t1 t' h ?_
      unfold addClosure panicked at h1
      split at h1
      · cases h1
      · injection h1 with h1
        subst h1
        simp only [List.map_cons, List.mem_cons] at hl
        by_cases hf : l = f.codeOffset
        · right
          simp [ClosureTable.get, hf]
        · rcases hl with (h | h) | h
          · exact absurd h hf
          · exact .inl h
          · right
            have hb : (l == f.codeOffset) = false := by simpa using hf
            simp only [ClosureTable.get, List.lookup_cons, hb]
            exact h

/-- The functions found are those of the shapes. -/
theorem flatMap_funcs (found : List FoundClosure) :
    (found.flatMap FoundClosure.funcs).map Closure.codeOffset
      = (found.map FoundClosure.shape).flatMap Prod.fst := by
  rw [List.map_flatMap, List.flatMap_map]
  congr 1
  funext f
  cases f <;> rfl

/-- And their labels those of the instructions. -/
theorem flatMap_closureLabels (is : List (Instruction Nat)) :
    is.flatMap Instruction.closureLabels
      = (is.flatMap Instruction.foundClosure).flatMap Prod.fst := by
  rw [List.flatMap_assoc]
  congr 1
  funext i
  cases i <;> simp [Instruction.closureLabels, Instruction.foundClosure]

/-! ## §6. Agreement. -/

/-- What the code generator needs of the scan of `code`, when the decoder
yields `is`. -/
structure ScanAgrees (code : List Word) (is : List (Instruction Nat)) : Prop where
  /-- The scan runs to the end of the code. -/
  stops_at_end : (ClosureIterator.run code).2 = .error .atEnd
  /-- It yields the closures of the stream, in order. -/
  same_closures : (ClosureIterator.run code).1.map FoundClosure.shape
    = is.flatMap Instruction.foundClosure
  /-- `closures.get(..).unwrap()` in `emit_instruction` never fails. -/
  labels_are_keys : ∀ t, scanClosures code = .ok t →
    ∀ l ∈ is.flatMap Instruction.closureLabels, (t.get l).isSome = true

/-- A closure label is an instruction boundary inside the array. -/
def ClosureLabelsAreBoundaries (is : List (Instruction Nat)) : Prop :=
  ∀ l ∈ is.flatMap Instruction.closureLabels, .labelDef l ∈ is

instance (is : List (Instruction Nat)) : Decidable (ClosureLabelsAreBoundaries is) :=
  inferInstanceAs (Decidable (∀ l ∈ is.flatMap Instruction.closureLabels, .labelDef l ∈ is))

/-- No `ULTINT`, no `UGEINT`, and no closure entry `GRAB -1`. -/
def ScanTableRight (code : List Word) (is : List (Instruction Nat)) : Prop :=
  .intCmp .uLt ∉ is ∧ .intCmp .uGe ∉ is ∧
    ∀ l ∈ is.flatMap Instruction.closureLabels, ∀ js l',
      decodeAt code l = .ok (js, l') → .grab (2 ^ 32 - 1) ∉ js

/-- A label that is defined is that of an instruction. -/
theorem Decodes.decodeAt_of_labelDef {code : List Word} {off l : Nat}
    {is : List (Instruction Nat)} (h : Decodes code off is) (hl : .labelDef l ∈ is)
    (hno : ∀ js p p', decodeAt code p = .ok (js, p') → .labelDef l ∉ js) :
    ∃ js l', decodeAt code l = .ok (js, l') := by
  induction h with
  | done => exact absurd hl List.not_mem_nil
  | @step off off' js rest hd _ ih =>
      simp only [List.cons_append, List.mem_cons, List.mem_append,
        Instruction.labelDef.injEq] at hl
      rcases hl with rfl | hl | hl
      · exact ⟨js, off', hd⟩
      · exact absurd hl (hno js off off' hd)
      · exact ih hl

/-- **The scanner finds exactly the closures of the decoded stream**, and every
closure label the code generator looks up is a key of its table, on every array
the operand table is right for. -/
theorem closureScan_agrees (code : List Word) (is : List (Instruction Nat))
    (hdec : decodeAll code = .ok is) (hlab : ClosureLabelsAreBoundaries is)
    (htable : ScanTableRight code is) : ScanAgrees code is := by
  have hd := decodeAll_eq_ok.mp hdec
  obtain ⟨hlt, hge, hgrab⟩ := htable
  have hready : ClosureIterator.ScanReady code is := by
    refine ⟨?_, hlt, hge⟩
    intro l hl
    obtain ⟨js, l', hjs⟩ := hd.decodeAt_of_labelDef (hlab l hl)
      fun _ _ _ h => (decodeAt_queueOk h).not_mem_labelDef
    exact ClosureIterator.hasEntry_of_decodeAt hjs (hgrab l hl js l' hjs)
  obtain ⟨hshape, hstop⟩ :=
    ClosureIterator.collect_spec (code.length + 1) 0 is (by omega) hd hready
  refine ⟨hstop, hshape, ?_⟩
  intro t ht l hl
  have hrun : ClosureIterator.run code = ((ClosureIterator.run code).1, .error .atEnd) := by
    rw [← hstop]
    rfl
  unfold scanClosures at ht
  rw [hrun] at ht
  refine addClosures_keys _ 0 [] t ht (.inl ?_)
  rw [flatMap_funcs]
  show l ∈ ((ClosureIterator.collect code (code.length + 1) 0).1.map _).flatMap _
  rwa [hshape, ← flatMap_closureLabels]

/-- `closureScan_agrees` at an array that builds one closure. -/
theorem closureScan_agrees_grab :
    ScanAgrees [43#32, 0#32, 1#32, 42#32, 1#32]
      [.labelDef 0, .closure 3 0, .labelDef 3, .grab 1] := by
  refine closureScan_agrees _ _ (by decide) (by decide) ⟨by decide, by decide, ?_⟩
  intro l hl js l' h
  have hl3 : l = 3 := by simpa [Instruction.closureLabels] using hl
  subst hl3
  have h3 : decodeAt [43#32, 0#32, 1#32, 42#32, 1#32] 3 = .ok ([.grab 1], 5) := by decide
  rw [h3] at h
  cases h
  decide

/-- **`ULTINT; CLOSURE 0`**: the scanner takes the `CLOSURE` and its first operand
for the operands of `ULTINT`, reads the label as an opcode and gives up, so the
closure is missed. -/
theorem closureScan_loses_place :
    decodeAll [137#32, 43#32, 0#32, (-3 : Word)]
        = .ok [.labelDef 0, .intCmp .uLt, .labelDef 1, .closure 0 0] ∧
      ClosureLabelsAreBoundaries [.labelDef 0, .intCmp .uLt, .labelDef 1, .closure 0 0] ∧
      ¬ ScanAgrees [137#32, 43#32, 0#32, (-3 : Word)]
          [.labelDef 0, .intCmp .uLt, .labelDef 1, .closure 0 0] := by
  refine ⟨by decide, by decide, fun h => ?_⟩
  have hstop := h.stops_at_end
  revert hstop
  decide

end OcamlJit.Instructions

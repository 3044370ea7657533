/-
  OcamlJit.Marshal.Items
  ──────────────────────
  **READING WHAT WAS WRITTEN, ITEM BY ITEM.**

  One lemma for each kind of item: what the reader does with its bytes.  The
  ones it gets wrong are here, too: integers of eight bytes are read as four
  (`run_int_wide`), doubles in the wrong byte order (`run_double`), and custom
  blocks with a size header or a native integer out of step (`run_custom_bad`).
-/
import OcamlJit.Marshal.Graph
import OcamlJit.Marshal.Loop

namespace OcamlJit.Marshal

open OcamlJit.Lib

/-! ## §1. Bytes read back. -/

theorem readExact_append {k : Nat} {bytes : List UInt8} (h : bytes.length = k)
    (rest : List UInt8) : readExact k (bytes ++ rest) = .ok (bytes, rest) := by
  unfold readExact
  rw [if_pos (by rw [List.length_append]; omega), ← h, List.take_left, List.drop_left]

theorem readU_beBytes_mod (k n : Nat) (rest : List UInt8) :
    readU k (beBytes k n ++ rest) = .ok (n % 256 ^ k, rest) := by
  unfold readU
  rw [readExact_append (length_beBytes k n), ok_bind]
  show (.ok (beNat (beBytes k n), rest) : Rust InputError _) = _
  rw [beNat_beBytes]

theorem readU_beBytes {k n : Nat} (h : n < 256 ^ k) (rest : List UInt8) :
    readU k (beBytes k n ++ rest) = .ok (n, rest) := by
  rw [readU_beBytes_mod, Nat.mod_eq_of_lt h]

theorem readI_beIntBytes {k : Nat} {i : Int} (hlo : -256 ^ k ≤ 2 * i) (hhi : 2 * i < 256 ^ k)
    (rest : List UInt8) : readI k (beIntBytes k i ++ rest) = .ok (i, rest) := by
  unfold readI readU
  rw [readExact_append (length_beIntBytes k i), ok_bind]
  show (.ok (toSigned k (beNat (beIntBytes k i)), rest) : Rust InputError _) = _
  rw [toSigned_beIntBytes hlo hhi]

theorem readCString_append : ∀ (s bytes rest : List UInt8), 0 ∉ s →
    readCString (writeCString s ++ rest) bytes = .ok (bytes ++ s, rest)
  | [], bytes, rest, _ => by
      rw [List.append_nil]
      rfl
  | c :: s, bytes, rest, h => by
      have hc : c ≠ 0 := fun h0 => h (h0 ▸ List.mem_cons_self ..)
      show (if c = 0 then _ else readCString (writeCString s ++ rest) (bytes ++ [c])) = _
      rw [if_neg hc, readCString_append s _ rest fun hs => h (List.mem_cons_of_mem _ hs),
        List.append_assoc]
      rfl

section Run

variable {store : Store} {pending : List PendingBlock} {rest : List UInt8}

/-- The machine in a state. -/
abbrev Machine.on (state : State) (input : List UInt8) (store : Store)
    (pending : List PendingBlock) : Machine := ⟨state, input, store, pending⟩

theorem run_readItem (code : UInt8) (input : List UInt8) :
    (Machine.on .readItem (code :: input) store pending).run =
      readCode code.toNat (.on .readItem input store pending) >>= Machine.run := by
  rw [run_eq]
  show (readCode _ _ >>= fun m' => pure (Progress.running m')) >>= _ = _
  cases readCode code.toNat (.on .readItem input store pending) <;> rfl

theorem run_code {code : Nat} {input : List UInt8} {m : Machine} (hcode : code < 256)
    (h : readCode code (.on .readItem input store pending) = .ok m) :
    (Machine.on .readItem (UInt8.ofNat code :: input) store pending).run = m.run := by
  rw [run_readItem, UInt8.toNat_ofNat', Nat.mod_eq_of_lt hcode, h]
  rfl

/-! ## §2. Integers. -/

theorem readCode_smallInt {n : Nat} (h : n < 0x40) (input : List UInt8) :
    readCode (prefixSmallInt + n) (.on .readItem input store pending) =
      .ok (.on (.processItem (.int n)) input store pending) := by
  have hmod : (prefixSmallInt + n) % 0x40 = n := by
    simp only [prefixSmallInt]
    omega
  unfold readCode
  rw [if_neg (by simp only [prefixSmallBlock, prefixSmallInt]; omega),
    if_pos (Nat.le_add_right ..), hmod]

/-- The operand of an integer's code. -/
theorem readInt_eq {k : Nat} {i : Int} {input input' : List UInt8}
    (h : readI k input = .ok (i, input')) : (do
      let (i, input) ← readI k input
      pure (.on (.processItem (.int i)) input store pending) : Rust InputError Machine) =
      .ok (.on (.processItem (.int i)) input' store pending) := by
  rw [h]
  rfl

/-- A number that says what comes next. -/
theorem readNat_eq {k n : Nat} (state : Nat → State) (hn : n < 256 ^ k) : (do
      let (n, input) ← readU k (beBytes k n ++ rest)
      pure (.on (state n) input store pending) : Rust InputError Machine) =
      .ok (.on (state n) rest store pending) := by
  rw [readU_beBytes hn]
  rfl

/-- The codes of integers. -/
theorem readCode_int {k code : Nat} {i : Int} {input input' : List UInt8}
    (hcode : (k, code) ∈ [(1, codeInt8), (2, codeInt16), (4, codeInt32), (4, codeInt64)])
    (h : readI k input = .ok (i, input')) :
    readCode code (.on .readItem input store pending) =
      .ok (.on (.processItem (.int i)) input' store pending) := by
  simp only [List.mem_cons, List.not_mem_nil, or_false, Prod.mk.injEq] at hcode
  rcases hcode with ⟨rfl, rfl⟩ | ⟨rfl, rfl⟩ | ⟨rfl, rfl⟩ | ⟨rfl, rfl⟩ <;>
    exact readInt_eq h

/-- An integer of at most four bytes. -/
theorem run_int {n : Int} (hlo : -2 ^ 30 ≤ n) (hhi : n < 2 ^ 30) :
    (Machine.on .readItem ((Token.int n).bytes ++ rest) store pending).run =
      (Machine.on (.processItem (.int n)) rest store pending).run := by
  simp only [Token.bytes]
  split
  · obtain ⟨m, rfl⟩ := Int.eq_ofNat_of_zero_le (by omega : 0 ≤ n)
    refine run_code (by simp only [prefixSmallInt]; omega) (readCode_smallInt ?_ rest)
    omega
  split
  · exact run_code (by decide) (readCode_int (by decide)
      (readI_beIntBytes (k := 1) (by omega) (by omega) rest))
  split
  · exact run_code (by decide) (readCode_int (by decide)
      (readI_beIntBytes (k := 2) (by omega) (by omega) rest))
  split
  · omega
  · exact run_code (by decide) (readCode_int (by decide)
      (readI_beIntBytes (k := 4) (by omega) (by omega) rest))

/-- An integer of eight bytes is read as its upper four, which is another one. -/
theorem run_int_wide {n : Int} (hlo : -2 ^ 62 ≤ n) (hhi : n < 2 ^ 62)
    (hwide : n < -2 ^ 30 ∨ 2 ^ 30 ≤ n) : ∃ i input, i ≠ n ∧
    (Machine.on .readItem ((Token.int n).bytes ++ rest) store pending).run =
      (Machine.on (.processItem (.int i)) input store pending).run := by
  have hbytes : (Token.int n).bytes = writecodeInt 8 codeInt64 n := by
    simp only [Token.bytes]
    rw [if_neg (by omega), if_neg (by omega), if_neg (by omega), if_pos hwide]
  have hsplit : beIntBytes 8 n =
      beBytes 4 ((n % 256 ^ 8).toNat / 256 ^ 4) ++ beBytes 4 (n % 256 ^ 8).toNat :=
    beBytes_add 4 _ 4
  have hcast : ((n % 256 ^ 8).toNat : Int) = n % 256 ^ 8 :=
    Int.toNat_of_nonneg (Int.emod_nonneg _ (by decide))
  have hlt : (n % 256 ^ 8).toNat / 256 ^ 4 < 256 ^ 4 := by omega
  refine ⟨toSigned 4 ((n % 256 ^ 8).toNat / 256 ^ 4),
    beBytes 4 (n % 256 ^ 8).toNat ++ rest, ?_, ?_⟩
  · generalize (n % 256 ^ 8).toNat = m at hcast hlt ⊢
    have hhigh : n / 256 ^ 8 = 0 ∨ n / 256 ^ 8 = -1 := by omega
    unfold toSigned
    split <;> rcases hhigh with h | h <;> omega
  · rw [hbytes, writecodeInt, hsplit, List.cons_append, List.append_assoc]
    refine run_code (by decide) (readCode_int (k := 4) (by decide) ?_)
    unfold readI
    rw [readU_beBytes hlt]
    rfl

/-! ## §3. Objects. -/

/-- The codes a number follows: its size, the code, and the state after it. -/
def numberCodes (n : Nat) : List (Nat × Nat × State) :=
  [(1, codeShared8, .readShared n), (2, codeShared16, .readShared n),
   (4, codeShared32, .readShared n), (8, codeShared64, .readShared n),
   (4, codeBlock32, .readBlock (n % 2 ^ 8) (n / 2 ^ 10)),
   (8, codeBlock64, .readBlock (n % 2 ^ 8) (n / 2 ^ 10)),
   (1, codeString8, .readString n), (4, codeString32, .readString n),
   (8, codeString64, .readString n)]

/-- A code and a number. -/
theorem run_writecode {k code n : Nat} {state : State} (hcode : (k, code, state) ∈ numberCodes n)
    (hn : n < 256 ^ k) :
    (Machine.on .readItem (writecode k code n ++ rest) store pending).run =
      (Machine.on state rest store pending).run := by
  simp only [numberCodes, List.mem_cons, List.not_mem_nil, or_false, Prod.mk.injEq] at hcode
  rcases hcode with ⟨rfl, rfl, rfl⟩ | ⟨rfl, rfl, rfl⟩ | ⟨rfl, rfl, rfl⟩ | ⟨rfl, rfl, rfl⟩ |
    ⟨rfl, rfl, rfl⟩ | ⟨rfl, rfl, rfl⟩ | ⟨rfl, rfl, rfl⟩ | ⟨rfl, rfl, rfl⟩ | ⟨rfl, rfl, rfl⟩
  case inl | inr.inl | inr.inr.inl | inr.inr.inr.inl =>
    exact run_code (by decide) (readNat_eq (fun n => .readShared n) hn)
  case inr.inr.inr.inr.inl | inr.inr.inr.inr.inr.inl =>
    exact run_code (by decide) (readNat_eq (fun n => .readBlock (n % 2 ^ 8) (n / 2 ^ 10)) hn)
  all_goals exact run_code (by decide) (readNat_eq (fun n => .readString n) hn)

/-- A reference to a shared object. -/
theorem run_shared {d : Nat} (hd : d < 2 ^ 64) :
    (Machine.on .readItem ((Token.shared d).bytes ++ rest) store pending).run =
      (Machine.on (.readShared d) rest store pending).run := by
  simp only [Token.bytes]
  split
  · exact run_writecode (by simp [numberCodes]) (by omega)
  split
  · exact run_writecode (by simp [numberCodes]) (by omega)
  split
  · exact run_writecode (by simp [numberCodes]) (by omega)
  · exact run_writecode (by simp [numberCodes]) (by omega)

/-- It is read when there is such an object. -/
theorem run_readShared {d : Nat} (hd : 0 < d) {o : PrevObject}
    (ho : store.prevObjects.reverse[d - 1]? = some o) :
    (Machine.on (.readShared d) rest store pending).run =
      (Machine.on (.processItem o.value) rest store pending).run := by
  obtain ⟨hlt, -⟩ := List.getElem?_eq_some_iff.mp ho
  rw [List.length_reverse] at hlt
  rw [List.getElem?_reverse hlt, show store.prevObjects.length - 1 - (d - 1) =
    store.prevObjects.length - d by omega] at ho
  refine run_of_step ?_
  simp only [step]
  have h₁ : ensure (0 < d) InputError.conditionFailed = .ok () := ensure_eq_ok.mpr hd
  have h₂ : ensure (d ≤ store.prevObjects.length) InputError.conditionFailed = .ok () :=
    ensure_eq_ok.mpr (by omega)
  rw [h₁, ok_bind, h₂, ok_bind, ho]
  rfl

theorem run_readShared_eq_ok {d : Nat} {out : Output}
    (h : (Machine.on (.readShared d) rest store pending).run = .ok out) :
    ∃ o, store.prevObjects.reverse[d - 1]? = some o := by
  rw [run_eq] at h
  obtain ⟨p, hp, -⟩ := bind_eq_ok.mp h
  obtain ⟨_, hpos, hp⟩ := bind_eq_ok.mp hp
  obtain ⟨_, hle, -⟩ := bind_eq_ok.mp hp
  have hpos : 0 < d := ensure_eq_ok.mp hpos
  have hle : d ≤ store.prevObjects.length := ensure_eq_ok.mp hle
  refine ⟨_, List.getElem?_eq_getElem ?_⟩
  rw [List.length_reverse]
  omega

/-- A string. -/
theorem run_string {bytes : List UInt8} (hlen : bytes.length < 2 ^ 64) :
    (Machine.on .readItem ((Token.string bytes).bytes ++ rest) store pending).run =
      (Machine.on (.processItem (.string store.strings.length)) rest
        (store.newString bytes) pending).run := by
  have hread : (Machine.on (.readString bytes.length) (bytes ++ rest) store pending).run =
      (Machine.on (.processItem (.string store.strings.length)) rest
        (store.newString bytes) pending).run := by
    refine run_of_step ?_
    show (readExact _ _ >>= _) = _
    rw [readExact_append rfl]
    rfl
  rw [← hread]
  simp only [Token.bytes, List.append_assoc]
  split
  · refine run_code (by simp only [prefixSmallString]; omega) ?_
    have hmod : (prefixSmallString + bytes.length) % 0x20 = bytes.length := by
      simp only [prefixSmallString]
      omega
    unfold readCode
    rw [if_neg (by simp only [prefixSmallBlock, prefixSmallString]; omega),
      if_neg (by simp only [prefixSmallInt, prefixSmallString]; omega),
      if_pos (Nat.le_add_right ..), hmod]
    rfl
  split
  · exact run_writecode (by simp [numberCodes]) (by omega)
  split
  · exact run_writecode (by simp [numberCodes]) (by omega)
  · exact run_writecode (by simp [numberCodes]) (by omega)

/-- The header of a small block. -/
theorem run_smallBlock {tag size : Nat} (htag : tag < 16) (hsize : size < 8) :
    (Machine.on .readItem (UInt8.ofNat (prefixSmallBlock + tag + size * 2 ^ 4) :: rest) store
      pending).run = (Machine.on (.readBlock tag size) rest store pending).run := by
  refine run_code (by simp only [prefixSmallBlock]; omega) ?_
  have hmod : (prefixSmallBlock + tag + size * 2 ^ 4) % 2 ^ 4 = tag := by
    simp only [prefixSmallBlock]
    omega
  have hdiv : (prefixSmallBlock + tag + size * 2 ^ 4) / 2 ^ 4 % 2 ^ 3 = size := by
    simp only [prefixSmallBlock]
    omega
  unfold readCode
  rw [if_pos (by omega), hmod, hdiv]

/-- Another header. -/
theorem run_header {k code tag color size : Nat} (htag : tag < 2 ^ 8) (hcolor : color < 4)
    (hcode : (k, code) ∈ [(4, codeBlock32), (8, codeBlock64)])
    (hfit : makeHd size color tag < 256 ^ k) :
    (Machine.on .readItem (writecode k code (makeHd size color tag) ++ rest) store pending).run =
      (Machine.on (.readBlock tag size) rest store pending).run := by
  have hmod : makeHd size color tag % 2 ^ 8 = tag := by
    unfold makeHd
    omega
  have hdiv : makeHd size color tag / 2 ^ 10 = size := by
    unfold makeHd
    omega
  have hmem : (k, code, State.readBlock tag size) ∈ numberCodes (makeHd size color tag) := by
    unfold numberCodes
    rw [hmod, hdiv]
    simp only [List.mem_cons, List.not_mem_nil, or_false, Prod.mk.injEq] at hcode
    rcases hcode with ⟨rfl, rfl⟩ | ⟨rfl, rfl⟩
    · simp
    · simp
  exact run_writecode hmem hfit

/-- A block of size 0 is a block of its own. -/
theorem run_atom {tag color : Nat} (htag : tag < 246) (hcolor : color < 4) :
    (Machine.on .readItem ((Token.atom tag color).bytes ++ rest) store pending).run =
      (Machine.on (.processItem (.block store.blocks.length)) rest (store.newBlock tag)
        pending).run := by
  have hread : (Machine.on (.readBlock tag 0) rest store pending).run =
      (Machine.on (.processItem (.block store.blocks.length)) rest (store.newBlock tag)
        pending).run := run_of_step rfl
  rw [← hread]
  simp only [Token.bytes]
  split
  · next hsmall =>
      have hcode : prefixSmallBlock + tag = prefixSmallBlock + tag + 0 * 2 ^ 4 := by omega
      rw [List.singleton_append, hcode]
      exact run_smallBlock hsmall (by decide)
  · refine run_header (by omega) hcolor (by simp) ?_
    unfold makeHd
    omega

/-- The header of a block is read, and the first field comes next. -/
theorem run_block {tag color size : Nat} (htag : tag < 246) (hpos : 0 < size)
    (hsize : size < 2 ^ 54) :
    (Machine.on .readItem ((Token.block tag color size).bytes ++ rest) store pending).run =
      (Machine.on .readItem rest (store.newBlock tag)
        (⟨store.blocks.length, size - 1⟩ :: pending)).run := by
  have hread : (Machine.on (.readBlock tag size) rest store pending).run =
      (Machine.on .readItem rest (store.newBlock tag)
        (⟨store.blocks.length, size - 1⟩ :: pending)).run := by
    refine run_of_step ?_
    simp only [step]
    rw [if_neg (Nat.ne_of_gt hpos)]
  rw [← hread]
  simp only [Token.bytes]
  split
  · next hsmall => exact run_smallBlock hsmall.1 hsmall.2
  split
  · next hfit =>
      refine run_header (by omega) (by decide) (by simp) (Nat.lt_of_le_of_lt ?_ hfit)
      unfold makeHd
      omega
  · refine run_header (by omega) (by decide) (by simp) ?_
    unfold makeHd
    omega

/-! ## §4. Boxed numbers. -/

/-- A double is read in the wrong byte order. -/
theorem run_double (bits : BitVec 64) :
    (Machine.on .readItem ((Token.double bits).bytes ++ rest) store pending).run =
      (Machine.on (.processItem (.double (swapBytes bits))) rest
        (store.newDouble (swapBytes bits)) pending).run := by
  refine run_code (by decide) ?_
  show (readU 8 (nativeDouble bits ++ rest) >>= _) = _
  unfold readU
  rw [readExact_append (by simp [nativeDouble])]
  rfl

/-- The code of a custom block, its identifier and its payload. -/
theorem readCode_custom {code : Nat} (hcode : code ∈ [codeCustom, codeCustomFixed, codeCustomLen])
    {input : List UInt8} : readCode code (.on .readItem input store pending) =
      readCString input [] >>= fun (identifier, input) =>
        readCustom identifier input >>= fun (v, input) =>
          .ok (.on (.processItem v) input store pending) := by
  simp only [List.mem_cons, List.not_mem_nil, or_false] at hcode
  rcases hcode with rfl | rfl | rfl <;> rfl

/-- The codes of custom blocks. -/
theorem run_customCode {code : Nat} (hcode : code ∈ [codeCustom, codeCustomFixed, codeCustomLen])
    (boxed : Boxed) (input : List UInt8) :
    (Machine.on .readItem (UInt8.ofNat code :: (writeCString boxed.identifier ++ input)) store
      pending).run = readCustom boxed.identifier input >>= fun (v, input) =>
        (Machine.on (.processItem v) input store pending).run := by
  have hlt : code < 256 := by
    simp only [List.mem_cons, List.not_mem_nil, or_false] at hcode
    rcases hcode with rfl | rfl | rfl <;> decide
  have hzero : 0 ∉ boxed.identifier := by cases boxed <;> simp [Boxed.identifier]
  rw [run_readItem, UInt8.toNat_ofNat', Nat.mod_eq_of_lt hlt, readCode_custom hcode,
    readCString_append _ _ _ hzero, ok_bind, List.nil_append]
  show (readCustom boxed.identifier input >>= _) >>= _ = _
  cases readCustom boxed.identifier input <;> rfl

theorem readCustom_int32 (n : BitVec 32) {bytes : List UInt8} (hlen : bytes.length = 4)
    (rest : List UInt8) : readCustom (Boxed.int32 n).identifier (bytes ++ rest) =
      .ok (.int32 (.ofNat 32 (beNat bytes)), rest) := by
  show (readU 4 (bytes ++ rest) >>= _) = _
  unfold readU
  rw [readExact_append hlen]
  rfl

/-- Native integers are read as the other ones of eight bytes. -/
theorem readCustom_int64 {boxed : Boxed} (hwide : boxed.identifier ≠ [95, 105])
    {bytes : List UInt8} (hlen : bytes.length = 8) (rest : List UInt8) :
    readCustom boxed.identifier (bytes ++ rest) =
      .ok (.int64 (.ofNat 64 (beNat bytes)), rest) := by
  have hread : readU 8 (bytes ++ rest) = .ok (beNat bytes, rest) := by
    unfold readU
    rw [readExact_append hlen]
    rfl
  cases boxed with
  | int32 n => exact absurd rfl hwide
  | int64 n | nativeint n =>
      show (readU 8 (bytes ++ rest) >>= _) = _
      rw [hread]
      rfl

/-- A boxed integer the reader takes for what it is. -/
theorem run_custom {form : CustomForm} {boxed : Boxed} (hok : customOk form boxed) :
    (Machine.on .readItem ((Token.custom form boxed).bytes ++ rest) store pending).run =
      (Machine.on (.processItem boxed.value) rest store pending).run := by
  have hbytes : ∃ code ∈ [codeCustom, codeCustomFixed, codeCustomLen],
      (Token.custom form boxed).bytes ++ rest =
        UInt8.ofNat code :: (writeCString boxed.identifier ++ (boxed.serialize ++ rest)) := by
    cases form with
    | fixed => exact ⟨codeCustomFixed, by simp, by simp [Token.bytes]⟩
    | deprecated => exact ⟨codeCustom, by simp, by simp [Token.bytes]⟩
    | len => cases boxed <;> exact absurd hok (by simp [customOk])
  obtain ⟨code, hcode, hbytes⟩ := hbytes
  rw [hbytes, run_customCode hcode]
  cases boxed with
  | int32 n =>
      have hread : readCustom (Boxed.int32 n).identifier ((Boxed.int32 n).serialize ++ rest) =
          .ok (.int32 n, rest) := by
        refine (readCustom_int32 n (length_beBytes 4 n.toNat) rest).trans ?_
        rw [beNat_beBytes, Nat.mod_eq_of_lt (by exact n.isLt), BitVec.ofNat_toNat, BitVec.setWidth_eq]
      rw [hread]
      rfl
  | int64 n =>
      have hread : readCustom (Boxed.int64 n).identifier ((Boxed.int64 n).serialize ++ rest) =
          .ok (.int64 n, rest) := by
        refine (readCustom_int64 (by simp [Boxed.identifier]) (length_beBytes 8 n.toNat)
          rest).trans ?_
        rw [beNat_beBytes, Nat.mod_eq_of_lt (by exact n.isLt), BitVec.ofNat_toNat, BitVec.setWidth_eq]
      rw [hread]
      rfl
  | nativeint n => exact hok.elim

/-- The reader is behind: it goes on in the middle of something, at a byte that
is the code of an integer. -/
def Lagging (rest input : List UInt8) : Prop :=
  ∃ b more, input = b :: more ∧ b ∈ [0, 2] ∧ rest.length < input.length

/-- Then it reads an integer next. -/
theorem run_lagging {input : List UInt8} {out : Output} (hlag : Lagging rest input)
    (h : (Machine.on .readItem input store pending).run = .ok out) :
    ∃ i input', (Machine.on (.processItem (.int i)) input' store pending).run = .ok out := by
  obtain ⟨b, more, rfl, hb, -⟩ := hlag
  rw [run_readItem] at h
  obtain ⟨m, hm, h⟩ := bind_eq_ok.mp h
  simp only [List.mem_cons, List.not_mem_nil, or_false] at hb
  rcases hb with rfl | rfl
  all_goals
    obtain ⟨⟨i, input'⟩, -, hm⟩ := bind_eq_ok.mp hm
    cases hm
    exact ⟨i, input', h⟩

/-- Where there is a size header, its first bytes are read, and the reader is
behind. -/
theorem run_customLen {boxed : Boxed} : ∃ v input, Lagging rest input ∧
    (Machine.on .readItem ((Token.custom .len boxed).bytes ++ rest) store pending).run =
      (Machine.on (.processItem v) input store pending).run := by
  have hbytes : (Token.custom .len boxed).bytes ++ rest =
      UInt8.ofNat codeCustomLen :: (writeCString boxed.identifier ++
        (beBytes 4 boxed.bsize32 ++ (beBytes 8 boxed.bsize64 ++ (boxed.serialize ++ rest)))) := by
    simp [Token.bytes]
  rw [hbytes, run_customCode (by simp)]
  -- what is read is the header's front, and at least a byte of it stays over
  have hgo : ∀ v tail, rest.length ≤ tail.length → readCustom boxed.identifier
      (beBytes 4 boxed.bsize32 ++ (beBytes 8 boxed.bsize64 ++ (boxed.serialize ++ rest))) =
        .ok (v, 0 :: tail) → ∃ v input, Lagging rest input ∧
      (readCustom boxed.identifier (beBytes 4 boxed.bsize32 ++ (beBytes 8 boxed.bsize64 ++
        (boxed.serialize ++ rest))) >>= fun (v, input) =>
          (Machine.on (.processItem v) input store pending).run) =
        (Machine.on (.processItem v) input store pending).run := by
    intro v tail hlen hread
    refine ⟨v, _, ⟨0, tail, rfl, by simp, ?_⟩, by rw [hread]; rfl⟩
    rw [List.length_cons]
    omega
  have h₄ : beBytes 4 4 = [0, 0, 0, 4] := by decide
  have h₄' : beBytes 8 4 = [0, 0, 0, 0, 0, 0, 0, 4] := by decide
  have h₈ : beBytes 4 8 = [0, 0, 0, 8] := by decide
  have h₈' : beBytes 8 8 = [0, 0, 0, 0, 0, 0, 0, 8] := by decide
  cases boxed with
  -- four bytes of the header, or eight
  | int32 n =>
      simp only [Boxed.bsize32, Boxed.bsize64, h₄, h₄'] at hgo ⊢
      exact hgo _ ([0, 0, 0, 0, 0, 0, 4] ++ ((Boxed.int32 n).serialize ++ rest)) (by simp; omega)
        (readCustom_int32 n (show [(0 : UInt8), 0, 0, 4].length = 4 from rfl) _)
  | int64 n =>
      simp only [Boxed.bsize32, Boxed.bsize64, h₈, h₈'] at hgo ⊢
      exact hgo _ ([0, 0, 8] ++ ((Boxed.int64 n).serialize ++ rest)) (by simp; omega)
        (readCustom_int64 (show (Boxed.int64 n).identifier ≠ [95, 105] by simp [Boxed.identifier])
          (show [(0 : UInt8), 0, 0, 8, 0, 0, 0, 0].length = 8 from rfl) _)
  | nativeint n =>
      simp only [Boxed.bsize32, Boxed.bsize64, h₄, h₈'] at hgo ⊢
      exact hgo _ ([0, 0, 8] ++ ((Boxed.nativeint n).serialize ++ rest)) (by simp; omega)
        (readCustom_int64
          (show (Boxed.nativeint n).identifier ≠ [95, 105] by simp [Boxed.identifier])
          (show [(0 : UInt8), 0, 0, 4, 0, 0, 0, 0].length = 8 from rfl) _)

/-- A native integer is read with the byte that says how long it is: the number
is another one, or its last byte is left over and is 2. -/
theorem readCustom_nativeint {n : BitVec 64} {v : MLValue} {input : List UInt8}
    (h : readCustom (Boxed.nativeint n).identifier ((Boxed.nativeint n).serialize ++ rest) =
      .ok (v, input)) : v ≠ .int64 n ∨ Lagging rest input := by
  unfold Boxed.serialize at h
  dsimp only at h
  split at h
  · next hsmall =>
      -- the first byte of the eight is 1, and the number is a small one
      left
      obtain ⟨⟨m, input'⟩, hread, h⟩ := bind_eq_ok.mp h
      obtain ⟨⟨bytes, input''⟩, hexact, hread⟩ := bind_eq_ok.mp hread
      cases hread
      cases h
      unfold readExact at hexact
      split at hexact
      · next hle =>
          cases hexact
          intro heq
          injection heq with heq
          have hlt := beNat_lt ((beBytes 4 n.toNat ++ rest).take 7)
          have hlen : ((beBytes 4 n.toNat ++ rest).take 7).length = 7 := by
            rw [List.length_take]
            rw [List.cons_append, List.length_cons] at hle
            omega
          have hcons : beNat ((1 :: beBytes 4 n.toNat ++ rest).take 8) =
              1 * 256 ^ 7 + beNat ((beBytes 4 n.toNat ++ rest).take 7) := by
            rw [List.cons_append, List.take_succ_cons, beNat_cons, hlen]
            rfl
          have hnat := congrArg BitVec.toNat heq
          rw [BitVec.toNat_ofNat, hcons] at hnat
          rw [hlen] at hlt
          have hint := BitVec.toInt_eq_toNat_cond n
          split at hint <;> omega
      · cases hexact
  · next hbig =>
      have hsplit : 2 :: beBytes 8 n.toNat ++ rest =
          (2 :: beBytes 7 (n.toNat / 256)) ++ (UInt8.ofNat n.toNat :: rest) := by
        rw [show beBytes 8 n.toNat = beBytes 7 (n.toNat / 256 ^ 1) ++ beBytes 1 n.toNat from
          beBytes_add 1 n.toNat 7]
        simp [beBytes]
      rw [hsplit, readCustom_int64 (by simp [Boxed.identifier]) (by simp)] at h
      cases h
      refine Decidable.or_iff_not_imp_left.mpr fun heq => ?_
      have heq := Decidable.not_not.mp heq
      injection heq with heq
      have hnat := congrArg BitVec.toNat heq
      have hcons : beNat (2 :: beBytes 7 (n.toNat / 256)) =
          2 * 256 ^ 7 + n.toNat / 256 % 256 ^ 7 := by
        rw [beNat_cons, length_beBytes, beNat_beBytes]
        rfl
      have hlt := n.isLt
      rw [BitVec.toNat_ofNat, hcons, Nat.mod_eq_of_lt (by omega : n.toNat / 256 < 256 ^ 7),
        Nat.mod_eq_of_lt (by omega)] at hnat
      -- all but the last byte are read, after the length byte as the first
      have hlast : UInt8.ofNat n.toNat = 2 := by
        refine UInt8.toNat_inj.mp ?_
        rw [UInt8.toNat_ofNat']
        show n.toNat % 256 = 2
        omega
      exact ⟨2, rest, by rw [hlast], by simp, by simp⟩

/-- **The reader gets another boxed integer wrong**, or it is behind. -/
theorem run_custom_bad {form : CustomForm} {boxed : Boxed} {out : Output}
    (hbad : ¬ customOk form boxed)
    (h : (Machine.on .readItem ((Token.custom form boxed).bytes ++ rest) store pending).run =
      .ok out) :
    ∃ v input, (Machine.on (.processItem v) input store pending).run = .ok out ∧
      (v ≠ boxed.value ∨ Lagging rest input) := by
  have hplain : form ≠ .len → ∃ code ∈ [codeCustom, codeCustomFixed, codeCustomLen],
      (Token.custom form boxed).bytes ++ rest =
        UInt8.ofNat code :: (writeCString boxed.identifier ++ (boxed.serialize ++ rest)) := by
    intro hform
    cases form with
    | fixed => exact ⟨codeCustomFixed, by simp, by simp [Token.bytes]⟩
    | deprecated => exact ⟨codeCustom, by simp, by simp [Token.bytes]⟩
    | len => exact absurd rfl hform
  by_cases hform : form = .len
  · subst hform
    obtain ⟨v, input, hlag, hrun⟩ := @run_customLen store pending rest boxed
    exact ⟨v, input, hrun ▸ h, .inr hlag⟩
  · obtain ⟨code, hcode, hbytes⟩ := hplain hform
    rw [hbytes, run_customCode hcode] at h
    obtain ⟨⟨v, input⟩, hread, hrun⟩ := bind_eq_ok.mp h
    cases boxed with
    | int32 n => exact absurd hform hbad
    | int64 n => exact absurd hform hbad
    | nativeint n => exact ⟨v, input, hrun, readCustom_nativeint hread⟩

end Run

end OcamlJit.Marshal

/-
  OcamlJit.Marshal.MlData
  ───────────────────────
  **WHAT `input_value` READS** (`bytecode_files/ml_data.rs`).

  The reader is a state machine; `step` is one turn of its loop.  An item takes
  a byte at least, so the number of turns is bounded by the input
  (`Machine.turns`), and the loop never runs dry (`Marshal.Loop`).
-/
import OcamlJit.Lib.Transition
import OcamlJit.Marshal.Extern

namespace OcamlJit.Marshal

open OcamlJit.Lib

/-! ## §1. Values. -/

/-- `enum MLValue`; a double is its bits. -/
inductive MLValue where
  | int (i : Int)
  | block (id : Nat)
  | string (id : Nat)
  | int32 (i : BitVec 32)
  | int64 (i : BitVec 64)
  | double (d : BitVec 64)
  deriving Repr, DecidableEq

/-- `struct MLValueBlock`. -/
structure MLValueBlock where
  tag : Nat
  items : List MLValue
  deriving Repr, DecidableEq

/-- `enum MLValueString`. -/
inductive MLValueString where
  | utf8 (s : String)
  | bytes (b : List UInt8)
  deriving DecidableEq

/-- `struct MLValueBlocks`. -/
structure MLValueBlocks where
  blocks : List MLValueBlock
  strings : List MLValueString
  deriving DecidableEq

/-- `String::from_utf8` of a buffer, or the buffer. -/
def MLValueString.ofBytes (buf : List UInt8) : MLValueString :=
  match String.fromUTF8? ⟨buf.toArray⟩ with
  | some s => .utf8 s
  | none => .bytes buf

/-- The bytes of a string. -/
def MLValueString.toBytes : MLValueString → List UInt8
  | .utf8 s => s.toByteArray.data.toList
  | .bytes b => b

/-! ## §2. The input. -/

/-- Why nothing is read. -/
inductive InputError where
  /-- The input ends in the middle of something. -/
  | unexpectedEof
  /-- "Could not read next code". -/
  | couldNotReadNextCode
  /-- "Invalid magic number: 0x{:08X}". -/
  | invalidMagicNumber (magic : Nat)
  /-- "Unimplemented: CODE_DOUBLE_ARRAY8_[LITTLE/BIG]", and for 32 and 64. -/
  | unimplementedDoubleArray (width : Nat)
  /-- "Unimplemented: CODE_POINTER". -/
  | unimplementedCodePointer
  /-- "Unimplemented: INFIX_POINTER". -/
  | unimplementedInfixPointer
  /-- "Unimplemented: CODE_CUSTOM* for {}". -/
  | unimplementedCustom (identifier : List UInt8)
  /-- "Unimplemented: code = {}". -/
  | unimplementedCode (code : Nat)
  /-- A failed `ensure!` on the offset of a shared object. -/
  | conditionFailed
  deriving Repr, DecidableEq

/-- Reading from the front of the input. -/
abbrev Read (α : Type) := List UInt8 → Rust InputError (α × List UInt8)

/-- `read_exact` of `k` bytes. -/
def readExact (k : Nat) : Read (List UInt8) := fun input =>
  if k ≤ input.length then .ok (input.take k, input.drop k) else err .unexpectedEof

/-- `read_u8`, `read_u16`, … of `k` bytes. -/
def readU (k : Nat) : Read Nat := fun input => do
  let (bytes, input) ← readExact k input
  pure (beNat bytes, input)

/-- `read_i8`, `read_i16`, … of `k` bytes. -/
def readI (k : Nat) : Read Int := fun input => do
  let (n, input) ← readU k input
  pure (toSigned k n, input)

/-- The loop of `read_c_string`. -/
def readCString : List UInt8 → List UInt8 → Rust InputError (List UInt8 × List UInt8)
  | [], _ => err .unexpectedEof
  | c :: input, bytes => if c = 0 then .ok (bytes, input) else readCString input (bytes ++ [c])

/-- `parse_header`; what matters later is nothing but that it is skipped.  The
length is not checked, and the number of objects only a capacity: that
`Vec::with_capacity` panics for one of `2 ^ 63` bytes on is not modelled. -/
def parseHeader : Read Unit := fun input => do
  let (magic, input) ← readU 4 input
  if magic = intextMagicNumberBig then
    let (_, input) ← readU 4 input
    let (_, input) ← readU 8 input
    let (_, input) ← readU 8 input
    let (_, input) ← readU 8 input
    pure ((), input)
  else if magic = intextMagicNumberSmall then
    let (_, input) ← readU 4 input
    let (_, input) ← readU 4 input
    let (_, input) ← readU 4 input
    let (_, input) ← readU 4 input
    pure ((), input)
  else err (.invalidMagicNumber magic)

/-! ## §3. The machine. -/

/-- `enum State`. -/
inductive State where
  | readItem
  | processItem (v : MLValue)
  | readBlock (tag size : Nat)
  | readString (length : Nat)
  | readShared (offset : Nat)
  deriving Repr, DecidableEq

/-- `enum PrevObject`. -/
inductive PrevObject where
  | block (id : Nat)
  | string (id : Nat)
  | double (d : BitVec 64)
  deriving Repr, DecidableEq

/-- The value a shared reference to the object is. -/
def PrevObject.value : PrevObject → MLValue
  | .block id => .block id
  | .string id => .string id
  | .double d => .double d

/-- `struct PendingBlock`. -/
structure PendingBlock where
  blockId : Nat
  additionalFields : Nat
  deriving Repr, DecidableEq

/-- The tables of `read_value`. -/
structure Store where
  prevObjects : List PrevObject
  blocks : List MLValueBlock
  strings : List MLValueString
  deriving DecidableEq

/-- The state of `read_value`; the pending blocks last first. -/
structure Machine where
  state : State
  input : List UInt8
  store : Store
  pending : List PendingBlock
  deriving DecidableEq

/-- What `read_value` returns, and the input it leaves. -/
structure Output where
  blocks : MLValueBlocks
  value : MLValue
  rest : List UInt8
  deriving DecidableEq

namespace Store

/-- A new block without items. -/
def newBlock (s : Store) (tag : Nat) : Store :=
  { s with prevObjects := s.prevObjects ++ [.block s.blocks.length],
           blocks := s.blocks ++ [⟨tag, []⟩] }

/-- A new string. -/
def newString (s : Store) (buf : List UInt8) : Store :=
  { s with prevObjects := s.prevObjects ++ [.string s.strings.length],
           strings := s.strings ++ [.ofBytes buf] }

/-- A double in the table of objects. -/
def newDouble (s : Store) (d : BitVec 64) : Store :=
  { s with prevObjects := s.prevObjects ++ [.double d] }

/-- `blocks[id].items.push(value)`. -/
def pushItem (s : Store) (id : Nat) (v : MLValue) : Store :=
  { s with blocks := s.blocks.modify id fun b => { b with items := b.items ++ [v] } }

end Store

/-- `read_value` of a boxed integer after its identifier. -/
def readCustom (identifier : List UInt8) : Read MLValue := fun input =>
  if identifier = [95, 105] then do
    let (n, input) ← readU 4 input
    pure (.int32 (.ofNat 32 n), input)
  else if identifier = [95, 106] ∨ identifier = [95, 110] then do
    let (n, input) ← readU 8 input
    pure (.int64 (.ofNat 64 n), input)
  else err (.unimplementedCustom identifier)

/-- The `match code` of `ReadItem`. -/
def readCode (code : Nat) (m : Machine) : Rust InputError Machine :=
  let int (k : Nat) : Rust InputError Machine := do
    let (i, input) ← readI k m.input
    pure { m with state := .processItem (.int i), input }
  let shared (k : Nat) : Rust InputError Machine := do
    let (offset, input) ← readU k m.input
    pure { m with state := .readShared offset, input }
  let block (k : Nat) : Rust InputError Machine := do
    let (header, input) ← readU k m.input
    pure { m with state := .readBlock (header % 2 ^ 8) (header / 2 ^ 10), input }
  let string (k : Nat) : Rust InputError Machine := do
    let (length, input) ← readU k m.input
    pure { m with state := .readString length, input }
  if prefixSmallBlock ≤ code then
    .ok { m with state := .readBlock (code % 2 ^ 4) (code / 2 ^ 4 % 2 ^ 3) }
  else if prefixSmallInt ≤ code then
    .ok { m with state := .processItem (.int (code % 0x40 : Nat)) }
  else if prefixSmallString ≤ code then .ok { m with state := .readString (code % 0x20) }
  else match code with
    | codeInt8 => int 1
    | codeInt16 => int 2
    | codeInt32 => int 4
    -- four bytes, although eight are written
    | codeInt64 => int 4
    | codeShared8 => shared 1
    | codeShared16 => shared 2
    | codeShared32 => shared 4
    | codeShared64 => shared 8
    | codeBlock32 => block 4
    | codeBlock64 => block 8
    | codeString8 => string 1
    | codeString32 => string 4
    | codeString64 => string 8
    | codeDoubleLittle | codeDoubleBig => do
        let (n, input) ← readU 8 m.input
        let d := BitVec.ofNat 64 n
        pure { m with state := .processItem (.double d), input, store := m.store.newDouble d }
    | codeDoubleArray8Little | codeDoubleArray8Big => err (.unimplementedDoubleArray 8)
    | codeDoubleArray32Little | codeDoubleArray32Big => err (.unimplementedDoubleArray 32)
    | codeDoubleArray64Little | codeDoubleArray64Big => err (.unimplementedDoubleArray 64)
    | codeCodePointer => err .unimplementedCodePointer
    | codeInfixPointer => err .unimplementedInfixPointer
    | codeCustom | codeCustomFixed | codeCustomLen => do
        let (identifier, input) ← readCString m.input []
        let (v, input) ← readCustom identifier input
        pure { m with state := .processItem v, input }
    | i => err (.unimplementedCode i)

/-- One turn of the loop of `read_value`.  That `vec![0; length]` panics for a string
of `2 ^ 63` bytes on is not modelled: the bytes are missing then. -/
def step (m : Machine) : Rust InputError (Progress Machine Output) :=
  match m.state with
  | .readItem =>
      match m.input with
      | [] => err .couldNotReadNextCode
      | code :: input => do pure (.running (← readCode code.toNat { m with input }))
  | .readBlock tag size =>
      let blockId := m.store.blocks.length
      let store := m.store.newBlock tag
      if size = 0 then .ok (.running { m with state := .processItem (.block blockId), store })
      else .ok (.running
        { m with state := .readItem, store, pending := ⟨blockId, size - 1⟩ :: m.pending })
  | .processItem value =>
      match m.pending with
      | [] => .ok (.done ⟨⟨m.store.blocks, m.store.strings⟩, value, m.input⟩)
      | p :: pending =>
          let store := m.store.pushItem p.blockId value
          if p.additionalFields > 0 then .ok (.running
            { m with state := .readItem, store,
                     pending := { p with additionalFields := p.additionalFields - 1 } :: pending })
          else .ok (.running { m with state := .processItem (.block p.blockId), store, pending })
  | .readString length => do
      let (buf, input) ← readExact length m.input
      pure (.running { m with state := .processItem (.string m.store.strings.length), input,
                              store := m.store.newString buf })
  | .readShared offset => do
      ensure (0 < offset) .conditionFailed
      ensure (offset ≤ m.store.prevObjects.length) .conditionFailed
      match m.store.prevObjects[m.store.prevObjects.length - offset]? with
      | none => panicked
      | some o => pure (.running { m with state := .processItem o.value })

/-- An upper bound of the number of turns that are left. -/
def Machine.turns (m : Machine) : Nat :=
  4 * m.input.length + m.pending.length + match m.state with
    | .readItem => 1
    | .processItem _ => 2
    | .readBlock _ _ | .readString _ | .readShared _ => 3

/-- The loop of `read_value`. -/
def loop : Nat → Machine → Rust InputError Output
  | 0, _ => .error .outOfFuel
  | fuel + 1, m => do
      match ← step m with
      | .running m' => loop fuel m'
      | .done r => pure r

/-- `read_value`. -/
def readValue (input : List UInt8) : Rust InputError Output :=
  let m : Machine := ⟨.readItem, input, ⟨[], [], []⟩, []⟩
  loop m.turns m

/-- `input_value`. -/
def inputValue (input : List UInt8) : Rust InputError Output := do
  let (_, input) ← parseHeader input
  readValue input

end OcamlJit.Marshal

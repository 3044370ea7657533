/-
  OcamlJit.Marshal.Extern
  ───────────────────────
  **WHAT `output_value` WRITES** (`runtime/extern.c`, `runtime/ints.c`).

  The heap is a list of objects and a pointer the number of one.  One turn of
  the loop of `extern_rec` writes one item (`Token`); its position table is a
  list here, the recorded objects in order.  The flags are none, so objects are
  shared and integers are not held to 31 bits.
-/
import OcamlJit.Lib.BigEndian
import OcamlJit.Lib.Rust

namespace OcamlJit.Marshal

open OcamlJit.Lib

/-! ## §1. The OCaml heap. -/

/-- `value`. -/
inductive Value where
  | long (n : Int)
  /-- A pointer to an object. -/
  | ptr (a : Nat)
  deriving Repr, DecidableEq

/-- How a custom block says how long it is.  This runtime writes `len` for
operations without a fixed length; `deprecated` is written by older runtimes. -/
inductive CustomForm where
  | fixed | len | deprecated
  deriving Repr, DecidableEq

/-- The contents of a boxed integer. -/
inductive Boxed where
  | int32 (n : BitVec 32)
  | int64 (n : BitVec 64)
  | nativeint (n : BitVec 64)
  deriving Repr, DecidableEq

/-- What a pointer points to.  A `block` has a tag below `No_scan_tag`. -/
inductive Obj where
  | block (tag color : Nat) (fields : List Value)
  | string (bytes : List UInt8)
  | double (bits : BitVec 64)
  | custom (form : CustomForm) (boxed : Boxed)
  deriving Repr, DecidableEq

/-- The objects there are. -/
abbrev Heap := List Obj

/-- The fields that are values. -/
def Obj.fields : Obj → List Value
  | .block _ _ fields => fields
  | _ => []

/-- `caml_atom_table` or an empty block elsewhere. -/
def Obj.isAtom : Obj → Bool
  | .block _ _ [] => true
  | _ => false

/-! ## §2. Bytes. -/

/-- `intext.h`, and the same constants of `ml_data.rs`. -/
def prefixSmallBlock : Nat := 0x80

@[inherit_doc prefixSmallBlock] def prefixSmallInt : Nat := 0x40

@[inherit_doc prefixSmallBlock] def prefixSmallString : Nat := 0x20

@[inherit_doc prefixSmallBlock, match_pattern] abbrev codeInt8 : Nat := 0x0

@[inherit_doc prefixSmallBlock, match_pattern] abbrev codeInt16 : Nat := 0x1

@[inherit_doc prefixSmallBlock, match_pattern] abbrev codeInt32 : Nat := 0x2

@[inherit_doc prefixSmallBlock, match_pattern] abbrev codeInt64 : Nat := 0x3

@[inherit_doc prefixSmallBlock, match_pattern] abbrev codeShared8 : Nat := 0x4

@[inherit_doc prefixSmallBlock, match_pattern] abbrev codeShared16 : Nat := 0x5

@[inherit_doc prefixSmallBlock, match_pattern] abbrev codeShared32 : Nat := 0x6

@[inherit_doc prefixSmallBlock, match_pattern] abbrev codeShared64 : Nat := 0x14

@[inherit_doc prefixSmallBlock, match_pattern] abbrev codeBlock32 : Nat := 0x8

@[inherit_doc prefixSmallBlock, match_pattern] abbrev codeBlock64 : Nat := 0x13

@[inherit_doc prefixSmallBlock, match_pattern] abbrev codeString8 : Nat := 0x9

@[inherit_doc prefixSmallBlock, match_pattern] abbrev codeString32 : Nat := 0xA

@[inherit_doc prefixSmallBlock, match_pattern] abbrev codeString64 : Nat := 0x15

@[inherit_doc prefixSmallBlock, match_pattern] abbrev codeDoubleBig : Nat := 0xB

@[inherit_doc prefixSmallBlock, match_pattern] abbrev codeDoubleLittle : Nat := 0xC

@[inherit_doc prefixSmallBlock, match_pattern] abbrev codeDoubleArray8Big : Nat := 0xD

@[inherit_doc prefixSmallBlock, match_pattern] abbrev codeDoubleArray8Little : Nat := 0xE

@[inherit_doc prefixSmallBlock, match_pattern] abbrev codeDoubleArray32Big : Nat := 0xF

@[inherit_doc prefixSmallBlock, match_pattern] abbrev codeDoubleArray32Little : Nat := 0x7

@[inherit_doc prefixSmallBlock, match_pattern] abbrev codeDoubleArray64Big : Nat := 0x16

@[inherit_doc prefixSmallBlock, match_pattern] abbrev codeDoubleArray64Little : Nat := 0x17

@[inherit_doc prefixSmallBlock, match_pattern] abbrev codeCodePointer : Nat := 0x10

@[inherit_doc prefixSmallBlock, match_pattern] abbrev codeInfixPointer : Nat := 0x11

@[inherit_doc prefixSmallBlock, match_pattern] abbrev codeCustom : Nat := 0x12

@[inherit_doc prefixSmallBlock, match_pattern] abbrev codeCustomLen : Nat := 0x18

@[inherit_doc prefixSmallBlock, match_pattern] abbrev codeCustomFixed : Nat := 0x19

/-- `write`, `writecode8` to `writecode64`: a code and `k` bytes of a number. -/
def writecode (k code n : Nat) : List UInt8 := UInt8.ofNat code :: beBytes k n

/-- The same of a signed number. -/
def writecodeInt (k code : Nat) (i : Int) : List UInt8 := UInt8.ofNat code :: beIntBytes k i

/-- `writeblock` of a C string. -/
def writeCString (s : List UInt8) : List UInt8 := s ++ [0]

/-- A header. -/
def makeHd (wosize color tag : Nat) : Nat := wosize * 2 ^ 10 + color * 2 ^ 8 + tag

/-- `writeblock_float8` on a little-endian machine. -/
def nativeDouble (bits : BitVec 64) : List UInt8 := (beBytes 8 bits.toNat).reverse

namespace Boxed

/-- `Custom_ops_val(v)->identifier`. -/
def identifier : Boxed → List UInt8
  | .int32 _ => [95, 105]
  | .int64 _ => [95, 106]
  | .nativeint _ => [95, 110]

/-- `int32_serialize`, `int64_serialize` and `nativeint_serialize`. -/
def serialize : Boxed → List UInt8
  | .int32 n => beBytes 4 n.toNat
  | .int64 n => beBytes 8 n.toNat
  | .nativeint n =>
      if -2 ^ 31 ≤ n.toInt ∧ n.toInt < 2 ^ 31 then 1 :: beBytes 4 n.toNat
      else 2 :: beBytes 8 n.toNat

/-- The sizes `serialize` returns. -/
def bsize32 : Boxed → Nat
  | .int32 _ => 4
  | .int64 _ => 8
  | .nativeint _ => 4

@[inherit_doc bsize32] def bsize64 : Boxed → Nat
  | .int32 _ => 4
  | .int64 _ => 8
  | .nativeint _ => 8

end Boxed

/-- What one turn of the loop of `extern_rec` writes. -/
inductive Token where
  | int (n : Int)
  /-- A block of size 0. -/
  | atom (tag color : Nat)
  /-- A reference to the object recorded `d` objects ago. -/
  | shared (d : Nat)
  | string (bytes : List UInt8)
  | double (bits : BitVec 64)
  | custom (form : CustomForm) (boxed : Boxed)
  /-- The header of a block; its fields follow. -/
  | block (tag color size : Nat)
  deriving Repr, DecidableEq

namespace Token

/-- The bytes of an item. -/
def bytes : Token → List UInt8
  | .int n =>
      if 0 ≤ n ∧ n < 0x40 then [UInt8.ofNat (prefixSmallInt + n.toNat)]
      else if -2 ^ 7 ≤ n ∧ n < 2 ^ 7 then writecodeInt 1 codeInt8 n
      else if -2 ^ 15 ≤ n ∧ n < 2 ^ 15 then writecodeInt 2 codeInt16 n
      else if n < -2 ^ 30 ∨ 2 ^ 30 ≤ n then writecodeInt 8 codeInt64 n
      else writecodeInt 4 codeInt32 n
  | .atom tag color =>
      if tag < 16 then [UInt8.ofNat (prefixSmallBlock + tag)]
      else writecode 4 codeBlock32 (makeHd 0 color tag)
  | .shared d =>
      if d < 0x100 then writecode 1 codeShared8 d
      else if d < 0x10000 then writecode 2 codeShared16 d
      else if 2 ^ 32 ≤ d then writecode 8 codeShared64 d
      else writecode 4 codeShared32 d
  | .string bytes =>
      (if bytes.length < 0x20 then [UInt8.ofNat (prefixSmallString + bytes.length)]
       else if bytes.length < 0x100 then writecode 1 codeString8 bytes.length
       else if bytes.length < 2 ^ 32 then writecode 4 codeString32 bytes.length
       else writecode 8 codeString64 bytes.length) ++ bytes
  | .double bits => UInt8.ofNat codeDoubleLittle :: nativeDouble bits
  | .custom form boxed =>
      match form with
      | .fixed =>
          UInt8.ofNat codeCustomFixed :: (writeCString boxed.identifier ++ boxed.serialize)
      | .len =>
          UInt8.ofNat codeCustomLen :: (writeCString boxed.identifier ++
            (beBytes 4 boxed.bsize32 ++ beBytes 8 boxed.bsize64) ++ boxed.serialize)
      | .deprecated =>
          UInt8.ofNat codeCustom :: (writeCString boxed.identifier ++ boxed.serialize)
  | .block tag color size =>
      if tag < 16 ∧ size < 8 then [UInt8.ofNat (prefixSmallBlock + tag + size * 2 ^ 4)]
      else if makeHd size color tag < 2 ^ 32 then writecode 4 codeBlock32 (makeHd size 0 tag)
      else writecode 8 codeBlock64 (makeHd size 0 tag)

/-- Is an object recorded? -/
def recorded : Token → Bool
  | .int _ | .atom _ _ | .shared _ => false
  | .string _ | .double _ | .custom _ _ | .block _ _ _ => true

/-- What is added to `size_32` and to `size_64`. -/
def size32 : Token → Nat
  | .int _ | .atom _ _ | .shared _ => 0
  | .string bytes => 1 + (bytes.length + 4) / 4
  | .double _ => 1 + 2
  | .custom _ boxed => 2 + (boxed.bsize32 + 3) / 4
  | .block _ _ size => 1 + size

@[inherit_doc size32] def size64 : Token → Nat
  | .int _ | .atom _ _ | .shared _ => 0
  | .string bytes => 1 + (bytes.length + 8) / 8
  | .double _ => 1 + 1
  | .custom _ boxed => 2 + (boxed.bsize64 + 7) / 8
  | .block _ _ size => 1 + size

end Token

/-! ## §3. The traversal. -/

/-- What the loop does with a value, once the objects `order` are recorded: the
item, whether the object is recorded, and the fields that come next. -/
def externItem (heap : Heap) (order : List Nat) : Value → Option (Token × List Nat × List Value)
  | .long n => some (.int n, order, [])
  | .ptr a => do
      let obj ← heap[a]?
      let new (token : Token) (fields : List Value) :=
        if a ∈ order then (.shared (order.length - order.idxOf a), order, [])
        else (token, order ++ [a], fields)
      match obj with
      | .block tag color fields =>
          if fields = [] then some (.atom tag color, order, [])
          else some (new (.block tag color fields.length) fields)
      | .string bytes => some (new (.string bytes) [])
      | .double bits => some (new (.double bits) [])
      | .custom form boxed => some (new (.custom form boxed) [])

/-- The loop of `extern_rec`.  An item of the stack is the fields to come, and
goes when the last of them is taken. -/
def externLoop (heap : Heap) :
    Nat → Value → List (List Value) → List Nat → List Token → Option (List Token)
  | 0, _, _, _, _ => none
  | fuel + 1, v, stack, order, out => do
      let (token, order, fields) ← externItem heap order v
      let out := out ++ [token]
      match fields, stack with
      | field0 :: rest, stack =>
          externLoop heap fuel field0 (if rest = [] then stack else rest :: stack) order out
      | [], (v :: rest) :: stack =>
          externLoop heap fuel v (if rest = [] then stack else rest :: stack) order out
      | [], _ => some out

/-- As many turns as there can be: one for each field, and one. -/
def externFuel (heap : Heap) : Nat := (heap.map fun o => o.fields.length).sum + 1

/-- `extern_rec`: the items written for `v`. -/
def externRec (heap : Heap) (v : Value) : Option (List Token) :=
  externLoop heap (externFuel heap) v [] [] []

/-- `Intext_magic_number_small` and `Intext_magic_number_big`. -/
def intextMagicNumberSmall : Nat := 0x8495A6BE

@[inherit_doc intextMagicNumberSmall] def intextMagicNumberBig : Nat := 0x8495A6BF

/-- The header `extern_value` writes. -/
def externHeader (resLen objCounter size32 size64 : Nat) : List UInt8 :=
  if 2 ^ 32 ≤ resLen ∨ 2 ^ 32 ≤ size32 ∨ 2 ^ 32 ≤ size64 then
    beBytes 4 intextMagicNumberBig ++ beBytes 4 0 ++ beBytes 8 resLen ++ beBytes 8 objCounter ++
      beBytes 8 size64
  else
    beBytes 4 intextMagicNumberSmall ++ beBytes 4 resLen ++ beBytes 4 objCounter ++
      beBytes 4 size32 ++ beBytes 4 size64

/-- The items of a value, after their header. -/
def externBytes (tokens : List Token) : List UInt8 :=
  let data := tokens.flatMap Token.bytes
  externHeader data.length (tokens.countP Token.recorded) (tokens.map Token.size32).sum
    (tokens.map Token.size64).sum ++ data

/-- `extern_value`. -/
def externValue (heap : Heap) (v : Value) : Option (List UInt8) :=
  (externRec heap v).map externBytes

end OcamlJit.Marshal

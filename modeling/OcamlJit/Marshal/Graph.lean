/-
  OcamlJit.Marshal.Graph
  ──────────────────────
  **VALUE GRAPHS, AND WHAT IT MEANS TO GET ONE BACK.**

  `Isomorphic` compares the objects of a heap with the blocks and strings that
  were read; `Tables` are the two tables of objects, the writer's and the
  reader's, after some items, and `Token.ReadBack` says of an item that the
  reader makes of it what was written.
-/
import OcamlJit.Marshal.MlData
import Mathlib.Data.List.Forall2

namespace OcamlJit.Marshal

open OcamlJit.Lib

/-! ## §1. Isomorphic graphs. -/

/-- A boxed integer as the reader has it. -/
def Boxed.value : Boxed → MLValue
  | .int32 n => .int32 n
  | .int64 n => .int64 n
  | .nativeint n => .int64 n

/-- `empty id tag` says that block `id` is an empty one with this tag. -/
abbrev EmptyBlocks := Nat → Nat → Prop

/-- The empty blocks there are. -/
def MLValueBlocks.Empty (blocks : MLValueBlocks) : EmptyBlocks := fun id tag =>
  blocks.blocks[id]? = some ⟨tag, []⟩

/-- A value and what was read for it, where `f` maps the objects.  Blocks of
size 0 have nothing but their tag and are not told apart. -/
def Corr (heap : Heap) (empty : EmptyBlocks) (f : Nat → Option MLValue) :
    Value → MLValue → Prop
  | .long n, w => w = .int n
  | .ptr a, w =>
      match heap[a]? with
      | some (.block tag _ []) => ∃ id, w = .block id ∧ empty id tag
      | _ => f a = some w

/-- An object and what was read for it. -/
def ObjCorr (heap : Heap) (blocks : MLValueBlocks) (f : Nat → Option MLValue) :
    Obj → MLValue → Prop
  | .block tag _ fields, w => ∃ id items, w = .block id ∧
      blocks.blocks[id]? = some ⟨tag, items⟩ ∧
      List.Forall₂ (Corr heap blocks.Empty f) fields items
  | .string bytes, w => ∃ id s, w = .string id ∧ blocks.strings[id]? = some s ∧ s.toBytes = bytes
  | .double bits, w => w = .double bits
  | .custom _ boxed, w => w = boxed.value

/-- A block or a string: what an object is known by. -/
def MLValue.isRef : MLValue → Bool
  | .block _ | .string _ => true
  | _ => false

/-- `f` is an isomorphism. -/
structure IsoBy (heap : Heap) (root : Value) (blocks : MLValueBlocks) (value : MLValue)
    (f : Nat → Option MLValue) : Prop where
  root : Corr heap blocks.Empty f root value
  objects : ∀ a w, f a = some w → ∃ obj, heap[a]? = some obj ∧ ObjCorr heap blocks f obj w
  injective : ∀ a b w, f a = some w → f b = some w → w.isRef = true → a = b

/-- **What was read is the graph of `root`**: the same tags, sizes and fields,
the same strings and numbers, and the same sharing. -/
def Isomorphic (heap : Heap) (root : Value) (blocks : MLValueBlocks) (value : MLValue) : Prop :=
  ∃ f, IsoBy heap root blocks value f

/-- **`input_value` gets the graph of `root` back** from `bytes`, and leaves
what follows. -/
def GetsBack (heap : Heap) (root : Value) (bytes rest : List UInt8) : Prop :=
  ∃ out, inputValue (bytes ++ rest) = .ok out ∧
    Isomorphic heap root out.blocks out.value ∧ out.rest = rest

/-- An object that is not a block of size 0 is mapped. -/
theorem corr_ptr {heap : Heap} {empty : EmptyBlocks} {f : Nat → Option MLValue} {a : Nat}
    {obj : Obj} {w : MLValue} (hobj : heap[a]? = some obj) (hatom : obj.isAtom = false) :
    Corr heap empty f (.ptr a) w ↔ f a = some w := by
  simp only [Corr, hobj]
  split
  · next h =>
      cases h
      cases hatom
  · rfl

theorem corr_atom {heap : Heap} {empty : EmptyBlocks} {f : Nat → Option MLValue}
    {a tag color : Nat} {w : MLValue} (hobj : heap[a]? = some (.block tag color [])) :
    Corr heap empty f (.ptr a) w ↔ ∃ id, w = .block id ∧ empty id tag := by
  simp only [Corr, hobj]

/-! ## §2. Heaps. -/

/-- A value of the heap. -/
def Value.Ok (heap : Heap) : Value → Prop
  | .long n => -2 ^ 62 ≤ n ∧ n < 2 ^ 62
  | .ptr a => a < heap.length

/-- What fits into a header. -/
def Obj.Ok (heap : Heap) : Obj → Prop
  | .block tag color fields =>
      tag < 246 ∧ color < 4 ∧ fields.length < 2 ^ 54 ∧ ∀ v ∈ fields, v.Ok heap
  | .string bytes => bytes.length < 2 ^ 57
  | .double _ | .custom _ _ => True

/-- A heap of the 64-bit runtime. -/
structure HeapOk (heap : Heap) : Prop where
  size : heap.length < 2 ^ 61
  objects : ∀ obj ∈ heap, obj.Ok heap

/-! ## §3. The tables of objects. -/

/-- After some items: how many blocks and strings have been read, the values of
`prev_objects`, and the values of the objects the writer (and `intern.c`) has in
its table. -/
structure Tables where
  blocks : Nat
  strings : Nat
  read : List MLValue
  written : List MLValue
  deriving Repr, DecidableEq

/-- The tables before the first item. -/
def Tables.start : Tables := ⟨0, 0, [], []⟩

/-- The tables after another item.  A block of size 0 goes into the reader's
table only, a boxed integer into the writer's only. -/
def Tables.after (t : Tables) : Token → Tables
  | .int _ | .shared _ => t
  | .atom _ _ => { t with blocks := t.blocks + 1, read := t.read ++ [.block t.blocks] }
  | .block _ _ _ =>
      { t with blocks := t.blocks + 1, read := t.read ++ [.block t.blocks],
               written := t.written ++ [.block t.blocks] }
  | .string _ =>
      { t with strings := t.strings + 1, read := t.read ++ [.string t.strings],
               written := t.written ++ [.string t.strings] }
  | .double bits =>
      { t with read := t.read ++ [.double bits], written := t.written ++ [.double bits] }
  | .custom _ boxed => { t with written := t.written ++ [boxed.value] }

/-- The bits of a double in the other byte order. -/
def swapBytes (bits : BitVec 64) : BitVec 64 := .ofNat 64 (beNat (nativeDouble bits))

/-- Does the reader take a boxed integer for what it is?  It skips no size
header, and no length byte of a native integer. -/
def customOk (form : CustomForm) : Boxed → Prop
  | .int32 _ | .int64 _ => form ≠ .len
  | .nativeint _ => False

/-- **The reader makes of the item what was written.** -/
def Token.ReadBack (t : Tables) : Token → Prop
  | .int n => -2 ^ 30 ≤ n ∧ n < 2 ^ 30
  | .atom _ _ | .string _ | .block _ _ _ => True
  | .shared d => t.read.reverse[d - 1]? = t.written.reverse[d - 1]?
  | .double bits => swapBytes bits = bits
  | .custom form boxed => customOk form boxed

/-- The same of all items. -/
def ReadBack : Tables → List Token → Prop
  | _, [] => True
  | t, token :: tokens => token.ReadBack t ∧ ReadBack (t.after token) tokens

/-- All items of a list. -/
theorem readBack_iff : ∀ (t : Tables) (tokens : List Token), ReadBack t tokens ↔
    ∀ pre token post, tokens = pre ++ token :: post → token.ReadBack (pre.foldl Tables.after t)
  | _, [] => by simp [ReadBack]
  | t, x :: xs => by
      rw [ReadBack, readBack_iff (t.after x) xs]
      constructor
      · rintro ⟨hx, hxs⟩ pre token post h
        cases pre with
        | nil =>
            cases h
            exact hx
        | cons y pre =>
            cases h
            exact hxs pre token post rfl
      · intro h
        exact ⟨h [] x xs rfl, fun pre token post hxs => h (x :: pre) token post (by rw [hxs]; rfl)⟩

end OcamlJit.Marshal

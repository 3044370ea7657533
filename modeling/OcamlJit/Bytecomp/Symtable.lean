/-
  OcamlJit.Bytecomp.Symtable
  ──────────────────────────
  **NUMBERS OF GLOBALS, LITERALS AND PRIMITIVES** (`ocaml/bytecomp/symtable.ml`).

  While units are linked the tables give out slots and `patch_object` writes them
  into the code.  A slot that has been written stays right, because the tables
  only grow:

    • `slotForReloc_spec`         one slot, and what it means from then on;
    • `patchObject_spec`          the slots of one unit;
    • `initSymtable_spec`         the slots of the exceptions of the runtime;
    • `allPrimitives_spec`        the primitives, each at its number;
    • `initialGlobalTable_spec`   where the literals are when the program starts.
-/
import OcamlJit.Bytecomp.Objects
import Mathlib.Data.List.AList

namespace OcamlJit.Bytecomp.Symtable

open OcamlJit.Instructions (Word)
open OcamlJit.Typing (Ident)
open OcamlJit.Lib.Backpatch

/-! ## §1. Tables of numbers. -/

/-- `Num_tbl(M).t`; `tbl` is a finite map. -/
structure NumTbl (K : Type) where
  cnt : Nat
  tbl : AList fun _ : K => Nat

namespace NumTbl

variable {K : Type} [DecidableEq K]

/-- `empty`. -/
def empty : NumTbl K := ⟨0, ∅⟩

/-- `find`. -/
def find (nt : NumTbl K) (key : K) : Option Nat := nt.tbl.lookup key

/-- `enter`. -/
def enter (nt : NumTbl K) (key : K) : Nat × NumTbl K :=
  (nt.cnt, ⟨nt.cnt + 1, nt.tbl.insert key nt.cnt⟩)

/-- `incr`. -/
def incr (nt : NumTbl K) : Nat × NumTbl K := (nt.cnt, ⟨nt.cnt + 1, nt.tbl⟩)

end NumTbl

/-- `Ident.compare`, of which maps use the sign. -/
def compareIdent : Ident → Ident → Ordering
  | .local_ x sx, .local_ y sy => (compare sx sy).then (compare x y)
  | .local_ _ _, _ => .gt
  | _, .local_ _ _ => .lt
  | .scoped_ x sx _, .scoped_ y sy _ => (compare sx sy).then (compare x y)
  | .scoped_ _ _ _, _ => .gt
  | _, .scoped_ _ _ _ => .lt
  | .global x, .global y => compare x y
  | .global _, _ => .gt
  | _, .global _ => .lt
  | .predef _ sx, .predef _ sy => compare sx sy

/-- What `compare` looks at. -/
def identKey : Ident → Ident
  | .scoped_ name stamp _ => .scoped_ name stamp 0
  | .predef _ stamp => .predef [] stamp
  | id => id

/-- How linking stops. -/
inductive SymtableError where
  | undefinedGlobal (name : List UInt8)
  | unavailablePrimitive (name : List UInt8)
  | fatalError (msg : String)
  /-- `Invalid_argument "index out of bounds"`. -/
  | indexOutOfBounds
  deriving Repr, DecidableEq

/-- The variables of the module; the keys of the globals are up to `Ident.compare`. -/
structure Tables where
  globalTable : NumTbl Ident
  literalTable : List (Nat × StructuredConstant)
  cPrimTable : NumTbl (List UInt8)

/-- Steps of the linker. -/
abbrev Link := StateT Tables (Except SymtableError)

/-- `slot_for_getglobal`. -/
def slotForGetglobal (id : Ident) : Link Nat := do
  match (← get).globalTable.find (identKey id) with
  | some n => pure n
  | none => throw (.undefinedGlobal id.name)

/-- `slot_for_setglobal`. -/
def slotForSetglobal (id : Ident) : Link Nat :=
  modifyGet fun st =>
    let e := st.globalTable.enter (identKey id)
    (e.1, { st with globalTable := e.2 })

/-- `slot_for_literal`. -/
def slotForLiteral (cst : StructuredConstant) : Link Nat :=
  modifyGet fun st =>
    let e := st.globalTable.incr
    (e.1, { st with globalTable := e.2, literalTable := (e.1, cst) :: st.literalTable })

/-- `set_prim_table`, with the number. -/
def setPrimTable (name : List UInt8) : Link Nat :=
  modifyGet fun st =>
    let e := st.cPrimTable.enter name
    (e.1, { st with cPrimTable := e.2 })

section Options

-- Whether a new primitive may have a number: always with a custom runtime, another
-- host or `-no-check-prims`, else if `Dll.find_primitive` has it.
variable (available : List UInt8 → Bool)

/-- `of_prim`. -/
def ofPrim (name : List UInt8) : Link Nat := do
  match (← get).cPrimTable.find name with
  | some n => pure n
  | none => if available name then setPrimTable name else throw (.unavailablePrimitive name)

/-- `require_primitive`; no name is empty. -/
def requirePrimitive (name : List UInt8) : Link Unit :=
  -- `'%'`
  if name.head? = some 37 then pure () else discard (ofPrim available name)

/-- `patch_int`. -/
def patchInt (buff : List UInt8) (pos : Nat) (n : Int) : Except SymtableError (List UInt8) := do
  let buff ← set buff pos (unsafeChr n)
  let buff ← set buff (pos + 1) (unsafeChr (n >>> (8 : Nat)))
  let buff ← set buff (pos + 2) (unsafeChr (n >>> (16 : Nat)))
  set buff (pos + 3) (unsafeChr (n >>> (24 : Nat)))
where
  /-- `LongString.set`. -/
  set (buff : List UInt8) (pos : Nat) (c : UInt8) : Except SymtableError (List UInt8) :=
    if pos < buff.length then .ok (buff.set pos c) else .error .indexOutOfBounds

/-- The slot of a relocation. -/
def slotForReloc : RelocInfo → Link Nat
  | .relocLiteral sc => slotForLiteral sc
  | .relocGetglobal id => slotForGetglobal id
  | .relocSetglobal id => slotForSetglobal id
  | .relocPrimitive name => ofPrim available name

/-- `patch_object`. -/
def patchObject (buff : List UInt8) : List (RelocInfo × Nat) → Link (List UInt8)
  | [] => pure buff
  | (info, pos) :: patchlist => do
      let n ← slotForReloc available info
      let buff ← patchInt buff pos n
      patchObject buff patchlist

end Options

/-- `Obj.object_tag`. -/
def objectTag : Int := 248

/-- The exceptions in `init`: the `i`-th is a block with its name and `-i-1`. -/
def initExceptions (builtinValues : List (List UInt8 × Ident)) : Nat → List (List UInt8) → Link Unit
  | _, [] => pure ()
  | i, name :: names => do
      match builtinValues.lookup name with
      | none => throw (.fatalError "Symtable.init")
      | some id => do
          let c ← slotForSetglobal id
          let cst := .constBlock objectTag
            [.constBase (.constString name none), .constBase (.constInt (-i - 1))]
          modify fun st => { st with literalTable := (c, cst) :: st.literalTable }
      initExceptions builtinValues (i + 1) names

/-- `init`, for `Runtimedef.builtin_exceptions` and the primitives of the runtime
that is chosen. -/
def initSymtable (builtinValues : List (List UInt8 × Ident)) (builtinExceptions : List (List UInt8))
    (primitives : List (List UInt8)) : Link Unit := do
  initExceptions builtinValues 0 builtinExceptions
  primitives.forM fun name => discard (setPrimTable name)

/-- `all_primitives`; the names have different numbers, so that their order is of no
account. -/
def allPrimitives (t : NumTbl (List UInt8)) : List (List UInt8) :=
  t.tbl.entries.foldl (fun prim e => prim.set e.2 e.1) (List.replicate t.cnt [])

/-- `initial_global_table`: `translConst` makes values of literals. -/
def initialGlobalTable {V : Type} (zero : V) (translConst : StructuredConstant → V)
    (st : Tables) : List V :=
  st.literalTable.foldl (fun glob e => glob.set e.1 (translConst e.2))
    (List.replicate st.globalTable.cnt zero)

/-- One step of `required_globals`. -/
def addGetglobal (accu : List Ident) (rel : RelocInfo × Nat) : List Ident :=
  match rel.1 with
  | .relocGetglobal id => id :: accu
  | _ => accu

/-- `required_globals`. -/
def requiredGlobals (patchlist : List (RelocInfo × Nat)) : List Ident :=
  patchlist.foldl addGetglobal []

/-! ## §2. Numbers. -/

/-- Identifiers are equal for the tables when their keys are. -/
theorem compareIdent_eq_iff (x y : Ident) :
    compareIdent x y = .eq ↔ identKey x = identKey y := by
  cases x <;> cases y <;>
    simp [compareIdent, identKey, Ordering.then_eq_eq, and_comm]

/-- Numbers are below `cnt`, and no two keys have the same. -/
structure NumTbl.Ok {K : Type} [DecidableEq K] (nt : NumTbl K) : Prop where
  bounded : ∀ {key n}, nt.find key = some n → n < nt.cnt
  injective : ∀ {key key' n}, nt.find key = some n → nt.find key' = some n → key = key'

section Tables

variable {K : Type} [DecidableEq K] {nt : NumTbl K} {key key' : K} {n : Nat}

/-- An empty table gives no numbers. -/
theorem NumTbl.empty_ok : (NumTbl.empty : NumTbl K).Ok where
  bounded h := by cases h
  injective h := by cases h

/-- A new key gets the next number, and the others keep theirs. -/
theorem NumTbl.find_enter :
    (nt.enter key).2.find key' = if key' = key then some nt.cnt else nt.find key' := by
  unfold NumTbl.find NumTbl.enter
  split
  next heq =>
    subst heq
    exact AList.lookup_insert _
  next hne => exact AList.lookup_insert_ne hne

/-- Numbers stay below the count when a key is entered. -/
theorem NumTbl.Ok.enter (h : nt.Ok) (key : K) : (nt.enter key).2.Ok where
  bounded {key' n} hn := by
    rw [find_enter] at hn
    show n < nt.cnt + 1
    split at hn
    · cases hn
      exact Nat.lt_succ_self _
    · exact Nat.lt_succ_of_lt (h.bounded hn)
  injective {k k' n} hk hk' := by
    rw [find_enter] at hk hk'
    split at hk <;> split at hk'
    next hk1 hk2 => rw [hk1, hk2]
    · cases hk
      exact absurd (h.bounded hk') (Nat.lt_irrefl _)
    · cases hk'
      exact absurd (h.bounded hk) (Nat.lt_irrefl _)
    · exact h.injective hk hk'

/-- And when a number is left out. -/
theorem NumTbl.Ok.incr (h : nt.Ok) : nt.incr.2.Ok where
  bounded hn := Nat.lt_succ_of_lt (h.bounded hn)
  injective hk hk' := h.injective hk hk'

end Tables

/-- The tables while units are linked. -/
structure Tables.Ok (st : Tables) : Prop where
  globals : st.globalTable.Ok
  prims : st.cPrimTable.Ok
  literals : ∀ e ∈ st.literalTable, e.1 < st.globalTable.cnt
  nodup : (st.literalTable.map Prod.fst).Nodup
  /-- A literal has the slot of a global only where `init` says so. -/
  apart : ∀ e ∈ st.literalTable, ∀ {key : Ident}, st.globalTable.find key = some e.1 →
    ∃ name stamp, key = .predef name stamp

/-- In the tables a relocation has the number `n`. -/
def Numbers (st : Tables) : RelocInfo → Nat → Prop
  | .relocLiteral sc, n => (n, sc) ∈ st.literalTable
  | .relocGetglobal id, n => st.globalTable.find (identKey id) = some n
  | .relocSetglobal id, n => st.globalTable.find (identKey id) = some n
  | .relocPrimitive name, n => st.cPrimTable.find name = some n

/-- Numbers that were given out are kept. -/
def Tables.Grows (st st' : Tables) : Prop :=
  ∀ info n, Numbers st info n → Numbers st' info n

/-- Tables that grow twice. -/
theorem Tables.Grows.trans {st st' st'' : Tables} (h : st.Grows st') (h' : st'.Grows st'') :
    st.Grows st'' := fun info n hn => h' info n (h info n hn)

/-! ## §3. One slot. -/

section Slots

variable {available : List UInt8 → Bool} {st st' : Tables} {info : RelocInfo} {n : Nat}

/-- What the slot of a relocation does to the tables. -/
inductive Assigns (available : List UInt8 → Bool) (st : Tables) : RelocInfo → Nat → Tables → Prop
  | literal (sc : StructuredConstant) : Assigns available st (.relocLiteral sc) st.globalTable.cnt
      { st with
        globalTable := st.globalTable.incr.2
        literalTable := (st.globalTable.cnt, sc) :: st.literalTable }
  | getglobal {id : Ident} {n : Nat} (h : st.globalTable.find (identKey id) = some n) :
      Assigns available st (.relocGetglobal id) n st
  | setglobal (id : Ident) : Assigns available st (.relocSetglobal id) st.globalTable.cnt
      { st with globalTable := (st.globalTable.enter (identKey id)).2 }
  | known {name : List UInt8} {n : Nat} (h : st.cPrimTable.find name = some n) :
      Assigns available st (.relocPrimitive name) n st
  | entered {name : List UInt8} (h : st.cPrimTable.find name = none) (ha : available name = true) :
      Assigns available st (.relocPrimitive name) st.cPrimTable.cnt
        { st with cPrimTable := (st.cPrimTable.enter name).2 }

/-- Why a relocation has no slot. -/
inductive Refuses (available : List UInt8 → Bool) (st : Tables) : RelocInfo → SymtableError → Prop
  | undefined {id : Ident} (h : st.globalTable.find (identKey id) = none) :
      Refuses available st (.relocGetglobal id) (.undefinedGlobal id.name)
  | unavailable {name : List UInt8} (h : st.cPrimTable.find name = none)
      (ha : available name = false) :
      Refuses available st (.relocPrimitive name) (.unavailablePrimitive name)

/-- A global that is known has its slot. -/
theorem slotForGetglobal_of_some {id : Ident} (h : st.globalTable.find (identKey id) = some n) :
    slotForGetglobal id st = .ok (n, st) := by
  unfold slotForGetglobal
  simp only [bind, StateT.bind, get, getThe, MonadStateOf.get, StateT.get, pure, Except.pure,
    Except.bind, h]
  rfl

/-- One that is not is an error. -/
theorem slotForGetglobal_of_none {id : Ident} (h : st.globalTable.find (identKey id) = none) :
    slotForGetglobal id st = .error (.undefinedGlobal id.name) := by
  unfold slotForGetglobal
  simp only [bind, StateT.bind, get, getThe, MonadStateOf.get, StateT.get, pure, Except.pure,
    Except.bind, h]
  rfl

/-- A primitive that is known has its number. -/
theorem ofPrim_of_some {name : List UInt8} (h : st.cPrimTable.find name = some n) :
    ofPrim available name st = .ok (n, st) := by
  unfold ofPrim
  simp only [bind, StateT.bind, get, getThe, MonadStateOf.get, StateT.get, pure, Except.pure,
    Except.bind, h]
  rfl

/-- One that is not gets the next one, where it is available. -/
theorem ofPrim_of_none (available : List UInt8 → Bool) {name : List UInt8}
    (h : st.cPrimTable.find name = none) :
    ofPrim available name st =
      if available name then .ok (st.cPrimTable.cnt,
        { st with cPrimTable := (st.cPrimTable.enter name).2 })
      else .error (.unavailablePrimitive name) := by
  unfold ofPrim
  simp only [bind, StateT.bind, get, getThe, MonadStateOf.get, StateT.get, pure, Except.pure,
    Except.bind, h]
  split <;> rfl

/-- **One slot**: it is found or given out, or there is none. -/
theorem slotForReloc_spec (available : List UInt8 → Bool) (info : RelocInfo) (st : Tables) :
    (∃ n st', slotForReloc available info st = .ok (n, st') ∧ Assigns available st info n st') ∨
      ∃ e, slotForReloc available info st = .error e ∧ Refuses available st info e := by
  cases info with
  | relocLiteral sc => exact .inl ⟨_, _, rfl, .literal sc⟩
  | relocSetglobal id => exact .inl ⟨_, _, rfl, .setglobal id⟩
  | relocGetglobal id =>
      cases h : st.globalTable.find (identKey id) with
      | some n => exact .inl ⟨n, st, slotForGetglobal_of_some h, .getglobal h⟩
      | none => exact .inr ⟨_, slotForGetglobal_of_none h, .undefined h⟩
  | relocPrimitive name =>
      cases h : st.cPrimTable.find name with
      | some n => exact .inl ⟨n, st, ofPrim_of_some h, .known h⟩
      | none =>
          have hprim := ofPrim_of_none available h
          cases ha : available name with
          | true =>
              rw [ha] at hprim
              exact .inl ⟨_, _, hprim, .entered h ha⟩
          | false =>
              rw [ha] at hprim
              exact .inr ⟨_, hprim, .unavailable h ha⟩

/-- A global is set that has no slot yet. -/
def Fresh (st : Tables) : RelocInfo → Prop
  | .relocSetglobal id => st.globalTable.find (identKey id) = none
  | _ => True

/-- What is assigned is what the tables say from then on. -/
theorem Assigns.numbers (h : Assigns available st info n st') : Numbers st' info n := by
  cases h with
  | literal sc => exact List.mem_cons_self
  | getglobal h => exact h
  | setglobal id =>
      show NumTbl.find _ _ = _
      rw [NumTbl.find_enter, if_pos rfl]
  | known h => exact h
  | entered h ha =>
      show NumTbl.find _ _ = _
      rw [NumTbl.find_enter, if_pos rfl]

/-- A key that has a number keeps it. -/
theorem find_enter_of_some {K : Type} [DecidableEq K] {nt : NumTbl K} {key key' : K}
    (hkey : nt.find key = none) (h : nt.find key' = some n) :
    (nt.enter key).2.find key' = some n := by
  rw [NumTbl.find_enter, if_neg, h]
  rintro rfl
  rw [hkey] at h
  cases h

/-- No number that was given changes. -/
theorem Assigns.grows (h : Assigns available st info n st') (hfresh : Fresh st info) :
    st.Grows st' := by
  intro info' m hm
  cases h with
  | literal sc =>
      cases info' with
      | relocLiteral sc' => exact List.mem_cons_of_mem _ hm
      | _ => exact hm
  | getglobal h => exact hm
  | setglobal id =>
      cases info' with
      | relocGetglobal id' => exact find_enter_of_some hfresh hm
      | relocSetglobal id' => exact find_enter_of_some hfresh hm
      | _ => exact hm
  | known h => exact hm
  | entered h ha =>
      cases info' with
      | relocPrimitive name' => exact find_enter_of_some h hm
      | _ => exact hm

/-- The tables stay as they should be. -/
theorem Assigns.ok (h : Assigns available st info n st') (hst : st.Ok) : st'.Ok := by
  cases h with
  | getglobal h => exact hst
  | known h => exact hst
  | entered h ha => exact { hst with prims := hst.prims.enter _ }
  -- the new literal gets the next number, and the names have smaller ones
  | literal sc =>
      have hold {e : Nat × StructuredConstant} (he : e ∈ st.literalTable) :
          e.1 ≠ st.globalTable.cnt := Nat.ne_of_lt (hst.literals e he)
      exact
        { globals := hst.globals.incr
          prims := hst.prims
          literals := fun e he => by
            rcases List.mem_cons.mp he with rfl | he
            · exact Nat.lt_succ_self _
            · exact Nat.lt_succ_of_lt (hst.literals e he)
          nodup := by
            rw [List.map_cons, List.nodup_cons]
            refine ⟨fun hmem => ?_, hst.nodup⟩
            obtain ⟨e, he, heq⟩ := List.mem_map.mp hmem
            exact hold he heq
          apart := fun e he key hkey => by
            rcases List.mem_cons.mp he with rfl | he
            · exact absurd (hst.globals.bounded hkey) (Nat.lt_irrefl _)
            · exact hst.apart e he hkey }
  -- so does the new name
  | setglobal id =>
      exact
        { globals := hst.globals.enter _
          prims := hst.prims
          literals := fun e he => Nat.lt_succ_of_lt (hst.literals e he)
          nodup := hst.nodup
          apart := fun e he key hkey => by
            rw [NumTbl.find_enter] at hkey
            split at hkey
            · exact absurd (Option.some.inj hkey).symm (Nat.ne_of_lt (hst.literals e he))
            · exact hst.apart e he hkey }

/-- The globals that have a slot afterwards. -/
theorem Assigns.find_eq_none (h : Assigns available st info n st') {key : Ident}
    (hkey : st.globalTable.find key = none)
    (hne : ∀ id, info = .relocSetglobal id → identKey id ≠ key) :
    st'.globalTable.find key = none := by
  cases h with
  | setglobal id =>
      show NumTbl.find _ _ = _
      rw [NumTbl.find_enter, if_neg (hne id rfl).symm, hkey]
  | _ => exact hkey

/-- A global that is known stays known. -/
theorem Assigns.find_ne_none (h : Assigns available st info n st') {key : Ident}
    (hkey : st.globalTable.find key ≠ none) : st'.globalTable.find key ≠ none := by
  cases h with
  | setglobal id =>
      show NumTbl.find _ _ ≠ _
      rw [NumTbl.find_enter]
      split
      · exact Option.some_ne_none _
      · exact hkey
  | _ => exact hkey

end Slots

/-! ## §4. The slots of a unit. -/

section Units

variable {available : List UInt8 → Bool} {st st' : Tables}

/-- The globals that relocations set. -/
def setKeys (rs : List (RelocInfo × Nat)) : List Ident :=
  rs.filterMap fun r =>
    match r.1 with
    | .relocSetglobal id => some (identKey id)
    | _ => none

/-- The globals that relocations refer to. -/
def getKeys (rs : List (RelocInfo × Nat)) : List Ident :=
  rs.filterMap fun r =>
    match r.1 with
    | .relocGetglobal id => some (identKey id)
    | _ => none

/-- `patch_int` writes four bytes. -/
theorem patchInt_eq {buff : List UInt8} {p : Nat} (h : p + 4 ≤ buff.length) (n : Int) :
    patchInt buff p n = .ok (setFour buff p (unsafeChr n) (unsafeChr (n >>> (8 : Nat)))
      (unsafeChr (n >>> (16 : Nat))) (unsafeChr (n >>> (24 : Nat)))) := by
  have hset {b : List UInt8} {q : Nat} (hq : q < b.length) (c : UInt8) :
      patchInt.set b q c = .ok (b.set q c) := if_pos hq
  show (patchInt.set buff p _ >>= _) = _
  rw [hset (by omega)]
  show (patchInt.set _ (p + 1) _ >>= _) = _
  rw [hset (by rw [List.length_set]; omega)]
  show (patchInt.set _ (p + 2) _ >>= _) = _
  rw [hset (by rw [List.length_set, List.length_set]; omega)]
  exact hset (by rw [List.length_set, List.length_set, List.length_set]; omega) _

/-- And so a word of the code. -/
theorem patchInt_codeBytes {ws : List Word} {place : Nat} (h : place < ws.length) (n : Int) :
    patchInt (codeBytes ws) (4 * place) n = .ok (codeBytes (ws.set place (wordOfInt n))) := by
  have hset := setFour_codeBytes h (unsafeChr n) (unsafeChr (n >>> (8 : Nat)))
    (unsafeChr (n >>> (16 : Nat))) (unsafeChr (n >>> (24 : Nat))) []
  rw [List.append_nil, List.append_nil, wordOf_unsafeChr] at hset
  rw [patchInt_eq (by rw [length_codeBytes]; omega), hset]

/-- No global is set twice. -/
structure SetsOnce (st : Tables) (rs : List (RelocInfo × Nat)) : Prop where
  nodup : (setKeys rs).Nodup
  unset : ∀ key ∈ setKeys rs, st.globalTable.find key = none

/-- A global that is set was not known before. -/
theorem SetsOnce.fresh {info : RelocInfo} {pos : Nat} {rs : List (RelocInfo × Nat)}
    (h : SetsOnce st ((info, pos) :: rs)) : Fresh st info := by
  cases info with
  | relocSetglobal id => exact h.unset _ List.mem_cons_self
  | _ => trivial

/-- The rest of the relocations sets the others. -/
theorem SetsOnce.tail {info : RelocInfo} {pos n : Nat} {rs : List (RelocInfo × Nat)}
    (h : SetsOnce st ((info, pos) :: rs)) (hassigns : Assigns available st info n st') :
    SetsOnce st' rs := by
  cases info with
  | relocSetglobal id =>
      have hnodup : identKey id ∉ setKeys rs ∧ (setKeys rs).Nodup := List.nodup_cons.mp h.nodup
      refine ⟨hnodup.2, fun key hkey => ?_⟩
      refine hassigns.find_eq_none (h.unset key (List.mem_cons_of_mem _ hkey)) fun id' hid => ?_
      cases hid
      rintro rfl
      exact hnodup.1 hkey
  | _ =>
      refine ⟨h.nodup, fun key hkey => hassigns.find_eq_none (h.unset key hkey) fun id' hid => ?_⟩
      cases hid

/-- The first relocation is patched, and then the rest. -/
theorem patchObject_cons {buff : List UInt8} {info : RelocInfo} {pos : Nat}
    {rs : List (RelocInfo × Nat)} {n : Nat} {buff' : List UInt8}
    (hslot : slotForReloc available info st = .ok (n, st'))
    (hpatch : patchInt buff pos n = .ok buff') :
    patchObject available buff ((info, pos) :: rs) st = patchObject available buff' rs st' := by
  show (slotForReloc available info st >>= _) = _
  rw [hslot]
  show ((liftM (patchInt buff pos n) : Link _) st' >>= _) = _
  rw [hpatch]
  rfl

/-- A relocation without a slot ends it. -/
theorem patchObject_of_error {buff : List UInt8} {info : RelocInfo} {pos : Nat}
    {rs : List (RelocInfo × Nat)} {e : SymtableError}
    (hslot : slotForReloc available info st = .error e) :
    patchObject available buff ((info, pos) :: rs) st = .error e := by
  show (slotForReloc available info st >>= _) = _
  rw [hslot]
  rfl

/-- What linking a unit leaves: the tables have grown, and every place has the number
of its relocation. -/
structure Linked (st : Tables) (rs : List (RelocInfo × Nat)) (value : Nat → Nat) (st' : Tables) :
    Prop where
  ok : st'.Ok
  grows : st.Grows st'
  numbers : ∀ r ∈ rs, Numbers st' r.1 (value r.2)
  unset : ∀ key, st.globalTable.find key = none → key ∉ setKeys rs →
    st'.globalTable.find key = none

/-- The words with the numbers of relocations at their places. -/
def patched (rs : List (RelocInfo × Nat)) (value : Nat → Nat) (ws : List Word) : List Word :=
  writeAll (rs.map fun r => (r.2, wordOfInt (value r.2))) ws

/-- **One unit.** -/
theorem patchObject_spec (available : List UInt8 → Bool) :
    ∀ {rs : List (RelocInfo × Nat)} {ws : List Word} {st : Tables}, st.Ok → SetsOnce st rs →
      (∀ r ∈ rs, r.2 < ws.length) → (rs.map Prod.snd).Nodup →
      (∃ value st', patchObject available (codeBytes ws) (rs.map scale) st =
          .ok (codeBytes (patched rs value ws), st') ∧ Linked st rs value st') ∨
        ∃ before r after st' e, rs = before ++ r :: after ∧ Refuses available st' r.1 e ∧
          (∀ key, st.globalTable.find key ≠ none ∨ key ∈ setKeys before →
            st'.globalTable.find key ≠ none) ∧
          patchObject available (codeBytes ws) (rs.map scale) st = .error e
  | [], ws, st, hst, _, _, _ =>
      .inl ⟨fun _ => 0, st, rfl, hst, fun _ _ h => h, fun r hr => absurd hr List.not_mem_nil,
        fun _ h _ => h⟩
  -- the induction is on the places; each may put a new entry into the tables
  | (info, place) :: rs, ws, st, hst, hsets, hplaces, hnodup => by
      rcases slotForReloc_spec available info st with ⟨n, st₁, hslot, hassigns⟩ | ⟨e, hslot, he⟩
      · have hfresh := hsets.fresh
        rw [List.map_cons, List.nodup_cons] at hnodup
        rw [List.map_cons, scale,
          patchObject_cons hslot (patchInt_codeBytes (hplaces _ List.mem_cons_self) n)]
        have hrest : ∀ r ∈ rs, r.2 < (ws.set place (wordOfInt n)).length := fun r hr => by
          rw [List.length_set]
          exact hplaces r (List.mem_cons_of_mem _ hr)
        rcases patchObject_spec available (hassigns.ok hst) (hsets.tail hassigns) hrest
            hnodup.2 with
          ⟨value, st', heq, hlinked⟩ | ⟨before, r, after, st', e, rfl, he, hkeys, heq⟩
        -- no other place is patched by this one
        · have hvalue {r : RelocInfo × Nat} (hr : r ∈ rs) :
              Function.update value place n r.2 = value r.2 := by
            rw [Function.update_of_ne]
            intro heq
            exact hnodup.1 (List.mem_map.mpr ⟨r, hr, heq⟩)
          refine .inl ⟨Function.update value place n, st', ?_, hlinked.ok,
            (hassigns.grows hfresh).trans hlinked.grows, fun r hr => ?_, fun key hkey hnot => ?_⟩
          · have hmap : rs.map (fun r => (r.2, wordOfInt (Function.update value place n r.2))) =
                rs.map fun r => (r.2, wordOfInt (value r.2)) :=
              List.map_congr_left fun r hr => by rw [hvalue hr]
            rw [heq, patched, patched, List.map_cons, hmap, Function.update_self]
            rfl
          · rcases List.mem_cons.mp hr with rfl | hr
            · rw [Function.update_self]
              exact hlinked.grows _ _ hassigns.numbers
            · rw [hvalue hr]
              exact hlinked.numbers r hr
          · have hkey₁ : st₁.globalTable.find key = none := by
              refine hassigns.find_eq_none hkey fun id hid => ?_
              subst hid
              exact fun h => hnot (h ▸ List.mem_cons_self)
            refine hlinked.unset key hkey₁ fun hmem => hnot ?_
            cases info with
            | relocSetglobal id => exact List.mem_cons_of_mem _ hmem
            | _ => exact hmem
        · refine .inr ⟨(info, place) :: before, r, after, st', e, rfl, he, fun key hkey => ?_, heq⟩
          refine hkeys key ?_
          rcases hkey with hkey | hkey
          · exact .inl (hassigns.find_ne_none hkey)
          · cases info with
            | relocSetglobal id =>
                rcases List.mem_cons.mp hkey with rfl | hkey
                · have hn : st₁.globalTable.find (identKey id) = some n := hassigns.numbers
                  rw [hn]
                  exact .inl (Option.some_ne_none n)
                · exact .inr hkey
            | _ => exact .inr hkey
      · refine .inr ⟨[], (info, place), rs, st, e, rfl, he, fun key hkey => ?_, ?_⟩
        · exact hkey.resolve_right List.not_mem_nil
        · exact patchObject_of_error hslot

/-- **The primitives of a unit.** -/
theorem requirePrimitives_spec :
    ∀ {names : List (List UInt8)} {st : Tables}, st.Ok →
      (∃ st', names.forM (requirePrimitive available) st = .ok ((), st') ∧ st'.Ok ∧
          st.Grows st' ∧ st'.globalTable = st.globalTable) ∨
        ∃ name, names.forM (requirePrimitive available) st =
          .error (.unavailablePrimitive name)
  | [], st, h => .inl ⟨st, rfl, h, fun _ _ hn => hn, rfl⟩
  | name :: names, st, h => by
      have hcons : (name :: names).forM (requirePrimitive available) st =
          (requirePrimitive available name >>= fun _ =>
            names.forM (requirePrimitive available)) st := rfl
      rw [hcons]
      by_cases hext : name.head? = some 37
      · have hskip : requirePrimitive available name = pure () := if_pos hext
        rw [hskip]
        exact requirePrimitives_spec h
      · have hprim : requirePrimitive available name =
            discard (slotForReloc available (.relocPrimitive name)) := if_neg hext
        rw [hprim]
        rcases slotForReloc_spec available (.relocPrimitive name) st with
          ⟨n, st₁, hslot, hassigns⟩ | ⟨e, hslot, he⟩
        · have hstep : (discard (slotForReloc available (.relocPrimitive name)) >>= fun _ =>
              names.forM (requirePrimitive available)) st =
                names.forM (requirePrimitive available) st₁ := by
            show (slotForReloc available (.relocPrimitive name) st >>= _) >>= _ = _
            rw [hslot]
            rfl
          have hglobals : st₁.globalTable = st.globalTable := by cases hassigns <;> rfl
          rw [hstep]
          rcases requirePrimitives_spec (hassigns.ok h) with
            ⟨st', heq, hok, hgrows, hglobals'⟩ | herr
          · exact .inl ⟨st', heq, hok, (hassigns.grows trivial).trans hgrows,
              hglobals'.trans hglobals⟩
          · exact .inr herr
        · cases he with
          | unavailable hnone ha =>
              refine .inr ⟨name, ?_⟩
              show (slotForReloc available (.relocPrimitive name) st >>= _) >>= _ = _
              rw [hslot]
              rfl

end Units

/-! ## §5. Before and after. -/

section Tables

variable {st st' : Tables}

/-- Tables without entries. -/
theorem emptyTables_ok : (⟨.empty, [], .empty⟩ : Tables).Ok where
  globals := NumTbl.empty_ok
  prims := NumTbl.empty_ok
  literals _ he := absurd he List.not_mem_nil
  nodup := List.nodup_nil
  apart _ he := absurd he List.not_mem_nil

/-- An exception of the runtime: a global with a literal. -/
theorem Tables.Ok.exception (h : st.Ok) {id : Ident} (hid : ∃ name stamp, id = .predef name stamp)
    (cst : StructuredConstant) :
    Tables.Ok
      { st with
        globalTable := (st.globalTable.enter (identKey id)).2
        literalTable := (st.globalTable.cnt, cst) :: st.literalTable } where
  globals := h.globals.enter _
  prims := h.prims
  literals e he := by
    rcases List.mem_cons.mp he with rfl | he
    · exact Nat.lt_succ_self _
    · exact Nat.lt_succ_of_lt (h.literals e he)
  nodup := by
    rw [List.map_cons, List.nodup_cons]
    refine ⟨fun hmem => ?_, h.nodup⟩
    obtain ⟨e, he, heq⟩ := List.mem_map.mp hmem
    exact absurd (heq ▸ h.literals e he) (Nat.lt_irrefl _)
  apart e he key hkey := by
    rw [NumTbl.find_enter] at hkey
    obtain ⟨name, stamp, rfl⟩ := hid
    split at hkey
    next heq => exact ⟨[], stamp, heq⟩
    next hne =>
      rcases List.mem_cons.mp he with rfl | he
      · exact absurd (h.globals.bounded hkey) (Nat.lt_irrefl _)
      · exact h.apart e he hkey

/-- The predefined exceptions get globals, and nothing else changes. -/
theorem initExceptions_spec {builtinValues : List (List UInt8 × Ident)}
    (hpredef : ∀ p ∈ builtinValues, ∃ name stamp, p.2 = .predef name stamp) :
    ∀ {names : List (List UInt8)} {i : Nat} {st st' : Tables}, st.Ok →
      initExceptions builtinValues i names st = .ok ((), st') →
      st'.Ok ∧ st'.cPrimTable = st.cPrimTable ∧
        (∀ key, st.globalTable.find key ≠ none → st'.globalTable.find key ≠ none) ∧
        ∀ name ∈ names, ∃ id, builtinValues.lookup name = some id ∧
          st'.globalTable.find (identKey id) ≠ none
  | [], i, st, st', hst, h => by
      cases h
      exact ⟨hst, rfl, fun _ h => h, fun name hname => absurd hname List.not_mem_nil⟩
  | name :: names, i, st, st', hst, h => by
      rw [initExceptions] at h
      cases hid : builtinValues.lookup name with
      | none =>
          rw [hid] at h
          cases h
      | some id =>
          rw [hid] at h
          have hmem : ∃ p ∈ builtinValues, p.2 = id := by
            obtain ⟨l₁, l₂, rfl, -⟩ := List.lookup_eq_some_iff.mp hid
            exact ⟨(name, id), by simp, rfl⟩
          obtain ⟨p, hp, rfl⟩ := hmem
          obtain ⟨hok, hprims, hkeys, hnames⟩ :=
            initExceptions_spec hpredef (hst.exception (hpredef p hp) _) h
          have hfound : ((st.globalTable.enter (identKey p.2)).2.find (identKey p.2)) ≠ none := by
            rw [NumTbl.find_enter, if_pos rfl]
            exact Option.some_ne_none _
          refine ⟨hok, hprims, fun key hkey => hkeys key ?_, fun name' hname' => ?_⟩
          · rw [NumTbl.find_enter]
            split
            · exact Option.some_ne_none _
            · exact hkey
          · rcases List.mem_cons.mp hname' with rfl | hname'
            · exact ⟨p.2, hid, hkeys _ hfound⟩
            · exact hnames name' hname'

/-- The primitives get numbers, and the globals stay as they are. -/
theorem setPrimTables_spec :
    ∀ (names : List (List UInt8)) (st : Tables), st.Ok →
      ∃ st', names.forM (fun name => discard (setPrimTable name)) st = .ok ((), st') ∧ st'.Ok ∧
        st'.globalTable = st.globalTable
  | [], st, h => ⟨st, rfl, h, rfl⟩
  | name :: names, st, h =>
      setPrimTables_spec names { st with cPrimTable := (st.cPrimTable.enter name).2 }
        { h with prims := h.prims.enter name }

/-- **The tables at the start of linking**: the exceptions of the runtime have slots. -/
theorem initSymtable_spec {builtinValues : List (List UInt8 × Ident)}
    {exceptions primitives : List (List UInt8)}
    (hpredef : ∀ p ∈ builtinValues, ∃ name stamp, p.2 = .predef name stamp)
    (h : initSymtable builtinValues exceptions primitives ⟨.empty, [], .empty⟩ = .ok ((), st)) :
    st.Ok ∧ ∀ name ∈ exceptions, ∃ id, builtinValues.lookup name = some id ∧
      st.globalTable.find (identKey id) ≠ none := by
  cases hexc : initExceptions builtinValues 0 exceptions ⟨.empty, [], .empty⟩ with
  | error e =>
      have herr : initSymtable builtinValues exceptions primitives ⟨.empty, [], .empty⟩ =
          .error e := by
        show (initExceptions _ _ _ _ >>= _) = _
        rw [hexc]
        rfl
      rw [h] at herr
      cases herr
  | ok p =>
      obtain ⟨⟨⟩, st₁⟩ := p
      have hrest : initSymtable builtinValues exceptions primitives ⟨.empty, [], .empty⟩ =
          primitives.forM (fun name => discard (setPrimTable name)) st₁ := by
        show (initExceptions _ _ _ _ >>= _) = _
        rw [hexc]
        rfl
      obtain ⟨hok, -, -, hnames⟩ := initExceptions_spec hpredef emptyTables_ok hexc
      obtain ⟨st', hst', hok', hglobals⟩ := setPrimTables_spec primitives _ hok
      rw [h, hst'] at hrest
      cases hrest
      rw [hglobals]
      exact ⟨hok', hnames⟩

/-- **Literals are in their slots when the program starts**, and zero is in every
slot that no literal has. -/
theorem initialGlobalTable_spec {V : Type} (zero : V) (translConst : StructuredConstant → V)
    (h : st.Ok) :
    (∀ n sc, (n, sc) ∈ st.literalTable →
        (initialGlobalTable zero translConst st)[n]? = some (translConst sc)) ∧
      ∀ n < st.globalTable.cnt, (∀ sc, (n, sc) ∉ st.literalTable) →
        (initialGlobalTable zero translConst st)[n]? = some zero := by
  have hwrite : initialGlobalTable zero translConst st =
      writeAll (st.literalTable.map fun e => (e.1, translConst e.2))
        (List.replicate st.globalTable.cnt zero) := by
    rw [writeAll, List.foldl_map]
    rfl
  have hkeys : (st.literalTable.map fun e => (e.1, translConst e.2)).map Prod.fst =
      st.literalTable.map Prod.fst := by
    rw [List.map_map]
    rfl
  rw [hwrite]
  constructor
  · intro n sc hmem
    refine getElem?_writeAll_of_mem (by rw [hkeys]; exact h.nodup) ?_ ?_
    · rw [List.length_replicate]
      exact h.literals _ hmem
    · exact List.mem_map.mpr ⟨_, hmem, rfl⟩
  · intro n hn hnot
    rw [getElem?_writeAll_of_notMem, List.getElem?_replicate, if_pos hn]
    rw [hkeys]
    intro hmem
    obtain ⟨⟨m, sc⟩, he, rfl⟩ := List.mem_map.mp hmem
    exact hnot sc he

/-- **Primitives are in the order of their numbers.** -/
theorem allPrimitives_spec {t : NumTbl (List UInt8)} (h : t.Ok) {name : List UInt8} {n : Nat}
    (hn : t.find name = some n) : (allPrimitives t)[n]? = some name := by
  have hwrite : allPrimitives t =
      writeAll (t.tbl.entries.map fun e => (e.2, e.1)) (List.replicate t.cnt []) := by
    rw [writeAll, List.foldl_map]
    rfl
  have hnumbers : ((t.tbl.entries.map fun e => (e.2, e.1)).map Prod.fst).Nodup := by
    rw [List.map_map]
    refine List.Nodup.map_on (fun e he e' he' heq => ?_) t.tbl.nodupKeys.nodup
    obtain ⟨key, m⟩ := e
    obtain ⟨key', m'⟩ := e'
    have hkey : t.find key = some m := AList.mem_lookup_iff.mpr he
    have hkey' : t.find key' = some m' := AList.mem_lookup_iff.mpr he'
    have hm : m = m' := heq
    subst hm
    rw [h.injective hkey hkey']
  rw [hwrite]
  refine getElem?_writeAll_of_mem hnumbers ?_ ?_
  · rw [List.length_replicate]
    exact h.bounded hn
  · exact List.mem_map.mpr ⟨_, AList.mem_lookup_iff.mp hn, rfl⟩

end Tables

end OcamlJit.Bytecomp.Symtable

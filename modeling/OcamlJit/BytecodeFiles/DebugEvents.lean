/-
  OcamlJit.BytecodeFiles.DebugEvents
  ──────────────────────────────────
  **THE DEBUG EVENTS** (`bytecode_files/debug_events.rs`).

  Events and the tables of their environments, from the blocks and the value that
  `input_value` returned.  Strings are copied once and kept (`Strings`); nothing
  depends on which ones have been (`Tame`).  The two loops run on fuel.
-/
import OcamlJit.BytecodeFiles.SymbolTable

namespace OcamlJit.BytecodeFiles

open OcamlJit.Lib OcamlJit.Marshal

/-! ## §1. Types. -/

/-- The texts of `bail!`, `anyhow!` and `ensure!`. -/
inductive DebugError where
  /-- "Could not find/invalid UTF8 for string with id {}". -/
  | invalidString (id : Nat)
  /-- "Expected string but found other type of value". -/
  | expectedString
  /-- "Unexpected value in event list". -/
  | eventList
  /-- "Invalid debug event". -/
  | invalidDebugEvent
  /-- "Bad block id". -/
  | badBlockId
  /-- A failed `ensure!`. -/
  | conditionFailed (condition : String)
  /-- "Invalid position value". -/
  | invalidPositionValue
  /-- "Invalid kind value, {}". -/
  | invalidKind (o : MLValue)
  /-- "Invalid return branch value for debug info". -/
  | invalidReturnBranch
  /-- "Invalid info value, {}". -/
  | invalidInfo (o : MLValue)
  /-- "Invalid compenv". -/
  | invalidCompenv
  /-- "Invalid stack size". -/
  | invalidStackSize
  /-- "invalid repr value". -/
  | invalidReprBlock
  /-- "Invalid repr value, {}". -/
  | invalidRepr (o : MLValue)
  /-- "Invalid span". -/
  | invalidSpan
  /-- "Invalid position". -/
  | invalidPosition
  /-- "Invalid env table". -/
  | invalidEnvTable
  /-- "Invalid ident". -/
  | invalidIdent
  deriving Repr, DecidableEq

/-- `enum Ident`. -/
inductive Ident where
  | local_ (name : String) (stamp : Int)
  | scoped_ (name : String) (stamp scope : Int)
  | global (name : String)
  | predef (name : String) (stamp : Int)
  deriving Repr, DecidableEq

/-- `struct DebugPosition`. -/
structure DebugPosition where
  filename : String
  line : Nat
  column : Nat
  deriving Repr, DecidableEq

/-- `struct DebugSpan`. -/
structure DebugSpan where
  start : DebugPosition
  stop : DebugPosition
  deriving Repr, DecidableEq

/-- `enum DebugEventKind`. -/
inductive DebugEventKind where
  | before
  | after (blockId : Nat)
  | pseudo
  deriving Repr, DecidableEq

/-- `enum DebugEventInfo`. -/
inductive DebugEventInfo where
  | function
  | return_ (n : Nat)
  | other
  deriving Repr, DecidableEq

/-- `enum DebugEventRepr`. -/
inductive DebugEventRepr where
  | none
  | parent (blockId : Nat)
  | child (blockId : Nat)
  deriving Repr, DecidableEq

/-- `struct DebugEvent`. -/
structure DebugEvent where
  position : Nat
  module : String
  span : DebugSpan
  kind : DebugEventKind
  defName : String
  info : DebugEventInfo
  heapEnv : List (Int × Ident)
  recEnv : List (Int × Ident)
  stackSize : Nat
  repr : DebugEventRepr
  deriving Repr, DecidableEq

/-! ## §2. Strings. -/

/-- `struct Strings`: the strings copied so far. -/
structure Strings (blocks : MLValueBlocks) where
  strings : Nat → Option String
  copied : ∀ id s, strings id = some s → blocks.strings[id]? = some (.utf8 s)

/-- Parsing with the strings at hand. -/
abbrev Parse (blocks : MLValueBlocks) := StateT (Strings blocks) (Rust DebugError)

variable {blocks : MLValueBlocks}

namespace Strings

/-- `Strings::new`. -/
def new (blocks : MLValueBlocks) : Strings blocks := ⟨fun _ => none, fun _ _ h => by cases h⟩

/-- `self.strings.insert(id, s)`. -/
def insert (st : Strings blocks) (id : Nat) (s : String) (h : blocks.strings[id]? = some (.utf8 s)) :
    Strings blocks where
  strings := Function.update st.strings id (some s)
  copied := by
    intro id' s' h'
    by_cases hid : id' = id
    · rw [hid, Function.update_self] at h'
      rw [hid, h, Option.some.inj h']
    · rw [Function.update_of_ne hid] at h'
      exact st.copied id' s' h'

/-- `Strings::get`. -/
def get (id : Nat) : Parse blocks String := fun st =>
  match st.strings id with
  | some s => .ok (s, st)
  | none =>
      match h : blocks.strings[id]? with
      | some (.utf8 s) => .ok (s, st.insert id s h)
      | _ => err (.invalidString id)

/-- `Strings::get_from_value`. -/
def getFromValue : MLValue → Parse blocks String
  | .string id => get id
  | _ => StateT.lift (err .expectedString)

end Strings

/-! ## §3. Spans and idents. -/

/-- `a - b` on `i64`, with overflow checks. -/
def subI64 {ε : Type} (a b : Int) : Rust ε Int :=
  if -2 ^ 63 ≤ a - b ∧ a - b < 2 ^ 63 then .ok (a - b) else panicked

/-- `parse_position`. -/
def parsePosition : MLValue → Parse blocks DebugPosition
  | .block b =>
      match blocks.blocks[b]? with
      | some ⟨0, [.string fname, .int lnum, .int bol, .int cnum]⟩ => do
          let filename ← Strings.get fname
          let column ← StateT.lift (subI64 cnum bol)
          pure ⟨filename, asUsize lnum, asUsize column⟩
      | _ => StateT.lift (err .invalidPosition)
  | _ => StateT.lift (err .invalidPosition)

/-- `parse_span`. -/
def parseSpan : MLValue → Parse blocks DebugSpan
  | .block b =>
      match blocks.blocks[b]? with
      | some ⟨0, [s, e, _]⟩ => do
          let start ← parsePosition s
          let stop ← parsePosition e
          pure ⟨start, stop⟩
      | _ => StateT.lift (err .invalidSpan)
  | _ => StateT.lift (err .invalidSpan)

/-- `parse_ident`. -/
def parseIdent : MLValue → Parse blocks Ident
  | .block b =>
      match blocks.blocks[b]? with
      | some ⟨0, [.string name, .int stamp]⟩ => do
          let name ← Strings.get name
          pure (.local_ name stamp)
      | some ⟨1, [.string name, .int stamp, .int scope]⟩ => do
          let name ← Strings.get name
          pure (.scoped_ name stamp scope)
      | some ⟨2, [.string name]⟩ => do
          let name ← Strings.get name
          pure (.global name)
      | some ⟨3, [.string name, .int stamp]⟩ => do
          let name ← Strings.get name
          pure (.predef name stamp)
      | _ => StateT.lift (err .invalidIdent)
  | _ => StateT.lift (err .invalidIdent)

/-! ## §4. Tables of environments. -/

/-- The data of a node of a table: the number and the ident. -/
def tableData (blocks : MLValueBlocks) (dataBlock : Nat) : Rust DebugError (Int × MLValue) :=
  match blocks.blocks[dataBlock]? with
  | some ⟨0, [identValue, .int data, _]⟩ => .ok (data, identValue)
  | _ => err .invalidEnvTable

/-- The patterns of `parse_env_table`: left, right, number and ident of a node,
or that there is none. -/
def tableNode (blocks : MLValueBlocks) :
    MLValue → Rust DebugError (Option (MLValue × MLValue × Int × MLValue))
  | .int i => if i = 0 then .ok none else err .invalidEnvTable
  | .block b =>
      match blocks.blocks[b]? with
      | some ⟨0, [l, .block dataBlock, r, .int _]⟩ => do
          let (data, identValue) ← tableData blocks dataBlock
          pure (some (l, r, data, identValue))
      | _ => err .invalidEnvTable
  | _ => err .invalidEnvTable

/-- The loop of `parse_env_table`; the top of the stack comes first. -/
def envTableLoop : Nat → List MLValue → List (Int × Ident) → Parse blocks (List (Int × Ident))
  | 0, _, _ => StateT.lift (.error .outOfFuel)
  | _ + 1, [], found => pure found
  | fuel + 1, b :: stack, found => do
      match ← StateT.lift (tableNode blocks b) with
      | none => envTableLoop fuel stack found
      | some (l, r, data, identValue) => do
          let ident ← parseIdent identValue
          envTableLoop fuel (r :: l :: stack) (found ++ [(data, ident)])

/-- `found.sort_by_key(|(i, _)| *i)`, which is stable. -/
def sortByKey (found : List (Int × Ident)) : List (Int × Ident) :=
  found.mergeSort fun a b => decide (a.1 ≤ b.1)

/-- `parse_env_table`. -/
def parseEnvTable (fuel : Nat) (value : MLValue) : Parse blocks (List (Int × Ident)) := do
  let found ← envTableLoop fuel [value] []
  pure (sortByKey found)

/-! ## §5. Events. -/

/-- The kind of an event. -/
def parseKind : MLValue → Rust DebugError DebugEventKind
  | .int i =>
      if i = 0 then .ok .before else if i = 1 then .ok .pseudo else err (.invalidKind (.int i))
  | .block blockId => .ok (.after blockId)
  | o => err (.invalidKind o)

/-- What an event is about. -/
def parseInfo (blocks : MLValueBlocks) : MLValue → Rust DebugError DebugEventInfo
  | .int i =>
      if i = 0 then .ok .function else if i = 1 then .ok .other else err (.invalidInfo (.int i))
  | .block blockId =>
      match blocks.blocks[blockId]? with
      | some ⟨0, [.int i]⟩ => .ok (.return_ (asUsize i))
      | _ => err .invalidReturnBranch
  | o => err (.invalidInfo o)

/-- The tables of an event: heap and recursive. -/
def parseCompenv (blocks : MLValueBlocks) : MLValue → Rust DebugError (MLValue × MLValue)
  | .block b =>
      match blocks.blocks[b]? with
      | some ⟨0, [_, ceHeap, ceRec]⟩ => .ok (ceHeap, ceRec)
      | _ => err .invalidCompenv
  | _ => err .invalidCompenv

/-- The stack size of an event. -/
def parseStackSize : MLValue → Rust DebugError Nat
  | .int i => .ok (asUsize i)
  | _ => err .invalidStackSize

/-- The other events of an event. -/
def parseRepr (blocks : MLValueBlocks) : MLValue → Rust DebugError DebugEventRepr
  | .int i => if i = 0 then .ok .none else err (.invalidRepr (.int i))
  | .block blockId =>
      match blocks.blocks[blockId]? with
      | some ⟨0, [.block otherBlock]⟩ => .ok (.parent otherBlock)
      | some ⟨1, [.block otherBlock]⟩ => .ok (.child otherBlock)
      | _ => err .invalidReprBlock
  | o => err (.invalidRepr o)

/-- The items of an event that are read, and its position. -/
structure EventItems where
  evPos : Int
  module : MLValue
  span : MLValue
  kind : MLValue
  defName : MLValue
  info : MLValue
  compenv : MLValue
  stackSize : MLValue
  repr : MLValue

/-- `parse_debug_event`, up to the position. -/
def eventItems (blocks : MLValueBlocks) : MLValue → Rust DebugError EventItems
  | .block blockId =>
      match blocks.blocks[blockId]? with
      | none => err .badBlockId
      | some ⟨tag, items⟩ => do
          ensure (tag = 0) (.conditionFailed "tag == 0")
          match items with
          | [pos, module, span, kind, defName, info, _, _, compenv, stackSize, repr] =>
              match pos with
              | .int i => pure ⟨i, module, span, kind, defName, info, compenv, stackSize, repr⟩
              | _ => err .invalidPositionValue
          | _ => err (.conditionFailed "items.len() == 11")
  | _ => err .invalidDebugEvent

/-- What is known of an event when its tables come next. -/
structure EventHead where
  items : EventItems
  position : Nat
  module : String
  span : DebugSpan
  kind : DebugEventKind
  defName : String
  info : DebugEventInfo
  ceHeap : MLValue
  ceRec : MLValue

/-- `parse_debug_event`, up to the tables. -/
def parseEventHead (relocationOffset : Nat) (event : MLValue) : Parse blocks EventHead := do
  let items ← StateT.lift (eventItems blocks event)
  let sum ← StateT.lift (addU 64 (asUsize items.evPos) relocationOffset)
  let module ← Strings.getFromValue items.module
  let span ← parseSpan items.span
  let kind ← StateT.lift (parseKind items.kind)
  let defName ← Strings.getFromValue items.defName
  let info ← StateT.lift (parseInfo blocks items.info)
  let (ceHeap, ceRec) ← StateT.lift (parseCompenv blocks items.compenv)
  pure ⟨items, sum / 4, module, span, kind, defName, info, ceHeap, ceRec⟩

/-- `parse_debug_event`. -/
def parseDebugEvent (relocationOffset : Nat) : Nat → MLValue → Parse blocks DebugEvent
  | 0, _ => StateT.lift (.error .outOfFuel)
  | fuel + 1, event => do
      let head ← parseEventHead relocationOffset event
      let heapEnv ← parseEnvTable fuel head.ceHeap
      let recEnv ← parseEnvTable fuel head.ceRec
      let stackSize ← StateT.lift (parseStackSize head.items.stackSize)
      let repr ← StateT.lift (parseRepr blocks head.items.repr)
      pure ⟨head.position, head.module, head.span, head.kind, head.defName, head.info, heapEnv,
        recEnv, stackSize, repr⟩

/-- The patterns of `parse_event_list`: the first event and the rest, or that
there is none. -/
def eventCell (blocks : MLValueBlocks) : MLValue → Rust DebugError (Option (MLValue × MLValue))
  | .int i => if i = 0 then .ok none else err .eventList
  | .block blockId =>
      match blocks.blocks[blockId]? with
      | some ⟨0, [a, b]⟩ => .ok (some (a, b))
      | _ => err .eventList
  | _ => err .eventList

/-- The loop of `parse_event_list`. -/
def eventListLoop (relocationOffset : Nat) :
    Nat → MLValue → List DebugEvent → Parse blocks (List DebugEvent)
  | 0, _, _ => StateT.lift (.error .outOfFuel)
  | fuel + 1, currentValue, events => do
      match ← StateT.lift (eventCell blocks currentValue) with
      | none => pure events
      | some (a, b) => do
          let event ← parseDebugEvent relocationOffset fuel a
          eventListLoop relocationOffset fuel b (events ++ [event])

/-- `parse_event_list`. -/
def parseEventList (blocks : MLValueBlocks) (list : MLValue) (relocationOffset fuel : Nat) :
    Rust DebugError (List DebugEvent) := do
  let (events, _) ← eventListLoop relocationOffset fuel list [] (Strings.new blocks)
  pure events

/-! ## §6. Nothing depends on the strings copied. -/

/-- What comes out is the same whatever strings have been copied, and the faults
are among `E`. -/
structure Tame {β : Type} (E : Fault DebugError → Prop) (x : Parse blocks β) : Prop where
  same : ∀ st st', (x st).map Prod.fst = (x st').map Prod.fst
  faults : ∀ st f, x st = .error f → E f

section Tame

variable {β γ : Type} {E : Fault DebugError → Prop}

/-- A value is tame. -/
theorem tame_pure (b : β) : Tame E (pure b : Parse blocks β) := by
  refine ⟨fun _ _ => rfl, ?_⟩
  intro st f h
  cases h

/-- What does not look at the strings is tame when its faults are. -/
theorem tame_lift {x : Rust DebugError β} (h : ∀ f, x = .error f → E f) :
    Tame E (StateT.lift x : Parse blocks β) := by
  cases x with
  | ok b =>
      refine ⟨fun _ _ => rfl, ?_⟩
      intro st f hf
      cases hf
  | error g =>
      refine ⟨fun _ _ => rfl, ?_⟩
      intro st f hf
      cases hf
      exact h _ rfl

/-- **The rule of sequence.** -/
theorem Tame.bind {x : Parse blocks β} {y : β → Parse blocks γ} (hx : Tame E x)
    (hy : ∀ b, (∃ st st', x st = .ok (b, st')) → Tame E (y b)) : Tame E (x >>= y) := by
  constructor
  -- the second part starts from the strings that the first has left
  · intro st st'
    have hsame := hx.same st st'
    show (x st >>= fun p => y p.1 p.2).map Prod.fst = (x st' >>= fun p => y p.1 p.2).map Prod.fst
    cases h : x st with
    | error f =>
        cases h' : x st' with
        | error f' =>
            rw [h, h'] at hsame
            cases hsame
            rfl
        | ok p =>
            rw [h, h'] at hsame
            cases hsame
    | ok p =>
        cases h' : x st' with
        | error f' =>
            rw [h, h'] at hsame
            cases hsame
        | ok p' =>
            rw [h, h'] at hsame
            have hb : p.1 = p'.1 := Except.ok.inj hsame
            dsimp only [ok_bind]
            rw [← hb]
            exact (hy p.1 ⟨st, p.2, h⟩).same p.2 p'.2
  · intro st f h
    rw [show (x >>= y) st = (x st >>= fun p => y p.1 p.2) from rfl] at h
    cases hst : x st with
    | error g =>
        rw [hst] at h
        cases h
        exact hx.faults st f hst
    | ok p =>
        rw [hst] at h
        exact (hy p.1 ⟨st, p.2, hst⟩).faults p.2 f h

/-- A string is the one of the blocks, copied before or not. -/
theorem Strings.get_eq (st : Strings blocks) (id : Nat) :
    (∃ s st', blocks.strings[id]? = some (.utf8 s) ∧ Strings.get id st = .ok (s, st')) ∨
      (∀ s, blocks.strings[id]? ≠ some (.utf8 s)) ∧
        Strings.get id st = err (.invalidString id) := by
  unfold Strings.get
  cases hst : st.strings id with
  | some s => exact .inl ⟨s, st, st.copied id s hst, rfl⟩
  | none =>
      dsimp only
      split
      · next s h => exact .inl ⟨s, _, h, rfl⟩
      · next h => exact .inr ⟨fun s hs => h s hs, rfl⟩

variable (hE : ∀ e, E (.error e))

include hE

/-- An error is tame. -/
theorem tame_err (e : DebugError) : Tame E (StateT.lift (err e) : Parse blocks β) := by
  refine tame_lift fun f h => ?_
  cases h
  exact hE e

/-- A string is read in the same way whatever strings are known. -/
theorem tame_get (id : Nat) : Tame E (Strings.get id : Parse blocks String) := by
  constructor
  · intro st st'
    rcases st.get_eq id with ⟨s, t, hs, h⟩ | ⟨hnone, h⟩
    · rcases st'.get_eq id with ⟨s', t', hs', h'⟩ | ⟨hnone', -⟩
      · rw [hs] at hs'
        cases hs'
        rw [h, h']
        rfl
      · exact absurd hs (hnone' s)
    · rcases st'.get_eq id with ⟨s', t', hs', -⟩ | ⟨-, h'⟩
      · exact absurd hs' (hnone s')
      · rw [h, h']
  · intro st f hf
    rcases st.get_eq id with ⟨s, t, -, h⟩ | ⟨-, h⟩
    · rw [h] at hf
      cases hf
    · rw [h] at hf
      cases hf
      exact hE _

/-- So is one that a value refers to. -/
theorem tame_getFromValue (v : MLValue) : Tame E (Strings.getFromValue v : Parse blocks String) := by
  cases v with
  | string id => exact tame_get hE id
  | _ => exact tame_err hE _

/-- So is an identifier. -/
theorem tame_parseIdent (v : MLValue) : Tame E (parseIdent v : Parse blocks Ident) := by
  cases v with
  | block b =>
      unfold parseIdent
      dsimp only
      split
      · exact (tame_get hE _).bind fun _ _ => tame_pure _
      · exact (tame_get hE _).bind fun _ _ => tame_pure _
      · exact (tame_get hE _).bind fun _ _ => tame_pure _
      · exact (tame_get hE _).bind fun _ _ => tame_pure _
      · exact tame_err hE _
  | _ => exact tame_err hE _

variable (hsmall : SmallInts blocks ∨ E .panic)

include hsmall

/-- So is a position. -/
theorem tame_parsePosition (v : MLValue) : Tame E (parsePosition v : Parse blocks DebugPosition) := by
  cases v with
  | block b =>
      unfold parsePosition
      dsimp only
      split
      · next fname lnum bol cnum hb =>
          refine (tame_get hE fname).bind fun _ _ => ?_
          refine (tame_lift fun f hf => ?_).bind fun _ _ => tame_pure _
          unfold subI64 panicked at hf
          split at hf
          · cases hf
          · next hsub =>
              cases hf
              refine hsmall.resolve_left fun hsmall => hsub ?_
              obtain ⟨hbol, hbol'⟩ := hsmall bol (mem_itemsOf hb (by simp))
              obtain ⟨hcnum, hcnum'⟩ := hsmall cnum (mem_itemsOf hb (by simp))
              omega
      · exact tame_err hE _
  | _ => exact tame_err hE _

/-- So is a span. -/
theorem tame_parseSpan (v : MLValue) : Tame E (parseSpan v : Parse blocks DebugSpan) := by
  cases v with
  | block b =>
      unfold parseSpan
      dsimp only
      split
      · refine (tame_parsePosition hE hsmall _).bind fun _ _ => ?_
        exact (tame_parsePosition hE hsmall _).bind fun _ _ => tame_pure _
      · exact tame_err hE _
  | _ => exact tame_err hE _

end Tame

end OcamlJit.BytecodeFiles

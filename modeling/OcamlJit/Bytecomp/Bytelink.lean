/-
  OcamlJit.Bytecomp.Bytelink
  ──────────────────────────
  **LINKING** (`ocaml/bytecomp/bytelink.ml`).

  The first pass goes through the files from the last to the first and takes the
  units of archives that define what is missing.  The second pass goes from the
  first to the last, gives out slots and puts the patched code one after the other.

    • `mem_scanFiles`    what the first pass finds missing;
    • `linkUnits_spec`   the second pass, for units that were compiled;
    • `link_spec`        both: a global that is undefined is never met in the second.
-/
import OcamlJit.Bytecomp.Symtable
import Mathlib.Data.Finset.Basic

namespace OcamlJit.Bytecomp.Bytelink

open OcamlJit.Instructions (Word Opcode)
open OcamlJit.Typing (Ident)
open OcamlJit.Lib.Backpatch
open OcamlJit.Bytecomp.Symtable

variable {Ev : Type}

/-! ## §1. The source. -/

/-- `Cmo_format.compilation_unit`, with the code and the events of the file. -/
structure CompilationUnit (Ev : Type) where
  cuCode : List UInt8
  cuReloc : List (RelocInfo × Nat)
  cuRequiredGlobals : List Ident
  cuPrimitives : List (List UInt8)
  cuForceLink : Bool
  cuDebug : Option (List (Ev × Nat))

/-- A file to be linked: `Link_object` or `Link_archive`. -/
inductive LinkAction (Ev : Type) where
  | linkObject (compunit : CompilationUnit Ev)
  | linkArchive (units : List (CompilationUnit Ev))

/-- How linking stops. -/
inductive LinkError where
  /-- One of the modules is reported. -/
  | requiredModuleUnavailable (ids : Finset Ident)
  | symbolError (e : SymtableError)

/-! ### First pass. -/

/-- `is_required`. -/
def isRequired (missingGlobals : Finset Ident) (r : RelocInfo × Nat) : Bool :=
  match r.1 with
  | .relocSetglobal id => decide (identKey id ∈ missingGlobals)
  | _ => false

/-- `add_required`. -/
def addRequired (compunit : CompilationUnit Ev) (missingGlobals : Finset Ident) : Finset Ident :=
  let add (missing : Finset Ident) (id : Ident) := insert (identKey id) missing
  compunit.cuRequiredGlobals.foldl add
    ((requiredGlobals compunit.cuReloc).foldl add missingGlobals)

/-- `remove_required`. -/
def removeRequired (missingGlobals : Finset Ident) (r : RelocInfo × Nat) : Finset Ident :=
  match r.1 with
  | .relocSetglobal id => missingGlobals.erase (identKey id)
  | _ => missingGlobals

/-- What `scan_file` does with a unit that is taken. -/
def scanUnit (compunit : CompilationUnit Ev) (missingGlobals : Finset Ident) : Finset Ident :=
  compunit.cuReloc.foldl removeRequired (addRequired compunit missingGlobals)

/-- The units of an archive that are taken. -/
def scanArchive (linkEverything : Bool) (missingGlobals : Finset Ident)
    (units : List (CompilationUnit Ev)) : Finset Ident × List (CompilationUnit Ev) :=
  units.foldr (fun compunit acc =>
    if compunit.cuForceLink || linkEverything || compunit.cuReloc.any (isRequired acc.1) then
      (scanUnit compunit acc.1, compunit :: acc.2)
    else acc) (missingGlobals, [])

/-- `scan_file`. -/
def scanFile (linkEverything : Bool) (file : LinkAction Ev)
    (acc : Finset Ident × List (LinkAction Ev)) : Finset Ident × List (LinkAction Ev) :=
  match file with
  | .linkObject compunit => (scanUnit compunit acc.1, .linkObject compunit :: acc.2)
  | .linkArchive units =>
      let r := scanArchive linkEverything acc.1 units
      (r.1, .linkArchive r.2 :: acc.2)

/-- The first pass. -/
def scanFiles (linkEverything : Bool) (objfiles : List (LinkAction Ev)) :
    Finset Ident × List (LinkAction Ev) :=
  objfiles.foldr (scanFile linkEverything) (∅, [])

/-! ### Second pass. -/

/-- The options of linking. -/
structure LinkOptions where
  available : List UInt8 → Bool
  debug : Bool
  linkEverything : Bool

/-- The code that was put out, `debug_info` and the tables. -/
structure LinkState (Ev : Type) where
  code : List UInt8
  debugInfo : List (Nat × List (Ev × Nat))
  tables : Tables

/-- The new `debug_info` of `link_compunit`. -/
def recordDebug (opts : LinkOptions) (currpos : Nat) (compunit : CompilationUnit Ev)
    (debugInfo : List (Nat × List (Ev × Nat))) : List (Nat × List (Ev × Nat)) :=
  match compunit.cuDebug with
  | some evl => if opts.debug then (currpos, evl) :: debugInfo else debugInfo
  | none => debugInfo

/-- The primitives that `link_compunit` requires at its end. -/
def requirePrimitives (opts : LinkOptions) (compunit : CompilationUnit Ev) : Link Unit :=
  if opts.linkEverything then compunit.cuPrimitives.forM (requirePrimitive opts.available)
  else pure ()

/-- `link_compunit`. -/
def linkCompunit (opts : LinkOptions) (compunit : CompilationUnit Ev) (st : LinkState Ev) :
    Except SymtableError (LinkState Ev) := do
  let patched ← patchObject opts.available compunit.cuCode compunit.cuReloc st.tables
  let required ← requirePrimitives opts compunit patched.2
  pure
    { code := st.code ++ patched.1
      debugInfo := recordDebug opts st.code.length compunit st.debugInfo
      tables := required.2 }

/-- `link_file`. -/
def LinkAction.units : LinkAction Ev → List (CompilationUnit Ev)
  | .linkObject compunit => [compunit]
  | .linkArchive units => units

/-- Units one after the other. -/
def linkUnits (opts : LinkOptions) :
    List (CompilationUnit Ev) → LinkState Ev → Except SymtableError (LinkState Ev)
  | [], st => pure st
  | compunit :: units, st => do
      let st ← linkCompunit opts compunit st
      linkUnits opts units st

/-- What `link_bytecode` puts into the code section: the units and a final `STOP`. -/
def linkCode (opts : LinkOptions) (tables : Tables) (tolink : List (LinkAction Ev)) :
    Except SymtableError (LinkState Ev) := do
  let st ← linkUnits opts (tolink.flatMap LinkAction.units) ⟨[], [], tables⟩
  pure { st with code := st.code ++ [unsafeChr (op .stop), 0, 0, 0] }

/-- `Ident.is_predef`. -/
def isPredef : Ident → Bool
  | .predef _ _ => true
  | _ => false

/-- `link`, up to the code section. -/
def link (opts : LinkOptions) (tables : Tables) (objfiles : List (LinkAction Ev)) :
    Except LinkError (LinkState Ev) :=
  let scanned := scanFiles opts.linkEverything objfiles
  let missingModules := scanned.1.filter fun id => isPredef id = false
  if missingModules.Nonempty then .error (.requiredModuleUnavailable missingModules)
  else (linkCode opts tables scanned.2).mapError .symbolError

/-! ## §2. The first pass. -/

/-- The globals that a unit needs: it refers to them, or they must be there before. -/
def CompilationUnit.needs (compunit : CompilationUnit Ev) : List Ident :=
  getKeys compunit.cuReloc ++ compunit.cuRequiredGlobals.map identKey

/-- The relocations of units. -/
def relocsOf (units : List (CompilationUnit Ev)) : List (RelocInfo × Nat) :=
  units.flatMap CompilationUnit.cuReloc

section FirstPass

variable {key : Ident} {missing : Finset Ident}

/-- What is required is what is read. -/
theorem mem_requiredGlobals (rs : List (RelocInfo × Nat)) :
    key ∈ (requiredGlobals rs).map identKey ↔ key ∈ getKeys rs := by
  have hfold (accu : List Ident) :
      key ∈ (rs.foldl addGetglobal accu).map identKey ↔
        key ∈ getKeys rs ∨ key ∈ accu.map identKey := by
    induction rs generalizing accu with
    | nil => simp [getKeys]
    | cons r rs ih =>
        obtain ⟨info, pos⟩ := r
        rw [List.foldl_cons, ih]
        cases info with
        | relocGetglobal id => simp [addGetglobal, getKeys, eq_comm, or_assoc, or_left_comm]
        | _ => rfl
  refine (hfold []).trans ?_
  simp

/-- Identifiers are added one by one. -/
theorem mem_foldl_insert (ids : List Ident) :
    key ∈ ids.foldl (fun missing id => insert (identKey id) missing) missing ↔
      key ∈ missing ∨ key ∈ ids.map identKey := by
  induction ids generalizing missing with
  | nil => simp
  | cons id ids ih =>
      rw [List.foldl_cons, ih, Finset.mem_insert, List.map_cons, List.mem_cons]
      tauto

/-- A unit adds what it needs. -/
theorem mem_addRequired (compunit : CompilationUnit Ev) :
    key ∈ addRequired compunit missing ↔ key ∈ missing ∨ key ∈ compunit.needs := by
  unfold addRequired CompilationUnit.needs
  rw [mem_foldl_insert, mem_foldl_insert, mem_requiredGlobals, List.mem_append, or_assoc]

/-- And takes away what it sets. -/
theorem mem_foldl_removeRequired (rs : List (RelocInfo × Nat)) :
    key ∈ rs.foldl removeRequired missing ↔ key ∈ missing ∧ key ∉ setKeys rs := by
  induction rs generalizing missing with
  | nil => simp [setKeys]
  | cons r rs ih =>
      obtain ⟨info, pos⟩ := r
      rw [List.foldl_cons, ih]
      cases info with
      | relocSetglobal id =>
          have hcons : setKeys ((.relocSetglobal id, pos) :: rs) = identKey id :: setKeys rs := rfl
          rw [hcons, removeRequired, Finset.mem_erase, List.mem_cons, not_or]
          tauto
      | _ => rfl

/-- **What is missing before a unit**: what was missing after it, and what it
needs, but not what it sets. -/
theorem mem_scanUnit (compunit : CompilationUnit Ev) :
    key ∈ scanUnit compunit missing ↔
      (key ∈ missing ∨ key ∈ compunit.needs) ∧ key ∉ setKeys compunit.cuReloc := by
  rw [scanUnit, mem_foldl_removeRequired, mem_addRequired]

/-- An archive leaves what the units that are taken leave. -/
theorem scanArchive_fst (linkEverything : Bool) (missing : Finset Ident)
    (units : List (CompilationUnit Ev)) :
    (scanArchive linkEverything missing units).1 =
      (scanArchive linkEverything missing units).2.foldr scanUnit missing := by
  induction units with
  | nil => rfl
  | cons compunit units ih =>
      unfold scanArchive at *
      rw [List.foldr_cons]
      split
      · rw [List.foldr_cons, ← ih]
      · exact ih

/-- The units that are linked, in order. -/
def linkedUnits (linkEverything : Bool) (objfiles : List (LinkAction Ev)) :
    List (CompilationUnit Ev) :=
  (scanFiles linkEverything objfiles).2.flatMap LinkAction.units

/-- The files are scanned from the last one on. -/
theorem scanFiles_fst (linkEverything : Bool) (objfiles : List (LinkAction Ev)) :
    (scanFiles linkEverything objfiles).1 =
      (linkedUnits linkEverything objfiles).foldr scanUnit ∅ := by
  unfold linkedUnits
  induction objfiles with
  | nil => rfl
  | cons file objfiles ih =>
      unfold scanFiles at *
      rw [List.foldr_cons]
      cases file with
      | linkObject compunit =>
          rw [scanFile, List.flatMap_cons, ih]
          rfl
      | linkArchive units =>
          rw [scanFile, List.flatMap_cons, List.foldr_append, ← ih]
          exact scanArchive_fst _ _ _

/-- The globals set by two parts. -/
theorem setKeys_append (rs rs' : List (RelocInfo × Nat)) :
    setKeys (rs ++ rs') = setKeys rs ++ setKeys rs' := List.filterMap_append

/-- The relocations of the first unit, and of the rest. -/
theorem relocsOf_cons (compunit : CompilationUnit Ev) (units : List (CompilationUnit Ev)) :
    relocsOf (compunit :: units) = compunit.cuReloc ++ relocsOf units := List.flatMap_cons

/-- In units one after the other, a global is needed and has not been set. -/
def Lacks (units : List (CompilationUnit Ev)) (key : Ident) : Prop :=
  ∃ before compunit after, units = before ++ compunit :: after ∧ key ∈ compunit.needs ∧
    key ∉ setKeys (relocsOf (before ++ [compunit]))

/-- What is missing before the first unit. -/
theorem lacks_cons (compunit : CompilationUnit Ev) (units : List (CompilationUnit Ev)) :
    Lacks (compunit :: units) key ↔
      (Lacks units key ∨ key ∈ compunit.needs) ∧ key ∉ setKeys compunit.cuReloc := by
  constructor
  · rintro ⟨before, unit, after, hsplit, hneeds, hnot⟩
    cases before with
    | nil =>
        cases hsplit
        rw [List.nil_append, relocsOf_cons, setKeys_append, List.mem_append, not_or] at hnot
        exact ⟨.inr hneeds, hnot.1⟩
    | cons first before =>
        rw [List.cons_append, List.cons.injEq] at hsplit
        obtain ⟨rfl, hsplit⟩ := hsplit
        rw [List.cons_append, relocsOf_cons, setKeys_append, List.mem_append, not_or] at hnot
        exact ⟨.inl ⟨before, unit, after, hsplit, hneeds, hnot.2⟩, hnot.1⟩
  · rintro ⟨⟨before, unit, after, hsplit, hneeds, hnot⟩ | hneeds, hset⟩
    · refine ⟨compunit :: before, unit, after, by rw [hsplit, List.cons_append], hneeds, ?_⟩
      rw [List.cons_append, relocsOf_cons, setKeys_append, List.mem_append, not_or]
      exact ⟨hset, hnot⟩
    · refine ⟨[], compunit, units, rfl, hneeds, ?_⟩
      rw [List.nil_append, relocsOf_cons, setKeys_append, List.mem_append, not_or]
      exact ⟨hset, List.not_mem_nil⟩

/-- **The first pass** finds missing exactly the globals that units need and that no
unit sets up to there, in the order of the second pass. -/
theorem mem_scanFiles {linkEverything : Bool} {objfiles : List (LinkAction Ev)} :
    key ∈ (scanFiles linkEverything objfiles).1 ↔
      Lacks (linkedUnits linkEverything objfiles) key := by
  rw [scanFiles_fst]
  induction linkedUnits linkEverything objfiles with
  | nil =>
      refine ⟨fun h => absurd h (Finset.notMem_empty key), ?_⟩
      rintro ⟨before, unit, after, hsplit, -⟩
      cases before <;> cases hsplit
  | cons compunit units ih => rw [List.foldr_cons, mem_scanUnit, ih, lacks_cons]

end FirstPass

/-! ## §3. The second pass. -/

/-- What `to_file` makes of outputs. -/
structure Compiled (compunit : CompilationUnit Ev) (os : List (Output Ev)) : Prop where
  code : compunit.cuCode = (objectOf (itemsOf os)).1
  reloc : compunit.cuReloc = (objectOf (itemsOf os)).2.1
  debug : ∀ evl, compunit.cuDebug = some evl → evl = (objectOf (itemsOf os)).2.2

/-- The words of units from the word `b` on, with the numbers in their places. -/
def wordsFrom (value : Nat → Nat) : Nat → List (List (Output Ev)) → List Word
  | _, [] => []
  | b, os :: oss =>
      wordsOf (fun p => value (b + p)) (itemsOf os) ++
        wordsFrom value (b + wordCount (itemsOf os)) oss

/-- Their relocations. -/
def relocsFrom : Nat → List (List (Output Ev)) → List (RelocInfo × Nat)
  | _, [] => []
  | b, os :: oss => relocs b (itemsOf os) ++ relocsFrom (b + wordCount (itemsOf os)) oss

/-- Their debugging information. -/
def debugFrom : Nat → List (List (Output Ev)) → List (Nat × List (Ev × Nat))
  | _, [] => []
  | b, os :: oss =>
      (4 * b, (objectOf (itemsOf os)).2.2) :: debugFrom (b + wordCount (itemsOf os)) oss

/-- A global is referred to that has no slot and is not set before. -/
def Unresolved (tables : Tables) (rs : List (RelocInfo × Nat)) : Prop :=
  ∃ before id pos after, rs = before ++ (.relocGetglobal id, pos) :: after ∧
    tables.globalTable.find (identKey id) = none ∧ identKey id ∉ setKeys before

section SecondPass

variable {opts : LinkOptions} {compunit : CompilationUnit Ev} {os : List (Output Ev)}

/-- Places do not matter. -/
theorem setKeys_scale (rs : List (RelocInfo × Nat)) : setKeys (rs.map scale) = setKeys rs := by
  rw [setKeys, List.filterMap_map]
  rfl

/-- The relocations of a unit are for places inside it. -/
theorem mem_relocs_lt {is : List (EmitItem Ev)} {b : Nat} {r : RelocInfo × Nat}
    (h : r ∈ relocs b is) : b ≤ r.2 ∧ r.2 < b + wordCount is := by
  obtain ⟨hle, hslot⟩ := hole_of_mem_relocs (r := r.1) h
  have hlt := (List.getElem?_eq_some_iff.mp hslot).1
  rw [length_layout] at hlt
  exact ⟨hle, by omega⟩

/-- Those of the units after a place are for places after it. -/
theorem le_of_mem_relocsFrom {r : RelocInfo × Nat} :
    ∀ {oss : List (List (Output Ev))} {b : Nat}, r ∈ relocsFrom b oss → b ≤ r.2
  | os :: oss, b, h => by
      rcases List.mem_append.mp h with h | h
      · exact (mem_relocs_lt h).1
      · have := le_of_mem_relocsFrom h
        omega

/-- Patching the holes gives the words. -/
theorem patched_wordsOf (value : Nat → Nat) (is : List (EmitItem Ev)) :
    patched (relocs 0 is) value (wordsOf (fun _ => 0) is) = wordsOf (fun p => value p) is :=
  writeAll_relocs is fun p => wordOfInt (value p)

/-- The words depend on the numbers in their places only. -/
theorem wordsOf_congr {value value' : Nat → Int} {is : List (EmitItem Ev)}
    (h : ∀ p < wordCount is, value p = value' p) : wordsOf value is = wordsOf value' is := by
  refine List.map_congr_left fun s hs => ?_
  cases s with
  | word w => rfl
  | ref l origin => rfl
  | hole place =>
      obtain ⟨i, hi⟩ := List.mem_iff_getElem?.mp hs
      have hlt := (List.getElem?_eq_some_iff.mp hi).1
      rw [length_layout] at hlt
      obtain ⟨hplace, -⟩ := mem_relocs_of_hole hi
      rw [fill, fill, h place (by omega)]

/-- Only the numbers at places inside matter. -/
theorem wordsFrom_congr {value value' : Nat → Nat} :
    ∀ {oss : List (List (Output Ev))} {b : Nat}, (∀ p, b ≤ p → value p = value' p) →
      wordsFrom value b oss = wordsFrom value' b oss
  | [], _, _ => rfl
  | os :: oss, b, h => by
      have hunit : (fun p => (value (b + p) : Int)) = fun p => (value' (b + p) : Int) :=
        funext fun p => by rw [h (b + p) (Nat.le_add_right b p)]
      rw [wordsFrom, wordsFrom, hunit,
        wordsFrom_congr fun p hp => h p (Nat.le_trans (Nat.le_add_right _ _) hp)]

/-- How a unit is linked. -/
theorem linkCompunit_spec (opts : LinkOptions) {st : LinkState Ev} {ws : List Word}
    (h : Compiled compunit os) (htables : st.tables.Ok)
    (hsets : SetsOnce st.tables compunit.cuReloc)
    (hcode : st.code = codeBytes ws) :
    (∃ value st', linkCompunit opts compunit st = .ok st' ∧
        Linked st.tables (relocs 0 (itemsOf os)) value st'.tables ∧
        st'.code = codeBytes (ws ++ wordsOf (fun p => value p) (itemsOf os)) ∧
        (st'.debugInfo = st.debugInfo ∨
          st'.debugInfo = (4 * ws.length, (objectOf (itemsOf os)).2.2) :: st.debugInfo)) ∨
      ∃ e, linkCompunit opts compunit st = .error e ∧
        ((∃ name, e = .unavailablePrimitive name) ∨
          Unresolved st.tables compunit.cuReloc) := by
  have hreloc : compunit.cuReloc = (relocs 0 (itemsOf os)).map scale := h.reloc
  have hobject : compunit.cuCode = codeBytes (wordsOf (fun _ => 0) (itemsOf os)) := h.code
  have hsets' : SetsOnce st.tables (relocs 0 (itemsOf os)) := by
    rw [hreloc] at hsets
    exact ⟨setKeys_scale _ ▸ hsets.nodup, setKeys_scale (relocs 0 (itemsOf os)) ▸ hsets.unset⟩
  have hplaces : ∀ r ∈ relocs 0 (itemsOf os),
      r.2 < (wordsOf (fun _ => 0) (itemsOf os) : List Word).length := fun r hr => by
    have := (mem_relocs_lt hr).2
    rw [wordsOf, List.length_map, length_layout]
    omega
  rcases patchObject_spec opts.available htables hsets' hplaces
      (nodup_relocs 0 _) with
    ⟨value, tables, hpatch, hlinked⟩ |
      ⟨before, r, after, tables, e, hsplit, hrefuses, hkeys, hpatch⟩
  · rw [← hobject, ← hreloc] at hpatch
    -- with the primitives of the unit required, the tables only grow
    have hrequired : (∃ tables', requirePrimitives opts compunit tables = .ok ((), tables') ∧
          tables'.Ok ∧ tables.Grows tables' ∧ tables'.globalTable = tables.globalTable) ∨
        ∃ name, requirePrimitives opts compunit tables =
          .error (.unavailablePrimitive name) := by
      unfold requirePrimitives
      split
      · exact requirePrimitives_spec hlinked.ok
      · exact .inl ⟨tables, rfl, hlinked.ok, fun _ _ hn => hn, rfl⟩
    rcases hrequired with ⟨tables', heq, hok, hgrows, hglobals⟩ | ⟨name, heq⟩
    · have hlink : linkCompunit opts compunit st = .ok
          ⟨st.code ++ codeBytes (patched (relocs 0 (itemsOf os)) value
            (wordsOf (fun _ => 0) (itemsOf os))),
            recordDebug opts st.code.length compunit st.debugInfo, tables'⟩ := by
        rw [linkCompunit, hpatch]
        show (requirePrimitives opts compunit tables >>= _) = _
        rw [heq]
        rfl
      refine .inl ⟨value, _, hlink, ⟨hok, hlinked.grows.trans hgrows, fun r hr =>
        hgrows _ _ (hlinked.numbers r hr), fun key hkey hnot => ?_⟩, ?_, ?_⟩
      · rw [hglobals]
        exact hlinked.unset key hkey hnot
      · rw [patched_wordsOf, hcode]
        exact List.flatMap_append.symm
      · show recordDebug _ _ _ _ = _ ∨ recordDebug _ _ _ _ = _
        unfold recordDebug
        split
        next evl hevl =>
          rw [h.debug evl hevl, hcode, length_codeBytes]
          split
          · exact .inr rfl
          · exact .inl rfl
        · exact .inl rfl
    · refine .inr ⟨_, ?_, .inl ⟨name, rfl⟩⟩
      rw [linkCompunit, hpatch]
      show (requirePrimitives opts compunit tables >>= _) = _
      rw [heq]
      rfl
  -- a place is refused: a primitive that is not there, or a global that is not set
  · rw [← hobject, ← hreloc] at hpatch
    refine .inr ⟨e, ?_, ?_⟩
    · rw [linkCompunit, hpatch]
      rfl
    · obtain ⟨info, pos⟩ := r
      cases hrefuses with
      | unavailable hnone ha => exact .inl ⟨_, rfl⟩
      | @undefined id hnone =>
          refine .inr ⟨before.map scale, id, 4 * pos, after.map scale, ?_, ?_, ?_⟩
          · rw [hreloc, hsplit, List.map_append, List.map_cons]
            rfl
          · by_contra hne
            exact hkeys _ (.inl hne) hnone
          · rw [setKeys_scale]
            exact fun hmem => hkeys _ (.inr hmem) hnone

/-- What is set is set by a relocation. -/
theorem mem_setKeys {rs : List (RelocInfo × Nat)} {key : Ident} :
    key ∈ setKeys rs ↔ ∃ r ∈ rs, ∃ id, r.1 = .relocSetglobal id ∧ identKey id = key := by
  rw [setKeys, List.mem_filterMap]
  refine exists_congr fun r => and_congr_right fun _ => ?_
  obtain ⟨info, pos⟩ := r
  cases info <;> simp

/-- A global that a unit sets has a slot afterwards. -/
theorem linked_find_ne_none {tables tables' : Tables} {rs : List (RelocInfo × Nat)}
    {value : Nat → Nat} (h : Linked tables rs value tables') {id : Ident}
    (hid : tables'.globalTable.find (identKey id) = none) :
    tables.globalTable.find (identKey id) = none ∧ identKey id ∉ setKeys rs := by
  constructor
  · cases hfind : tables.globalTable.find (identKey id) with
    | none => rfl
    | some n =>
        have hkept : tables'.globalTable.find (identKey id) = some n :=
          h.grows (.relocGetglobal id) n hfind
        rw [hid] at hkept
        cases hkept
  · intro hmem
    obtain ⟨⟨info, pos⟩, hr, id', rfl, hkey⟩ := mem_setKeys.mp hmem
    have hset : tables'.globalTable.find (identKey id') = some (value pos) := h.numbers _ hr
    rw [hkey, hid] at hset
    cases hset

/-- What the second pass leaves. -/
structure LinkedUnits (st : LinkState Ev) (b : Nat) (oss : List (List (Output Ev)))
    (value : Nat → Nat) (st' : LinkState Ev) : Prop where
  ok : st'.tables.Ok
  grows : st.tables.Grows st'.tables
  numbers : ∀ r ∈ relocsFrom b oss, Numbers st'.tables r.1 (value r.2)
  debug : ∀ d ∈ st'.debugInfo, d ∈ st.debugInfo ∨ d ∈ debugFrom b oss

/-- The code that is put out is of no account. -/
theorem LinkedUnits.withCode {st st' : LinkState Ev} {b : Nat} {oss : List (List (Output Ev))}
    {value : Nat → Nat} (h : LinkedUnits st b oss value st') (code : List UInt8) :
    LinkedUnits st b oss value { st' with code := code } :=
  ⟨h.ok, h.grows, h.numbers, h.debug⟩

/-- What is not resolved stays so with more relocations. -/
theorem Unresolved.append {tables : Tables} {rs : List (RelocInfo × Nat)}
    (h : Unresolved tables rs) (rs' : List (RelocInfo × Nat)) : Unresolved tables (rs ++ rs') := by
  obtain ⟨before, id, pos, after, hsplit, hnone, hnot⟩ := h
  refine ⟨before, id, pos, after ++ rs', ?_, hnone, hnot⟩
  rw [hsplit, List.append_assoc, List.cons_append]

/-- What is without a slot after a unit was so before it. -/
theorem Unresolved.linked {tables tables' : Tables} {rs rs₁ rs₂ : List (RelocInfo × Nat)}
    {value : Nat → Nat} (h : Unresolved tables' rs₂) (hlinked : Linked tables rs value tables')
    (hkeys : setKeys rs₁ = setKeys rs) : Unresolved tables (rs₁ ++ rs₂) := by
  obtain ⟨before, id, pos, after, hsplit, hnone, hnot⟩ := h
  obtain ⟨hnone', hnot'⟩ := linked_find_ne_none hlinked hnone
  refine ⟨rs₁ ++ before, id, pos, after, ?_, hnone', ?_⟩
  · rw [hsplit, List.append_assoc]
  · rw [setKeys_append, List.mem_append, not_or, hkeys]
    exact ⟨hnot', hnot⟩

/-- The numbers of a unit at the word `b`, and those of the units after it. -/
def numbersFrom (b : Nat) (os : List (Output Ev)) (value₁ value₂ : Nat → Nat) (p : Nat) : Nat :=
  if p < b + wordCount (itemsOf os) then value₁ (p - b) else value₂ p

/-- The numbers of the first unit, and those of the rest. -/
theorem wordsFrom_numbersFrom (b : Nat) (os : List (Output Ev)) (oss : List (List (Output Ev)))
    (value₁ value₂ : Nat → Nat) :
    wordsFrom (numbersFrom b os value₁ value₂) b (os :: oss) =
      wordsOf (fun p => value₁ p) (itemsOf os) ++
        wordsFrom value₂ (b + wordCount (itemsOf os)) oss := by
  rw [wordsFrom]
  congr 1
  · refine wordsOf_congr fun p hp => ?_
    rw [numbersFrom, if_pos (Nat.add_lt_add_left hp b), Nat.add_sub_cancel_left]
  · exact wordsFrom_congr fun p hp => if_neg (Nat.not_lt.mpr hp)

/-- A unit, and the units after it. -/
theorem LinkedUnits.cons {st st₁ st' : LinkState Ev} {b : Nat} {oss : List (List (Output Ev))}
    {value₁ value₂ : Nat → Nat}
    (hlinked : Linked st.tables (relocs 0 (itemsOf os)) value₁ st₁.tables)
    (hdebug : st₁.debugInfo = st.debugInfo ∨
      st₁.debugInfo = (4 * b, (objectOf (itemsOf os)).2.2) :: st.debugInfo)
    (h : LinkedUnits st₁ (b + wordCount (itemsOf os)) oss value₂ st') :
    LinkedUnits st b (os :: oss) (numbersFrom b os value₁ value₂) st' where
  ok := h.ok
  grows := hlinked.grows.trans h.grows
  numbers r hr := by
    rcases List.mem_append.mp hr with hr | hr
    · have hshift := relocs_shift b 0 (itemsOf os)
      rw [Nat.add_zero] at hshift
      have hlt := (mem_relocs_lt hr).2
      rw [hshift] at hr
      obtain ⟨r', hr', rfl⟩ := List.mem_map.mp hr
      have hback : b + r'.2 - b = r'.2 := Nat.add_sub_cancel_left _ _
      rw [numbersFrom, if_pos hlt, later, hback]
      exact h.grows _ _ (hlinked.numbers r' hr')
    · rw [numbersFrom, if_neg (Nat.not_lt.mpr (le_of_mem_relocsFrom hr))]
      exact h.numbers r hr
  debug d hd := by
    rcases h.debug d hd with hd | hd
    · rcases hdebug with heq | heq
      · rw [heq] at hd
        exact .inl hd
      · rw [heq, List.mem_cons] at hd
        rcases hd with rfl | hd
        · exact .inr List.mem_cons_self
        · exact .inl hd
    · exact .inr (List.mem_cons_of_mem _ hd)

/-- **The second pass** gives out a number for every place, writes them in and puts the
units one after the other; or a primitive is not available, or a global that is
referred to has not been set. -/
theorem linkUnits_spec (opts : LinkOptions) {units : List (CompilationUnit Ev)}
    {oss : List (List (Output Ev))} (st : LinkState Ev) {ws : List Word}
    (hunits : List.Forall₂ Compiled units oss) (htables : st.tables.Ok)
    (hsets : SetsOnce st.tables (relocsOf units)) (hcode : st.code = codeBytes ws) :
    (∃ value st', linkUnits opts units st = .ok st' ∧
        LinkedUnits st ws.length oss value st' ∧
        st'.code = codeBytes (ws ++ wordsFrom value ws.length oss)) ∨
      ∃ e, linkUnits opts units st = .error e ∧
        ((∃ name, e = .unavailablePrimitive name) ∨ Unresolved st.tables (relocsOf units)) := by
  induction hunits generalizing st ws with
  | nil =>
      refine .inl ⟨fun _ => 0, st, rfl, ⟨htables, fun _ _ h => h, fun r hr => ?_, fun _ h =>
        .inl h⟩, ?_⟩
      · cases hr
      · rw [wordsFrom, List.append_nil, hcode]
  | @cons compunit os units oss hunit _ ih =>
      rw [relocsOf_cons] at hsets ⊢
      have hsplit := setKeys_append compunit.cuReloc (relocsOf units)
      have hnodup := List.nodup_append.mp (hsplit ▸ hsets.nodup)
      have hunset := hsets.unset
      simp only [hsplit, List.mem_append] at hunset
      have hreloc : setKeys compunit.cuReloc = setKeys (relocs 0 (itemsOf os)) := by
        rw [hunit.reloc]
        exact setKeys_scale _
      rcases linkCompunit_spec opts hunit htables
          ⟨hnodup.1, fun key hkey => hunset key (.inl hkey)⟩ hcode with
        ⟨value₁, st₁, hlink, hlinked, hcode₁, hdebug₁⟩ | ⟨e, hlink, he⟩
      · have hlen : (ws ++ wordsOf (fun p => value₁ p) (itemsOf os)).length =
            ws.length + wordCount (itemsOf os) := by
          rw [List.length_append, wordsOf, List.length_map, length_layout]
        have hstep : linkUnits opts (compunit :: units) st = linkUnits opts units st₁ := by
          rw [linkUnits, hlink]
          rfl
        -- the globals the others set are not those this one sets
        have hsets₁ : SetsOnce st₁.tables (relocsOf units) := by
          refine ⟨hnodup.2.1, fun key hkey => hlinked.unset key (hunset key (.inr hkey)) ?_⟩
          rw [← hreloc]
          exact fun hmem => hnodup.2.2 key hmem key hkey rfl
        rw [hstep]
        rcases ih st₁ hlinked.ok hsets₁ hcode₁ with
          ⟨value₂, st', hlink', hlinked', hcode'⟩ | ⟨e, hlink', he⟩
        · rw [hlen] at hlinked' hcode'
          refine .inl ⟨_, st', hlink', .cons hlinked hdebug₁ hlinked', ?_⟩
          rw [hcode', wordsFrom_numbersFrom, List.append_assoc]
        · exact .inr ⟨e, hlink', he.imp_right fun h => h.linked hlinked hreloc⟩
      · refine .inr ⟨e, ?_, he.imp_right fun h => h.append _⟩
        rw [linkUnits, hlink]
        rfl

end SecondPass

/-! ## §4. Both passes. -/

section Passes

variable {opts : LinkOptions} {tables : Tables} {objfiles : List (LinkAction Ev)}

/-- A unit refers to a global of its own only after it has set it. -/
def OwnFirst (compunit : CompilationUnit Ev) : Prop :=
  ∀ before id pos after, compunit.cuReloc = before ++ (.relocGetglobal id, pos) :: after →
    identKey id ∈ setKeys compunit.cuReloc → identKey id ∈ setKeys before

/-- What the second pass begins with, for units that were compiled. -/
structure Linkable (tables : Tables) (units : List (CompilationUnit Ev))
    (oss : List (List (Output Ev))) : Prop where
  compiled : List.Forall₂ Compiled units oss
  ok : tables.Ok
  sets : SetsOnce tables (relocsOf units)
  own : ∀ compunit ∈ units, OwnFirst compunit
  /-- The exceptions of the runtime have slots. -/
  predef : ∀ key ∈ getKeys (relocsOf units), isPredef key = true →
    tables.globalTable.find key ≠ none

/-- The globals read by two parts. -/
theorem getKeys_append (rs rs' : List (RelocInfo × Nat)) :
    getKeys (rs ++ rs') = getKeys rs ++ getKeys rs' := List.filterMap_append

/-- A unit around one of its relocations. -/
theorem exists_unit_of_relocsOf {r : RelocInfo × Nat} :
    ∀ {units : List (CompilationUnit Ev)} {before after : List (RelocInfo × Nat)},
      relocsOf units = before ++ r :: after →
        ∃ units₁ compunit units₂ rs₁ rs₂, units = units₁ ++ compunit :: units₂ ∧
          compunit.cuReloc = rs₁ ++ r :: rs₂ ∧ before = relocsOf units₁ ++ rs₁
  | [], before, after, h => by cases before <;> cases h
  | compunit :: units, before, after, h => by
      rw [relocsOf_cons] at h
      rcases List.append_eq_append_iff.mp h with ⟨rs, hbefore, hrest⟩ | ⟨rs, hunit, hrest⟩
      · obtain ⟨units₁, compunit', units₂, rs₁, rs₂, rfl, hr, hrs⟩ :=
          exists_unit_of_relocsOf hrest
        refine ⟨compunit :: units₁, compunit', units₂, rs₁, rs₂, rfl, hr, ?_⟩
        rw [hbefore, hrs, relocsOf_cons, List.append_assoc]
      · cases rs with
        | nil =>
            rw [List.append_nil] at hunit
            have hrest : relocsOf units = [] ++ r :: after := hrest.symm
            obtain ⟨units₁, compunit', units₂, rs₁, rs₂, rfl, hr, hrs⟩ :=
              exists_unit_of_relocsOf hrest
            refine ⟨compunit :: units₁, compunit', units₂, rs₁, rs₂, rfl, hr, ?_⟩
            rw [relocsOf_cons, List.append_assoc, ← hrs, List.append_nil, hunit]
        | cons r' rs =>
            rw [List.cons_append, List.cons.injEq] at hrest
            obtain ⟨rfl, -⟩ := hrest
            exact ⟨[], compunit, units, before, rs, rfl, hunit, rfl⟩

/-- In a good order no reference is without a slot. -/
theorem not_unresolved {units : List (CompilationUnit Ev)} {oss : List (List (Output Ev))}
    (h : Linkable tables units oss) (hfound : ∀ key, Lacks units key → isPredef key = true) :
    ¬ Unresolved tables (relocsOf units) := by
  rintro ⟨before, id, pos, after, hsplit, hnone, hnot⟩
  obtain ⟨units₁, compunit, units₂, rs₁, rs₂, rfl, hr, rfl⟩ := exists_unit_of_relocsOf hsplit
  have hget : identKey id ∈ getKeys compunit.cuReloc := by
    rw [hr, getKeys_append]
    exact List.mem_append_right _ List.mem_cons_self
  have hmem : compunit ∈ units₁ ++ compunit :: units₂ :=
    List.mem_append_right _ List.mem_cons_self
  rw [setKeys_append, List.mem_append, not_or] at hnot
  have hlacks : Lacks (units₁ ++ compunit :: units₂) (identKey id) := by
    refine ⟨units₁, compunit, units₂, rfl, List.mem_append_left _ hget, fun hset => ?_⟩
    rw [relocsOf, List.flatMap_append, List.flatMap_singleton, setKeys_append,
      List.mem_append] at hset
    rcases hset with hset | hset
    · exact hnot.1 hset
    · exact hnot.2 (h.own compunit hmem rs₁ id pos rs₂ hr hset)
  refine h.predef _ ?_ (hfound _ hlacks) hnone
  rw [hsplit, getKeys_append]
  exact List.mem_append_right _ List.mem_cons_self

/-- **Linking.**  A module is missing, a primitive is not available, or the units are
linked; that a global is undefined is never found in the second pass. -/
theorem link_spec {oss : List (List (Output Ev))}
    (h : Linkable tables (linkedUnits opts.linkEverything objfiles) oss) :
    (∃ ids, link opts tables objfiles = .error (.requiredModuleUnavailable ids) ∧
        ids.Nonempty ∧ ∀ key, key ∈ ids ↔
          isPredef key = false ∧ Lacks (linkedUnits opts.linkEverything objfiles) key) ∨
      (∃ name, link opts tables objfiles = .error (.symbolError (.unavailablePrimitive name))) ∨
      ∃ value st, link opts tables objfiles = .ok st ∧
        LinkedUnits ⟨[], [], tables⟩ 0 oss value st ∧
        st.code = codeBytes (wordsFrom value 0 oss ++ [wordOfInt (op .stop)]) := by
  have hmem (key : Ident) :
      key ∈ (scanFiles opts.linkEverything objfiles).1.filter (fun id => isPredef id = false) ↔
        isPredef key = false ∧ Lacks (linkedUnits opts.linkEverything objfiles) key := by
    rw [Finset.mem_filter, mem_scanFiles, and_comm]
  by_cases hmissing :
      ((scanFiles opts.linkEverything objfiles).1.filter fun id => isPredef id = false).Nonempty
  · exact .inl ⟨_, if_pos hmissing, hmissing, hmem⟩
  -- nothing is missing but predefined exceptions, which the tables have
  · have hlink : link opts tables objfiles =
        (linkCode opts tables (scanFiles opts.linkEverything objfiles).2).mapError
          .symbolError := if_neg hmissing
    have hfound : ∀ key, Lacks (linkedUnits opts.linkEverything objfiles) key →
        isPredef key = true := by
      intro key hlacks
      by_contra hpredef
      exact hmissing ⟨key, (hmem key).mpr ⟨Bool.eq_false_of_not_eq_true hpredef, hlacks⟩⟩
    rcases linkUnits_spec opts ⟨[], [], tables⟩ h.compiled h.ok h.sets
        (show _ = codeBytes [] from rfl) with
      ⟨value, st, hunits, hlinked, hcode⟩ | ⟨e, hunits, ⟨name, rfl⟩ | hunresolved⟩
    · refine .inr (.inr ⟨value, { st with code := st.code ++ [unsafeChr (op .stop), 0, 0, 0] },
        ?_, hlinked.withCode _, ?_⟩)
      · rw [hlink, linkCode]
        show ((linkUnits opts (linkedUnits _ _) _ >>= _) : Except SymtableError _).mapError _ = _
        rw [hunits]
        rfl
      · show st.code ++ codeBytes [wordOfInt (op .stop)] = _
        rw [hcode]
        exact List.flatMap_append.symm
    · refine .inr (.inl ⟨name, ?_⟩)
      rw [hlink, linkCode]
      show ((linkUnits opts (linkedUnits _ _) _ >>= _) : Except SymtableError _).mapError _ = _
      rw [hunits]
      rfl
    · exact absurd hunresolved (not_unresolved h hfound)

end Passes

end OcamlJit.Bytecomp.Bytelink

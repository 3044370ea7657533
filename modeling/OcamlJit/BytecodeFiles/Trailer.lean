/-
  OcamlJit.BytecodeFiles.Trailer
  ──────────────────────────────
  **THE SECTIONS OF A BYTECODE FILE** (`bytecode_files/trailer.rs`, and
  `read_code_section` of `bytecode_files/bytecode.rs`).

  A bytecode file ends with the contents of its sections, a table of their names
  and lengths, the number of sections and a magic; where a section starts is
  worked out from the end.  A file may give fewer bytes than it is asked for;
  `grants` says how many it gives.

    • `workOutOffsets_entries`     the offsets are where the sections are;
    • `readSection_delivers`       the reader of a section is a stream of its
                                   contents and of nothing else;
    • `parseTrailer_readsBack`     what was written is read back.
-/
import OcamlJit.Lib.BigEndian
import OcamlJit.Lib.Readers
import OcamlJit.Instructions.Opcode
import Mathlib.Data.Fintype.Prod
import Mathlib.Data.Fintype.Card
import Mathlib.Data.List.GetD
import Mathlib.Tactic.IntervalCases

namespace OcamlJit.BytecodeFiles

open OcamlJit.Lib OcamlJit.Instructions

/-! ## §1. Files. -/

/-- `enum ParseFileError`, as far as sections go. -/
inductive ParseFileError where
  /-- `io::ErrorKind::UnexpectedEof`. -/
  | unexpectedEof
  /-- `io::ErrorKind::InvalidInput`: a seek in front of the start. -/
  | invalidInput
  | wrongMagic
  | badSize (message : String)
  | sectionNotFound (name : List UInt8)
  deriving Repr, DecidableEq

/-- A `File`: `grants i + 1` is the most that its `i`-th read gives. -/
structure File where
  contents : List UInt8
  position : Nat
  grants : Nat → Nat
  reads : Nat

namespace File

/-- `Read::read`. -/
def read : Source ParseFileError File := fun f n =>
  let out := (f.contents.drop f.position).take (min n (f.grants f.reads + 1))
  .ok (out, { f with position := f.position + out.length, reads := f.reads + 1 })

/-- `seek(SeekFrom::End(offset))`. -/
def seekEnd (f : File) (offset : Int) : Rust ParseFileError File :=
  if 0 ≤ f.contents.length + offset then
    .ok { f with position := (f.contents.length + offset).toNat }
  else err .invalidInput

/-- `read_u32::<BigEndian>`. -/
def readU32 (f : File) : Rust ParseFileError (Nat × File) := do
  let p ← readExactFrom read .unexpectedEof 4 f
  pure (beNat p.1, p.2)

end File

/-- `-(n as i64)`. -/
def negI64 {ε : Type} (n : Nat) : Rust ε Int :=
  if n = 2 ^ 63 then panicked else .ok (-toSigned 8 n)

/-! ## §2. The trailer. -/

/-- `EXEC_MAGIC`: "Caml1999X028". -/
def execMagic : List UInt8 := [67, 97, 109, 108, 49, 57, 57, 57, 88, 48, 50, 56]

/-- `EXEC_MAGIC_LENGTH`. -/
def execMagicLength : Nat := execMagic.length

/-- `TRAILER_LENGTH`. -/
def trailerLength : Nat := 4 + execMagicLength

/-- `CODE_SECTION`: "CODE". -/
def codeSection : List UInt8 := [67, 79, 68, 69]

/-- `struct SectionEntry`. -/
structure SectionEntry where
  name : List UInt8
  offsetFromEnd : Nat
  length : Nat
  deriving Repr, DecidableEq

/-- `struct Trailer`. -/
structure Trailer where
  sections : List SectionEntry

/-- The loop that loads the section table. -/
def loadTable : Nat → File → Rust ParseFileError (List SectionEntry × File)
  | 0, f => .ok ([], f)
  | n + 1, f => do
      let name ← f.read 4
      if name.1.length ≠ 4 then err (.badSize "Could not read full section entry name")
      else do
        let length ← name.2.readU32
        let rest ← loadTable n length.2
        pure (⟨name.1, 0, length.1⟩ :: rest.1, rest.2)

/-- The loop that works out the offsets, the last entry first. -/
def workOutOffsets (currentOffset : Nat) :
    List SectionEntry → Rust ParseFileError (Nat × List SectionEntry)
  | [] => .ok (currentOffset, [])
  | entry :: entries => do
      let rest ← workOutOffsets currentOffset entries
      let offset ← addU 64 rest.1 entry.length
      if entry.length > offset then err (.badSize "Length is greater than offset from end")
      else pure (offset, { entry with offsetFromEnd := offset } :: rest.2)

/-- `parse_trailer`. -/
def parseTrailer (f : File) : Rust ParseFileError (Trailer × File) := do
  let f ← f.seekEnd (← negI64 trailerLength)
  let (numSections, f) ← f.readU32
  let (readMagic, f) ← f.read execMagicLength
  if readMagic.length ≠ execMagicLength then err (.badSize "could not read magic")
  else if readMagic ≠ execMagic then err .wrongMagic
  else do
    -- a `u32` times 8 fits in a `usize`
    let tocSize := numSections * 8
    let f ← f.seekEnd (← negI64 (trailerLength + tocSize))
    let (sections, f) ← loadTable numSections f
    let (_, sections) ← workOutOffsets (trailerLength + tocSize) sections
    pure (⟨sections⟩, f)

/-- `Trailer::find_section`. -/
def Trailer.findSection (t : Trailer) (name : List UInt8) : Option SectionEntry :=
  t.sections.find? fun s => s.name = name

/-- `Trailer::find_required_section`. -/
def Trailer.findRequiredSection (t : Trailer) (name : List UInt8) :
    Rust ParseFileError SectionEntry :=
  match t.findSection name with
  | some s => .ok s
  | none => err (.sectionNotFound name)

/-! ## §3. Reading a section. -/

/-- `struct ReadAtMost`. -/
structure ReadAtMost (σ : Type) where
  source : σ
  toRead : Nat

/-- `ReadAtMost::read`, over the reads of the source. -/
def ReadAtMost.read {ε σ : Type} (read : Source ε σ) : Source ε (ReadAtMost σ) := fun r n => do
  let p ← read r.source (min n r.toRead)
  let toRead ← subU r.toRead p.1.length
  pure (p.1, ⟨p.2, toRead⟩)

/-- `SectionEntry::seek_to`. -/
def SectionEntry.seekTo (s : SectionEntry) (f : File) : Rust ParseFileError File := do
  f.seekEnd (← negI64 s.offsetFromEnd)

/-- `SectionEntry::read_section`. -/
def SectionEntry.readSection (s : SectionEntry) (f : File) :
    Rust ParseFileError (ReadAtMost File) := do
  let f ← s.seekTo f
  pure ⟨f, s.length⟩

/-- A word from its bytes, the least significant first. -/
def wordOfBytes (bytes : List UInt8) : Word := .ofNat 32 (beNat bytes.reverse)

/-- `read_i32::<LittleEndian>`, a number of times. -/
def readWords : Nat → ReadAtMost File → Rust ParseFileError (List Word × ReadAtMost File)
  | 0, r => .ok ([], r)
  | n + 1, r => do
      let p ← readExactFrom (ReadAtMost.read File.read) .unexpectedEof 4 r
      let rest ← readWords n p.2
      pure (wordOfBytes p.1 :: rest.1, rest.2)

/-- `read_code_section`. -/
def readCodeSection (f : File) (t : Trailer) : Rust ParseFileError (List Word) := do
  let code ← t.findRequiredSection codeSection
  if code.length % 4 ≠ 0 then err (.badSize "CODE section is not a multiple of 4")
  else do
    let r ← code.readSection f
    let words ← readWords (code.length / 4) r
    pure words.1

/-! ## §4. What is written. -/

/-- A section to write. -/
structure Section where
  name : List UInt8
  contents : List UInt8
  deriving DecidableEq

/-- Names are four ASCII characters each and different ones; a length fits in
four bytes. -/
structure SectionsOk (sections : List Section) : Prop where
  nodup : (sections.map Section.name).Nodup
  name : ∀ s ∈ sections, s.name.length = 4 ∧ ∀ b ∈ s.name, b < 128
  length : ∀ s ∈ sections, s.contents.length < 2 ^ 32

/-- The contents of the sections, one after the other. -/
def contentsOf (sections : List Section) : List UInt8 := sections.flatMap Section.contents

/-- The table of contents. -/
def tableOf (sections : List Section) : List UInt8 :=
  sections.flatMap fun s => s.name ++ beBytes 4 s.contents.length

/-- The end of the file, from the contents of some sections on. -/
def fileEnd (sections : List Section) : List UInt8 :=
  tableOf sections ++ (beBytes 4 sections.length ++ execMagic)

/-- A bytecode file, whatever it begins with. -/
def bytecodeFile (front : List UInt8) (sections : List Section) : List UInt8 :=
  front ++ (contentsOf sections ++ fileEnd sections)

/-- The words of a code section, the least significant bytes first. -/
def bytesOfWords (words : List Word) : List UInt8 :=
  words.flatMap fun w => (beBytes 4 w.toNat).reverse

/-! ## §5. Files are streams. -/

/-- The file is before `data`. -/
structure File.At (contents : List UInt8) (grants : Nat → Nat) (f : File) (data : List UInt8) :
    Prop where
  contents : f.contents = contents
  grants : f.grants = grants
  left : f.contents.drop f.position = data

section File

variable {contents : List UInt8} {grants : Nat → Nat}

/-- A read takes what it is granted, and the rest is still to come. -/
theorem File.read_at {f : File} {data : List UInt8} (h : File.At contents grants f data) (n : Nat) :
    ∃ f' rest, f.read n = .ok (data.take (min n (f.grants f.reads + 1)), f') ∧
      File.At contents grants f' rest ∧ data = data.take (min n (f.grants f.reads + 1)) ++ rest := by
  obtain ⟨rest, hrest⟩ : data.take (min n (f.grants f.reads + 1)) <+: data := List.take_prefix ..
  refine ⟨{ f with
    position := f.position + (data.take (min n (f.grants f.reads + 1))).length,
    reads := f.reads + 1 }, rest, ?_, ⟨h.contents, h.grants, ?_⟩, hrest.symm⟩
  · rw [← h.left]
    rfl
  · show f.contents.drop (f.position + _) = rest
    rw [← List.drop_drop, h.left]
    nth_rewrite 2 [← hrest]
    rw [List.drop_left]

/-- So a file delivers what it contains. -/
theorem File.read_delivers : Delivers File.read (File.At contents grants) := by
  intro f data n h
  obtain ⟨f', rest, hread, hf', hdata⟩ := File.read_at h n
  refine ⟨_, rest, f', hdata, hread, hf', ?_, ?_⟩
  · rw [List.length_take]
    omega
  · intro hn hne hnil
    have hpos : 0 < data.length := List.length_pos_iff.mpr hne
    have hlen := congrArg List.length hnil
    rw [List.length_take, List.length_nil] at hlen
    omega

/-- A read that is not cut short. -/
theorem File.read_complete {f : File} {data more : List UInt8} {n : Nat}
    (h : File.At contents grants f (data ++ more)) (hlen : data.length = n)
    (hgrant : ∀ i, n ≤ grants i + 1) :
    ∃ f', f.read n = .ok (data, f') ∧ File.At contents grants f' more := by
  obtain ⟨f', rest, hread, hf', hdata⟩ := File.read_at h n
  have hmin : min n (f.grants f.reads + 1) = n := by
    have hle := hgrant f.reads
    rw [h.grants]
    omega
  have htake : (data ++ more).take n = data := by rw [← hlen, List.take_left]
  rw [hmin, htake] at hread hdata
  rw [← List.append_cancel_left hdata] at hf'
  exact ⟨f', hread, hf'⟩

/-- Four bytes are a number. -/
theorem File.readU32_at {f : File} {n : Nat} {more : List UInt8} (hn : n < 2 ^ 32)
    (h : File.At contents grants f (beBytes 4 n ++ more)) :
    ∃ f', f.readU32 = .ok (n, f') ∧ File.At contents grants f' more := by
  obtain ⟨f', hread, hf'⟩ := File.read_delivers.readExact .unexpectedEof 4 f _ more h
    (length_beBytes 4 n)
  refine ⟨f', ?_, hf'⟩
  unfold File.readU32
  rw [hread]
  show (Except.ok (beNat (beBytes 4 n), f') : Rust ParseFileError _) = _
  rw [beNat_beBytes, Nat.mod_eq_of_lt (show n < 256 ^ 4 from hn)]

/-- A small offset can be negated. -/
theorem negI64_eq {ε : Type} {n : Nat} (h : n < 2 ^ 63) :
    (negI64 n : Rust ε Int) = .ok (-(n : Int)) := by
  unfold negI64 toSigned
  rw [if_neg (by omega), if_pos (by omega)]

/-- To the last bytes of the file. -/
theorem File.seekEnd_at {f : File} {front data : List UInt8} {n : Nat} (h : f.contents = contents)
    (hgrants : f.grants = grants) (hcontents : contents = front ++ data) (hlen : data.length = n) :
    ∃ f', f.seekEnd (-(n : Int)) = .ok f' ∧ File.At contents grants f' data := by
  refine ⟨{ f with position := front.length }, ?_, ⟨h, hgrants, ?_⟩⟩
  · unfold File.seekEnd
    rw [h, hcontents, List.length_append, hlen, if_pos (by omega)]
    congr
    omega
  · show f.contents.drop front.length = data
    rw [h, hcontents, List.drop_left]

end File

/-! ## §6. Where the sections are. -/

/-- The later sections are as they should be. -/
theorem SectionsOk.tail {s : Section} {sections : List Section} (h : SectionsOk (s :: sections)) :
    SectionsOk sections :=
  ⟨(List.nodup_cons.mp h.nodup).2, fun t ht => h.name t (List.mem_cons_of_mem _ ht),
    fun t ht => h.length t (List.mem_cons_of_mem _ ht)⟩

/-- A name as four seven-bit numbers. -/
def nameKey (name : List UInt8) : Fin 128 × Fin 128 × Fin 128 × Fin 128 :=
  (.ofNat 128 (name.getD 0 0).toNat, .ofNat 128 (name.getD 1 0).toNat,
    .ofNat 128 (name.getD 2 0).toNat, .ofNat 128 (name.getD 3 0).toNat)

/-- An ASCII character is determined by its lowest seven bits. -/
theorem ascii_eq {a b : UInt8} (ha : a < 128) (hb : b < 128)
    (h : Fin.ofNat 128 a.toNat = Fin.ofNat 128 b.toNat) : a = b := by
  have hval : a.toNat % 128 = b.toNat % 128 := congrArg Fin.val h
  have ha : a.toNat < 128 := UInt8.lt_iff_toNat_lt.mp ha
  have hb : b.toNat < 128 := UInt8.lt_iff_toNat_lt.mp hb
  refine UInt8.toNat_inj.mp ?_
  omega

/-- **Section names are told apart** by their keys. -/
theorem nameKey_injective {m n : List UInt8} (hm : m.length = 4 ∧ ∀ b ∈ m, b < 128)
    (hn : n.length = 4 ∧ ∀ b ∈ n, b < 128) (h : nameKey m = nameKey n) : m = n := by
  obtain ⟨hlen, hm⟩ := hm
  obtain ⟨hlen', hn⟩ := hn
  refine List.ext_getElem (hlen.trans hlen'.symm) fun i hi hi' => ?_
  have hkey : Fin.ofNat 128 (m.getD i 0).toNat = Fin.ofNat 128 (n.getD i 0).toNat := by
    unfold nameKey at h
    simp only [Prod.mk.injEq] at h
    obtain ⟨h₀, h₁, h₂, h₃⟩ := h
    rw [hlen] at hi
    interval_cases i
    · exact h₀
    · exact h₁
    · exact h₂
    · exact h₃
  rw [List.getD_eq_getElem _ _ hi, List.getD_eq_getElem _ _ hi'] at hkey
  exact ascii_eq (hm _ (List.getElem_mem hi)) (hn _ (List.getElem_mem hi')) hkey

/-- There are only so many names. -/
theorem SectionsOk.count {sections : List Section} (h : SectionsOk sections) :
    sections.length ≤ 2 ^ 28 := by
  have hnodup : ((sections.map Section.name).map nameKey).Nodup := by
    refine List.Nodup.map_on ?_ h.nodup
    intro m hm n hn heq
    obtain ⟨s, hs, rfl⟩ := List.mem_map.mp hm
    obtain ⟨t, ht, rfl⟩ := List.mem_map.mp hn
    exact nameKey_injective (h.name s hs) (h.name t ht) heq
  have hcard := hnodup.length_le_card
  simp only [List.length_map, Fintype.card_prod, Fintype.card_fin] at hcard
  omega

/-- The sections are not longer than their lengths can say. -/
theorem SectionsOk.length_contents {sections : List Section} (h : SectionsOk sections) :
    (contentsOf sections).length ≤ sections.length * 2 ^ 32 := by
  induction sections with
  | nil => exact Nat.le_refl _
  | cons s sections ih =>
      have hs := h.length s List.mem_cons_self
      have hrest := ih h.tail
      unfold contentsOf at hrest ⊢
      rw [List.flatMap_cons, List.length_append, List.length_cons]
      omega

/-- Eight bytes for every section. -/
theorem length_tableOf {sections : List Section} (h : SectionsOk sections) :
    (tableOf sections).length = sections.length * 8 := by
  induction sections with
  | nil => rfl
  | cons s sections ih =>
      have hrest := ih h.tail
      have hname := (h.name s List.mem_cons_self).1
      unfold tableOf at hrest ⊢
      rw [List.flatMap_cons, List.length_append, List.length_append, length_beBytes,
        List.length_cons, hname]
      omega

/-- The table and the trailer are of a known length. -/
theorem length_fileEnd {sections : List Section} (h : SectionsOk sections) :
    (fileEnd sections).length = trailerLength + sections.length * 8 := by
  unfold fileEnd
  rw [List.length_append, List.length_append, length_beBytes, length_tableOf h]
  unfold trailerLength execMagicLength
  omega

/-- All of it is near enough to the end of the file. -/
theorem SectionsOk.near {sections : List Section} (h : SectionsOk sections) :
    (contentsOf sections).length + (fileEnd sections).length < 2 ^ 63 := by
  have hcount := h.count
  have hlen := h.length_contents
  have hmagic : execMagicLength = 12 := rfl
  rw [length_fileEnd h]
  unfold trailerLength
  omega

/-- **The table is loaded** as it was written. -/
theorem loadTable_at {contents : List UInt8} {grants : Nat → Nat} {more : List UInt8}
    (hgrant : ∀ i, 4 ≤ grants i + 1) (sections : List Section) : ∀ f, SectionsOk sections →
    File.At contents grants f (tableOf sections ++ more) →
      ∃ f', loadTable sections.length f =
          .ok (sections.map fun s => ⟨s.name, 0, s.contents.length⟩, f') ∧
        File.At contents grants f' more := by
  induction sections with
  | nil =>
      intro f _ hf
      exact ⟨f, rfl, hf⟩
  | cons s sections ih =>
      intro f hok hf
      unfold tableOf at hf
      rw [List.flatMap_cons, List.append_assoc, List.append_assoc] at hf
      have hname := (hok.name s List.mem_cons_self).1
      obtain ⟨f₁, hread, hf₁⟩ := File.read_complete hf hname hgrant
      obtain ⟨f₂, hlength, hf₂⟩ := File.readU32_at (hok.length s List.mem_cons_self) hf₁
      obtain ⟨f₃, hrest, hf₃⟩ := ih f₂ hok.tail hf₂
      refine ⟨f₃, ?_, hf₃⟩
      rw [List.length_cons, loadTable, hread]
      dsimp only [ok_bind]
      rw [if_neg (not_not.mpr hname), hlength]
      dsimp only [ok_bind]
      rw [hrest]
      rfl

/-- The entries, given how long the end of the file after the contents is. -/
def entriesOf (last : Nat) : List Section → List SectionEntry
  | [] => []
  | s :: sections =>
      ⟨s.name, (contentsOf (s :: sections)).length + last, s.contents.length⟩ ::
        entriesOf last sections

/-- **The offsets are where the sections are.** -/
theorem workOutOffsets_entries {last : Nat} (sections : List Section) :
    (contentsOf sections).length + last < 2 ^ 63 →
    workOutOffsets last (sections.map fun s => ⟨s.name, 0, s.contents.length⟩) =
      .ok ((contentsOf sections).length + last, entriesOf last sections) := by
  induction sections with
  | nil =>
      intro _
      show (Except.ok (last, []) : Rust ParseFileError _) = .ok (0 + last, [])
      rw [Nat.zero_add]
  | cons s sections ih =>
      intro hlen
      have hcons : (contentsOf (s :: sections)).length =
          s.contents.length + (contentsOf sections).length := by
        unfold contentsOf
        rw [List.flatMap_cons, List.length_append]
      rw [hcons] at hlen
      have hadd : (addU 64 ((contentsOf sections).length + last) s.contents.length :
          Rust ParseFileError Nat) = .ok ((contentsOf (s :: sections)).length + last) :=
        addU_eq_ok.mpr ⟨by omega, by omega⟩
      rw [List.map_cons, workOutOffsets, ih (by omega)]
      dsimp only [ok_bind]
      rw [hadd]
      dsimp only [ok_bind]
      rw [if_neg (by omega)]
      rfl

/-- The entries have the names and lengths of the sections. -/
theorem entriesOf_names (last : Nat) (sections : List Section) :
    (entriesOf last sections).map (fun e => (e.name, e.length)) =
      sections.map fun s => (s.name, s.contents.length) := by
  induction sections with
  | nil => rfl
  | cons s sections ih => rw [entriesOf, List.map_cons, List.map_cons, ih]

/-- **A section is found** by its name. -/
theorem find_entriesOf (last : Nat) (s : Section) (after before : List Section) :
    s.name ∉ before.map Section.name →
    (entriesOf last (before ++ s :: after)).find? (fun e => e.name = s.name) =
      some ⟨s.name, (contentsOf (s :: after)).length + last, s.contents.length⟩ := by
  induction before with
  | nil =>
      intro _
      rw [List.nil_append, entriesOf]
      exact List.find?_cons_of_pos (by simp)
  | cons t before ih =>
      intro hnot
      rw [List.map_cons, List.mem_cons, not_or] at hnot
      rw [List.cons_append, entriesOf, List.find?_cons_of_neg (by simpa using Ne.symm hnot.1)]
      exact ih hnot.2

/-- **`parse_trailer`** on a file whose reads are not cut short. -/
theorem parseTrailer_eq {front : List UInt8} {sections : List Section} {f : File}
    (hok : SectionsOk sections) (hf : f.contents = bytecodeFile front sections)
    (hgrant : ∀ i, execMagicLength ≤ f.grants i + 1) :
    ∃ f', parseTrailer f = .ok (⟨entriesOf (fileEnd sections).length sections⟩, f') := by
  have hmagic : execMagicLength = 12 := rfl
  have htrailer : trailerLength = 16 := rfl
  have hnear := hok.near
  have hcount := hok.count
  have hend := length_fileEnd hok
  have htable : (beBytes 4 sections.length ++ execMagic).length = trailerLength := by
    rw [List.length_append, length_beBytes]
    rfl
  -- the number of sections and the magic
  obtain ⟨f₁, hseek, hf₁⟩ := File.seekEnd_at rfl rfl
    (hf.trans (show _ = (front ++ (contentsOf sections ++ tableOf sections)) ++
      (beBytes 4 sections.length ++ execMagic) by
        simp only [bytecodeFile, fileEnd, List.append_assoc])) htable
  obtain ⟨f₂, hcountRead, hf₂⟩ := File.readU32_at (by omega) hf₁
  rw [← List.append_nil execMagic] at hf₂
  obtain ⟨f₃, hmagicRead, hf₃⟩ := File.read_complete hf₂ rfl hgrant
  -- the table
  obtain ⟨f₄, hseek', hf₄⟩ := File.seekEnd_at (n := trailerLength + sections.length * 8)
    hf₃.contents hf₃.grants
    (hf.trans (List.append_assoc front (contentsOf sections) (fileEnd sections)).symm) hend
  obtain ⟨f₅, htableRead, -⟩ := loadTable_at (fun i => by have := hgrant i; omega) sections f₄ hok
    hf₄
  refine ⟨f₅, ?_⟩
  -- now the reads in their order
  unfold parseTrailer
  rw [negI64_eq (by omega)]
  dsimp only [ok_bind]
  rw [hseek]
  dsimp only [ok_bind]
  rw [hcountRead]
  dsimp only [ok_bind]
  rw [show f₂.read execMagicLength = _ from hmagicRead]
  dsimp only [ok_bind]
  rw [if_neg (by decide), if_neg (by decide), negI64_eq (by omega)]
  dsimp only [ok_bind]
  rw [hseek']
  dsimp only [ok_bind]
  rw [htableRead]
  dsimp only [ok_bind]
  rw [← hend, workOutOffsets_entries sections hnear]
  rfl

/-! ## §7. Reading a section. -/

/-- **A bounded reader is a stream** of as much of the source's data as it may
read. -/
theorem readAtMost_delivers {ε σ : Type} {read : Source ε σ} {R : σ → List UInt8 → Prop}
    (h : Delivers read R) : Delivers (ReadAtMost.read read)
      fun r data => r.toRead = data.length ∧ ∃ more, R r.source (data ++ more) := by
  intro r data n hr
  obtain ⟨hlen, more, hsource⟩ := hr
  obtain ⟨out, rest, s', hdata, hread, hs', hle, hne⟩ :=
    h r.source (data ++ more) (min n r.toRead) hsource
  -- the piece lies within the section
  obtain ⟨left, rfl⟩ : out <+: data :=
    List.prefix_of_prefix_length_le ⟨rest, hdata.symm⟩ ⟨more, rfl⟩ (by omega)
  rw [List.append_assoc] at hdata
  rw [← List.append_cancel_left hdata] at hs'
  rw [List.length_append] at hlen
  refine ⟨out, left, ⟨s', r.toRead - out.length⟩, rfl, ?_, ⟨?_, more, hs'⟩, by omega, ?_⟩
  · have hsub : (subU r.toRead out.length : Rust ε Nat) = .ok (r.toRead - out.length) :=
      subU_eq_ok.mpr ⟨by omega, rfl⟩
    unfold ReadAtMost.read
    rw [hread]
    dsimp only [ok_bind]
    rw [hsub]
    rfl
  · show r.toRead - out.length = left.length
    omega
  · intro hn hnil
    have hpos : 0 < (out ++ left).length := List.length_pos_iff.mpr hnil
    rw [List.length_append] at hpos
    refine hne (by omega) fun hall => hnil ?_
    exact (List.append_eq_nil_iff.mp hall).1

/-- The reader of a section before `data`, over a file with these contents. -/
def SectionLeft (contents : List UInt8) (grants : Nat → Nat) (r : ReadAtMost File)
    (data : List UInt8) : Prop :=
  r.toRead = data.length ∧ ∃ more, File.At contents grants r.source (data ++ more)

/-- **The reader of a section is a stream of its contents.** -/
theorem readSection_delivers {contents : List UInt8} {grants : Nat → Nat} :
    Delivers (ReadAtMost.read File.read) (SectionLeft contents grants) :=
  readAtMost_delivers File.read_delivers

/-- **A section is read**: the seek from the end comes to its first byte. -/
theorem readSection_eq (name : List UInt8) {front more data : List UInt8} {g : File} {n : Nat}
    (hg : g.contents = front ++ (data ++ more)) (hn : (data ++ more).length = n)
    (hlen : n < 2 ^ 63) :
    ∃ r, SectionEntry.readSection ⟨name, n, data.length⟩ g = .ok r ∧
      SectionLeft g.contents g.grants r data := by
  obtain ⟨g', hseek, hg'⟩ := File.seekEnd_at rfl rfl hg hn
  refine ⟨⟨g', data.length⟩, ?_, rfl, more, hg'⟩
  unfold SectionEntry.readSection SectionEntry.seekTo
  rw [negI64_eq hlen]
  dsimp only [ok_bind]
  rw [hseek]
  rfl

/-- The bytes of a word, the last one first, give the word. -/
theorem wordOfBytes_reverse (w : Word) : wordOfBytes (beBytes 4 w.toNat).reverse = w := by
  have hlt : w.toNat < 256 ^ 4 := w.isLt
  unfold wordOfBytes
  rw [List.reverse_reverse, beNat_beBytes, Nat.mod_eq_of_lt hlt]
  exact BitVec.ofNat_toNat 32 w

/-- Four bytes a word. -/
theorem length_bytesOfWords (words : List Word) : (bytesOfWords words).length = words.length * 4 := by
  unfold bytesOfWords
  induction words with
  | nil => rfl
  | cons w words ih =>
      rw [List.flatMap_cons, List.length_append, ih, List.length_reverse, length_beBytes,
        List.length_cons]
      omega

/-- The words of a section are read. -/
theorem readWords_at {contents : List UInt8} {grants : Nat → Nat} (words : List Word) : ∀ r,
    SectionLeft contents grants r (bytesOfWords words) →
      ∃ r', readWords words.length r = .ok (words, r') := by
  induction words with
  | nil =>
      intro r _
      exact ⟨r, rfl⟩
  | cons w words ih =>
      intro r hr
      unfold bytesOfWords at hr
      rw [List.flatMap_cons] at hr
      obtain ⟨r₁, hread, hr₁⟩ := readSection_delivers.readExact .unexpectedEof 4 r _ _ hr
        ((List.length_reverse ..).trans (length_beBytes 4 w.toNat))
      obtain ⟨r₂, hrest⟩ := ih r₁ hr₁
      refine ⟨r₂, ?_⟩
      rw [List.length_cons, readWords, hread]
      dsimp only [ok_bind]
      rw [hrest, wordOfBytes_reverse]
      rfl

/-! ## §8. What was written is read back. -/

/-- **The trailer leads back to the sections.**  On a file that ends with the
sections, the table, their number and the magic, and whose reads of these are not
cut short, `parse_trailer` gives the names and lengths in order.  Then each
section is found by its name, and whatever the same file is read like from then
on, the section's reader gives its contents and nothing else; and the words of a
code section are read. -/
theorem parseTrailer_readsBack (front : List UInt8) (sections : List Section) (f : File)
    (hok : SectionsOk sections) (hf : f.contents = bytecodeFile front sections)
    (hgrant : ∀ i, execMagicLength ≤ f.grants i + 1) :
    ∃ t f', parseTrailer f = .ok (t, f') ∧
      t.sections.map (fun e => (e.name, e.length)) =
        sections.map (fun s => (s.name, s.contents.length)) ∧
      ∀ s ∈ sections, ∃ e, t.findSection s.name = some e ∧ e.name = s.name ∧
        e.length = s.contents.length ∧
        ∀ g : File, g.contents = f.contents →
          (∃ r, e.readSection g = .ok r ∧ ReadsAll (ReadAtMost.read File.read) r s.contents) ∧
          ∀ words, s.name = codeSection → s.contents = bytesOfWords words →
            readCodeSection g t = .ok words := by
  obtain ⟨f', hparse⟩ := parseTrailer_eq hok hf hgrant
  refine ⟨_, f', hparse, entriesOf_names _ _, ?_⟩
  intro s hs
  obtain ⟨before, after, hsplit⟩ := List.append_of_mem hs
  have hnot : s.name ∉ before.map Section.name := by
    intro hmem
    have hnodup := hok.nodup
    rw [hsplit, List.map_append, List.map_cons, List.nodup_append] at hnodup
    exact hnodup.2.2 _ hmem _ List.mem_cons_self rfl
  have hfind := find_entriesOf (fileEnd sections).length s after before hnot
  rw [← hsplit] at hfind
  refine ⟨_, hfind, rfl, rfl, ?_⟩
  intro g hg
  -- the contents of the section, and what is after them
  have hcontents : g.contents = (front ++ contentsOf before) ++
      (s.contents ++ (contentsOf after ++ fileEnd sections)) := by
    rw [hg, hf, bytecodeFile, hsplit]
    unfold contentsOf
    simp only [List.flatMap_append, List.flatMap_cons, List.append_assoc]
  have hoffset : (s.contents ++ (contentsOf after ++ fileEnd sections)).length =
      (contentsOf (s :: after)).length + (fileEnd sections).length := by
    unfold contentsOf
    simp only [List.flatMap_cons, List.length_append, Nat.add_assoc]
  have hnear : (contentsOf (s :: after)).length + (fileEnd sections).length < 2 ^ 63 := by
    have hlt := hok.near
    have hle : (contentsOf (s :: after)).length ≤ (contentsOf sections).length := by
      rw [hsplit]
      unfold contentsOf
      rw [List.flatMap_append, List.length_append]
      omega
    omega
  obtain ⟨r, hread, hr⟩ := readSection_eq s.name hcontents hoffset hnear
  refine ⟨⟨r, hread, readSection_delivers.readsAll hr⟩, ?_⟩
  -- the code section is read word by word
  intro words hcode hwords
  rw [hcode] at hfind
  rw [hwords] at hr
  obtain ⟨r', hrest⟩ := readWords_at words r hr
  have hlen : s.contents.length = words.length * 4 := by rw [hwords, length_bytesOfWords]
  unfold readCodeSection Trailer.findRequiredSection Trailer.findSection
  rw [hfind]
  dsimp only [ok_bind]
  rw [if_neg (by omega), ← hcode, hread]
  dsimp only [ok_bind]
  rw [show s.contents.length / 4 = words.length by omega, hrest]
  rfl

/-- A file with a code section of two words and an empty section "DATA"; the
words are read although the file gives one byte at a time. -/
theorem parseTrailer_readsBack_twoSections :
    ∃ t f', parseTrailer ⟨bytecodeFile [35, 33] [⟨codeSection, bytesOfWords [84, 1]⟩,
        ⟨[68, 65, 84, 65], []⟩], 0, fun _ => 11, 0⟩ = .ok (t, f') ∧
      readCodeSection ⟨bytecodeFile [35, 33] [⟨codeSection, bytesOfWords [84, 1]⟩,
        ⟨[68, 65, 84, 65], []⟩], 0, fun _ => 0, 0⟩ t = .ok [84, 1] := by
  obtain ⟨t, f', hparse, -, hsections⟩ := parseTrailer_readsBack [35, 33]
    [⟨codeSection, bytesOfWords [84, 1]⟩, ⟨[68, 65, 84, 65], []⟩] ⟨_, 0, fun _ => 11, 0⟩
    ⟨by decide +kernel, by decide +kernel, by decide +kernel⟩ rfl (fun _ => Nat.le_refl _)
  obtain ⟨e, -, -, -, hread⟩ := hsections _ List.mem_cons_self
  exact ⟨t, f', hparse, (hread ⟨_, 0, fun _ => 0, 0⟩ rfl).2 [84, 1] rfl rfl⟩

end OcamlJit.BytecodeFiles

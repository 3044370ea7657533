/-
  OcamlJit.Lib.Backpatch
  ──────────────────────
  **ONE-PASS ASSEMBLY.**

  An assembler emits words one after the other.  A reference to a label is a word
  with the distance to it; while the label is undefined the place is kept in a
  list, and the word is written when the label is defined.  Other words are blank
  until the code is linked.

  With two passes there is nothing to patch: `layout` has the words with the
  references still in them, `definitions` the positions of the labels, and `fill`
  makes a word of a reference.

    • `Asm.Reflects.step`  one pass and two passes go together, item by item;
    • `Asm.Reflects.run`   the one pass writes what two passes write, and it stops
                           early exactly when a label is defined twice;
    • `writeAll_relocs`    linking puts the words in that were left blank;
    • `fill_shift`         code is the same at every place.
-/
import Mathlib.Data.List.Nodup
import Mathlib.Data.List.Lookmap
import Mathlib.Tactic.Tauto

namespace OcamlJit.Lib.Backpatch

variable {L W M R : Type}

/-! ## §1. Two passes. -/

/-- What is emitted. -/
inductive Item (L W M R : Type) where
  | word (w : W)
  /-- The distance to a label from the word that is `back` words before. -/
  | ref (l : L) (back : Nat)
  | define (l : L)
  /-- A note about the place. -/
  | mark (m : M)
  /-- A word that stays blank until the code is linked. -/
  | hole (r : R)
  deriving Repr, DecidableEq

/-- A word, a word that depends on a label, or one that is blank. -/
inductive Slot (L W : Type) where
  | word (w : W)
  | ref (l : L) (origin : Nat)
  | hole (place : Nat)
  deriving Repr, DecidableEq

/-- The words of items from position `p` on. -/
def layout (p : Nat) : List (Item L W M R) → List (Slot L W)
  | [] => []
  | .word w :: is => .word w :: layout (p + 1) is
  | .ref l back :: is => .ref l (p - back) :: layout (p + 1) is
  | .define _ :: is => layout p is
  | .mark _ :: is => layout p is
  | .hole _ :: is => .hole p :: layout (p + 1) is

/-- Labels and where they are defined. -/
def definitions (p : Nat) : List (Item L W M R) → List (L × Nat)
  | [] => []
  | .word _ :: is => definitions (p + 1) is
  | .ref _ _ :: is => definitions (p + 1) is
  | .define l :: is => (l, p) :: definitions p is
  | .mark _ :: is => definitions p is
  | .hole _ :: is => definitions (p + 1) is

/-- Notes and where they were made. -/
def marks (p : Nat) : List (Item L W M R) → List (M × Nat)
  | [] => []
  | .word _ :: is => marks (p + 1) is
  | .ref _ _ :: is => marks (p + 1) is
  | .define _ :: is => marks p is
  | .mark m :: is => (m, p) :: marks p is
  | .hole _ :: is => marks (p + 1) is

/-- What is left blank and where. -/
def relocs (p : Nat) : List (Item L W M R) → List (R × Nat)
  | [] => []
  | .word _ :: is => relocs (p + 1) is
  | .ref _ _ :: is => relocs (p + 1) is
  | .define _ :: is => relocs p is
  | .mark _ :: is => relocs p is
  | .hole r :: is => (r, p) :: relocs (p + 1) is

/-- How many words items take. -/
def wordCount : List (Item L W M R) → Nat
  | [] => 0
  | .word _ :: is => wordCount is + 1
  | .ref _ _ :: is => wordCount is + 1
  | .define _ :: is => wordCount is
  | .mark _ :: is => wordCount is
  | .hole _ :: is => wordCount is + 1

/-- One slot for every word. -/
@[simp] theorem length_layout (p : Nat) (is : List (Item L W M R)) :
    (layout p is).length = wordCount is := by
  induction is generalizing p with
  | nil => rfl
  | cons i is ih => cases i <;> simp [layout, wordCount, ih]

/-- The words of two parts. -/
theorem wordCount_append (is js : List (Item L W M R)) :
    wordCount (is ++ js) = wordCount is + wordCount js := by
  induction is with
  | nil => simp [wordCount]
  | cons i is ih => cases i <;> simp [wordCount, ih] <;> omega

/-- The second part is laid out behind the first. -/
theorem layout_append (p : Nat) (is js : List (Item L W M R)) :
    layout p (is ++ js) = layout p is ++ layout (p + wordCount is) js := by
  induction is generalizing p with
  | nil => rfl
  | cons i is ih => cases i <;> simp [layout, wordCount, ih, Nat.add_assoc, Nat.add_comm 1]

/-- And its labels are defined there. -/
theorem definitions_append (p : Nat) (is js : List (Item L W M R)) :
    definitions p (is ++ js) = definitions p is ++ definitions (p + wordCount is) js := by
  induction is generalizing p with
  | nil => rfl
  | cons i is ih => cases i <;> simp [definitions, wordCount, ih, Nat.add_assoc, Nat.add_comm 1]

/-- And its marks stand there. -/
theorem marks_append (p : Nat) (is js : List (Item L W M R)) :
    marks p (is ++ js) = marks p is ++ marks (p + wordCount is) js := by
  induction is generalizing p with
  | nil => rfl
  | cons i is ih => cases i <;> simp [marks, wordCount, ih, Nat.add_assoc, Nat.add_comm 1]

/-- And its relocations are for there. -/
theorem relocs_append (p : Nat) (is js : List (Item L W M R)) :
    relocs p (is ++ js) = relocs p is ++ relocs (p + wordCount is) js := by
  induction is generalizing p with
  | nil => rfl
  | cons i is ih => cases i <;> simp [relocs, wordCount, ih, Nat.add_assoc, Nat.add_comm 1]

/-- Where a relocation is for there is a hole. -/
theorem hole_of_mem_relocs {r : R} {place : Nat} {is : List (Item L W M R)} :
    ∀ {p : Nat}, (r, place) ∈ relocs p is →
      p ≤ place ∧ (layout p is)[place - p]? = some (.hole place) := by
  have later {p : Nat} {s : Slot L W} {slots : List (Slot L W)} :
      p + 1 ≤ place ∧ slots[place - (p + 1)]? = some (.hole place) →
        p ≤ place ∧ (s :: slots)[place - p]? = some (.hole place) := by
    rintro ⟨hle, hslot⟩
    have hsub : place - p = place - (p + 1) + 1 := by omega
    rw [hsub, List.getElem?_cons_succ]
    exact ⟨by omega, hslot⟩
  induction is with
  | nil =>
      intro p h
      cases h
  | cons i is ih =>
      intro p h
      cases i with
      | word w => exact later (ih h)
      | ref l back => exact later (ih h)
      | define l => exact ih h
      | mark m => exact ih h
      | hole r' =>
          rcases List.mem_cons.mp h with heq | h
          · cases heq
            rw [layout, Nat.sub_self]
            exact ⟨Nat.le_refl _, rfl⟩
          · exact later (ih h)

/-- And every hole has its relocation. -/
theorem mem_relocs_of_hole {place : Nat} {is : List (Item L W M R)} :
    ∀ {p i : Nat}, (layout p is)[i]? = some (.hole place) →
      place = p + i ∧ ∃ r, (r, place) ∈ relocs p is := by
  induction is with
  | nil =>
      intro p i h
      cases h
  | cons item is ih =>
      have later {p i : Nat} (h : (layout (p + 1) is)[i]? = some (.hole place)) :
          place = p + (i + 1) ∧ ∃ r, (r, place) ∈ relocs (p + 1) is := by
        obtain ⟨hplace, hr⟩ := ih h
        exact ⟨by omega, hr⟩
      intro p i h
      cases item with
      | define l => exact ih h
      | mark m => exact ih h
      | word w =>
          cases i with
          | zero => cases h
          | succ i => exact later h
      | ref l back =>
          cases i with
          | zero => cases h
          | succ i => exact later h
      | hole r =>
          cases i with
          | zero =>
              cases h
              exact ⟨rfl, r, List.mem_cons_self⟩
          | succ i =>
              obtain ⟨hplace, r', hr'⟩ := later h
              exact ⟨hplace, r', List.mem_cons_of_mem _ hr'⟩

/-- Where labels are defined and notes were made. -/
def noted (p : Nat) (is : List (Item L W M R)) : List Nat :=
  (definitions p is).map Prod.snd ++ (marks p is).map Prod.snd

/-- Only places inside the part are noted. -/
theorem noted_le {here : Nat} {is : List (Item L W M R)} :
    ∀ {p : Nat}, here ∈ noted p is → p ≤ here ∧ here ≤ p + wordCount is := by
  induction is with
  | nil =>
      intro p h
      cases h
  | cons i is ih =>
      intro p h
      have hnext {p : Nat} (h : here ∈ noted (p + 1) is) :
          p ≤ here ∧ here ≤ p + (wordCount is + 1) := by
        have := ih h
        omega
      have hsame : here = p → p ≤ here ∧ here ≤ p + wordCount is := by omega
      cases i with
      | word w => exact hnext h
      | ref l back => exact hnext h
      | hole r => exact hnext h
      | define l =>
          rcases List.mem_cons.mp h with heq | h
          · exact hsame heq
          · exact ih h
      | mark m =>
          rcases List.mem_append.mp h with h | h
          · exact ih (List.mem_append_left _ h)
          · rcases List.mem_cons.mp h with heq | h
            · exact hsame heq
            · exact ih (List.mem_append_right _ h)

/-- What is left blank is in different places. -/
theorem nodup_relocs (p : Nat) (is : List (Item L W M R)) :
    ((relocs p is).map Prod.snd).Nodup := by
  induction is generalizing p with
  | nil => exact List.nodup_nil
  | cons i is ih =>
      cases i with
      | define l => exact ih p
      | mark m => exact ih p
      | word w => exact ih (p + 1)
      | ref l back => exact ih (p + 1)
      | hole r =>
          rw [relocs, List.map_cons, List.nodup_cons]
          refine ⟨fun hmem => ?_, ih (p + 1)⟩
          obtain ⟨⟨r', place⟩, hr, rfl⟩ := List.mem_map.mp hmem
          exact absurd (hole_of_mem_relocs hr).1 (Nat.not_succ_le_self _)

/-! ## §2. Code at another place. -/

/-- References count from words that are there. -/
def Anchored (p : Nat) : List (Item L W M R) → Prop
  | [] => True
  | .word _ :: is => Anchored (p + 1) is
  | .ref _ back :: is => back ≤ p ∧ Anchored (p + 1) is
  | .define _ :: is => Anchored p is
  | .mark _ :: is => Anchored p is
  | .hole _ :: is => Anchored (p + 1) is

/-- The slot when the code begins `b` words later. -/
def Slot.shift (b : Nat) : Slot L W → Slot L W
  | .word w => .word w
  | .ref l origin => .ref l (b + origin)
  | .hole place => .hole (b + place)

/-- The place when the code begins `b` words later. -/
def later {α : Type} (b : Nat) (p : α × Nat) : α × Nat := (p.1, b + p.2)

/-- Two parts whose tables are anchored. -/
theorem anchored_append {is js : List (Item L W M R)} :
    ∀ {p : Nat}, Anchored p is → Anchored (p + wordCount is) js → Anchored p (is ++ js) := by
  induction is with
  | nil => exact fun _ h => h
  | cons i is ih =>
      intro p his hjs
      have hplace : p + (wordCount is + 1) = p + 1 + wordCount is := by omega
      cases i with
      | define l => exact ih his hjs
      | mark m => exact ih his hjs
      | word w =>
          rw [wordCount, hplace] at hjs
          exact ih his hjs
      | hole r =>
          rw [wordCount, hplace] at hjs
          exact ih his hjs
      | ref l back =>
          rw [wordCount, hplace] at hjs
          exact ⟨his.1, ih his.2 hjs⟩

/-- **Code can be moved**: its slots are the same, further on. -/
theorem layout_shift (b : Nat) {is : List (Item L W M R)} :
    ∀ {p : Nat}, Anchored p is → layout (b + p) is = (layout p is).map (Slot.shift b) := by
  induction is with
  | nil => exact fun _ => rfl
  | cons i is ih =>
      intro p h
      cases i with
      | define l => exact ih h
      | mark m => exact ih h
      | word w => exact congrArg _ (ih h)
      | hole r => exact congrArg _ (ih h)
      | ref l back =>
          have hsub : b + p - back = b + (p - back) := by
            have := h.1
            omega
          rw [layout, layout, List.map_cons, hsub]
          exact congrArg _ (ih h.2)

/-- The labels move with it. -/
theorem definitions_shift (b p : Nat) (is : List (Item L W M R)) :
    definitions (b + p) is = (definitions p is).map (later b) := by
  induction is generalizing p with
  | nil => rfl
  | cons i is ih =>
      cases i with
      | define l => exact congrArg _ (ih p)
      | mark m => exact ih p
      | word w => exact ih (p + 1)
      | ref l back => exact ih (p + 1)
      | hole r => exact ih (p + 1)

/-- The relocations move with it. -/
theorem relocs_shift (b p : Nat) (is : List (Item L W M R)) :
    relocs (b + p) is = (relocs p is).map (later b) := by
  induction is generalizing p with
  | nil => rfl
  | cons i is ih =>
      cases i with
      | define l => exact ih p
      | mark m => exact ih p
      | word w => exact ih (p + 1)
      | ref l back => exact ih (p + 1)
      | hole r => exact congrArg _ (ih (p + 1))

section Format

variable [DecidableEq L]

/-- The word a slot becomes: `displ` of the two places, `blank` while the label has
none, and `value` in a hole. -/
def fill (displ : Nat → Nat → W) (blank : W) (value : Nat → W) (defs : List (L × Nat)) :
    Slot L W → W
  | .word w => w
  | .ref l origin =>
      match defs.lookup l with
      | some here => displ here origin
      | none => blank
  | .hole place => value place

variable (displ : Nat → Nat → W) (blank : W)

/-- A moved label is found further on. -/
theorem lookup_later (b : Nat) (defs : List (L × Nat)) (l : L) :
    (defs.map (later b)).lookup l = (defs.lookup l).map (b + ·) := by
  induction defs with
  | nil => rfl
  | cons d defs ih =>
      obtain ⟨l', here⟩ := d
      rw [List.map_cons, later, List.lookup_cons, List.lookup_cons, ih]
      cases l == l' <;> rfl

/-- **Code is the same at every place**, where a distance does not depend on it. -/
theorem fill_shift {b : Nat}
    (hdispl : ∀ here origin, displ (b + here) (b + origin) = displ here origin) (value : Nat → W)
    (defs : List (L × Nat)) (s : Slot L W) :
    fill displ blank value (defs.map (later b)) (s.shift b) =
      fill displ blank (fun p => value (b + p)) defs s := by
  cases s with
  | word w => rfl
  | hole place => rfl
  | ref l origin =>
      rw [Slot.shift, fill, fill, lookup_later]
      cases defs.lookup l with
      | none => rfl
      | some here => exact hdispl here origin

/-! ## §3. One pass. -/

/-- `undefined` has the places to patch, each with the place to count from. -/
inductive Entry where
  | defined (here : Nat)
  | undefined (patches : List (Nat × Nat))
  deriving Repr, DecidableEq

/-- The state of an assembler. -/
structure Asm (L W M R : Type) where
  words : List W
  table : L → Entry
  marks : List (M × Nat)
  relocs : List (R × Nat)

/-- Nothing emitted yet. -/
def Asm.init : Asm L W M R := ⟨[], fun _ => .undefined [], [], []⟩

/-- The words with some written at places. -/
def writeAll (writes : List (Nat × W)) (words : List W) : List W :=
  writes.foldl (fun ws p => ws.set p.1 p.2) words

/-- What is written when a label is defined. -/
def patches (here : Nat) (ps : List (Nat × Nat)) : List (Nat × W) :=
  ps.map fun p => (p.1, displ here p.2)

/-- One item. -/
def Asm.step (a : Asm L W M R) : Item L W M R → Option (Asm L W M R)
  | .word w => some { a with words := a.words ++ [w] }
  | .ref l back =>
      let here := a.words.length
      match a.table l with
      | .defined d => some { a with words := a.words ++ [displ d (here - back)] }
      | .undefined ps => some
          { a with
            words := a.words ++ [blank]
            table := Function.update a.table l (.undefined ((here, here - back) :: ps)) }
  | .define l =>
      let here := a.words.length
      match a.table l with
      | .defined _ => none
      | .undefined ps => some
          { a with
            words := writeAll (patches displ here ps) a.words
            table := Function.update a.table l (.defined here) }
  | .mark m => some { a with marks := (m, a.words.length) :: a.marks }
  | .hole r => some
      { a with
        words := a.words ++ [blank]
        relocs := (r, a.words.length) :: a.relocs }

/-- Items in order. -/
def Asm.run : List (Item L W M R) → Asm L W M R → Option (Asm L W M R)
  | [], a => some a
  | i :: is, a => (a.step displ blank i).bind (Asm.run is)

/-! ## §4. The invariant. -/

/-- What is in the table for a label. -/
def EntryOk (slots : List (Slot L W)) (defs : List (L × Nat)) (l : L) (e : Entry) : Prop :=
  match defs.lookup l with
  | some here => e = .defined here
  | none => ∃ ps, e = .undefined ps ∧
      ∀ place origin, (place, origin) ∈ ps ↔ slots[place]? = some (.ref l origin)

/-- The state after some items: their words with what is known of the labels, and
the places of the references to labels that are not known. -/
structure Asm.Reflects (a : Asm L W M R) (is : List (Item L W M R)) : Prop where
  words : a.words = (layout 0 is).map (fill displ blank (fun _ => blank) (definitions 0 is))
  table : ∀ l, EntryOk (layout 0 is) (definitions 0 is) l (a.table l)
  marks : a.marks = (Backpatch.marks 0 is).reverse
  relocs : a.relocs = (Backpatch.relocs 0 is).reverse
  nodup : ((definitions 0 is).map Prod.fst).Nodup

variable {displ blank}

/-- Words that agree with others except where these are written. -/
theorem writeAll_eq {new : List W} :
    ∀ {writes : List (Nat × W)} {old : List W}, old.length = new.length →
      (∀ p ∈ writes, new[p.1]? = some p.2) →
      (∀ i, old[i]? = new[i]? ∨ ∃ w, (i, w) ∈ writes) → writeAll writes old = new
  | [], old, _, _, hrest => by
      refine List.ext_getElem? fun i => ?_
      exact (hrest i).resolve_right fun ⟨_, h⟩ => List.not_mem_nil h
  | (i, w) :: writes, old, hlen, hwritten, hrest => by
      show writeAll writes (old.set i w) = new
      have hi := hwritten _ List.mem_cons_self
      refine writeAll_eq (by rw [List.length_set, hlen])
        (fun p hp => hwritten p (List.mem_cons_of_mem _ hp)) fun j => ?_
      by_cases hij : i = j
      · subst hij
        have hlt : i < old.length := hlen ▸ (List.getElem?_eq_some_iff.mp hi).1
        rw [List.getElem?_set_self hlt, hi]
        exact .inl rfl
      · rw [List.getElem?_set_ne hij]
        refine (hrest j).imp_right ?_
        rintro ⟨v, hv⟩
        rcases List.mem_cons.mp hv with h | h
        · exact absurd (Prod.mk.inj h).1.symm hij
        · exact ⟨v, h⟩

/-- A word that nobody writes stays. -/
theorem getElem?_writeAll_of_notMem {i : Nat} :
    ∀ {writes : List (Nat × W)} {ws : List W}, i ∉ writes.map Prod.fst →
      (writeAll writes ws)[i]? = ws[i]?
  | [], _, _ => rfl
  | (j, v) :: writes, ws, hnot => by
      rw [List.map_cons, List.mem_cons, not_or] at hnot
      show (writeAll writes (ws.set j v))[i]? = ws[i]?
      rw [getElem?_writeAll_of_notMem hnot.2, List.getElem?_set_ne (Ne.symm hnot.1)]

/-- What is written in a place, where nothing else is. -/
theorem getElem?_writeAll_of_mem {i : Nat} {w : W} :
    ∀ {writes : List (Nat × W)} {ws : List W}, (writes.map Prod.fst).Nodup → i < ws.length →
      (i, w) ∈ writes → (writeAll writes ws)[i]? = some w
  | (j, v) :: writes, ws, hnodup, hi, hmem => by
      rw [List.map_cons, List.nodup_cons] at hnodup
      show (writeAll writes (ws.set j v))[i]? = some w
      rcases List.mem_cons.mp hmem with heq | hmem
      · cases heq
        rw [getElem?_writeAll_of_notMem hnodup.1, List.getElem?_set_self hi]
      · exact getElem?_writeAll_of_mem hnodup.2 (by rwa [List.length_set]) hmem

/-- Writing words does not change their number. -/
@[simp] theorem length_writeAll (writes : List (Nat × W)) (ws : List W) :
    (writeAll writes ws).length = ws.length := by
  induction writes generalizing ws with
  | nil => rfl
  | cons p writes ih => exact (ih _).trans List.length_set

/-- Only the label a slot refers to matters. -/
theorem fill_congr {value : Nat → W} {defs defs' : List (L × Nat)} {s : Slot L W}
    (h : ∀ l origin, s = .ref l origin → defs.lookup l = defs'.lookup l) :
    fill displ blank value defs s = fill displ blank value defs' s := by
  cases s with
  | word w => rfl
  | hole place => rfl
  | ref l origin => rw [fill, fill, h l origin rfl]

/-- A new label is found unless it was there before. -/
theorem lookup_append_single (defs : List (L × Nat)) (l l' : L) (here : Nat) :
    (defs ++ [(l, here)]).lookup l' =
      ((defs.lookup l').or (if l' = l then some here else none)) := by
  rw [List.lookup_append]
  congr 1
  by_cases h : l' = l
  · simp [h]
  · simp [h, List.lookup_cons, beq_eq_false_iff_ne.mpr h]

/-- The labels that are defined. -/
theorem mem_map_fst {defs : List (L × Nat)} {l : L} :
    l ∈ defs.map Prod.fst ↔ defs.lookup l ≠ none := by
  rw [← Option.isSome_iff_ne_none, List.lookup_isSome_iff, List.mem_map]
  simp only [beq_iff_eq, eq_comm (a := l)]

/-- Nothing has been assembled. -/
theorem reflects_init :
    (Asm.init : Asm L W M R).Reflects displ blank [] :=
  ⟨rfl, fun _ => ⟨[], rfl, by simp [layout]⟩, rfl, rfl, List.nodup_nil⟩

/-- As many words as the items take. -/
theorem Asm.Reflects.length_words {a : Asm L W M R} {is : List (Item L W M R)}
    (h : a.Reflects displ blank is) : a.words.length = wordCount is := by
  rw [h.words, List.length_map, length_layout]

/-- An entry is defined as its label is. -/
theorem EntryOk.defined_iff {slots : List (Slot L W)} {defs : List (L × Nat)} {l : L}
    {e : Entry} (h : EntryOk slots defs l e) {here : Nat} :
    e = .defined here ↔ defs.lookup l = some here := by
  unfold EntryOk at h
  split at h
  next here' hl => rw [h, hl, Entry.defined.injEq, Option.some.injEq]
  next hl =>
    obtain ⟨ps, rfl, -⟩ := h
    simp [hl]

/-- An undefined entry knows all the places that wait for its label. -/
theorem EntryOk.of_undefined {slots : List (Slot L W)} {defs : List (L × Nat)} {l : L}
    {ps : List (Nat × Nat)} (h : EntryOk slots defs l (.undefined ps)) :
    defs.lookup l = none ∧
      ∀ place origin, (place, origin) ∈ ps ↔ slots[place]? = some (.ref l origin) := by
  unfold EntryOk at h
  split at h
  · cases h
  next hl =>
    obtain ⟨ps', hps, hmem⟩ := h
    cases hps
    exact ⟨hl, hmem⟩

/-- And to know them is enough. -/
theorem entryOk_undefined {slots : List (Slot L W)} {defs : List (L × Nat)} {l : L}
    {ps : List (Nat × Nat)} (hl : defs.lookup l = none)
    (hmem : ∀ place origin, (place, origin) ∈ ps ↔ slots[place]? = some (.ref l origin)) :
    EntryOk slots defs l (.undefined ps) := by
  unfold EntryOk
  rw [hl]
  exact ⟨ps, rfl, hmem⟩

/-- An element of a list with one more at the end. -/
theorem getElem?_append_single_iff {α : Type} {as : List α} {a b : α} {i : Nat} :
    (as ++ [a])[i]? = some b ↔ as[i]? = some b ∨ (i = as.length ∧ a = b) := by
  rw [List.getElem?_append]
  split
  next hlt => exact ⟨.inl, fun h => h.resolve_right fun h => absurd h.1 (Nat.ne_of_lt hlt)⟩
  next hge =>
    rw [List.getElem?_eq_none (Nat.le_of_not_lt hge), List.getElem?_singleton]
    split
    · simp only [Option.some.injEq, reduceCtorEq, false_or]
      exact ⟨fun h => ⟨by omega, h⟩, fun h => h.2⟩
    · simp only [reduceCtorEq, false_or, false_iff, not_and]
      omega

/-- A slot at the end that does not wait for `l`. -/
theorem EntryOk.append {slots : List (Slot L W)} {defs : List (L × Nat)} {l : L}
    {e : Entry} (h : EntryOk slots defs l e) {s : Slot L W}
    (hs : defs.lookup l = none → ∀ origin, s ≠ .ref l origin) :
    EntryOk (slots ++ [s]) defs l e := by
  unfold EntryOk at h ⊢
  split
  next here hl =>
    rw [hl] at h
    exact h
  next hl =>
    rw [hl] at h
    obtain ⟨ps, hps, hmem⟩ := h
    refine ⟨ps, hps, fun place origin => ?_⟩
    rw [hmem, getElem?_append_single_iff]
    exact (or_iff_left fun h => hs hl origin h.2).symm

section Steps

variable {a : Asm L W M R} {is : List (Item L W M R)}

/-- A word that does not wait for a label. -/
theorem Asm.Reflects.emit (h : a.Reflects displ blank is) {a' : Asm L W M R}
    {i : Item L W M R} {s : Slot L W} {w : W} (hlayout : layout (wordCount is) [i] = [s])
    (hdefs : definitions (wordCount is) [i] = []) (hmarks : Backpatch.marks (wordCount is) [i] = [])
    (hw : fill displ blank (fun _ => blank) (definitions 0 is) s = w)
    (hs : ∀ l, (definitions 0 is).lookup l = none → ∀ origin, s ≠ .ref l origin)
    (ha : a' = ⟨a.words ++ [w], a.table, a.marks,
      (Backpatch.relocs (wordCount is) [i]).reverse ++ a.relocs⟩) :
    a'.Reflects displ blank (is ++ [i]) := by
  have hlayout' : layout 0 (is ++ [i]) = layout 0 is ++ [s] := by
    rw [layout_append, Nat.zero_add, hlayout]
  have hdefs' : definitions 0 (is ++ [i]) = definitions 0 is := by
    rw [definitions_append, Nat.zero_add, hdefs, List.append_nil]
  have hmarks' : Backpatch.marks 0 (is ++ [i]) = Backpatch.marks 0 is := by
    rw [marks_append, Nat.zero_add, hmarks, List.append_nil]
  subst ha
  refine ⟨?_, fun l => ?_, ?_, ?_, hdefs' ▸ h.nodup⟩
  · rw [hlayout', hdefs', List.map_append, ← h.words, List.map_singleton, hw]
  · rw [hlayout', hdefs']
    exact (h.table l).append (hs l)
  · rw [hmarks', h.marks]
  · rw [relocs_append, Nat.zero_add, List.reverse_append, h.relocs]

/-- A reference to a label that is not defined yet. -/
theorem Asm.Reflects.wait (h : a.Reflects displ blank is) {l : L} {back : Nat}
    {ps : List (Nat × Nat)} (hl : a.table l = .undefined ps) :
    Asm.Reflects displ blank
      { a with
        words := a.words ++ [blank]
        table := Function.update a.table l
          (.undefined ((a.words.length, a.words.length - back) :: ps)) }
      (is ++ [.ref l back]) := by
  obtain ⟨hnone, hmem⟩ := (hl ▸ h.table l : EntryOk _ _ l (.undefined ps)).of_undefined
  have hlayout : layout 0 (is ++ [Item.ref l back]) =
      layout 0 is ++ [.ref l (wordCount is - back)] := by
    rw [layout_append, Nat.zero_add]
    rfl
  have hdefs : definitions 0 (is ++ [Item.ref l back]) = definitions 0 is := by
    rw [definitions_append, Nat.zero_add]
    exact List.append_nil _
  have hlen := h.length_words
  refine ⟨?_, fun l' => ?_, ?_, ?_, hdefs ▸ h.nodup⟩
  · rw [hlayout, hdefs, List.map_append, ← h.words, List.map_singleton, fill, hnone]
  · rw [hlayout, hdefs]
    dsimp only
    by_cases hl' : l' = l
    · subst hl'
      rw [Function.update_self]
      refine entryOk_undefined hnone fun place origin => ?_
      rw [getElem?_append_single_iff, length_layout, ← hmem, hlen, List.mem_cons, Prod.mk.injEq,
        Slot.ref.injEq, or_comm]
      simp only [true_and, eq_comm (a := origin)]
    · rw [Function.update_of_ne hl']
      exact (h.table l').append fun _ origin hs => hl' (Slot.ref.inj hs).1.symm
  · rw [marks_append, h.marks]
    exact congrArg List.reverse (List.append_nil _).symm
  · rw [relocs_append, h.relocs]
    exact congrArg List.reverse (List.append_nil _).symm

/-- A label that was not defined before. -/
theorem Asm.Reflects.define (h : a.Reflects displ blank is) {l : L}
    {ps : List (Nat × Nat)} (hl : a.table l = .undefined ps) :
    Asm.Reflects displ blank
      { a with
        words := writeAll (patches displ a.words.length ps) a.words
        table := Function.update a.table l (.defined a.words.length) }
      (is ++ [.define l]) := by
  obtain ⟨hnone, hmem⟩ := (hl ▸ h.table l : EntryOk _ _ l (.undefined ps)).of_undefined
  have hlayout : layout 0 (is ++ [Item.define l]) = layout 0 is := by
    rw [layout_append]
    exact List.append_nil _
  have hdefs : definitions 0 (is ++ [Item.define l]) =
      definitions 0 is ++ [(l, a.words.length)] := by
    rw [definitions_append, Nat.zero_add, h.length_words]
    rfl
  have hself : (definitions 0 is ++ [(l, a.words.length)]).lookup l = some a.words.length := by
    rw [lookup_append_single, hnone, if_pos rfl]
    rfl
  have hother {l' : L} (hne : l' ≠ l) :
      (definitions 0 is ++ [(l, a.words.length)]).lookup l' = (definitions 0 is).lookup l' := by
    rw [lookup_append_single, if_neg hne, Option.or_none]
  generalize hhere : a.words.length = here at *
  refine ⟨?_, fun l' => ?_, ?_, ?_, ?_⟩
  -- the words that waited are patched, the others are filled as before
  · rw [hlayout, hdefs]
    refine writeAll_eq ?_ (fun p hp => ?_) fun i => ?_
    · rw [h.words, List.length_map, List.length_map]
    · obtain ⟨q, hq, rfl⟩ := List.mem_map.mp hp
      rw [List.getElem?_map, (hmem q.1 q.2).mp hq, Option.map_some, fill, hself]
    · rw [h.words, List.getElem?_map, List.getElem?_map]
      by_cases hi : ∃ origin, (layout 0 is)[i]? = some (.ref l origin)
      · obtain ⟨origin, hi⟩ := hi
        exact .inr ⟨_, List.mem_map_of_mem ((hmem i origin).mpr hi)⟩
      · refine .inl (Option.map_congr fun s hs => fill_congr fun l' origin hs' => ?_)
        rw [hother]
        rintro rfl
        exact hi ⟨origin, hs' ▸ hs⟩
  · rw [hlayout, hdefs]
    dsimp only
    -- the table: `l` is defined now
    by_cases hl' : l' = l
    · subst hl'
      rw [Function.update_self, EntryOk, hself]
    · have h' := h.table l'
      rw [Function.update_of_ne hl']
      unfold EntryOk at h' ⊢
      rw [hother hl']
      exact h'
  · rw [marks_append, h.marks]
    exact congrArg List.reverse (List.append_nil _).symm
  · rw [relocs_append, h.relocs]
    exact congrArg List.reverse (List.append_nil _).symm
  · rw [hdefs, List.map_append]
    refine List.nodup_append.mpr ⟨h.nodup, List.nodup_singleton _, fun x hx y hy => ?_⟩
    obtain rfl : y = l := List.mem_singleton.mp hy
    rintro rfl
    exact mem_map_fst.mp hx hnone

/-- **One item**, which is refused only if it defines a label again. -/
theorem Asm.Reflects.step (h : a.Reflects displ blank is) (i : Item L W M R) :
    (∃ a', a.step displ blank i = some a' ∧ a'.Reflects displ blank (is ++ [i])) ∨
      (a.step displ blank i = none ∧
        ∃ l, i = .define l ∧ l ∈ (definitions 0 is).map Prod.fst) := by
  cases i with
  | word w =>
      refine .inl ⟨_, rfl, h.emit (s := .word w) rfl rfl rfl rfl (fun l _ origin hs => ?_) rfl⟩
      cases hs
  | hole r =>
      refine .inl ⟨_, rfl, h.emit (s := .hole (wordCount is)) rfl rfl rfl rfl
        (fun l _ origin hs => ?_) ?_⟩
      · cases hs
      · rw [h.length_words]
        rfl
  -- a mark takes no word
  | mark m =>
      refine .inl ⟨_, rfl, ?_, ?_, ?_, ?_, ?_⟩
      · rw [layout_append, definitions_append]
        exact h.words.trans (by simp [layout, definitions])
      · rw [layout_append, definitions_append]
        simpa [layout, definitions] using h.table
      · rw [marks_append, List.reverse_append, Nat.zero_add, ← h.marks, ← h.length_words]
        rfl
      · rw [relocs_append, h.relocs]
        exact congrArg List.reverse (List.append_nil _).symm
      · rw [definitions_append]
        simpa [definitions] using h.nodup
  -- a word at once for a label behind, a word to patch for one ahead
  | ref l back =>
      refine .inl ?_
      cases hl : a.table l with
      | defined d =>
          have hdef := (h.table l).defined_iff.mp hl
          have hstep : a.step displ blank (.ref l back) =
              some { a with words := a.words ++ [displ d (a.words.length - back)] } := by
            rw [Asm.step]
            simp only [hl]
          refine ⟨_, hstep, h.emit (s := .ref l (wordCount is - back)) rfl rfl rfl ?_ ?_ rfl⟩
          · rw [fill, hdef, h.length_words]
          · intro l' hl' origin hs
            rw [← (Slot.ref.inj hs).1, hdef] at hl'
            cases hl'
      | undefined ps =>
          have hstep : a.step displ blank (.ref l back) = some
              { a with
                words := a.words ++ [blank]
                table := Function.update a.table l
                  (.undefined ((a.words.length, a.words.length - back) :: ps)) } := by
            rw [Asm.step]
            simp only [hl]
          exact ⟨_, hstep, h.wait hl⟩
  -- a second definition is refused
  | define l =>
      cases hl : a.table l with
      | defined d =>
          refine .inr ⟨?_, l, rfl, ?_⟩
          · rw [Asm.step]
            simp only [hl]
          · have hdef := (h.table l).defined_iff.mp hl
            exact mem_map_fst.mpr (by simp [hdef])
      | undefined ps =>
          have hstep : a.step displ blank (.define l) = some
              { a with
                words := writeAll (patches displ a.words.length ps) a.words
                table := Function.update a.table l (.defined a.words.length) } := by
            rw [Asm.step]
            simp only [hl]
          exact .inl ⟨_, hstep, h.define hl⟩

end Steps

/-! ## §5. Runs. -/

/-- **A run assembles the layout**, unless a label is defined twice. -/
theorem Asm.Reflects.run :
    ∀ {js is : List (Item L W M R)} {a : Asm L W M R}, a.Reflects displ blank is →
      (∃ a', a.run displ blank js = some a' ∧ a'.Reflects displ blank (is ++ js)) ∨
        (a.run displ blank js = none ∧ ¬ ((definitions 0 (is ++ js)).map Prod.fst).Nodup)
  | [], is, a, h => .inl ⟨a, rfl, by rwa [List.append_nil]⟩
  | j :: js, is, a, h => by
      rw [List.append_cons]
      rcases h.step j with ⟨a', hstep, h'⟩ | ⟨hstep, l, rfl, hl⟩
      · rw [Asm.run, hstep]
        exact h'.run
      · refine .inr ⟨by rw [Asm.run, hstep]; rfl, ?_⟩
        rw [definitions_append, definitions_append, List.map_append, List.map_append]
        intro hnodup
        have hdisj := (List.nodup_append.mp (List.nodup_append.mp hnodup).1).2.2
        exact hdisj l hl l List.mem_cons_self rfl

/-! ## §6. Linking. -/

/-- **Linking.**  Writing the value of each blank word gives the words that would
have been written if it had been known. -/
theorem writeAll_relocs (is : List (Item L W M R)) (value : Nat → W) :
    writeAll ((relocs 0 is).map fun r => (r.2, value r.2))
        ((layout 0 is).map (fill displ blank (fun _ => blank) (definitions 0 is))) =
      (layout 0 is).map (fill displ blank value (definitions 0 is)) := by
  refine writeAll_eq ?_ (fun p hp => ?_) fun i => ?_
  · rw [List.length_map, List.length_map]
  · obtain ⟨⟨r, place⟩, hr, rfl⟩ := List.mem_map.mp hp
    obtain ⟨-, hslot⟩ := hole_of_mem_relocs hr
    rw [List.getElem?_map]
    exact congrArg _ hslot
  · rw [List.getElem?_map, List.getElem?_map]
    by_cases hi : ∃ place, (layout 0 is)[i]? = some (.hole place)
    · obtain ⟨place, hi⟩ := hi
      obtain ⟨hplace, r, hr⟩ := mem_relocs_of_hole hi
      rw [Nat.zero_add] at hplace
      subst hplace
      exact .inr ⟨value place, List.mem_map_of_mem hr⟩
    · refine .inl (Option.map_congr fun s hs => ?_)
      cases s with
      | hole place => exact absurd ⟨place, hs⟩ hi
      | word w => rfl
      | ref l origin => rfl

end Format

end OcamlJit.Lib.Backpatch

/-
  OcamlJit.Marshal.Sync
  ─────────────────────
  **THE WRITER AND THE READER, ITEM BY ITEM.**

  `Sync` relates the recorded objects with the reader's store: `f` maps each of
  them to its block, string or number, and the two tables are those of `Tables`.
  `Frames` relates the writer's stack with the pending blocks, the last of which
  wait for their last field only.  One item keeps both (`Sync.atom`, `Sync.new`),
  and so does handing a value to the pending blocks (`run_unwind`).
-/
import OcamlJit.Marshal.Traversal
import OcamlJit.Marshal.Items

namespace OcamlJit.Marshal

open OcamlJit.Lib

/-! ## §1. The relation. -/

/-- The empty blocks of a store that are not those of a recorded object. -/
def StoreEmpty (s : Store) (f : Nat → Option MLValue) : EmptyBlocks := fun id tag =>
  s.blocks[id]? = some ⟨tag, []⟩ ∧ ∀ a, f a ≠ some (.block id)

/-- `w` has been read for `v`. -/
abbrev Stands (heap : Heap) (s : Store) (f : Nat → Option MLValue) : Value → MLValue → Prop :=
  Corr heap (StoreEmpty s f) f

/-- `w` has been read for an object, as far as it has got. -/
def Started (heap : Heap) (s : Store) (f : Nat → Option MLValue) : Obj → MLValue → Prop
  | .block tag _ fields, w => ∃ id items, w = .block id ∧ s.blocks[id]? = some ⟨tag, items⟩ ∧
      List.Forall₂ (Stands heap s f) (fields.take items.length) items
  | .string bytes, w => ∃ id x, w = .string id ∧ s.strings[id]? = some x ∧ x.toBytes = bytes
  | .double bits, w => w = .double bits
  | .custom _ boxed, w => w = boxed.value

/-- **The reader is in step with the writer.** -/
structure Sync (heap : Heap) (f : Nat → Option MLValue) (order : List Nat) (t : Tables)
    (s : Store) (pending : List PendingBlock) : Prop where
  written : order.map f = t.written.map some
  mapped : ∀ a w, f a = some w → a ∈ order
  nodup : order.Nodup
  read : s.prevObjects.map PrevObject.value = t.read
  blocks : s.blocks.length = t.blocks
  strings : s.strings.length = t.strings
  objects : ∀ a w, f a = some w →
    ∃ obj, heap[a]? = some obj ∧ obj.isAtom = false ∧ Started heap s f obj w
  injective : ∀ a b w, f a = some w → f b = some w → w.isRef = true → a = b
  finished : ∀ a tag color fields id block, f a = some (.block id) →
    heap[a]? = some (.block tag color fields) → s.blocks[id]? = some block →
    block.items.length = fields.length ∨ id ∈ pending.map PendingBlock.blockId
  pendingNodup : (pending.map PendingBlock.blockId).Nodup

/-- What the next item is for: the root, or a field of the last pending block,
which is itself what the block below waits for. -/
inductive Frames (heap : Heap) (f : Nat → Option MLValue) (s : Store) (root : Value) :
    Value → List PendingBlock → List (List Value) → Prop where
  | root : Frames heap f s root root [] []
  | field {a tag color : Nat} {items : List MLValue} {fields : List Value} {v : Value}
      {rest : List Value} {p : PendingBlock} {pending : List PendingBlock}
      {stack : List (List Value)} (hbelow : Frames heap f s root (.ptr a) pending stack)
      (hmap : f a = some (.block p.blockId)) (hobj : heap[a]? = some (.block tag color fields))
      (hblock : s.blocks[p.blockId]? = some ⟨tag, items⟩)
      (hdrop : fields.drop items.length = v :: rest) (hcount : p.additionalFields = rest.length) :
      Frames heap f s root v (p :: pending) (pushFields rest stack)

section Mono

variable {heap : Heap} {f g : Nat → Option MLValue} {s s' : Store} {root : Value}

/-- What corresponds does so when more is known. -/
theorem Corr.mono {empty empty' : EmptyBlocks} {v : Value} {w : MLValue}
    (hempty : ∀ id tag, empty id tag → empty' id tag) (hf : ∀ a w, f a = some w → g a = some w)
    (h : Corr heap empty f v w) : Corr heap empty' g v w := by
  cases v with
  | long n => exact h
  | ptr a =>
      unfold Corr at h ⊢
      dsimp only at h ⊢
      split at h
      · obtain ⟨id, rfl, hid⟩ := h
        exact ⟨id, rfl, hempty id _ hid⟩
      · exact hf a w h

/-- Frames stay frames while their blocks stay. -/
theorem Frames.mono {v : Value} {pending : List PendingBlock} {stack : List (List Value)}
    (h : Frames heap f s root v pending stack) (hf : ∀ a w, f a = some w → g a = some w)
    (hs : ∀ y ∈ pending, ∀ block, s.blocks[y.blockId]? = some block →
      s'.blocks[y.blockId]? = some block) : Frames heap g s' root v pending stack := by
  induction h with
  | root => exact .root
  | field hbelow hmap hobj hblock hdrop hcount ih =>
      exact .field (ih fun y hy => hs y (List.mem_cons_of_mem _ hy)) (hf _ _ hmap) hobj
        (hs _ (List.mem_cons_self ..) _ hblock) hdrop hcount

/-- An object that was started stays so. -/
theorem Started.mono {obj : Obj} {w : MLValue} (h : Started heap s f obj w)
    (hempty : ∀ id tag, StoreEmpty s f id tag → StoreEmpty s' g id tag)
    (hf : ∀ a w, f a = some w → g a = some w)
    (hblocks : ∀ (id : Nat) (block : MLValueBlock), s.blocks[id]? = some block →
      s'.blocks[id]? = some block)
    (hstrings : ∀ (id : Nat) (x : MLValueString), s.strings[id]? = some x →
      s'.strings[id]? = some x) :
    Started heap s' g obj w := by
  cases obj with
  | block tag color fields =>
      obtain ⟨id, items, rfl, hid, hitems⟩ := h
      exact ⟨id, items, rfl, hblocks id _ hid, hitems.imp fun _ _ hv => hv.mono hempty hf⟩
  | string bytes =>
      obtain ⟨id, x, rfl, hid, hx⟩ := h
      exact ⟨id, x, rfl, hstrings id x hid, hx⟩
  | double bits => exact h
  | custom form boxed => exact h

end Mono

/-! ## §2. Handing a value to the pending blocks. -/

section Pending

variable {heap : Heap} {f : Nat → Option MLValue} {order : List Nat} {t : Tables} {s : Store}
  {root v : Value} {p : PendingBlock} {pending : List PendingBlock} {stack : List (List Value)}

/-- What has a value was met. -/
theorem Sync.mem_order (hsync : Sync heap f order t s pending) {a : Nat} :
    a ∈ order ↔ ∃ w, f a = some w := by
  constructor
  · intro hmem
    have hmap : f a ∈ order.map f := List.mem_map_of_mem hmem
    rw [hsync.written] at hmap
    obtain ⟨w, -, hw⟩ := List.mem_map.mp hmap
    exact ⟨w, hw.symm⟩
  · rintro ⟨w, hw⟩
    exact hsync.mapped a w hw

/-- The block of an object is there. -/
theorem Sync.lt_blocks (hsync : Sync heap f order t s pending) {a id : Nat}
    (h : f a = some (.block id)) : id < s.blocks.length := by
  obtain ⟨obj, -, -, hobj⟩ := hsync.objects a _ h
  cases obj with
  | block tag color fields =>
      obtain ⟨id', items, heq, hid, -⟩ := hobj
      cases heq
      exact (List.getElem?_eq_some_iff.mp hid).1
  | string bytes =>
      obtain ⟨_, _, heq, -⟩ := hobj
      cases heq
  | double bits => cases hobj
  | custom form boxed => cases boxed <;> cases hobj

/-- One element more. -/
theorem take_succ_of_drop {α : Type} {xs rest : List α} {x : α} {n : Nat}
    (h : xs.drop n = x :: rest) : xs.take (n + 1) = xs.take n ++ [x] := by
  have hget : xs[n]? = some x := by
    rw [show n = n + 0 from rfl, ← List.getElem?_drop, h]
    rfl
  rw [List.take_add_one, hget]
  rfl

/-- The last pending block gets an item. -/
theorem Sync.push (hsync : Sync heap f order t s (p :: pending)) {a tag color : Nat}
    {items : List MLValue} {fields rest : List Value} {w : MLValue}
    {pending' : List PendingBlock} (hmap : f a = some (.block p.blockId))
    (hobj : heap[a]? = some (.block tag color fields))
    (hblock : s.blocks[p.blockId]? = some ⟨tag, items⟩)
    (hdrop : fields.drop items.length = v :: rest) (hstands : Stands heap s f v w)
    (hnodup : (pending'.map PendingBlock.blockId).Nodup)
    (hpending : ∀ y ∈ pending.map PendingBlock.blockId, y ∈ pending'.map PendingBlock.blockId)
    (hlast : rest = [] ∨ p.blockId ∈ pending'.map PendingBlock.blockId) :
    Sync heap f order t (s.pushItem p.blockId w) pending' := by
  have hself : (s.pushItem p.blockId w).blocks[p.blockId]? = some ⟨tag, items ++ [w]⟩ := by
    rw [s.getElem?_pushItem, if_pos rfl, hblock]
    rfl
  -- an empty block is not the one that gets an item, which is that of an object
  have hempty : ∀ id tag, StoreEmpty s f id tag → StoreEmpty (s.pushItem p.blockId w) f id tag := by
    rintro id tag ⟨hid, hnone⟩
    have hne : p.blockId ≠ id := fun heq => hnone a (heq ▸ hmap)
    exact ⟨by rw [s.pushItem_blocks w hne, hid], hnone⟩
  have hmono : ∀ u x, Stands heap s f u x → Stands heap (s.pushItem p.blockId w) f u x :=
    fun _ _ h => h.mono hempty fun _ _ h => h
  have hone : f a = some (.block p.blockId) → ∀ b, f b = some (.block p.blockId) → b = a :=
    fun ha b hb => hsync.injective b a _ hb ha rfl
  refine { hsync with
    blocks := by rw [s.length_pushItem, hsync.blocks], objects := fun b x hb => ?_,
    finished := fun b tag' color' fields' id block hb hobj' hid => ?_, pendingNodup := hnodup }
  · obtain ⟨obj, hobj', hatom, hstarted⟩ := hsync.objects b x hb
    refine ⟨obj, hobj', hatom, ?_⟩
    cases obj with
    | block tag' color' fields' =>
        obtain ⟨id, items', rfl, hid, hitems⟩ := hstarted
        by_cases heq : p.blockId = id
        · subst heq
          obtain rfl := hone hmap b hb
          rw [hobj] at hobj'
          cases hobj'
          rw [hblock] at hid
          cases hid
          refine ⟨_, _, rfl, hself, ?_⟩
          rw [List.length_append, List.length_singleton, take_succ_of_drop hdrop]
          exact List.rel_append (hitems.imp hmono) (.cons (hmono v w hstands) .nil)
        · exact ⟨id, items', rfl, by rw [s.pushItem_blocks w heq, hid], hitems.imp hmono⟩
    | string bytes => exact hstarted
    | double bits => exact hstarted
    | custom form boxed => exact hstarted
  -- the block that gets the item, and the others
  · by_cases heq : p.blockId = id
    · subst heq
      obtain rfl := hone hmap b hb
      rw [hobj] at hobj'
      cases hobj'
      rw [hself] at hid
      cases hid
      refine hlast.imp_left fun hrest => ?_
      have hlen := congrArg List.length hdrop
      rw [List.length_drop, hrest, List.length_singleton] at hlen
      rw [List.length_append, List.length_singleton]
      omega
    · rw [s.pushItem_blocks w heq] at hid
      rcases hsync.finished b tag' color' fields' id block hb hobj' hid with hfin | hpend
      · exact .inl hfin
      · rw [List.map_cons, List.mem_cons] at hpend
        exact .inr (hpending id (hpend.resolve_left fun h => heq h.symm))

/-- A value that is not waited for by the last field of a block is the result. -/
theorem run_root (w : MLValue) (input : List UInt8) :
    (Machine.on (.processItem w) input s []).run = .ok ⟨s.toBlocks, w, input⟩ := by
  rw [run_eq]
  rfl

/-- A value goes to the last pending block, and this one to the one below it if
it waited for its last field. -/
theorem run_push (w : MLValue) (input : List UInt8) :
    (Machine.on (.processItem w) input s (p :: pending)).run =
      if p.additionalFields > 0 then
        (Machine.on .readItem input (s.pushItem p.blockId w)
          ({ p with additionalFields := p.additionalFields - 1 } :: pending)).run
      else (Machine.on (.processItem (.block p.blockId)) input (s.pushItem p.blockId w)
        pending).run := by
  rw [run_eq]
  simp only [step]
  split <;> rfl

/-- **A value is handed on** until a block has fields left, which are on the
writer's stack, or to the end. -/
theorem run_unwind : ∀ (pending : List PendingBlock) (s : Store) (v : Value) (w : MLValue)
    (stack : List (List Value)) (input : List UInt8), Frames heap f s root v pending stack →
    Sync heap f order t s pending → Stands heap s f v w →
    (stack = [] ∧ ∃ s' w', (Machine.on (.processItem w) input s pending).run =
        .ok ⟨s'.toBlocks, w', input⟩ ∧ Sync heap f order t s' [] ∧ Stands heap s' f root w') ∨
    (∃ v' rest stack' s' pending', stack = (v' :: rest) :: stack' ∧
      (Machine.on (.processItem w) input s pending).run =
        (Machine.on .readItem input s' pending').run ∧ Sync heap f order t s' pending' ∧
      Frames heap f s' root v' pending' (pushFields rest stack'))
  | [], s, v, w, stack, input, hframes, hsync, hstands => by
      cases hframes
      exact .inl ⟨rfl, s, w, run_root w input, hsync, hstands⟩
  | p :: pending, s, v, w, stack, input, hframes, hsync, hstands => by
      cases hframes with
      | @field a tag color items fields v rest p pending stack hbelow hmap hobj hblock hdrop
          hcount =>
          have hnodup := hsync.pendingNodup
          have hself : (s.pushItem p.blockId w).blocks[p.blockId]? = some ⟨tag, items ++ [w]⟩ := by
            rw [s.getElem?_pushItem, if_pos rfl, hblock]
            rfl
          have hbelow' : Frames heap f (s.pushItem p.blockId w) root (.ptr a) pending stack := by
            refine hbelow.mono (fun _ _ h => h) fun y hy block hy' => ?_
            have hne : p.blockId ≠ y.blockId := fun heq =>
              (List.nodup_cons.mp hnodup).1 (heq ▸ List.mem_map_of_mem hy)
            rw [s.pushItem_blocks w hne, hy']
          rw [run_push]
          cases rest with
          | nil =>
              -- the block has all its fields and is itself what the one below waits for
              rw [if_neg (by rw [hcount]; exact Nat.lt_irrefl 0)]
              have hsync' := hsync.push hmap hobj hblock hdrop hstands
                (List.nodup_cons.mp hnodup).2 (fun _ h => h) (.inl rfl)
              have hatom : (Obj.block tag color fields).isAtom = false := by
                cases fields with
                | nil => simp at hdrop
                | cons x xs => rfl
              exact run_unwind pending _ (.ptr a) _ stack input hbelow' hsync'
                ((corr_ptr hobj hatom).mpr hmap)
          -- the next field is on the writer's stack, and the reader reads on
          | cons v' rest =>
              rw [if_pos (by rw [hcount]; exact Nat.succ_pos _)]
              have hsync' : Sync heap f order t (s.pushItem p.blockId w)
                  ({ p with additionalFields := p.additionalFields - 1 } :: pending) :=
                hsync.push hmap hobj hblock hdrop hstands hnodup
                  (fun _ h => List.mem_cons_of_mem _ h) (.inr (by simp))
              refine .inr ⟨v', rest, stack, _, _, rfl, rfl, hsync',
                .field hbelow' hmap hobj hself ?_ ?_⟩
              · rw [List.length_append, List.length_singleton, ← List.drop_drop, hdrop]
                rfl
              · rw [hcount]
                rfl

end Pending

/-! ## §3. Recording an object. -/

/-- The value of an object that is recorded now. -/
def Tables.value (t : Tables) : Obj → MLValue
  | .block _ _ _ => .block t.blocks
  | .string _ => .string t.strings
  | .double bits => .double bits
  | .custom _ boxed => boxed.value

/-- The store after an item. -/
def Store.record (s : Store) : Token → Store
  | .atom tag _ | .block tag _ _ => s.newBlock tag
  | .string bytes => s.newString bytes
  | .double bits => s.newDouble bits
  | .int _ | .shared _ | .custom _ _ => s

/-- The object is written after those before it. -/
theorem Tables.after_written (t : Tables) (obj : Obj) :
    (t.after obj.token).written = t.written ++ [t.value obj] := by
  cases obj <;> rfl

/-- No byte of a string is lost. -/
theorem MLValueString.toBytes_ofBytes (buf : List UInt8) :
    (MLValueString.ofBytes buf).toBytes = buf := by
  unfold MLValueString.ofBytes String.fromUTF8?
  split
  · next s h =>
      split at h
      · cases h
        rfl
      · cases h
  · rfl

/-- Recording an object leaves the blocks that were there. -/
theorem Store.record_blocks {s : Store} (token : Token) {id : Nat} {block : MLValueBlock}
    (h : s.blocks[id]? = some block) : (s.record token).blocks[id]? = some block := by
  have hnew : ∀ tag, (s.newBlock tag).blocks[id]? = some block := fun tag =>
    (s.newBlock_blocks tag (List.getElem?_eq_some_iff.mp h).1).trans h
  cases token with
  | atom tag color => exact hnew tag
  | block tag color size => exact hnew tag
  | int n => exact h
  | shared d => exact h
  | string bytes => exact h
  | double bits => exact h
  | custom form boxed => exact h

/-- And the strings. -/
theorem Store.record_strings {s : Store} (token : Token) {id : Nat} {x : MLValueString}
    (h : s.strings[id]? = some x) : (s.record token).strings[id]? = some x := by
  cases token with
  | string bytes =>
      exact (List.getElem?_append_left (List.getElem?_eq_some_iff.mp h).1).trans h
  | atom tag color => exact h
  | block tag color size => exact h
  | int n => exact h
  | shared d => exact h
  | double bits => exact h
  | custom form boxed => exact h

section Record

variable {heap : Heap} {f : Nat → Option MLValue} {order : List Nat} {t : Tables} {s : Store}
  {pending : List PendingBlock}

/-- A string that has a value is in the store. -/
theorem Sync.lt_strings (hsync : Sync heap f order t s pending) {a id : Nat}
    (h : f a = some (.string id)) : id < s.strings.length := by
  obtain ⟨obj, -, -, hobj⟩ := hsync.objects a _ h
  cases obj with
  | block tag color fields =>
      obtain ⟨_, _, heq, -⟩ := hobj
      cases heq
  | string bytes =>
      obtain ⟨id', x, heq, hid, -⟩ := hobj
      cases heq
      exact (List.getElem?_eq_some_iff.mp hid).1
  | double bits => cases hobj
  | custom form boxed => cases boxed <;> cases hobj

/-- A block of size 0 takes a place in the reader's table only. -/
theorem Sync.atom (hsync : Sync heap f order t s pending) (tag color : Nat) :
    Sync heap f order (t.after (.atom tag color)) (s.newBlock tag) pending := by
  have hempty : ∀ id tag', StoreEmpty s f id tag' → StoreEmpty (s.newBlock tag) f id tag' :=
    fun id tag' h => ⟨Store.record_blocks (.atom tag color) h.1, h.2⟩
  refine { hsync with
    read := ?_, blocks := ?_, objects := fun a w h => ?_,
    finished := fun a tag' color' fields id block h hobj hid => ?_ }
  · show (s.prevObjects ++ [PrevObject.block s.blocks.length]).map PrevObject.value = _
    rw [List.map_append, hsync.read, hsync.blocks]
    rfl
  · show (s.blocks ++ [_]).length = _
    rw [List.length_append, hsync.blocks]
    rfl
  · obtain ⟨obj, hobj, hatom, hstarted⟩ := hsync.objects a w h
    exact ⟨obj, hobj, hatom, hstarted.mono hempty (fun _ _ h => h)
      (fun _ _ h => Store.record_blocks (.atom tag color) h) fun _ _ h => h⟩
  · refine hsync.finished a tag' color' fields id block h hobj ?_
    rw [← hid, s.newBlock_blocks tag (hsync.lt_blocks h)]

/-- The tables after the record of an object. -/
theorem Sync.read_record (hsync : Sync heap f order t s pending) (obj : Obj) :
    (s.record obj.token).prevObjects.map PrevObject.value = (t.after obj.token).read := by
  cases obj with
  | block tag color fields =>
      show (s.prevObjects ++ [_]).map _ = t.read ++ [MLValue.block t.blocks]
      rw [List.map_append, hsync.read, ← hsync.blocks]
      rfl
  | string bytes =>
      show (s.prevObjects ++ [_]).map _ = t.read ++ [MLValue.string t.strings]
      rw [List.map_append, hsync.read, ← hsync.strings]
      rfl
  | double bits =>
      show (s.prevObjects ++ [_]).map _ = _
      rw [List.map_append, hsync.read]
      rfl
  | custom form boxed => exact hsync.read

/-- Reader and writer count the same blocks. -/
theorem Sync.blocks_record (hsync : Sync heap f order t s pending) (obj : Obj) :
    (s.record obj.token).blocks.length = (t.after obj.token).blocks := by
  cases obj with
  | block tag color fields =>
      show (s.blocks ++ [_]).length = _
      rw [List.length_append, hsync.blocks]
      rfl
  | string bytes => exact hsync.blocks
  | double bits => exact hsync.blocks
  | custom form boxed => exact hsync.blocks

/-- And the same strings. -/
theorem Sync.strings_record (hsync : Sync heap f order t s pending) (obj : Obj) :
    (s.record obj.token).strings.length = (t.after obj.token).strings := by
  cases obj with
  | block tag color fields => exact hsync.strings
  | string bytes =>
      show (s.strings ++ [_]).length = _
      rw [List.length_append, hsync.strings]
      rfl
  | double bits => exact hsync.strings
  | custom form boxed => exact hsync.strings

/-- The value an object gets is not that of a block or string there was. -/
theorem Sync.value_new (hsync : Sync heap f order t s pending) {obj : Obj} {b : Nat}
    (hb : f b = some (t.value obj)) : ¬ (t.value obj).isRef = true := by
  intro href
  cases obj with
  | block tag color fields => exact absurd (hsync.lt_blocks hb) (by rw [hsync.blocks]; omega)
  | string bytes => exact absurd (hsync.lt_strings hb) (by rw [hsync.strings]; omega)
  | double bits => cases href
  | custom form boxed => cases boxed <;> cases href

/-- A new object is started, with none of its fields. -/
theorem Sync.started_new (hsync : Sync heap f order t s pending) (g : Nat → Option MLValue)
    (obj : Obj) : Started heap (s.record obj.token) g obj (t.value obj) := by
  cases obj with
  | block tag color fields =>
      refine ⟨t.blocks, [], rfl, ?_, by simp⟩
      rw [← hsync.blocks]
      exact List.getElem?_concat_length
  | string bytes =>
      refine ⟨t.strings, .ofBytes bytes, rfl, ?_, MLValueString.toBytes_ofBytes bytes⟩
      rw [← hsync.strings]
      exact List.getElem?_concat_length
  | double bits => rfl
  | custom form boxed => rfl

/-- An empty block stays one: the new object has another place. -/
theorem Sync.storeEmpty_new (hsync : Sync heap f order t s pending) (a : Nat) (obj : Obj)
    {id tag : Nat} (h : StoreEmpty s f id tag) :
    StoreEmpty (s.record obj.token) (Function.update f a (some (t.value obj))) id tag := by
  obtain ⟨hid, hnot⟩ := h
  refine ⟨Store.record_blocks _ hid, fun b hb => ?_⟩
  rw [Function.update_apply] at hb
  split at hb
  · cases obj with
    | block tag' color fields =>
        cases hb
        rw [← hsync.blocks] at hid
        exact absurd (List.getElem?_eq_some_iff.mp hid).1 (Nat.lt_irrefl _)
    | string bytes => cases hb
    | double bits => cases hb
    | custom form boxed => cases boxed <;> cases hb
  · exact hnot b hb

/-- **An object is recorded** by both. -/
theorem Sync.new (hsync : Sync heap f order t s pending) {a : Nat} {obj : Obj}
    {pending' : List PendingBlock} (hobj : heap[a]? = some obj) (hatom : obj.isAtom = false)
    (hmem : a ∉ order) (hnodup : (pending'.map PendingBlock.blockId).Nodup)
    (hpending : ∀ y ∈ pending.map PendingBlock.blockId, y ∈ pending'.map PendingBlock.blockId)
    (hfields : obj.fields = [] ∨ t.blocks ∈ pending'.map PendingBlock.blockId) :
    Sync heap (Function.update f a (some (t.value obj))) (order ++ [a]) (t.after obj.token)
      (s.record obj.token) pending' := by
  have hself : Function.update f a (some (t.value obj)) a = some (t.value obj) :=
    Function.update_self ..
  have hother : ∀ b, b ≠ a → Function.update f a (some (t.value obj)) b = f b := fun b hb =>
    Function.update_of_ne hb ..
  have hf : ∀ b w, f b = some w → Function.update f a (some (t.value obj)) b = some w := by
    intro b w h
    rw [hother b fun heq => hmem (heq ▸ hsync.mapped b w h), h]
  constructor
  case written =>
    have hold : order.map (Function.update f a (some (t.value obj))) = order.map f :=
      List.map_congr_left fun b hb => hother b fun heq => hmem (heq ▸ hb)
    rw [List.map_append, hold, hsync.written, List.map_singleton, hself, t.after_written,
      List.map_append]
    rfl
  case mapped =>
    intro b w hb
    by_cases heq : b = a
    · exact List.mem_append_right _ (List.mem_singleton.mpr heq)
    · rw [hother b heq] at hb
      exact List.mem_append_left _ (hsync.mapped b w hb)
  case nodup =>
    rw [List.nodup_append]
    refine ⟨hsync.nodup, by simp, fun b hb c hc heq => hmem ?_⟩
    rw [← List.mem_singleton.mp hc, ← heq]
    exact hb
  case read => exact hsync.read_record obj
  case blocks => exact hsync.blocks_record obj
  case strings => exact hsync.strings_record obj
  -- the new block has no fields yet, and the old ones keep theirs
  case objects =>
    intro b w hb
    by_cases heq : b = a
    · rw [heq, hself] at hb
      cases hb
      exact ⟨obj, heq ▸ hobj, hatom, hsync.started_new _ obj⟩
    · rw [hother b heq] at hb
      obtain ⟨obj', hobj', hatom', hstarted⟩ := hsync.objects b w hb
      exact ⟨obj', hobj', hatom', hstarted.mono (fun _ _ => hsync.storeEmpty_new a obj) hf
        (fun _ _ => Store.record_blocks _) fun _ _ => Store.record_strings _⟩
  -- the new value is one that nothing stood for
  case injective =>
    intro b c w hb hc href
    by_cases hba : b = a
    · by_cases hca : c = a
      · rw [hba, hca]
      · rw [hba, hself] at hb
        cases hb
        rw [hother c hca] at hc
        exact absurd href (hsync.value_new hc)
    · rw [hother b hba] at hb
      by_cases hca : c = a
      · rw [hca, hself] at hc
        cases hc
        exact absurd href (hsync.value_new hb)
      · rw [hother c hca] at hc
        exact hsync.injective b c w hb hc href
  case finished =>
    intro b tag color fields id block hb hobj' hid
    by_cases hba : b = a
    · -- the new block is empty, so it is pending
      rw [hba, hobj] at hobj'
      cases hobj'
      rw [hba, hself] at hb
      cases hb
      rcases hfields with hnil | hpend
      · obtain rfl : fields = [] := hnil
        cases hatom
      · exact .inr hpend
    · rw [hother b hba] at hb
      have hlt := hsync.lt_blocks hb
      have hold : s.blocks[id]? = some block := by
        rw [← hid, List.getElem?_eq_getElem hlt]
        exact (Store.record_blocks _ (List.getElem?_eq_getElem hlt)).symm
      exact (hsync.finished b tag color fields id block hb hobj' hold).imp_right (hpending id)
  case pendingNodup => exact hnodup

end Record

end OcamlJit.Marshal

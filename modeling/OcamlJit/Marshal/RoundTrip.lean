/-
  OcamlJit.Marshal.RoundTrip
  ──────────────────────────
  **WHEN A GRAPH IS READ BACK.**

  If the reader makes of every item what was written, it ends with the graph
  (`run_writes`).  Conversely a reader that ends with the graph has made so of
  every item (`readBack_of_run`): what it takes for the first other item ends up
  as a field of a block the isomorphism knows already.  Together: `getsBack_iff`.
-/
import OcamlJit.Marshal.Sync
import Mathlib.Data.List.Perm.Subperm

namespace OcamlJit.Marshal

open OcamlJit.Lib

section Items

variable {heap : Heap} {f : Nat → Option MLValue} {order order' : List Nat} {t : Tables}
  {s : Store} {root v : Value} {pending : List PendingBlock} {stack : List (List Value)}
  {token : Token} {fields : List Value}

/-! ## §1. What holds in step. -/

/-- What the next item is for is the root or a field. -/
theorem Frames.mem (h : Frames heap f s root v pending stack) :
    v = root ∧ pending = [] ∨ ∃ obj ∈ heap, v ∈ obj.fields := by
  cases h with
  | root => exact .inl ⟨rfl, rfl⟩
  | field hbelow hmap hobj hblock hdrop hcount =>
      exact .inr ⟨_, List.mem_of_getElem? hobj,
        List.mem_of_mem_drop (hdrop ▸ List.mem_cons_self ..)⟩

theorem Frames.ok (hheap : HeapOk heap) (hroot : root.Ok heap)
    (h : Frames heap f s root v pending stack) : v.Ok heap := by
  rcases h.mem with ⟨rfl, -⟩ | ⟨obj, hobj, hv⟩
  · exact hroot
  · obtain ⟨a, ha⟩ := List.mem_iff_getElem?.mp hobj
    exact hheap.fields ha v hv

theorem Frames.lt_blocks (h : Frames heap f s root v pending stack) :
    ∀ y ∈ pending, y.blockId < s.blocks.length := by
  induction h with
  | root => nofun
  | field hbelow hmap hobj hblock hdrop hcount ih =>
      intro y hy
      rcases List.mem_cons.mp hy with rfl | hy
      · exact (List.getElem?_eq_some_iff.mp hblock).1
      · exact ih y hy

theorem Sync.length_order (hsync : Sync heap f order t s pending) :
    order.length ≤ heap.length := by
  have hsub : order ⊆ List.range heap.length := by
    intro a ha
    obtain ⟨w, hw⟩ := hsync.mem_order.mp ha
    obtain ⟨obj, hobj, -⟩ := hsync.objects a w hw
    exact List.mem_range.mpr (List.getElem?_eq_some_iff.mp hobj).1
  have hle := (List.subperm_of_subset hsync.nodup hsub).length_le
  rwa [List.length_range] at hle

/-- The writer's table has the value of a recorded object where the reference to
it says. -/
theorem Sync.shared (hsync : Sync heap f order t s pending) {a : Nat} (hmem : a ∈ order) :
    ∃ w, f a = some w ∧
      t.written.reverse[order.length - order.idxOf a - 1]? = some w := by
  obtain ⟨w, hw⟩ := hsync.mem_order.mp hmem
  have hlt := List.idxOf_lt_length_of_mem hmem
  have hlen : order.length = t.written.length := by
    simpa using congrArg List.length hsync.written
  refine ⟨w, hw, ?_⟩
  rw [List.getElem?_reverse (by omega),
    show t.written.length - 1 - (order.length - order.idxOf a - 1) = order.idxOf a by omega]
  have hget : (order.map f)[order.idxOf a]? = some (f a) := by
    rw [List.getElem?_map, List.getElem?_eq_getElem hlt, List.getElem_idxOf hlt]
    rfl
  rw [hsync.written, List.getElem?_map, hw] at hget
  cases h : t.written[order.idxOf a]? with
  | none =>
      rw [h] at hget
      cases hget
  | some x =>
      rw [h] at hget
      cases hget
      rfl

/-- **One item further**: `w` has been read for `v`, and nothing but that is
new. -/
structure Advance (heap : Heap) (f : Nat → Option MLValue) (s : Store) (v : Value)
    (f' : Nat → Option MLValue) (s' : Store) (w : MLValue) : Prop where
  maps : ∀ a x, f a = some x → f' a = some x
  blocks : ∀ (id : Nat) (block : MLValueBlock), s.blocks[id]? = some block →
    s'.blocks[id]? = some block
  only : ∀ empty g, Corr heap empty g v w → (∀ b x, f b = some x → g b = some x) →
    ∀ b x, f' b = some x → g b = some x

theorem Advance.refl (w : MLValue) : Advance heap f s v f s w :=
  ⟨fun _ _ h => h, fun _ _ h => h, fun _ _ _ h => h⟩

theorem Advance.frames {f' : Nat → Option MLValue} {s' : Store} {w : MLValue}
    (h : Advance heap f s v f' s' w) (hframes : Frames heap f s root v pending stack) :
    Frames heap f' s' root v pending stack :=
  hframes.mono h.maps fun y _ block => h.blocks y.blockId block

theorem advance_new (hsync : Sync heap f order t s pending) {a : Nat} {obj : Obj}
    (hobj : heap[a]? = some obj) (hatom : obj.isAtom = false) (hmem : a ∉ order) :
    Advance heap f s (.ptr a) (Function.update f a (some (t.value obj))) (s.record obj.token)
      (t.value obj) := by
  refine ⟨fun b x hb => ?_, fun _ _ => Store.record_blocks _, fun empty g hcorr hg b x hb => ?_⟩
  · have hne : b ≠ a := fun heq => hmem (heq ▸ hsync.mapped b x hb)
    rw [Function.update_of_ne hne, hb]
  · by_cases heq : b = a
    · subst heq
      rw [Function.update_self] at hb
      rw [← hb]
      exact (corr_ptr hobj hatom).mp hcorr
    · rw [Function.update_of_ne heq] at hb
      exact hg b x hb

/-! ## §2. An item that is read back. -/

/-- An item without fields is read, and its value goes to the pending blocks. -/
theorem Item.value (hheap : HeapOk heap) (hitem : Item heap order v token order' fields)
    (hfields : fields = []) (hsync : Sync heap f order t s pending) (hv : v.Ok heap)
    (hread : token.ReadBack t) (input : List UInt8) : ∃ f' s' w,
      (Machine.on .readItem (token.bytes ++ input) s pending).run =
        (Machine.on (.processItem w) input s' pending).run ∧
      Sync heap f' order' (t.after token) s' pending ∧ Stands heap s' f' v w ∧
      Advance heap f s v f' s' w := by
  cases hitem with
  | int n => exact ⟨f, s, .int n, run_int hread.1 hread.2, hsync, rfl, .refl _⟩
  -- an atom is read as a new empty block, which the table gets too
  | @atom a tag color hobj =>
      have hok := hheap.objects _ (List.mem_of_getElem? hobj)
      refine ⟨f, s.newBlock tag, .block s.blocks.length, run_atom hok.1 hok.2.1,
        hsync.atom tag color, (corr_atom hobj).mpr ⟨_, rfl, List.getElem?_concat_length, ?_⟩,
        fun _ _ h => h, fun _ _ h => Store.record_blocks (.atom tag color) h, fun _ _ _ h => h⟩
      exact fun b hb => Nat.lt_irrefl _ (hsync.lt_blocks hb)
  -- the tables agree at the place that is referred to
  | @shared a obj hobj hatom hmem =>
      obtain ⟨w, hw, hget⟩ := hsync.shared hmem
      have hlt := List.idxOf_lt_length_of_mem hmem
      have hlen := hsync.length_order
      have hsize := hheap.size
      have hprev : (s.prevObjects.map PrevObject.value).reverse[
          order.length - order.idxOf a - 1]? = some w := by
        rw [hsync.read]
        exact Eq.trans hread hget
      rw [← List.map_reverse, List.getElem?_map] at hprev
      obtain ⟨o, ho, rfl⟩ := Option.map_eq_some_iff.mp hprev
      exact ⟨f, s, o.value, (run_shared (by omega)).trans (run_readShared (by omega) ho), hsync,
        (corr_ptr hobj hatom).mpr hw, .refl _⟩
  -- an object without fields is recorded by both
  | @new a obj hobj hatom hmem =>
      have hsync' := hsync.new hobj hatom hmem hsync.pendingNodup (fun _ h => h) (.inl hfields)
      refine ⟨_, _, t.value obj, ?_, hsync', (corr_ptr hobj hatom).mpr (Function.update_self ..),
        advance_new hsync hobj hatom hmem⟩
      cases obj with
      | block tag color fields =>
          obtain rfl : fields = [] := hfields
          cases hatom
      | string bytes =>
          have hlen : bytes.length < 2 ^ 57 := hheap.objects _ (List.mem_of_getElem? hobj)
          refine (run_string (by omega)).trans ?_
          rw [hsync.strings]
          rfl
      | double bits =>
          have hswap : swapBytes bits = bits := hread
          refine (run_double bits).trans ?_
          rw [hswap]
          rfl
      | custom form boxed => exact run_custom hread

/-- The header of a block is read, and its first field is what comes next. -/
theorem Item.block (hheap : HeapOk heap) {field0 : Value} {rest : List Value}
    (hitem : Item heap order v token order' fields) (hfields : fields = field0 :: rest)
    (hsync : Sync heap f order t s pending) (hframes : Frames heap f s root v pending stack)
    (input : List UInt8) : ∃ f' s' p,
      token.ReadBack t ∧ s' = s.record token ∧ p.blockId = s.blocks.length ∧
      (Machine.on .readItem (token.bytes ++ input) s pending).run =
        (Machine.on .readItem input s' (p :: pending)).run ∧
      Sync heap f' order' (t.after token) s' (p :: pending) ∧
      Frames heap f' s' root field0 (p :: pending) (pushFields rest stack) ∧
      Advance heap f s v f' s' (.block p.blockId) := by
  cases hitem with
  | int n => cases hfields
  | atom hobj => cases hfields
  | shared hobj hatom hmem => cases hfields
  | @new a obj hobj hatom hmem =>
      cases obj with
      | string bytes => cases hfields
      | double bits => cases hfields
      | custom form boxed => cases hfields
      | block tag color fields =>
          obtain rfl : fields = field0 :: rest := hfields
          have hok := hheap.objects _ (List.mem_of_getElem? hobj)
          have hvalue : t.value (.block tag color (field0 :: rest)) = .block s.blocks.length := by
            rw [hsync.blocks]
            rfl
          have hadvance := advance_new hsync hobj hatom hmem
          -- the new block is not one of the pending ones
          have hnodup : ((⟨s.blocks.length, rest.length⟩ :: pending : List PendingBlock).map
              PendingBlock.blockId).Nodup := by
            refine List.nodup_cons.mpr ⟨fun hmem' => ?_, hsync.pendingNodup⟩
            obtain ⟨y, hy, heq⟩ := List.mem_map.mp hmem'
            exact Nat.ne_of_lt (hframes.lt_blocks y hy) heq
          have hsync' := hsync.new hobj hatom hmem hnodup
            (fun _ h => List.mem_cons_of_mem _ h) (.inr (by simp [hsync.blocks]))
          refine ⟨_, _, ⟨s.blocks.length, rest.length⟩, trivial, rfl, rfl, ?_, hsync', ?_, ?_⟩
          · exact run_block hok.1 (Nat.succ_pos _) hok.2.2.1
          · refine .field (hadvance.frames hframes) ?_ hobj List.getElem?_concat_length rfl rfl
            rw [Function.update_self, hvalue]
          · rw [hvalue] at hadvance
            rw [hvalue]
            exact hadvance

/-- **All items read back**: the reader ends with the graph. -/
theorem run_writes {order : List Nat} {tokens : List Token} (hheap : HeapOk heap)
    (hroot : root.Ok heap) (h : Writes heap v stack order tokens) :
    ∀ {f t s pending}, Sync heap f order t s pending → Frames heap f s root v pending stack →
      ReadBack t tokens → ∀ rest, ∃ f' order' t' s' w,
        (Machine.on .readItem (tokens.flatMap Token.bytes ++ rest) s pending).run =
          .ok ⟨s'.toBlocks, w, rest⟩ ∧
        Sync heap f' order' t' s' [] ∧ Stands heap s' f' root w := by
  induction h with
  -- the header of a block, then its first field
  | fields hitem hrest ih =>
      intro f t s pending hsync hframes hread rest
      rw [List.flatMap_cons, List.append_assoc]
      obtain ⟨f', s', p, -, -, -, hrun, hsync', hframes', -⟩ :=
        hitem.block hheap rfl hsync hframes _
      rw [hrun]
      exact ih hsync' hframes' hread.2 rest
  -- a whole value: it is handed on, and the reader waits for the next
  | next hitem hrest ih =>
      intro f t s pending hsync hframes hread rest
      rw [List.flatMap_cons, List.append_assoc]
      obtain ⟨f', s', w, hrun, hsync', hstands, hadvance⟩ :=
        hitem.value hheap rfl hsync (hframes.ok hheap hroot) hread.1 _
      rw [hrun]
      obtain ⟨hnil, -⟩ | ⟨v', rest', stack', s'', pending', hstack, hrun', hsync'', hframes'⟩ :=
        run_unwind pending s' _ w _ _ (hadvance.frames hframes) hsync' hstands
      · cases hnil
      · cases hstack
        rw [hrun']
        exact ih hsync'' hframes' hread.2 rest
  -- the last value: the blocks close one after the other
  | last hitem =>
      intro f t s pending hsync hframes hread rest
      rw [List.flatMap_cons, List.flatMap_nil, List.append_nil]
      obtain ⟨f', s', w, hrun, hsync', hstands, hadvance⟩ :=
        hitem.value hheap rfl hsync (hframes.ok hheap hroot) hread.1 _
      rw [hrun]
      obtain ⟨-, s'', w', hrun', hsync'', hroot'⟩ | ⟨v', rest', stack', s'', pending', hstack, -⟩ :=
        run_unwind pending s' _ w _ _ (hadvance.frames hframes) hsync' hstands
      · exact ⟨f', _, _, s'', w', hrun', hsync'', hroot'⟩
      · cases hstack

/-- What is in step at the end is the graph. -/
theorem Sync.isoBy {w : MLValue} (hsync : Sync heap f order t s [])
    (hroot : Stands heap s f root w) : IsoBy heap root s.toBlocks w f := by
  have hmono : ∀ u x, Stands heap s f u x → Corr heap s.toBlocks.Empty f u x := fun u x h =>
    h.mono (fun id tag h => h.1) fun _ _ h => h
  refine ⟨hmono _ _ hroot, fun a x h => ?_, hsync.injective⟩
  obtain ⟨obj, hobj, -, hstarted⟩ := hsync.objects a x h
  refine ⟨obj, hobj, ?_⟩
  cases obj with
  | block tag color fields =>
      obtain ⟨id, items, rfl, hid, hitems⟩ := hstarted
      refine ⟨id, items, rfl, hid, ?_⟩
      have hlen : items.length = fields.length :=
        (hsync.finished a tag color fields id _ h hobj hid).resolve_right (by simp)
      rw [hlen, List.take_length] at hitems
      exact hitems.imp hmono
  | string bytes => exact hstarted
  | double bits => exact hstarted
  | custom form boxed => exact hstarted

/-! ## §3. An item that is not. -/

variable {g : Nat → Option MLValue} {out : Output} {w : MLValue} {input : List UInt8}

/-- **The value the next item turns out to be** is what the isomorphism says. -/
theorem run_hole (hframes : Frames heap f s root v pending stack)
    (hiso : IsoBy heap root out.blocks out.value g) (hagree : ∀ a x, f a = some x → g a = some x)
    (hrun : (Machine.on (.processItem w) input s pending).run = .ok out) :
    Corr heap out.blocks.Empty g v w := by
  cases hframes with
  | root =>
      rw [run_root] at hrun
      cases hrun
      exact hiso.root
  | @field a tag color items fields v rest p pending stack hbelow hmap hobj hblock hdrop hcount =>
      have hself : (s.pushItem p.blockId w).toBlocks.blocks[p.blockId]? =
          some ⟨tag, items ++ [w]⟩ := by
        refine (s.getElem?_pushItem p.blockId p.blockId w).trans ?_
        rw [if_pos rfl, hblock]
        rfl
      have hgrows : Grows (s.pushItem p.blockId w).toBlocks out.blocks := by
        rw [run_push] at hrun
        split at hrun
        · exact run_grows hrun
        · exact run_grows hrun
      -- the item stays where it is put, so the isomorphism relates it to the field
      obtain ⟨more, hmore⟩ := hgrows.blocks p.blockId _ hself
      obtain ⟨obj, hobj', hcorr⟩ := hiso.objects a _ (hagree a _ hmap)
      rw [hobj] at hobj'
      cases hobj'
      obtain ⟨id, items', heq, hid, hitems⟩ := hcorr
      cases heq
      rw [hmore] at hid
      cases hid
      have hv : fields[items.length]? = some v := by
        rw [show items.length = items.length + 0 from rfl, ← List.getElem?_drop, hdrop]
        rfl
      have hw : (items ++ [w] ++ more)[items.length]? = some w := by
        rw [List.append_assoc, List.getElem?_append_right (Nat.le_refl _), Nat.sub_self]
        rfl
      obtain ⟨hlt, hv⟩ := List.getElem?_eq_some_iff.mp hv
      obtain ⟨hlt', hw⟩ := List.getElem?_eq_some_iff.mp hw
      rw [← hv, ← hw]
      exact hitems.get hlt hlt'

/-- The same of a block whose fields come next. -/
theorem run_hole_block {p : PendingBlock} (hframes : Frames heap f s root v pending stack)
    (hok : PendingOk (p :: pending) s)
    (hiso : IsoBy heap root out.blocks out.value g) (hagree : ∀ a x, f a = some x → g a = some x)
    (hrun : (Machine.on .readItem input s (p :: pending)).run = .ok out) :
    Corr heap out.blocks.Empty g v (.block p.blockId) := by
  obtain ⟨input', s', hrun', hsame⟩ := run_returns hrun [] p pending rfl hok
  refine run_hole (hframes.mono (fun _ _ h => h) fun y hy block h => ?_) hiso hagree hrun'
  exact (hsame y hy).trans h

/-- No number is read for a pointer. -/
theorem not_corr_int {a : Nat} {i : Int} {blocks : MLValueBlocks} {value : MLValue}
    (hiso : IsoBy heap root blocks value g) : ¬ Corr heap blocks.Empty g (.ptr a) (.int i) := by
  intro h
  unfold Corr at h
  dsimp only at h
  split at h
  · obtain ⟨id, heq, -⟩ := h
    cases heq
  · obtain ⟨obj, -, hcorr⟩ := hiso.objects a _ h
    cases obj with
    | block tag color fields =>
        obtain ⟨_, _, heq, -⟩ := hcorr
        cases heq
    | string bytes =>
        obtain ⟨_, _, heq, -⟩ := hcorr
        cases heq
    | double bits => cases hcorr
    | custom form boxed => cases boxed <;> cases hcorr

/-- There are pointers only. -/
structure NoLong (heap : Heap) (root : Value) : Prop where
  root : ∀ n, root ≠ .long n
  fields : ∀ obj ∈ heap, ∀ n, .long n ∉ obj.fields

/-- There are no boxed integers among the items. -/
def NoCustom (tokens : List Token) : Prop := ∀ form boxed, .custom form boxed ∉ tokens

theorem NoCustom.head {token : Token} {tokens : List Token} (h : NoCustom (token :: tokens)) :
    NoCustom [token] := fun form boxed hmem =>
  h form boxed (List.mem_singleton.mp hmem ▸ List.mem_cons_self ..)

theorem NoCustom.tail {token : Token} {tokens : List Token} (h : NoCustom (token :: tokens)) :
    NoCustom tokens := fun form boxed hmem => h form boxed (List.mem_cons_of_mem _ hmem)

/-- **A reader that is behind does not end with the graph**: where a pointer is
due it reads an integer, or it leaves too much. -/
theorem not_lagging {rest : List UInt8} (hlong : NoLong heap root)
    (hsync : Sync heap f order t s pending) (hframes : Frames heap f s root v pending stack)
    (hstands : Stands heap s f v w) (hiso : IsoBy heap root out.blocks out.value g)
    (hagree : ∀ a x, f a = some x → g a = some x)
    (hlag : Lagging rest input) (hrest : out.rest.length ≤ rest.length)
    (hrun : (Machine.on (.processItem w) input s pending).run = .ok out) : False := by
  obtain ⟨-, s', w', hrun', -⟩ | ⟨v', rest', stack', s', pending', -, hrun', -, hframes'⟩ :=
    run_unwind pending s v w stack input hframes hsync hstands
  · rw [hrun'] at hrun
    cases hrun
    obtain ⟨_, _, _, _, hlt⟩ := hlag
    exact Nat.not_lt.mpr hrest hlt
  · rw [hrun'] at hrun
    obtain ⟨i, input', hrun⟩ := run_lagging hlag hrun
    have hcorr := run_hole hframes' hiso hagree hrun
    cases v' with
    | ptr a => exact not_corr_int hiso hcorr
    | long n =>
        rcases hframes'.mem with ⟨heq, -⟩ | ⟨obj, hobj, hmem⟩
        · exact hlong.root n heq.symm
        · exact hlong.fields obj hobj n hmem

/-- **An item was read back** if the reader ends with the graph. -/
theorem Item.readBack (hheap : HeapOk heap) (hunmixed : NoLong heap root ∨ NoCustom [token])
    (hitem : Item heap order v token order' fields)
    (hsync : Sync heap f order t s pending) (hframes : Frames heap f s root v pending stack)
    (hv : v.Ok heap) (hiso : IsoBy heap root out.blocks out.value g)
    (hagree : ∀ a x, f a = some x → g a = some x) (hrest : out.rest.length ≤ input.length)
    (hrun : (Machine.on .readItem (token.bytes ++ input) s pending).run = .ok out) :
    token.ReadBack t := by
  cases hitem with
  | int n =>
      -- out of this range another number is read, and the graph has it in this place
      by_cases hrange : -2 ^ 30 ≤ n ∧ n < 2 ^ 30
      · exact hrange
      · obtain ⟨i, input', hne, hrun'⟩ := @run_int_wide s pending input n hv.1 hv.2
          (by omega)
        rw [hrun'] at hrun
        have hcorr : MLValue.int i = .int n := run_hole hframes hiso hagree hrun
        cases hcorr
        exact absurd rfl hne
  | atom hobj => trivial
  -- what is referred to stands for the object, so it is the one recorded for it
  | @shared a obj hobj hatom hmem =>
      obtain ⟨w, hw, hget⟩ := hsync.shared hmem
      have hlen := hsync.length_order
      have hsize := hheap.size
      rw [run_shared (by omega)] at hrun
      obtain ⟨o, ho⟩ := run_readShared_eq_ok hrun
      have hlt := List.idxOf_lt_length_of_mem hmem
      rw [run_readShared (by omega) ho] at hrun
      have hcorr := (corr_ptr hobj hatom).mp (run_hole hframes hiso hagree hrun)
      rw [hagree a w hw] at hcorr
      injection hcorr with hvalue
      show t.read.reverse[_]? = t.written.reverse[_]?
      rw [hget, ← hsync.read, ← List.map_reverse, List.getElem?_map, ho, hvalue]
      rfl
  | @new a obj hobj hatom hmem =>
      cases obj with
      | block tag color fields => trivial
      | string bytes => trivial
      | double bits =>
          rw [show (Obj.double bits).token = .double bits from rfl, run_double] at hrun
          have hframes' : Frames heap f (s.newDouble (swapBytes bits)) root (.ptr a) pending stack :=
            hframes.mono (fun _ _ h => h) fun _ _ _ h => h
          have hcorr := (corr_ptr hobj hatom).mp (run_hole hframes' hiso hagree hrun)
          obtain ⟨obj, hobj', hval⟩ := hiso.objects a _ hcorr
          rw [hobj] at hobj'
          cases hobj'
          injection hval
      | custom form boxed =>
          -- a custom block that is read wrongly leaves a byte over, which cannot be made up
          refine Classical.byContradiction fun hbad => ?_
          obtain ⟨x, input', hrun', hx⟩ := run_custom_bad hbad hrun
          have hcorr := (corr_ptr hobj hatom).mp (run_hole hframes hiso hagree hrun')
          obtain ⟨obj, hobj', hval⟩ := hiso.objects a _ hcorr
          rw [hobj] at hobj'
          cases hobj'
          obtain rfl : x = boxed.value := hval
          have hlag := hx.resolve_left (not_not_intro rfl)
          have hlong : NoLong heap root := hunmixed.resolve_right fun h =>
            h form boxed (List.mem_singleton.mpr rfl)
          have hadvance := advance_new hsync hobj hatom hmem
          have hself : Corr heap out.blocks.Empty g (.ptr a) boxed.value :=
            (corr_ptr hobj hatom).mpr hcorr
          exact not_lagging hlong
            (hsync.new hobj hatom hmem hsync.pendingNodup (fun _ h => h) (.inl rfl))
            (hadvance.frames hframes) ((corr_ptr hobj hatom).mpr (Function.update_self ..)) hiso
            (hadvance.only _ g hself hagree) hlag hrest hrun'

/-- **A reader that ends with the graph has read back every item.** -/
theorem readBack_of_run {order : List Nat} {tokens : List Token} (hheap : HeapOk heap)
    (hroot : root.Ok heap) (hiso : IsoBy heap root out.blocks out.value g)
    (h : Writes heap v stack order tokens) : NoLong heap root ∨ NoCustom tokens →
    ∀ {f t s pending}, Sync heap f order t s pending → Frames heap f s root v pending stack →
      (∀ a x, f a = some x → g a = some x) → ∀ {rest}, out.rest = rest →
      (Machine.on .readItem (tokens.flatMap Token.bytes ++ rest) s pending).run = .ok out →
      ReadBack t tokens := by
  induction h with
  -- a header is always read back
  | @fields v field0 stack order order' token rest' tokens hitem hrest ih =>
      intro hunmixed f t s pending hsync hframes hagree rest hout hrun
      rw [List.flatMap_cons, List.append_assoc] at hrun
      obtain ⟨f', s', p, hread, -, -, hrun', hsync', hframes', hadvance⟩ :=
        hitem.block hheap rfl hsync hframes (tokens.flatMap Token.bytes ++ rest)
      rw [hrun'] at hrun
      have hcorr := run_hole_block (hframes.mono (fun _ _ h => h) fun y _ block =>
        hadvance.blocks y.blockId block) ⟨hsync'.pendingNodup, hframes'.lt_blocks⟩ hiso hagree hrun
      exact ⟨hread, ih (hunmixed.imp_right NoCustom.tail) hsync' hframes'
        (hadvance.only _ g hcorr hagree) hout hrun⟩
  -- the value read is the right one, or the graph would differ
  | @next v v' stack order order' token rest' tokens hitem hrest ih =>
      intro hunmixed f t s pending hsync hframes hagree rest hout hrun
      have hv := hframes.ok hheap hroot
      rw [List.flatMap_cons, List.append_assoc] at hrun
      have hread := hitem.readBack hheap (hunmixed.imp_right NoCustom.head) hsync hframes hv hiso hagree
        (by rw [hout, List.length_append]; omega) hrun
      obtain ⟨f', s', w, hrun', hsync', hstands, hadvance⟩ :=
        hitem.value hheap rfl hsync hv hread (tokens.flatMap Token.bytes ++ rest)
      rw [hrun'] at hrun
      have hcorr := run_hole (hframes.mono (fun _ _ h => h) fun y _ block =>
        hadvance.blocks y.blockId block) hiso hagree hrun
      obtain ⟨hnil, -⟩ | ⟨v'', rest'', stack', s'', pending', hstack, hrun'', hsync'', hframes''⟩ :=
        run_unwind pending s' _ w _ (tokens.flatMap Token.bytes ++ rest)
          (hadvance.frames hframes) hsync' hstands
      · cases hnil
      · cases hstack
        rw [hrun''] at hrun
        exact ⟨hread, ih (hunmixed.imp_right NoCustom.tail) hsync'' hframes''
          (hadvance.only _ g hcorr hagree) hout hrun⟩
  | last hitem =>
      intro hunmixed f t s pending hsync hframes hagree rest hout hrun
      rw [List.flatMap_cons, List.flatMap_nil, List.append_nil] at hrun
      exact ⟨hitem.readBack hheap hunmixed hsync hframes (hframes.ok hheap hroot) hiso hagree
        (by rw [hout]) hrun, trivial⟩

end Items

/-! ## §4. The whole value. -/

/-- The header is skipped. -/
theorem parseHeader_externHeader (resLen objCounter size32 size64 : Nat) (rest : List UInt8) :
    parseHeader (externHeader resLen objCounter size32 size64 ++ rest) = .ok ((), rest) := by
  have hbig : intextMagicNumberBig < 256 ^ 4 := by decide
  have hsmall : intextMagicNumberSmall < 256 ^ 4 := by decide
  have hne : intextMagicNumberSmall ≠ intextMagicNumberBig := by decide
  unfold parseHeader externHeader
  split
  · simp only [List.append_assoc, readU_beBytes hbig, readU_beBytes_mod, ok_bind]
    rfl
  · simp only [List.append_assoc, readU_beBytes hsmall, readU_beBytes_mod, ok_bind, if_neg hne]
    rfl

theorem inputValue_externBytes (tokens : List Token) (rest : List UInt8) :
    inputValue (externBytes tokens ++ rest) = (Machine.on .readItem
      (tokens.flatMap Token.bytes ++ rest) ⟨[], [], []⟩ []).run := by
  unfold inputValue externBytes
  rw [List.append_assoc, parseHeader_externHeader]
  rfl

theorem sync_start (heap : Heap) : Sync heap (fun _ => none) [] .start ⟨[], [], []⟩ [] :=
  ⟨rfl, nofun, .nil, rfl, rfl, rfl, nofun, nofun, nofun, .nil⟩

/-- **A graph is gotten back exactly when every item is read back.** -/
theorem getsBack_iff {heap : Heap} {root : Value} {tokens : List Token} (hheap : HeapOk heap)
    (hroot : root.Ok heap) (hunmixed : NoLong heap root ∨ NoCustom tokens)
    (h : Writes heap root [] [] tokens) (rest : List UInt8) :
    GetsBack heap root (externBytes tokens) rest ↔ ReadBack .start tokens := by
  unfold GetsBack
  rw [inputValue_externBytes]
  constructor
  · rintro ⟨out, hrun, ⟨g, hiso⟩, hrest⟩
    exact readBack_of_run hheap hroot hiso h hunmixed (sync_start heap) .root nofun hrest hrun
  · intro hread
    obtain ⟨f, order, t, s, w, hrun, hsync, hstands⟩ :=
      run_writes hheap hroot h (sync_start heap) .root hread rest
    exact ⟨_, hrun, ⟨f, hsync.isoBy hstands⟩, rfl⟩

end OcamlJit.Marshal

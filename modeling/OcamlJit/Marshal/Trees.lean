/-
  OcamlJit.Marshal.Trees
  ──────────────────────
  **TREES OF BLOCKS, STRINGS AND INTEGERS.**

  In a tree no object is met twice, so there are no references to shared ones,
  and the reader gets the tree back exactly when it reads the integers right:
  when none of them needs eight bytes (`tree_getsBack_iff`).
-/
import OcamlJit.Marshal.RoundTrip

namespace OcamlJit.Marshal

/-! ## §1. Trees. -/

mutual

/-- The value is a tree of these objects with these integers, both in order. -/
inductive TreeOf (heap : Heap) : Value → List Nat → List Int → Prop where
  | long (n : Int) : TreeOf heap (.long n) [] [n]
  | string {a : Nat} {bytes : List UInt8} (hobj : heap[a]? = some (.string bytes)) :
      TreeOf heap (.ptr a) [a] []
  | block {a tag color : Nat} {fields : List Value} {objects : List Nat} {ints : List Int}
      (hobj : heap[a]? = some (.block tag color fields)) (hsize : fields ≠ [])
      (hfields : TreesOf heap fields objects ints) : TreeOf heap (.ptr a) (a :: objects) ints

/-- The same of values one after another. -/
inductive TreesOf (heap : Heap) : List Value → List Nat → List Int → Prop where
  | nil : TreesOf heap [] [] []
  | cons {v : Value} {vs : List Value} {objects objects' : List Nat} {ints ints' : List Int}
      (hhead : TreeOf heap v objects ints) (htail : TreesOf heap vs objects' ints') :
      TreesOf heap (v :: vs) (objects ++ objects') (ints ++ ints')

end

theorem TreesOf.append {heap : Heap} : ∀ {xs ys : List Value} {objects objects' : List Nat}
    {ints ints' : List Int}, TreesOf heap xs objects ints → TreesOf heap ys objects' ints' →
    TreesOf heap (xs ++ ys) (objects ++ objects') (ints ++ ints')
  | [], _, _, _, _, _, .nil, hys => hys
  | _ :: _, _, _, _, _, _, .cons hhead htail, hys => by
      rw [List.append_assoc, List.append_assoc]
      exact .cons hhead (htail.append hys)

/-- The integers the reader reads as they are. -/
def Small (ints : List Int) : Prop := ∀ n ∈ ints, -2 ^ 30 ≤ n ∧ n < 2 ^ 30

theorem small_append {ints ints' : List Int} :
    Small (ints ++ ints') ↔ Small ints ∧ Small ints' := by
  simp only [Small, List.forall_mem_append]

/-- An item of a tree is that of an integer or of a new object, whose fields are
trees of the objects that follow. -/
theorem Item.tree {heap : Heap} {order order' objects : List Nat} {v : Value} {token : Token}
    {fields : List Value} {ints : List Int} (hitem : Item heap order v token order' fields)
    (htree : TreeOf heap v objects ints) (hnew : ∀ a ∈ objects, a ∉ order) :
    ∃ objects' here ints', TreesOf heap fields objects' ints' ∧
      order' ++ objects' = order ++ objects ∧ ints = here ++ ints' ∧
      (∀ form boxed, token ≠ .custom form boxed) ∧ ∀ t, token.ReadBack t ↔ Small here := by
  cases htree with
  | long n =>
      cases hitem
      exact ⟨[], [n], [], .nil, rfl, rfl, nofun, fun t => by simp [Small, Token.ReadBack]⟩
  | @string a bytes hobj =>
      cases hitem with
      | atom hobj' => simp [hobj] at hobj'
      | shared hobj' hatom hmem => exact absurd hmem (hnew a (by simp))
      | new hobj' hatom hmem =>
          rw [hobj] at hobj'
          cases hobj'
          exact ⟨[], [], [], .nil, List.append_nil _, rfl, nofun, fun t => by
            simp [Small, Obj.token, Token.ReadBack]⟩
  | @block a tag color fields' objects' _ hobj hsize hfields =>
      cases hitem with
      | atom hobj' =>
          rw [hobj] at hobj'
          cases hobj'
          exact absurd rfl hsize
      | shared hobj' hatom hmem => exact absurd hmem (hnew a (by simp))
      | new hobj' hatom hmem =>
          rw [hobj] at hobj'
          cases hobj'
          exact ⟨objects', [], ints, hfields, by simp, rfl, nofun, fun t => by
            simp [Small, Obj.token, Token.ReadBack]⟩

theorem noCustom_cons {token : Token} {tokens : List Token}
    (h : ∀ form boxed, token ≠ .custom form boxed) (htokens : NoCustom tokens) :
    NoCustom (token :: tokens) := by
  intro form boxed hmem
  rcases List.mem_cons.mp hmem with heq | hmem
  · exact h form boxed heq.symm
  · exact htokens form boxed hmem

/-- **What is written for trees is read back when the integers are small.** -/
theorem Writes.readBack_trees {heap : Heap} {v : Value} {stack : List (List Value)}
    {order : List Nat} {tokens : List Token} (h : Writes heap v stack order tokens) :
    ∀ {objects ints} (t : Tables), TreesOf heap (v :: stack.flatten) objects ints →
      (order ++ objects).Nodup → NoCustom tokens ∧ (ReadBack t tokens ↔ Small ints) := by
  -- the head is a tree of the first objects, which are not recorded yet
  have hhead : ∀ {order objects objects' : List Nat}, (order ++ (objects ++ objects')).Nodup →
      ∀ a ∈ objects, a ∉ order := fun hnodup a ha hmem =>
    (List.nodup_append.mp hnodup).2.2 a hmem a (List.mem_append_left _ ha) rfl
  induction h with
  -- the fields are the trees to write next
  | fields hitem hrest ih =>
      intro objects ints t htrees hnodup
      cases htrees with
      | cons htree hstack =>
          obtain ⟨objects', here, ints', hfields, hobjects, rfl, hcustom, hread⟩ :=
            hitem.tree htree (hhead hnodup)
          rw [← List.append_assoc, ← hobjects, List.append_assoc] at hnodup
          have htrees' := hfields.append hstack
          rw [List.cons_append, ← flatten_pushFields] at htrees'
          refine ⟨noCustom_cons hcustom (ih t htrees' hnodup).1, ?_⟩
          rw [ReadBack, hread, (ih _ htrees' hnodup).2, small_append, small_append, small_append,
            and_assoc]
  -- no fields: the next tree is on the stack
  | next hitem hrest ih =>
      intro objects ints t htrees hnodup
      cases htrees with
      | cons htree hstack =>
          obtain ⟨objects', here, ints', hfields, hobjects, rfl, hcustom, hread⟩ :=
            hitem.tree htree (hhead hnodup)
          cases hfields
          rw [← List.append_assoc, ← hobjects, List.append_nil] at hnodup
          rw [List.flatten_cons, List.cons_append, ← flatten_pushFields] at hstack
          refine ⟨noCustom_cons hcustom (ih t hstack hnodup).1, ?_⟩
          rw [ReadBack, hread, (ih _ hstack hnodup).2, List.append_nil, small_append]
  | last hitem =>
      intro objects ints t htrees hnodup
      cases htrees with
      | cons htree hstack =>
          obtain ⟨objects', here, ints', hfields, hobjects, rfl, hcustom, hread⟩ :=
            hitem.tree htree (hhead hnodup)
          cases hfields
          cases hstack
          refine ⟨noCustom_cons hcustom (by simp [NoCustom]), ?_⟩
          rw [ReadBack, hread, List.append_nil, List.append_nil, ReadBack, and_true]

/-! ## §2. The trees the reader gets back. -/

/-- **A tree is gotten back exactly when its integers are small**: the code of
the wider ones is followed by eight bytes, and the reader reads four. -/
theorem tree_getsBack_iff {heap : Heap} {root : Value} {objects : List Nat} {ints : List Int}
    (hheap : HeapOk heap) (hroot : root.Ok heap) (htree : TreeOf heap root objects ints)
    (hnodup : objects.Nodup) (rest : List UInt8) :
    ∃ bytes, externValue heap root = some bytes ∧
      (GetsBack heap root bytes rest ↔ ∀ n ∈ ints, -2 ^ 30 ≤ n ∧ n < 2 ^ 30) := by
  obtain ⟨tokens, htokens, hwrites⟩ := externRec_writes hheap hroot
  have htrees : TreesOf heap (root :: [].flatten) (objects ++ []) (ints ++ []) := .cons htree .nil
  rw [List.append_nil, List.append_nil] at htrees
  obtain ⟨hcustom, hread⟩ := hwrites.readBack_trees .start htrees (by simpa using hnodup)
  refine ⟨externBytes tokens, by rw [externValue, htokens]; rfl, ?_⟩
  exact (getsBack_iff hheap hroot (.inr hcustom) hwrites rest).trans hread

/-- A pair of an integer and a string, and a byte that follows. -/
theorem tree_getsBack_iff_pair : ∃ bytes,
    externValue [.block 0 0 [.long 100, .ptr 1], .string [104, 105]] (.ptr 0) = some bytes ∧
      (GetsBack [.block 0 0 [.long 100, .ptr 1], .string [104, 105]] (.ptr 0) bytes [7] ↔
        ∀ n ∈ [(100 : Int)], -2 ^ 30 ≤ n ∧ n < 2 ^ 30) := by
  have hlt : ∀ a < 2, Value.Ok [.block 0 0 [.long 100, .ptr 1], .string [104, 105]] (.ptr a) :=
    fun a ha => ha
  refine tree_getsBack_iff ⟨by decide, ?_⟩ (hlt 0 (by decide))
    (.block rfl (by simp) (.cons (.long 100) (.cons (.string rfl) .nil))) (by decide) [7]
  · intro obj hobj
    simp only [List.mem_cons, List.not_mem_nil, or_false] at hobj
    rcases hobj with rfl | rfl
    · refine ⟨by decide, by decide, by decide, fun v hv => ?_⟩
      simp only [List.mem_cons, List.not_mem_nil, or_false] at hv
      rcases hv with rfl | rfl
      · exact ⟨by decide, by decide⟩
      · exact hlt 1 (by decide)
    · exact (by decide : 2 < 2 ^ 57)

/-- The integer 2³⁰ is read as 0, and four bytes are left. -/
theorem wideInt_not_getsBack : ∃ bytes, externValue [] (.long (2 ^ 30)) = some bytes ∧
    inputValue bytes = .ok ⟨⟨[], []⟩, .int 0, [64, 0, 0, 0]⟩ ∧
    ¬ GetsBack [] (.long (2 ^ 30)) bytes [] := by
  have hread : inputValue (externBytes [.int (2 ^ 30)]) =
      .ok ⟨⟨[], []⟩, .int 0, [64, 0, 0, 0]⟩ := by decide
  refine ⟨externBytes [.int (2 ^ 30)], by decide, hread, ?_⟩
  rintro ⟨out, hout, -, hrest⟩
  rw [List.append_nil, hread] at hout
  cases hout
  cases hrest

end OcamlJit.Marshal

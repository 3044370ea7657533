/-
  OcamlJit.Marshal.Traversal
  ──────────────────────────
  **WHAT THE LOOP OF `extern_rec` WRITES, AS A RELATION.**

  `Item` are the four things a turn can do with a value, `Writes` the turns one
  after another.  Every value of a heap is written (`externRec_writes`): a turn
  is for the root or a field of a recorded object, and no object is recorded
  twice.
-/
import OcamlJit.Marshal.Graph

namespace OcamlJit.Marshal

/-! ## §1. Items. -/

/-- The first item of an object that is not a block of size 0. -/
def Obj.token : Obj → Token
  | .block tag color fields => .block tag color fields.length
  | .string bytes => .string bytes
  | .double bits => .double bits
  | .custom form boxed => .custom form boxed

/-- What a turn does with a value: the item, the recorded objects after it, and
the fields that come next. -/
inductive Item (heap : Heap) (order : List Nat) : Value → Token → List Nat → List Value → Prop where
  | int (n : Int) : Item heap order (.long n) (.int n) order []
  | atom {a tag color : Nat} (hobj : heap[a]? = some (.block tag color [])) :
      Item heap order (.ptr a) (.atom tag color) order []
  | shared {a : Nat} {obj : Obj} (hobj : heap[a]? = some obj) (hatom : obj.isAtom = false)
      (hmem : a ∈ order) :
      Item heap order (.ptr a) (.shared (order.length - order.idxOf a)) order []
  | new {a : Nat} {obj : Obj} (hobj : heap[a]? = some obj) (hatom : obj.isAtom = false)
      (hmem : a ∉ order) : Item heap order (.ptr a) obj.token (order ++ [a]) obj.fields

/-- What the writer does with a value is an item of it. -/
theorem externItem_item {heap : Heap} {order order' : List Nat} {v : Value} {token : Token}
    {fields : List Value} (h : externItem heap order v = some (token, order', fields)) :
    Item heap order v token order' fields := by
  cases v with
  | long n =>
      cases h
      exact .int n
  | ptr a =>
      obtain ⟨obj, hobj, h⟩ := Option.bind_eq_some_iff.mp h
      have hnew : ∀ token' fields', obj.isAtom = false → token' = obj.token →
          fields' = obj.fields →
          (if a ∈ order then (Token.shared (order.length - order.idxOf a), order, [])
            else (token', order ++ [a], fields')) = (token, order', fields) →
          Item heap order (.ptr a) token order' fields := by
        rintro token' fields' hatom rfl rfl h
        split at h
        · next hmem =>
            cases h
            exact .shared hobj hatom hmem
        · next hmem =>
            cases h
            exact .new hobj hatom hmem
      cases obj with
      -- an empty block is an atom, and never shared
      | block tag color fs =>
          simp only at h
          split at h
          · next hfs =>
              cases h
              subst hfs
              exact .atom hobj
          · next hfs =>
              cases fs with
              | nil => exact absurd rfl hfs
              | cons x xs => exact hnew _ _ rfl rfl rfl (Option.some.inj h)
      | string bytes => exact hnew _ _ rfl rfl rfl (Option.some.inj h)
      | double bits => exact hnew _ _ rfl rfl rfl (Option.some.inj h)
      | custom form boxed => exact hnew _ _ rfl rfl rfl (Option.some.inj h)

/-- And it does something with every value there is. -/
theorem externItem_isSome {heap : Heap} {v : Value} (order : List Nat) (hv : v.Ok heap) :
    ∃ token order' fields, externItem heap order v = some (token, order', fields) := by
  cases v with
  | long n => exact ⟨_, _, _, rfl⟩
  | ptr a =>
      have hobj : heap[a]? = some heap[a] := List.getElem?_eq_getElem hv
      simp only [externItem, hobj, Option.bind_eq_bind, Option.bind_some]
      cases heap[a] with
      | block tag color fields =>
          by_cases hfields : fields = []
          · exact ⟨_, _, _, if_pos hfields⟩
          · exact ⟨_, _, _, if_neg hfields⟩
      | string bytes => exact ⟨_, _, _, rfl⟩
      | double bits => exact ⟨_, _, _, rfl⟩
      | custom form boxed => exact ⟨_, _, _, rfl⟩

/-! ## §2. The turns. -/

/-- Fields to come, with no empty entry. -/
def pushFields (rest : List Value) (stack : List (List Value)) : List (List Value) :=
  if rest = [] then stack else rest :: stack

/-- The items written for a value and the fields on the stack. -/
inductive Writes (heap : Heap) : Value → List (List Value) → List Nat → List Token → Prop where
  | fields {v field0 : Value} {stack : List (List Value)} {order order' : List Nat}
      {token : Token} {rest : List Value} {tokens : List Token}
      (hitem : Item heap order v token order' (field0 :: rest))
      (hrest : Writes heap field0 (pushFields rest stack) order' tokens) :
      Writes heap v stack order (token :: tokens)
  | next {v v' : Value} {stack : List (List Value)} {order order' : List Nat} {token : Token}
      {rest : List Value} {tokens : List Token} (hitem : Item heap order v token order' [])
      (hrest : Writes heap v' (pushFields rest stack) order' tokens) :
      Writes heap v ((v' :: rest) :: stack) order (token :: tokens)
  | last {v : Value} {order order' : List Nat} {token : Token}
      (hitem : Item heap order v token order' []) : Writes heap v [] order [token]

theorem pushFields_ne_nil {rest : List Value} {stack : List (List Value)}
    (h : ∀ fields ∈ stack, fields ≠ []) : ∀ fields ∈ pushFields rest stack, fields ≠ [] := by
  unfold pushFields
  split
  · exact h
  · next hrest =>
      intro fields hmem
      rcases List.mem_cons.mp hmem with rfl | hmem
      · exact hrest
      · exact h fields hmem

/-- **A run of the writer's loop** writes the value and what is on the stack. -/
theorem externLoop_writes {heap : Heap} : ∀ (fuel : Nat) (v : Value) (stack : List (List Value))
    (order : List Nat) (out tokens : List Token), (∀ fields ∈ stack, fields ≠ []) →
    externLoop heap fuel v stack order out = some tokens →
    ∃ more, tokens = out ++ more ∧ Writes heap v stack order more
  | 0, _, _, _, _, _, _, h => by cases h
  | fuel + 1, v, stack, order, out, tokens, hstack, h => by
      obtain ⟨⟨token, order', fields⟩, hitem, h⟩ := Option.bind_eq_some_iff.mp h
      have hitem := externItem_item hitem
      cases fields with
      | cons field0 rest =>
          obtain ⟨more, rfl, hmore⟩ := externLoop_writes fuel field0 (pushFields rest stack)
            order' (out ++ [token]) tokens (pushFields_ne_nil hstack) h
          exact ⟨token :: more, by simp, .fields hitem hmore⟩
      | nil =>
          match stack, hstack, h with
          | [], _, h =>
              cases h
              exact ⟨[token], rfl, .last hitem⟩
          | [] :: stack, hstack, _ => exact absurd rfl (hstack [] (by simp))
          | (v' :: rest) :: stack, hstack, h =>
              obtain ⟨more, rfl, hmore⟩ := externLoop_writes fuel v' (pushFields rest stack)
                order' (out ++ [token]) tokens
                (pushFields_ne_nil fun fields hmem => hstack fields (by simp [hmem])) h
              exact ⟨token :: more, by simp, .next hitem hmore⟩

/-! ## §3. Every value is written. -/

/-- The fields of the objects that are not recorded, from object `k` on. -/
def fieldsLeft (order : List Nat) : Nat → Heap → Nat
  | _, [] => 0
  | k, obj :: heap =>
      (if k ∈ order then 0 else obj.fields.length) + fieldsLeft order (k + 1) heap

/-- At the start all fields are left. -/
theorem fieldsLeft_nil : ∀ (k : Nat) (heap : Heap),
    fieldsLeft [] k heap = (heap.map fun o => o.fields.length).sum
  | _, [] => rfl
  | k, obj :: heap => by
      rw [fieldsLeft, fieldsLeft_nil (k + 1) heap, if_neg (by simp), List.map_cons, List.sum_cons]

theorem mem_record {order : List Nat} {k a : Nat} (h : k ≠ a) :
    k ∈ order ++ [a] ↔ k ∈ order := by
  rw [List.mem_append, List.mem_singleton, or_iff_left h]

theorem fieldsLeft_before {order : List Nat} {a : Nat} : ∀ (k : Nat) (heap : Heap), a < k →
    fieldsLeft (order ++ [a]) k heap = fieldsLeft order k heap
  | _, [], _ => rfl
  | k, obj :: heap, hlt => by
      have hmem : k ∈ order ++ [a] ↔ k ∈ order := mem_record (by omega)
      rw [fieldsLeft, fieldsLeft, fieldsLeft_before (k + 1) heap (by omega)]
      simp only [hmem]

/-- An object that is met takes its fields away. -/
theorem fieldsLeft_record {order : List Nat} {a : Nat} {obj : Obj} (hmem : a ∉ order) :
    ∀ (k : Nat) (heap : Heap), k ≤ a → heap[a - k]? = some obj →
      fieldsLeft (order ++ [a]) k heap + obj.fields.length = fieldsLeft order k heap
  | _, [], _, h => by cases h
  | k, x :: heap, hle, h => by
      rw [fieldsLeft, fieldsLeft]
      by_cases heq : k = a
      · subst heq
        rw [Nat.sub_self] at h
        cases h
        rw [fieldsLeft_before (k + 1) heap (by omega), if_pos (by simp), if_neg hmem]
        omega
      · obtain ⟨j, hj⟩ := Nat.exists_eq_add_one_of_ne_zero (by omega : a - k ≠ 0)
        rw [hj] at h
        have ih := fieldsLeft_record hmem (k + 1) heap (by omega)
          (by rw [show a - (k + 1) = j by omega]; exact h)
        simp only [mem_record heq]
        omega

/-- The values of an object are values of the heap. -/
theorem HeapOk.fields {heap : Heap} (hheap : HeapOk heap) {a : Nat} {obj : Obj}
    (hobj : heap[a]? = some obj) : ∀ v ∈ obj.fields, v.Ok heap := by
  have hok := hheap.objects obj (List.mem_of_getElem? hobj)
  cases obj with
  | block tag color fields => exact hok.2.2.2
  | string bytes => nofun
  | double bits => nofun
  | custom form boxed => nofun

/-- A turn takes the fields it adds from the ones that are left. -/
theorem Item.left {heap : Heap} {order order' : List Nat} {v : Value} {token : Token}
    {fields : List Value} (h : Item heap order v token order' fields) :
    fields.length + fieldsLeft order' 0 heap = fieldsLeft order 0 heap := by
  cases h with
  | int n => exact Nat.zero_add _
  | atom hobj => exact Nat.zero_add _
  | shared hobj hatom hmem => exact Nat.zero_add _
  | new hobj hatom hmem =>
      have := fieldsLeft_record hmem 0 heap (Nat.zero_le _) hobj
      omega

/-- The fields of an item are values there are. -/
theorem Item.fields_ok {heap : Heap} (hheap : HeapOk heap) {order order' : List Nat} {v : Value}
    {token : Token} {fields : List Value} (h : Item heap order v token order' fields) :
    ∀ v ∈ fields, v.Ok heap := by
  cases h with
  | int n => nofun
  | atom hobj => nofun
  | shared hobj hatom hmem => nofun
  | new hobj hatom hmem => exact hheap.fields hobj

/-- Fields that are pushed come next. -/
theorem flatten_pushFields (rest : List Value) (stack : List (List Value)) :
    (pushFields rest stack).flatten = rest ++ stack.flatten := by
  unfold pushFields
  split
  · next h => rw [h, List.nil_append]
  · rfl

/-- **The loop comes to its end**: each object adds its fields once. -/
theorem externLoop_isSome {heap : Heap} (hheap : HeapOk heap) : ∀ (fuel : Nat) (v : Value)
    (stack : List (List Value)) (order : List Nat) (out : List Token),
    (∀ w ∈ v :: stack.flatten, w.Ok heap) → stack.flatten.length + fieldsLeft order 0 heap < fuel →
    ∃ tokens, externLoop heap fuel v stack order out = some tokens
  | 0, _, _, _, _, _, hfuel => by cases hfuel
  | fuel + 1, v, stack, order, out, hok, hfuel => by
      obtain ⟨token, order', fields, hv⟩ := externItem_isSome order (hok v (by simp))
      have hitem := externItem_item hv
      have hleft := hitem.left
      have hfields := hitem.fields_ok hheap
      unfold externLoop
      rw [hv]
      cases fields with
      -- the fields come from the object, which is recorded now
      | cons field0 rest =>
          refine externLoop_isSome hheap fuel field0 (pushFields rest stack) order' _ ?_ ?_
          · intro w hw
            rw [flatten_pushFields, ← List.cons_append, List.mem_append] at hw
            rcases hw with hw | hw
            · exact hfields w hw
            · exact hok w (by simp [hw])
          · rw [flatten_pushFields, List.length_append]
            rw [List.length_cons] at hleft
            omega
      | nil =>
          match stack, hok, hfuel with
          | [], _, _ => exact ⟨_, rfl⟩
          | [] :: stack, _, _ => exact ⟨_, rfl⟩
          -- one field less on the stack
          | (v' :: rest) :: stack, hok, hfuel =>
              refine externLoop_isSome hheap fuel v' (pushFields rest stack) order' _ ?_ ?_
              · intro w hw
                rw [flatten_pushFields] at hw
                refine hok w (List.mem_cons_of_mem _ ?_)
                rw [List.flatten_cons, List.cons_append]
                exact hw
              · rw [flatten_pushFields]
                rw [List.flatten_cons, List.cons_append, List.length_cons] at hfuel
                rw [List.length_nil] at hleft
                omega

/-- **Every value of a heap is written.** -/
theorem externRec_writes {heap : Heap} {v : Value} (hheap : HeapOk heap) (hv : v.Ok heap) :
    ∃ tokens, externRec heap v = some tokens ∧ Writes heap v [] [] tokens := by
  have hfuel : fieldsLeft [] 0 heap < externFuel heap := by
    rw [fieldsLeft_nil]
    exact Nat.lt_succ_self _
  obtain ⟨tokens, htokens⟩ := externLoop_isSome hheap (externFuel heap) v [] [] []
    (by simpa using hv) (by simpa using hfuel)
  obtain ⟨more, heq, hmore⟩ := externLoop_writes _ v [] [] [] tokens (by simp) htokens
  obtain rfl : tokens = more := heq
  exact ⟨tokens, htokens, hmore⟩

end OcamlJit.Marshal

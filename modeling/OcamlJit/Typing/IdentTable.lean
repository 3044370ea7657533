/-
  OcamlJit.Typing.IdentTable
  ──────────────────────────
  **TABLES OF IDENTS** (`ocaml/typing/ident.ml`).

  A table is a balanced tree by name; adding a name again hides what it had
  before.  In order a table is a sorted list of chains, whatever `balance` does to
  the tree (`inorder_balance`), and `add` inserts into that list
  (`inorder_add`).

    • `addAll_spec`    no `assert false` is reached, names are in order, a chain has
                       one name, and nothing is lost;
    • `bindings_perm`  `fold_all` comes to everything in the chains.
-/
import OcamlJit.Lib.Buckets
import Mathlib.Order.Compare

namespace OcamlJit.Typing

open OcamlJit.Lib

/-! ## §1. The source. -/

/-- `Ident.t`; a name is its bytes. -/
inductive Ident where
  | local_ (name : List UInt8) (stamp : Int)
  | scoped_ (name : List UInt8) (stamp scope : Int)
  | global (name : List UInt8)
  | predef (name : List UInt8) (stamp : Int)
  deriving Repr, DecidableEq

/-- `name`. -/
def Ident.name : Ident → List UInt8
  | .local_ name _ | .scoped_ name _ _ | .global name | .predef name _ => name

/-- `'a data option`. -/
inductive DataOption (α : Type) where
  | none
  | some (ident : Ident) (data : α) (previous : DataOption α)
  deriving Repr, DecidableEq

/-- `'a data`. -/
structure Data (α : Type) where
  ident : Ident
  data : α
  previous : DataOption α
  deriving Repr, DecidableEq

/-- `Some k`. -/
def Data.toOption {α : Type} (k : Data α) : DataOption α := .some k.ident k.data k.previous

/-- `'a tbl`. -/
inductive Tbl (α : Type) where
  | empty
  | node (l : Tbl α) (d : Data α) (r : Tbl α) (h : Nat)
  deriving Repr, DecidableEq

variable {α β : Type}

/-- The height of a table, as it is in the node. -/
def height : Tbl α → Nat
  | .empty => 0
  | .node _ _ _ h => h

/-- `mknode`. -/
def mknode (l : Tbl α) (d : Data α) (r : Tbl α) : Tbl α :=
  .node l d r (if height r ≤ height l then height l + 1 else height r + 1)

/-- `balance`; `none` is `assert false`. -/
def balance (l : Tbl α) (d : Data α) (r : Tbl α) : Option (Tbl α) :=
  if height r + 1 < height l then
    match l with
    | .node ll ld lr _ =>
        if height lr ≤ height ll then some (mknode ll ld (mknode lr d r))
        else match lr with
          | .node lrl lrd lrr _ => some (mknode (mknode ll ld lrl) lrd (mknode lrr d r))
          | .empty => none
    | .empty => none
  else if height l + 1 < height r then
    match r with
    | .node rl rd rr _ =>
        if height rl ≤ height rr then some (mknode (mknode l d rl) rd rr)
        else match rl with
          | .node rll rld rlr _ => some (mknode (mknode l d rll) rld (mknode rlr rd rr))
          | .empty => none
    | .empty => none
  else some (mknode l d r)

/-- `add`. -/
def add (id : Ident) (data : α) : Tbl α → Option (Tbl α)
  | .empty => some (.node .empty ⟨id, data, .none⟩ .empty 1)
  | .node l k r h =>
      match compare id.name k.ident.name with
      | .eq => some (.node l ⟨id, data, k.toOption⟩ r h)
      | .lt => do balance (← add id data l) k r
      | .gt => do balance l k (← add id data r)

/-- `fold_aux`. -/
def foldAux (f : Data α → β → β) (stack : List (Tbl α)) (accu : β) : Tbl α → β
  | .empty =>
      match stack with
      | [] => accu
      | a :: l => foldAux f l accu a
  | .node l k r _ => foldAux f (l :: stack) (f k accu) r
termination_by t => sizeOf t + sizeOf stack
decreasing_by
  · simp
    omega
  · cases k
    simp
    omega

/-- `fold_data`. -/
def foldData (f : Ident → α → β → β) (accu : β) : DataOption α → β
  | .none => accu
  | .some ident data previous => f ident data (foldData f accu previous)

/-- `fold_all`. -/
def foldAll (f : Ident → α → β → β) (tbl : Tbl α) (accu : β) : β :=
  foldAux (fun k accu => foldData f accu k.toOption) [] accu tbl

/-- Adding bindings one after the other to the empty table. -/
def addAll (added : List (Ident × α)) : Option (Tbl α) :=
  added.foldlM (fun tbl b => add b.1 b.2 tbl) .empty

/-- The bindings that `fold_all` comes to. -/
def bindings (tbl : Tbl α) : List (Ident × α) :=
  foldAll (fun ident data found => (ident, data) :: found) tbl []

/-! ## §2. Tables in order. -/

/-- The data of the nodes, by name. -/
def inorder : Tbl α → List (Data α)
  | .empty => []
  | .node l d r _ => inorder l ++ d :: inorder r

@[simp] theorem inorder_node (l : Tbl α) (d : Data α) (r : Tbl α) (h : Nat) :
    inorder (.node l d r h) = inorder l ++ d :: inorder r := rfl

@[simp] theorem inorder_mknode (l : Tbl α) (d : Data α) (r : Tbl α) :
    inorder (mknode l d r) = inorder l ++ d :: inorder r := rfl

/-- **`balance` is defined, and keeps the order.** -/
theorem inorder_balance (l : Tbl α) (d : Data α) (r : Tbl α) :
    ∃ t, balance l d r = some t ∧ inorder t = inorder l ++ d :: inorder r := by
  unfold balance
  by_cases hl : height r + 1 < height l
  · rw [if_pos hl]
    cases l with
    -- an empty table has height 0, so it is never too high
    | empty => exact absurd hl (Nat.not_lt_zero _)
    | node ll ld lr h =>
        dsimp only
        by_cases hll : height lr ≤ height ll
        · rw [if_pos hll]
          exact ⟨_, rfl, by simp⟩
        · rw [if_neg hll]
          cases lr with
          | empty => exact absurd (Nat.zero_le _) hll
          | node lrl lrd lrr _ => exact ⟨_, rfl, by simp⟩
  · rw [if_neg hl]
    by_cases hr : height l + 1 < height r
    · rw [if_pos hr]
      cases r with
      | empty => exact absurd hr (Nat.not_lt_zero _)
      | node rl rd rr h =>
          dsimp only
          by_cases hrr : height rl ≤ height rr
          · rw [if_pos hrr]
            exact ⟨_, rfl, by simp⟩
          · rw [if_neg hrr]
            cases rl with
            | empty => exact absurd (Nat.zero_le _) hrr
            | node rll rld rlr _ => exact ⟨_, rfl, by simp⟩
    · rw [if_neg hr]
      exact ⟨_, rfl, rfl⟩

/-- `add` on the data in order. -/
def insertData (id : Ident) (data : α) : List (Data α) → List (Data α)
  | [] => [⟨id, data, .none⟩]
  | k :: ks =>
      match compare id.name k.ident.name with
      | .eq => ⟨id, data, k.toOption⟩ :: ks
      | .lt => ⟨id, data, .none⟩ :: k :: ks
      | .gt => k :: insertData id data ks

section Insert

variable {id : Ident} {data : α} {k : Data α} {ks : List (Data α)}

/-- A name that is there shadows its older bindings. -/
theorem insertData_eq (h : compare id.name k.ident.name = .eq) :
    insertData id data (k :: ks) = ⟨id, data, k.toOption⟩ :: ks := by
  show (match compare id.name k.ident.name with | .eq => _ | .lt => _ | .gt => _) = _
  rw [h]

/-- A new name comes before the larger ones. -/
theorem insertData_lt (h : compare id.name k.ident.name = .lt) :
    insertData id data (k :: ks) = ⟨id, data, .none⟩ :: k :: ks := by
  show (match compare id.name k.ident.name with | .eq => _ | .lt => _ | .gt => _) = _
  rw [h]

/-- And after the smaller ones. -/
theorem insertData_gt (h : compare id.name k.ident.name = .gt) :
    insertData id data (k :: ks) = k :: insertData id data ks := by
  show (match compare id.name k.ident.name with | .eq => _ | .lt => _ | .gt => _) = _
  rw [h]

end Insert

/-- Names in order. -/
def Sorted (ks : List (Data α)) : Prop :=
  ks.Pairwise fun k k' => compare k.ident.name k'.ident.name = .lt

/-- What is after smaller names. -/
theorem insertData_append_of_gt (id : Ident) (data : α) (ks ks' : List (Data α))
    (h : ∀ k ∈ ks, compare id.name k.ident.name = .gt) :
    insertData id data (ks ++ ks') = ks ++ insertData id data ks' := by
  induction ks with
  | nil => rfl
  | cons k ks ih =>
      rw [List.cons_append, insertData_gt (h k List.mem_cons_self),
        ih fun k' hk' => h k' (List.mem_cons_of_mem _ hk')]
      rfl

/-- What is before a greater name. -/
theorem insertData_append_of_lt (id : Ident) (data : α) (k : Data α) (ks ks' : List (Data α))
    (h : compare id.name k.ident.name = .lt) :
    insertData id data (ks ++ k :: ks') = insertData id data ks ++ k :: ks' := by
  induction ks with
  | nil => exact insertData_lt h
  | cons c ks ih =>
      rw [List.cons_append]
      cases hcmp : compare id.name c.ident.name with
      | eq =>
          rw [insertData_eq hcmp, insertData_eq hcmp]
          rfl
      | lt =>
          rw [insertData_lt hcmp, insertData_lt hcmp]
          rfl
      | gt =>
          rw [insertData_gt hcmp, insertData_gt hcmp, ih]
          rfl

/-- **`add` inserts.** -/
theorem inorder_add (id : Ident) (data : α) (tbl : Tbl α) (hsorted : Sorted (inorder tbl)) :
    ∃ t, add id data tbl = some t ∧ inorder t = insertData id data (inorder tbl) := by
  induction tbl with
  | empty => exact ⟨_, rfl, rfl⟩
  | node l k r h ihl ihr =>
      obtain ⟨hl, hkr, hlk⟩ := List.pairwise_append.mp hsorted
      obtain ⟨-, hr⟩ := List.pairwise_cons.mp hkr
      -- names before `k` are smaller than what is not
      have hsmaller : compare id.name k.ident.name ≠ .lt →
          ∀ k' ∈ inorder l, compare id.name k'.ident.name = .gt := by
        intro hnot k' hk'
        have hlt : compare k'.ident.name k.ident.name = .lt := hlk k' hk' k List.mem_cons_self
        rw [Std.OrientedCmp.gt_iff_lt]
        cases hcmp : compare id.name k.ident.name with
        | lt => exact absurd hcmp hnot
        | eq =>
            rw [Std.LawfulEqCmp.compare_eq_iff_eq.mp hcmp]
            exact hlt
        | gt => exact Std.TransCmp.lt_trans hlt (Std.OrientedCmp.gt_iff_lt.mp hcmp)
      rw [inorder_node]
      unfold add
      cases hcmp : compare id.name k.ident.name with
      | eq =>
          refine ⟨_, rfl, ?_⟩
          rw [insertData_append_of_gt id data _ _ (hsmaller (by rw [hcmp]; simp)),
            insertData_eq hcmp]
          rfl
      -- to the left, and `balance` keeps the row
      | lt =>
          obtain ⟨l', hl', hin⟩ := ihl hl
          obtain ⟨t, ht, hint⟩ := inorder_balance l' k r
          refine ⟨t, ?_, ?_⟩
          · dsimp only
            rw [hl']
            exact ht
          · rw [hint, hin, insertData_append_of_lt id data k _ _ hcmp]
      | gt =>
          obtain ⟨r', hr', hin⟩ := ihr hr
          obtain ⟨t, ht, hint⟩ := inorder_balance l k r'
          refine ⟨t, ?_, ?_⟩
          · dsimp only
            rw [hr']
            exact ht
          · rw [hint, hin, insertData_append_of_gt id data _ _ (hsmaller (by rw [hcmp]; simp)),
              insertData_gt hcmp]

/-! ## §3. Chains. -/

/-- The bindings of a chain, newest first. -/
def DataOption.toList : DataOption α → List (Ident × α)
  | .none => []
  | .some ident data previous => (ident, data) :: previous.toList

/-- The binding of a node, and those that it hides. -/
def Data.bucket (k : Data α) : (Ident × α) × List (Ident × α) :=
  ((k.ident, k.data), k.previous.toList)

/-- Names are in order, and a chain has one name. -/
structure WellFormed (ks : List (Data α)) : Prop where
  sorted : Sorted ks
  same : ∀ k ∈ ks, ∀ b ∈ k.previous.toList, b.1.name = k.ident.name

/-- All bindings of some nodes. -/
def contents (ks : List (Data α)) : List (Ident × α) := Buckets.contents (ks.map Data.bucket)

@[simp] theorem contents_cons (k : Data α) (ks : List (Data α)) :
    contents (k :: ks) = (k.ident, k.data) :: (k.previous.toList ++ contents ks) := rfl

/-- The contents of two stretches. -/
theorem contents_append (ks ks' : List (Data α)) :
    contents (ks ++ ks') = contents ks ++ contents ks' := by
  unfold contents Buckets.contents
  rw [List.map_append, List.flatMap_append]

/-- Names are told apart in a well-formed row. -/
theorem WellFormed.keyed {ks : List (Data α)} (h : WellFormed ks) :
    Buckets.Keyed (fun b => b.1.name) (ks.map Data.bucket) := by
  constructor
  · intro b hb
    obtain ⟨k, hk, rfl⟩ := List.mem_map.mp hb
    exact h.same k hk
  · have hnames : (Buckets.tops (ks.map Data.bucket)).map (fun b => b.1.name) =
        ks.map fun k => k.ident.name := by
      unfold Buckets.tops
      rw [List.map_map, List.map_map]
      rfl
    rw [hnames]
    refine List.pairwise_map.mpr (h.sorted.imp fun {k k'} hlt heq => ?_)
    have hcmp : compare k.ident.name k'.ident.name = .eq :=
      Std.LawfulEqCmp.compare_eq_iff_eq.mpr heq
    rw [hlt] at hcmp
    cases hcmp

/-- An insertion brings no other name. -/
theorem name_of_mem_insertData {id : Ident} {data : α} {x : Data α} {ks : List (Data α)}
    (h : x ∈ insertData id data ks) :
    x.ident.name = id.name ∨ ∃ k ∈ ks, x.ident.name = k.ident.name := by
  induction ks with
  | nil =>
      rw [List.mem_singleton.mp h]
      exact .inl rfl
  | cons k ks ih =>
      cases hcmp : compare id.name k.ident.name with
      | eq =>
          rw [insertData_eq hcmp] at h
          rcases List.mem_cons.mp h with rfl | h
          · exact .inl rfl
          · exact .inr ⟨x, List.mem_cons_of_mem _ h, rfl⟩
      | lt =>
          rw [insertData_lt hcmp] at h
          rcases List.mem_cons.mp h with rfl | h
          · exact .inl rfl
          · exact .inr ⟨x, h, rfl⟩
      | gt =>
          rw [insertData_gt hcmp] at h
          rcases List.mem_cons.mp h with rfl | h
          · exact .inr ⟨x, List.mem_cons_self, rfl⟩
          · rcases ih h with hid | ⟨k', hk', hname⟩
            · exact .inl hid
            · exact .inr ⟨k', List.mem_cons_of_mem _ hk', hname⟩

/-- **An insertion keeps the row well formed.** -/
theorem wellFormed_insertData (id : Ident) (data : α) {ks : List (Data α)} (h : WellFormed ks) :
    WellFormed (insertData id data ks) := by
  induction ks with
  | nil =>
      refine ⟨List.pairwise_singleton _ _, ?_⟩
      intro k hk b hb
      rw [List.mem_singleton.mp hk] at hb
      cases hb
  | cons k ks ih =>
      obtain ⟨hk, hks⟩ := List.pairwise_cons.mp h.sorted
      have hsame : ∀ k' ∈ ks, ∀ b ∈ k'.previous.toList, b.1.name = k'.ident.name := fun k' hk' =>
        h.same k' (List.mem_cons_of_mem _ hk')
      cases hcmp : compare id.name k.ident.name with
      | eq =>
          -- `k` is hidden under the same name
          rw [insertData_eq hcmp]
          have hname := Std.LawfulEqCmp.compare_eq_iff_eq.mp hcmp
          constructor
          · refine List.pairwise_cons.mpr ⟨fun k' hk' => ?_, hks⟩
            show compare id.name _ = _
            rw [hname]
            exact hk k' hk'
          · intro k' hk' b hb
            rcases List.mem_cons.mp hk' with rfl | hk'
            · show b.1.name = id.name
              rw [hname]
              rcases List.mem_cons.mp hb with rfl | hb
              · rfl
              · exact h.same k List.mem_cons_self b hb
            · exact hsame k' hk' b hb
      -- the new name comes first
      | lt =>
          rw [insertData_lt hcmp]
          constructor
          · refine List.pairwise_cons.mpr ⟨fun k' hk' => ?_, h.sorted⟩
            rcases List.mem_cons.mp hk' with rfl | hk'
            · exact hcmp
            · exact Std.TransCmp.lt_trans hcmp (hk k' hk')
          · intro k' hk' b hb
            rcases List.mem_cons.mp hk' with rfl | hk'
            · cases hb
            · exact h.same k' hk' b hb
      | gt =>
          rw [insertData_gt hcmp]
          have hrest := ih ⟨hks, hsame⟩
          -- what comes after `k` now is the new name or was there
          constructor
          · refine List.pairwise_cons.mpr ⟨fun k' hk' => ?_, hrest.sorted⟩
            rcases name_of_mem_insertData hk' with hname | ⟨c, hc, hname⟩
            · rw [hname]
              exact Std.OrientedCmp.gt_iff_lt.mp hcmp
            · rw [hname]
              exact hk c hc
          · intro k' hk' b hb
            rcases List.mem_cons.mp hk' with rfl | hk'
            · exact h.same k' List.mem_cons_self b hb
            · exact hrest.same k' hk' b hb

/-- One binding more. -/
theorem contents_insertData (id : Ident) (data : α) (ks : List (Data α)) :
    (contents (insertData id data ks)).Perm ((id, data) :: contents ks) := by
  induction ks with
  | nil => exact .refl _
  | cons k ks ih =>
      cases hcmp : compare id.name k.ident.name with
      | eq =>
          rw [insertData_eq hcmp]
          exact .refl _
      | lt =>
          rw [insertData_lt hcmp]
          exact .refl _
      | gt =>
          rw [insertData_gt hcmp, contents_cons, contents_cons]
          have hperm : (k.previous.toList ++ contents (insertData id data ks)).Perm
              ((id, data) :: (k.previous.toList ++ contents ks)) :=
            (ih.append_left _).trans List.perm_middle
          exact (hperm.cons _).trans (.swap ..)

/-! ## §4. Any sequence of additions. -/

/-- **Adding keeps tables well formed, and nothing is lost.** -/
theorem addAll_spec (added : List (Ident × α)) : ∃ tbl, addAll added = some tbl ∧
    WellFormed (inorder tbl) ∧ (contents (inorder tbl)).Perm added := by
  have hfrom : ∀ (added : List (Ident × α)) (tbl₀ : Tbl α), WellFormed (inorder tbl₀) →
      ∃ tbl, added.foldlM (fun tbl b => add b.1 b.2 tbl) tbl₀ = some tbl ∧
        WellFormed (inorder tbl) ∧
        (contents (inorder tbl)).Perm (added ++ contents (inorder tbl₀)) := by
    intro added
    induction added with
    | nil =>
        intro tbl₀ h
        exact ⟨tbl₀, rfl, h, .refl _⟩
    | cons b added ih =>
        intro tbl₀ h
        obtain ⟨tbl₁, hadd, hin⟩ := inorder_add b.1 b.2 tbl₀ h.sorted
        obtain ⟨tbl, hall, hwf, hperm⟩ := ih tbl₁ (hin ▸ wellFormed_insertData b.1 b.2 h)
        refine ⟨tbl, ?_, hwf, hperm.trans ?_⟩
        · rw [List.foldlM_cons, hadd]
          exact hall
        · rw [hin]
          exact ((contents_insertData b.1 b.2 _).append_left added).trans List.perm_middle
  obtain ⟨tbl, hall, hwf, hperm⟩ := hfrom added .empty
    ⟨List.Pairwise.nil, fun k hk => absurd hk List.not_mem_nil⟩
  exact ⟨tbl, hall, hwf, hperm.trans (by rw [show contents (inorder (.empty : Tbl α)) = [] from rfl,
    List.append_nil])⟩

/-- A fold over the bindings of a name lists them. -/
theorem foldData_toList (accu : List (Ident × α)) (d : DataOption α) :
    foldData (fun ident data found => (ident, data) :: found) accu d = d.toList ++ accu := by
  induction d with
  | none => rfl
  | some ident data previous ih => exact congrArg ((ident, data) :: ·) ih

/-- What is on the stack comes out too. -/
theorem foldAux_perm (stack : List (Tbl α)) (accu : List (Ident × α)) (tbl : Tbl α) :
    (foldAux (fun k accu => foldData (fun ident data found => (ident, data) :: found) accu
      k.toOption) stack accu tbl).Perm (contents ((tbl :: stack).flatMap inorder) ++ accu) := by
  induction stack, accu, tbl using foldAux.induct
      (fun k accu => foldData (fun ident data found => (ident, data) :: found) accu k.toOption) with
  | case1 accu =>
      unfold foldAux
      exact .refl _
  | case2 accu a l ih =>
      unfold foldAux
      exact ih
  | case3 stack accu l k r h ih =>
      unfold foldAux
      refine ih.trans ?_
      rw [foldData_toList, List.flatMap_cons, List.flatMap_cons, List.flatMap_cons, inorder_node]
      simp only [contents_append]
      -- the same lists in another order
      classical
      refine List.perm_iff_count.mpr fun b => ?_
      rw [contents_cons, show k.toOption.toList = (k.ident, k.data) :: k.previous.toList from rfl]
      simp only [List.count_append, List.count_cons]
      omega

/-- **`fold_all` comes to all bindings.** -/
theorem bindings_perm (tbl : Tbl α) : (bindings tbl).Perm (contents (inorder tbl)) := by
  have h := foldAux_perm [] [] tbl
  rw [List.flatMap_cons, List.flatMap_nil, List.append_nil, List.append_nil] at h
  exact h

end OcamlJit.Typing

/-
  OcamlJit.BytecodeFiles.EnvTable
  ───────────────────────────────
  **WHAT IS READ OF A TABLE** (`debug_events.rs`, `parse_env_table`, against
  `ocaml/typing/ident.ml`).

  `HoldsTbl` says that a value in the blocks is a table, with any sharing.  From
  such a value the loop takes the top of every chain, root first and right before
  left (`envTableLoop_ok`), and never looks at `previous`.

    • `parseEnvTable_eachOnce_iff`   every binding comes out exactly when no name
                                     was added twice and all are UTF-8.
-/
import OcamlJit.BytecodeFiles.DebugEvents
import OcamlJit.Marshal.Sync
import OcamlJit.Typing.IdentTable

namespace OcamlJit.BytecodeFiles

open OcamlJit.Lib OcamlJit.Marshal
open OcamlJit.Typing (Tbl Data DataOption addAll inorder contents)

/-! ## §1. Tables in blocks. -/

section Holds

variable (blocks : MLValueBlocks)

/-- The value is the string. -/
def HoldsString (v : MLValue) (bytes : List UInt8) : Prop :=
  ∃ id, v = .string id ∧ blocks.strings[id]? = some (.ofBytes bytes)

/-- The value is the ident: the constructors have tags in order. -/
def HoldsIdent (v : MLValue) : Typing.Ident → Prop
  | .local_ name stamp => ∃ b s, v = .block b ∧
      blocks.blocks[b]? = some ⟨0, [s, .int stamp]⟩ ∧ HoldsString blocks s name
  | .scoped_ name stamp scope => ∃ b s, v = .block b ∧
      blocks.blocks[b]? = some ⟨1, [s, .int stamp, .int scope]⟩ ∧ HoldsString blocks s name
  | .global name => ∃ b s, v = .block b ∧
      blocks.blocks[b]? = some ⟨2, [s]⟩ ∧ HoldsString blocks s name
  | .predef name stamp => ∃ b s, v = .block b ∧
      blocks.blocks[b]? = some ⟨3, [s, .int stamp]⟩ ∧ HoldsString blocks s name

/-- The value is the chain. -/
def HoldsDataOption : MLValue → DataOption Int → Prop
  | v, .none => v = .int 0
  | v, .some ident data previous => ∃ b d identValue previousValue, v = .block b ∧
      blocks.blocks[b]? = some ⟨0, [.block d]⟩ ∧
      blocks.blocks[d]? = some ⟨0, [identValue, .int data, previousValue]⟩ ∧
      HoldsIdent blocks identValue ident ∧ HoldsDataOption previousValue previous

/-- The block is the record. -/
def HoldsData (d : Nat) (k : Data Int) : Prop :=
  ∃ identValue previousValue,
    blocks.blocks[d]? = some ⟨0, [identValue, .int k.data, previousValue]⟩ ∧
    HoldsIdent blocks identValue k.ident ∧ HoldsDataOption blocks previousValue k.previous

/-- The value is the table. -/
def HoldsTbl : MLValue → Tbl Int → Prop
  | v, .empty => v = .int 0
  | v, .node l k r h => ∃ b lv d rv, v = .block b ∧
      blocks.blocks[b]? = some ⟨0, [lv, .block d, rv, .int h]⟩ ∧
      HoldsTbl lv l ∧ HoldsData blocks d k ∧ HoldsTbl rv r

end Holds

/-- The bytes are UTF-8. -/
def IsUtf8 (bytes : List UInt8) : Prop := (String.fromUTF8? ⟨bytes.toArray⟩).isSome

/-- The ident in the compiler. -/
def Ident.toOcaml : Ident → Typing.Ident
  | .local_ name stamp => .local_ (MLValueString.utf8 name).toBytes stamp
  | .scoped_ name stamp scope => .scoped_ (MLValueString.utf8 name).toBytes stamp scope
  | .global name => .global (MLValueString.utf8 name).toBytes
  | .predef name stamp => .predef (MLValueString.utf8 name).toBytes stamp

/-- What was found, as a binding of the table. -/
def binding (p : Int × Ident) : Typing.Ident × Int := (p.2.toOcaml, p.1)

/-- Every binding of the table is there once, by number. -/
structure EachOnce (found : List (Int × Ident)) (tbl : Tbl Int) : Prop where
  perm : (found.map binding).Perm (Typing.bindings tbl)
  sorted : found.Pairwise fun p q => p.1 ≤ q.1

/-! ## §2. Idents. -/

variable {blocks : MLValueBlocks}

theorem isUtf8_iff {bytes : List UInt8} :
    IsUtf8 bytes ↔ ∃ s, MLValueString.ofBytes bytes = .utf8 s := by
  unfold IsUtf8 MLValueString.ofBytes
  cases String.fromUTF8? ⟨bytes.toArray⟩ with
  | none => simp
  | some s => simp

theorem Strings.get_holds {id : Nat} {bytes : List UInt8}
    (h : HoldsString blocks (.string id) bytes) (st : Strings blocks) :
    (IsUtf8 bytes ∧ ∃ s st', Strings.get id st = .ok (s, st') ∧
        (MLValueString.utf8 s).toBytes = bytes) ∨
      ¬ IsUtf8 bytes ∧ ∃ e, Strings.get id st = err e := by
  obtain ⟨id', hid, hstring⟩ := h
  cases hid
  rcases st.get_eq id with ⟨s, st', hs, hget⟩ | ⟨hnone, hget⟩
  · rw [hstring] at hs
    have hutf8 := Option.some.inj hs
    refine .inl ⟨isUtf8_iff.mpr ⟨s, hutf8⟩, s, st', hget, ?_⟩
    rw [← hutf8]
    exact MLValueString.toBytes_ofBytes bytes
  · refine .inr ⟨fun hutf8 => ?_, _, hget⟩
    obtain ⟨s, hs⟩ := isUtf8_iff.mp hutf8
    exact hnone s (by rw [hstring, hs])

/-- A name, and an ident with it. -/
theorem Strings.get_ident {id : Nat} {bytes : List UInt8} {ident : Typing.Ident}
    (h : HoldsString blocks (.string id) bytes) (make : String → Ident)
    (hmake : ∀ s, (MLValueString.utf8 s).toBytes = bytes → (make s).toOcaml = ident)
    (st : Strings blocks) :
    (IsUtf8 bytes ∧ ∃ found st', (do
        let name ← Strings.get id
        pure (make name) : Parse blocks Ident) st = .ok (found, st') ∧ found.toOcaml = ident) ∨
      ¬ IsUtf8 bytes ∧ ∃ e, (do
        let name ← Strings.get id
        pure (make name) : Parse blocks Ident) st = err e := by
  rcases Strings.get_holds h st with ⟨hutf8, s, st', hget, hs⟩ | ⟨hnot, e, hget⟩
  · refine .inl ⟨hutf8, make s, st', ?_, hmake s hs⟩
    show (Strings.get id st >>= fun p => _) = _
    rw [hget]
    rfl
  · refine .inr ⟨hnot, e, ?_⟩
    show (Strings.get id st >>= fun p => _) = _
    rw [hget]
    rfl

/-- **An ident is read if its name is UTF-8, and as it is.** -/
theorem parseIdent_holds {v : MLValue} {ident : Typing.Ident} (h : HoldsIdent blocks v ident)
    (st : Strings blocks) :
    (IsUtf8 ident.name ∧ ∃ found st', parseIdent v st = .ok (found, st') ∧
        found.toOcaml = ident) ∨
      ¬ IsUtf8 ident.name ∧ ∃ e, parseIdent v st = err e := by
  cases ident with
  | local_ name stamp =>
      obtain ⟨b, _, rfl, hb, ⟨id, rfl, hs⟩⟩ := h
      unfold parseIdent
      simp only [hb]
      exact Strings.get_ident ⟨id, rfl, hs⟩ (fun s => .local_ s stamp)
        (fun s h => congrArg (Typing.Ident.local_ · stamp) h) st
  | scoped_ name stamp scope =>
      obtain ⟨b, _, rfl, hb, ⟨id, rfl, hs⟩⟩ := h
      unfold parseIdent
      simp only [hb]
      exact Strings.get_ident ⟨id, rfl, hs⟩ (fun s => .scoped_ s stamp scope)
        (fun s h => congrArg (Typing.Ident.scoped_ · stamp scope) h) st
  | global name =>
      obtain ⟨b, _, rfl, hb, ⟨id, rfl, hs⟩⟩ := h
      unfold parseIdent
      simp only [hb]
      exact Strings.get_ident ⟨id, rfl, hs⟩ .global
        (fun s h => congrArg Typing.Ident.global h) st
  | predef name stamp =>
      obtain ⟨b, _, rfl, hb, ⟨id, rfl, hs⟩⟩ := h
      unfold parseIdent
      simp only [hb]
      exact Strings.get_ident ⟨id, rfl, hs⟩ (fun s => .predef s stamp)
        (fun s h => congrArg (Typing.Ident.predef · stamp) h) st

/-! ## §3. The loop. -/

/-- The tops of the chains, as the loop comes to them. -/
def preorder : Tbl Int → List (Typing.Ident × Int)
  | .empty => []
  | .node l k r _ => (k.ident, k.data) :: (preorder r ++ preorder l)

/-- The turns that a table takes. -/
def turnsOf : Tbl Int → Nat
  | .empty => 1
  | .node l _ r _ => turnsOf l + turnsOf r + 1

theorem tableNode_empty {v : MLValue} (h : HoldsTbl blocks v .empty) :
    tableNode blocks v = .ok none := by
  obtain rfl : v = .int 0 := h
  rfl

/-- What the loop sees of a node. -/
theorem tableNode_node {v : MLValue} {l r : Tbl Int} {k : Data Int} {h : Nat}
    (hv : HoldsTbl blocks v (.node l k r h)) : ∃ lv rv identValue,
      tableNode blocks v = .ok (some (lv, rv, k.data, identValue)) ∧
      HoldsTbl blocks lv l ∧ HoldsTbl blocks rv r ∧ HoldsIdent blocks identValue k.ident := by
  obtain ⟨b, lv, d, rv, rfl, hb, hl, ⟨identValue, previousValue, hd, hident, -⟩, hr⟩ := hv
  refine ⟨lv, rv, identValue, ?_, hl, hr, hident⟩
  simp only [tableNode, hb, tableData, hd]
  rfl

/-- The turn of an empty table. -/
theorem envTableLoop_empty {v : MLValue} (hv : HoldsTbl blocks v .empty) (n : Nat)
    (vs : List MLValue) (found : List (Int × Ident)) (st : Strings blocks) :
    envTableLoop (n + 1) (v :: vs) found st = envTableLoop n vs found st := by
  rw [envTableLoop, tableNode_empty hv]
  rfl

/-- The turn of a node. -/
theorem envTableLoop_node {v l r identValue : MLValue} {data : Int}
    (hnode : tableNode blocks v = .ok (some (l, r, data, identValue))) (n : Nat)
    (vs : List MLValue) (found : List (Int × Ident)) (st : Strings blocks) :
    envTableLoop (n + 1) (v :: vs) found st = parseIdent identValue st >>= fun p =>
      envTableLoop n (r :: l :: vs) (found ++ [(data, p.1)]) p.2 := by
  rw [envTableLoop, hnode]
  rfl

/-- **What the loop finds are the tops of the chains**, and their names are
UTF-8. -/
theorem envTableLoop_ok (n : Nat) : ∀ {vs : List MLValue} {ts : List (Tbl Int)}
    {found found' : List (Int × Ident)} {st st' : Strings blocks},
    List.Forall₂ (HoldsTbl blocks) vs ts → envTableLoop n vs found st = .ok (found', st') →
    found'.map binding = found.map binding ++ ts.flatMap preorder ∧
      ∀ b ∈ ts.flatMap preorder, IsUtf8 b.1.name := by
  induction n with
  | zero =>
      intro vs ts found found' st st' _ h
      cases h
  | succ n ih =>
      intro vs ts found found' st st' hvs h
      cases hvs with
      | nil =>
          cases h
          exact ⟨(List.append_nil _).symm, fun b hb => absurd hb List.not_mem_nil⟩
      | @cons v t vs ts hv hvs =>
          cases t with
          | empty =>
              rw [envTableLoop_empty hv] at h
              have hrest := ih hvs h
              exact hrest
          | node l k r height =>
              obtain ⟨lv, rv, identValue, hnode, hl, hr, hident⟩ := tableNode_node hv
              rw [envTableLoop_node hnode] at h
              obtain ⟨⟨ident, st₁⟩, hparse, h⟩ := bind_eq_ok.mp h
              obtain ⟨heq, hutf8⟩ := ih (.cons hr (.cons hl hvs)) h
              -- the loop went on, so the name of this node is UTF-8
              have hfound : IsUtf8 k.ident.name ∧ ident.toOcaml = k.ident := by
                rcases parseIdent_holds hident st with ⟨hname, i, st₂, hi, heq⟩ | ⟨-, e, he⟩
                · rw [hparse] at hi
                  cases hi
                  exact ⟨hname, heq⟩
                · rw [hparse] at he
                  cases he
              -- the node comes first, then the right chain, then the left one
              constructor
              · rw [heq, List.map_append, List.map_cons, List.map_nil, binding, hfound.2]
                simp [preorder]
              · intro b hb
                rw [List.flatMap_cons] at hb
                rcases List.mem_append.mp hb with hb | hb
                · rcases List.mem_cons.mp hb with rfl | hb
                  · exact hfound.1
                  · refine hutf8 b ?_
                    rw [List.flatMap_cons, List.flatMap_cons, ← List.append_assoc]
                    exact List.mem_append_left _ hb
                · refine hutf8 b ?_
                  rw [List.flatMap_cons, List.flatMap_cons]
                  exact List.mem_append_right _ (List.mem_append_right _ hb)

/-- **The loop comes to an end if they are.** -/
theorem envTableLoop_returns (n : Nat) : ∀ {vs : List MLValue} {ts : List (Tbl Int)}
    (found : List (Int × Ident)) (st : Strings blocks),
    List.Forall₂ (HoldsTbl blocks) vs ts → (∀ b ∈ ts.flatMap preorder, IsUtf8 b.1.name) →
    (ts.map turnsOf).sum < n → ∃ found' st', envTableLoop n vs found st = .ok (found', st') := by
  induction n with
  | zero =>
      intro vs ts found st _ _ hn
      exact absurd hn (Nat.not_lt_zero _)
  | succ n ih =>
      intro vs ts found st hvs hutf8 hn
      cases hvs with
      | nil => exact ⟨found, st, rfl⟩
      | @cons v t vs ts hv hvs =>
          rw [List.map_cons, List.sum_cons] at hn
          rw [List.flatMap_cons] at hutf8
          cases t with
          | empty =>
              rw [envTableLoop_empty hv]
              exact ih found st hvs hutf8 (by rw [turnsOf] at hn; omega)
          | node l k r height =>
              obtain ⟨lv, rv, identValue, hnode, hl, hr, hident⟩ := tableNode_node hv
              rw [envTableLoop_node hnode]
              rcases parseIdent_holds hident st with ⟨-, i, st₁, hi, -⟩ | ⟨hnot, -⟩
              · rw [hi]
                refine ih (found ++ [(k.data, i)]) st₁ (.cons hr (.cons hl hvs)) ?_ ?_
                · intro b hb
                  refine hutf8 b ?_
                  rw [List.flatMap_cons, List.flatMap_cons, ← List.append_assoc] at hb
                  exact List.mem_cons_of_mem _ hb
                · rw [turnsOf] at hn
                  simp only [List.map_cons, List.sum_cons]
                  omega
              · exact absurd (hutf8 _ (List.mem_append_left _ List.mem_cons_self)) hnot

/-! ## §4. Every binding once. -/

theorem preorder_perm (tbl : Tbl Int) :
    (preorder tbl).Perm (Buckets.tops ((inorder tbl).map Data.bucket)) := by
  induction tbl with
  | empty => exact .refl _
  | node l k r h ihl ihr =>
      have hsplit : Buckets.tops ((inorder (.node l k r h)).map Data.bucket) =
          Buckets.tops ((inorder l).map Data.bucket) ++
            (k.ident, k.data) :: Buckets.tops ((inorder r).map Data.bucket) := by
        unfold Buckets.tops
        rw [Typing.inorder_node, List.map_append, List.map_append]
        rfl
      rw [hsplit]
      refine ((ihr.append ihl).trans List.perm_append_comm).cons _ |>.trans ?_
      exact List.perm_middle.symm

theorem sorted_sortByKey (found : List (Int × Ident)) :
    (sortByKey found).Pairwise fun p q => p.1 ≤ q.1 := by
  have htrans : ∀ p q r : Int × Ident, decide (p.1 ≤ q.1) = true → decide (q.1 ≤ r.1) = true →
      decide (p.1 ≤ r.1) = true := by
    intro p q r hpq hqr
    exact decide_eq_true (Int.le_trans (of_decide_eq_true hpq) (of_decide_eq_true hqr))
  have htotal : ∀ p q : Int × Ident, (decide (p.1 ≤ q.1) || decide (q.1 ≤ p.1)) = true := by
    intro p q
    rw [Bool.or_eq_true, decide_eq_true_eq, decide_eq_true_eq]
    exact Int.le_total p.1 q.1
  exact (List.pairwise_mergeSort htrans htotal found).imp of_decide_eq_true

/-- **What is returned are the tops of the chains**, by number. -/
theorem parseEnvTable_ok {n : Nat} {v : MLValue} {tbl : Tbl Int} (hv : HoldsTbl blocks v tbl)
    {found : List (Int × Ident)} {st st' : Strings blocks}
    (h : parseEnvTable n v st = .ok (found, st')) :
    (found.map binding).Perm (preorder tbl) ∧ (found.Pairwise fun p q => p.1 ≤ q.1) ∧
      ∀ b ∈ preorder tbl, IsUtf8 b.1.name := by
  obtain ⟨inTurn, st₁, hloop, h⟩ := stateT_bind_eq_ok.mp h
  obtain ⟨rfl, -⟩ := stateT_pure_eq_ok.mp h
  obtain ⟨heq, hutf8⟩ := envTableLoop_ok n (.cons hv .nil) hloop
  rw [List.flatMap_cons, List.flatMap_nil, List.append_nil] at heq hutf8
  refine ⟨?_, sorted_sortByKey inTurn, hutf8⟩
  have hsort : (sortByKey inTurn).Perm inTurn := List.mergeSort_perm ..
  exact (hsort.map binding).trans (.of_eq heq)

/-- It is returned if the names are UTF-8. -/
theorem parseEnvTable_returns {v : MLValue} {tbl : Tbl Int} (hv : HoldsTbl blocks v tbl)
    (hutf8 : ∀ b ∈ preorder tbl, IsUtf8 b.1.name) (st : Strings blocks) :
    ∃ n found st', parseEnvTable n v st = .ok (found, st') := by
  obtain ⟨found, st', hloop⟩ := envTableLoop_returns (turnsOf tbl + 1) [] st
    (.cons hv .nil) (by simpa using hutf8) (by simp)
  exact ⟨_, _, st', stateT_bind_eq_ok.mpr ⟨found, st', hloop, rfl⟩⟩

/-- A result with every binding shows that the tops are all there is. -/
theorem EachOnce.tops_perm {n : Nat} {v : MLValue} {tbl : Tbl Int} (hv : HoldsTbl blocks v tbl)
    {found : List (Int × Ident)} {st st' : Strings blocks}
    (h : parseEnvTable n v st = .ok (found, st')) (honce : EachOnce found tbl) :
    (Buckets.tops ((inorder tbl).map Data.bucket)).Perm (contents (inorder tbl)) := by
  have htops := (parseEnvTable_ok hv h).1
  exact ((preorder_perm tbl).symm.trans htops.symm).trans
    (honce.perm.trans (Typing.bindings_perm tbl))

/-- **`parse_env_table` returns every binding of a table that was built by
additions if and only if no name was added twice and all names are UTF-8.** -/
theorem parseEnvTable_eachOnce_iff (added : List (Typing.Ident × Int)) (tbl : Tbl Int)
    (hadded : addAll added = some tbl) (blocks : MLValueBlocks) (v : MLValue)
    (hv : HoldsTbl blocks v tbl) (st : Strings blocks) :
    (∃ n found st', parseEnvTable n v st = .ok (found, st') ∧ EachOnce found tbl) ↔
      (added.map fun b => b.1.name).Nodup ∧ ∀ b ∈ added, IsUtf8 b.1.name := by
  obtain ⟨tbl', hadded', hwf, hadds⟩ := Typing.addAll_spec added
  obtain rfl : tbl' = tbl := Option.some.inj (hadded'.symm.trans hadded)
  have htops := Buckets.tops_perm_iff hwf.keyed
  have hnames : ((contents (inorder tbl')).map fun b => b.1.name).Nodup ↔
      (added.map fun b => b.1.name).Nodup := (hadds.map _).nodup_iff
  constructor
  · intro h
    obtain ⟨n, found, st', hparse, honce⟩ := h
    -- the tops are returned, so nothing is below them
    have hall := honce.tops_perm hv hparse
    refine ⟨hnames.mp (htops.mp hall), fun b hb => ?_⟩
    refine (parseEnvTable_ok hv hparse).2.2 b ?_
    exact (((preorder_perm tbl').trans hall).trans hadds).mem_iff.mpr hb
  · intro h
    obtain ⟨hnodup, hutf8⟩ := h
    -- no chain has a second binding, so the tops are all
    have hall := (preorder_perm tbl').trans (htops.mpr (hnames.mpr hnodup))
    obtain ⟨n, found, st', hparse⟩ := parseEnvTable_returns hv
      (fun b hb => hutf8 b ((hall.trans hadds).mem_iff.mp hb)) st
    obtain ⟨hperm, hsorted, -⟩ := parseEnvTable_ok hv hparse
    refine ⟨n, found, st', hparse, ?_, hsorted⟩
    exact (hperm.trans hall).trans (Typing.bindings_perm tbl').symm

/-- A table with one name, added twice, and its blocks. -/
def shadowedBlocks : MLValueBlocks :=
  ⟨[⟨0, [.int 0, .block 1, .int 0, .int 1]⟩, ⟨0, [.block 2, .int 1, .block 3]⟩,
    ⟨0, [.string 0, .int 8]⟩, ⟨0, [.block 4]⟩, ⟨0, [.block 5, .int 0, .int 0]⟩,
    ⟨0, [.string 0, .int 7]⟩], [.ofBytes [0x78]]⟩

/-- Two variables `x`: the first has slot 0, the second slot 1. -/
theorem parseEnvTable_shadowed : ∃ tbl,
    addAll [(.local_ [0x78] 7, 0), (.local_ [0x78] 8, 1)] = some tbl ∧
    HoldsTbl shadowedBlocks (.block 0) tbl ∧
    ∀ st : Strings shadowedBlocks, ¬ ∃ n found st',
      parseEnvTable n (.block 0) st = .ok (found, st') ∧ EachOnce found tbl := by
  have hname : HoldsString shadowedBlocks (.string 0) [0x78] := ⟨0, rfl, rfl⟩
  have hv : HoldsTbl shadowedBlocks (.block 0) (.node .empty ⟨.local_ [0x78] 8, 1,
      .some (.local_ [0x78] 7) 0 .none⟩ .empty 1) :=
    ⟨0, .int 0, 1, .int 0, rfl, rfl, rfl,
      ⟨.block 2, .block 3, rfl, ⟨2, .string 0, rfl, rfl, hname⟩,
        3, 4, .block 5, .int 0, rfl, rfl, rfl, ⟨5, .string 0, rfl, rfl, hname⟩, rfl⟩, rfl⟩
  refine ⟨_, rfl, hv, fun st h => ?_⟩
  obtain ⟨n, found, st', hparse, honce⟩ := h
  -- one top, but two bindings
  have hlength := (honce.tops_perm hv hparse).length_eq
  exact absurd hlength (by decide)

/-- Two variables `x` and `y`. -/
theorem parseEnvTable_eachOnce_iff_apart : ∃ n found st',
    parseEnvTable n (.block 0) (Strings.new ⟨[⟨0, [.int 0, .block 1, .block 3, .int 2]⟩,
      ⟨0, [.block 2, .int 1, .int 0]⟩, ⟨0, [.string 0, .int 7]⟩,
      ⟨0, [.int 0, .block 4, .int 0, .int 1]⟩, ⟨0, [.block 5, .int 0, .int 0]⟩,
      ⟨0, [.string 1, .int 8]⟩], [.ofBytes [0x78], .ofBytes [0x79]]⟩) = .ok (found, st') ∧
      EachOnce found (.node .empty ⟨.local_ [0x78] 7, 1, .none⟩
        (.node .empty ⟨.local_ [0x79] 8, 0, .none⟩ .empty 1) 2) := by
  refine (parseEnvTable_eachOnce_iff [(.local_ [0x78] 7, 1), (.local_ [0x79] 8, 0)] _ rfl _ _ ?_
    _).mpr ⟨by decide, ?_⟩
  · exact ⟨0, .int 0, 1, .block 3, rfl, rfl, rfl,
      ⟨.block 2, .int 0, rfl, ⟨2, .string 0, rfl, rfl, 0, rfl, rfl⟩, rfl⟩,
      3, .int 0, 4, .int 0, rfl, rfl, rfl,
      ⟨.block 5, .int 0, rfl, ⟨5, .string 1, rfl, rfl, 1, rfl, rfl⟩, rfl⟩, rfl⟩
  · intro b hb
    rcases List.mem_pair.mp hb with rfl | rfl
    · show IsUtf8 [0x78]
      unfold IsUtf8
      decide +kernel
    · show IsUtf8 [0x79]
      unfold IsUtf8
      decide +kernel

end OcamlJit.BytecodeFiles

/-
  OcamlJit.Marshal.Sharing
  ────────────────────────
  **REFERENCES TO SHARED OBJECTS.**

  A reference says how many objects ago its object was recorded, and the reader
  counts in its own table.  That table has the blocks of size 0 in it, which are
  not recorded, so for blocks, strings and small integers the graph is gotten
  back exactly when none of them is written between an object and a reference to
  it (`ordinary_getsBack_iff`).
-/
import OcamlJit.Marshal.RoundTrip

namespace OcamlJit.Marshal

/-! ## §1. The tables after some items. -/

/-- Does the reader put an object into its table? -/
def Token.noted : Token → Bool
  | .int _ | .shared _ | .custom _ _ => false
  | .atom _ _ | .string _ | .double _ | .block _ _ _ => true

/-- A value that came into a table between `t` and `t'`. -/
def Between (t t' : Tables) (tokens : List Token) (w : MLValue) : Prop :=
  (∃ id, w = .block id ∧ t.blocks ≤ id ∧ id < t'.blocks) ∨
  (∃ id, w = .string id ∧ t.strings ≤ id ∧ id < t'.strings) ∨
  ∃ bits, w = .double bits ∧ .double bits ∈ tokens

/-- What some items add to the tables. -/
structure Adds (t t' : Tables) (tokens : List Token) (reads writes : List MLValue) : Prop where
  read : t'.read = t.read ++ reads
  written : t'.written = t.written ++ writes
  blocks : t.blocks ≤ t'.blocks
  strings : t.strings ≤ t'.strings
  values : List.Forall₂
    (fun (token : Token) (w : MLValue) => ∀ bits, token = .double bits ↔ w = .double bits)
    (tokens.filter Token.noted) reads
  length_writes : writes.length = tokens.countP Token.recorded
  between : ∀ w ∈ reads, Between t t' tokens w

/-- As many objects are read as are noted. -/
theorem Adds.length_read {t t' : Tables} {tokens : List Token} {read written : List MLValue}
    (h : Adds t t' tokens read written) : read.length = tokens.countP Token.noted := by
  rw [← h.values.length_eq, List.countP_eq_length_filter]

/-- One object. -/
theorem adds_one (t : Tables) (token : Token) :
    ∃ reads writes, Adds t (t.after token) [token] reads writes := by
  cases token with
  | int n => exact ⟨[], [], by simp [Tables.after], by simp [Tables.after], Nat.le_refl _,
      Nat.le_refl _, .nil, rfl, nofun⟩
  | shared d => exact ⟨[], [], by simp [Tables.after], by simp [Tables.after], Nat.le_refl _,
      Nat.le_refl _, .nil, rfl, nofun⟩
  | custom form boxed => exact ⟨[], [boxed.value], by simp [Tables.after], rfl, Nat.le_refl _,
      Nat.le_refl _, .nil, rfl, nofun⟩
  | atom tag color =>
      exact ⟨[.block t.blocks], [], rfl, by simp [Tables.after], Nat.le_succ _, Nat.le_refl _,
        .cons (by simp) .nil, rfl, by simp [Between, Tables.after]⟩
  | block tag color size =>
      exact ⟨[.block t.blocks], [.block t.blocks], rfl, rfl, Nat.le_succ _, Nat.le_refl _,
        .cons (by simp) .nil, rfl, by simp [Between, Tables.after]⟩
  | string bytes =>
      exact ⟨[.string t.strings], [.string t.strings], rfl, rfl, Nat.le_refl _, Nat.le_succ _,
        .cons (by simp) .nil, rfl, by simp [Between, Tables.after]⟩
  | double bits =>
      exact ⟨[.double bits], [.double bits], rfl, rfl, Nat.le_refl _, Nat.le_refl _,
        .cons (by simp) .nil, rfl, by simp [Between]⟩

/-- A larger stretch. -/
theorem Between.mono {t t' t₀ t₁ : Tables} {tokens tokens' : List Token} {w : MLValue}
    (h : Between t t' tokens w) (hb : t₀.blocks ≤ t.blocks) (hs : t₀.strings ≤ t.strings)
    (hb' : t'.blocks ≤ t₁.blocks) (hs' : t'.strings ≤ t₁.strings) (hsub : tokens ⊆ tokens') :
    Between t₀ t₁ tokens' w := by
  rcases h with ⟨id, rfl, hlo, hhi⟩ | ⟨id, rfl, hlo, hhi⟩ | ⟨bits, rfl, hmem⟩
  · exact .inl ⟨id, rfl, by omega, by omega⟩
  · exact .inr (.inl ⟨id, rfl, by omega, by omega⟩)
  · exact .inr (.inr ⟨bits, rfl, hsub hmem⟩)

/-- A row of objects. -/
theorem adds : ∀ (tokens : List Token) (t : Tables),
    ∃ read written, Adds t (tokens.foldl Tables.after t) tokens read written
  | [], t => ⟨[], [], by constructor <;> simp⟩
  | token :: tokens, t => by
      obtain ⟨read, written, h⟩ := adds_one t token
      obtain ⟨read', written', h'⟩ := adds tokens (t.after token)
      refine ⟨read ++ read', written ++ written', ?_, ?_, h.blocks.trans h'.blocks,
        h.strings.trans h'.strings, ?_, ?_, fun w hw => ?_⟩
      · rw [List.foldl_cons, h'.read, h.read, List.append_assoc]
      · rw [List.foldl_cons, h'.written, h.written, List.append_assoc]
      · rw [show token :: tokens = [token] ++ tokens from rfl, List.filter_append]
        exact List.rel_append h.values h'.values
      · rw [List.length_append, h.length_writes, h'.length_writes,
          show token :: tokens = [token] ++ tokens from rfl, List.countP_append]
      · rcases List.mem_append.mp hw with hw | hw
        · exact (h.between w hw).mono (Nat.le_refl _) (Nat.le_refl _) h'.blocks h'.strings (by simp)
        · exact (h'.between w hw).mono h.blocks h.strings (Nat.le_refl _) (Nat.le_refl _) (by simp)

/-! ## §2. Where a reference points to. -/

/-- The element that comes `k` from the end. -/
theorem exists_nth_last {α : Type} (p : α → Bool) : ∀ (xs : List α) (k : Nat), k < xs.countP p →
    ∃ pre x mid, xs = pre ++ x :: mid ∧ p x = true ∧ mid.countP p = k
  | [], k, h => by simp at h
  | y :: xs, k, h => by
      by_cases hk : k < xs.countP p
      · obtain ⟨pre, x, mid, rfl, hx, hmid⟩ := exists_nth_last p xs k hk
        exact ⟨y :: pre, x, mid, rfl, hx, hmid⟩
      · rw [List.countP_cons] at h
        split at h
        · next hy => exact ⟨[], y, xs, rfl, hy, by omega⟩
        · omega

/-- An element with so many behind it. -/
theorem getElem?_reverse_self {α : Type} (xs ys : List α) (x : α) :
    (xs ++ [x] ++ ys).reverse[ys.length]? = some x := by
  rw [List.reverse_append, List.getElem?_append_right (by simp)]
  simp

/-- A smaller distance leads behind it. -/
theorem getElem?_reverse_after {α : Type} (xs ys : List α) {n : Nat} (h : n < ys.length) :
    ∃ y ∈ ys, (xs ++ ys).reverse[n]? = some y := by
  rw [List.reverse_append, List.getElem?_append_left (by simpa using h)]
  exact ⟨_, List.mem_reverse.mp (List.getElem_mem (by simpa using h)),
    List.getElem?_eq_getElem (by simpa using h)⟩

/-- A larger one before it. -/
theorem getElem?_reverse_before {α : Type} (xs ys : List α) {n : Nat} (h : ys.length ≤ n) :
    (xs ++ ys).reverse[n]? = xs.reverse[n - ys.length]? := by
  rw [List.reverse_append, List.getElem?_append_right (by simpa using h), List.length_reverse]

/-- A reference is to an object that has been recorded. -/
theorem Writes.shared {heap : Heap} {v : Value} {stack : List (List Value)} {order : List Nat}
    {tokens : List Token} (h : Writes heap v stack order tokens) :
    ∀ pre d post, tokens = pre ++ .shared d :: post →
      0 < d ∧ d ≤ order.length + pre.countP Token.recorded := by
  -- one item refers to what is in the order, and records at most itself
  have hitem : ∀ {v : Value} {order order' : List Nat} {token : Token} {fields : List Value},
      Item heap order v token order' fields →
      (∀ d, token = .shared d → 0 < d ∧ d ≤ order.length) ∧
      order'.length = order.length + [token].countP Token.recorded := by
    intro v order order' token fields h
    cases h with
    | int n => exact ⟨nofun, rfl⟩
    | atom hobj => exact ⟨nofun, rfl⟩
    | shared hobj hatom hmem =>
        refine ⟨fun d hd => ?_, rfl⟩
        injection hd with hd
        have := List.idxOf_lt_length_of_mem hmem
        omega
    | @new a obj hobj hatom hmem =>
        cases obj with
        | block tag color fields => exact ⟨nofun, by simp [Obj.token, Token.recorded]⟩
        | string bytes => exact ⟨nofun, by simp [Obj.token, Token.recorded]⟩
        | double bits => exact ⟨nofun, by simp [Obj.token, Token.recorded]⟩
        | custom form boxed => exact ⟨nofun, by simp [Obj.token, Token.recorded]⟩
  -- so the objects recorded on the way are in the order when the rest begins
  have hcons : ∀ {v : Value} {order order' : List Nat} {token : Token} {fields : List Value}
      {tokens : List Token}, Item heap order v token order' fields →
      (∀ pre d post, tokens = pre ++ .shared d :: post →
        0 < d ∧ d ≤ order'.length + pre.countP Token.recorded) →
      ∀ pre d post, token :: tokens = pre ++ .shared d :: post →
        0 < d ∧ d ≤ order.length + pre.countP Token.recorded := by
    intro v order order' token fields tokens h ih pre d post heq
    obtain ⟨hd, hlen⟩ := hitem h
    cases pre with
    | nil =>
        injection heq with heq
        exact hd d heq
    | cons y pre =>
        injection heq with hy heq
        have := ih pre d post heq
        rw [hlen, hy] at this
        rw [show y :: pre = [y] ++ pre from rfl, List.countP_append]
        omega
  induction h with
  | fields h hrest ih => exact hcons h ih
  | next h hrest ih => exact hcons h ih
  | last h => exact hcons h fun pre d post heq => by simp at heq

/-- All items of a value, when every value that is met has `Q`. -/
theorem Writes.forall {heap : Heap} {P : Token → Prop} {Q : Value → Prop}
    (hitem : ∀ {order order' : List Nat} {u : Value} {token : Token} {fields : List Value},
      Q u → Item heap order u token order' fields → P token ∧ ∀ u' ∈ fields, Q u')
    {v : Value} {stack : List (List Value)} {order : List Nat} {tokens : List Token}
    (h : Writes heap v stack order tokens) :
    (∀ u ∈ v :: stack.flatten, Q u) → ∀ token ∈ tokens, P token := by
  induction h with
  | fields h hrest ih =>
      intro hQ
      obtain ⟨hP, hfields⟩ := hitem (hQ _ (List.mem_cons_self ..)) h
      refine List.forall_mem_cons.mpr ⟨hP, ih fun u hu => ?_⟩
      rw [flatten_pushFields, ← List.cons_append, List.mem_append] at hu
      exact hu.elim (hfields u) fun hu => hQ u (List.mem_cons_of_mem _ hu)
  | next h hrest ih =>
      intro hQ
      obtain ⟨hP, -⟩ := hitem (hQ _ (List.mem_cons_self ..)) h
      refine List.forall_mem_cons.mpr ⟨hP, ih fun u hu => hQ u (List.mem_cons_of_mem _ ?_)⟩
      rw [flatten_pushFields, ← List.cons_append] at hu
      exact hu
  | last h =>
      intro hQ token htoken
      rw [List.mem_singleton.mp htoken]
      exact (hitem (hQ _ (List.mem_cons_self ..)) h).1

/-- What is recorded gets a value in the writer's table, and unless it is a boxed
integer the same in the reader's. -/
theorem after_recorded (t : Tables) {x : Token} (hx : x.recorded = true) :
    ∃ w, (t.after x).written = t.written ++ [w] ∧
      ((x.noted = true ∧ (t.after x).read = t.read ++ [w] ∧ Between t (t.after x) [x] w) ∨
        ∃ form boxed, x = .custom form boxed ∧ w = boxed.value ∧ (t.after x).read = t.read) := by
  cases x with
  | int n => cases hx
  | shared d => cases hx
  | atom tag color => cases hx
  | custom form boxed => exact ⟨_, rfl, .inr ⟨form, boxed, rfl, rfl, rfl⟩⟩
  | block tag color size =>
      exact ⟨_, rfl, .inl ⟨rfl, rfl, .inl ⟨_, rfl, Nat.le_refl _, Nat.lt_succ_self _⟩⟩⟩
  | string bytes =>
      exact ⟨_, rfl, .inl ⟨rfl, rfl, .inr (.inl ⟨_, rfl, Nat.le_refl _, Nat.lt_succ_self _⟩)⟩⟩
  | double bits => exact ⟨_, rfl, .inl ⟨rfl, rfl, .inr (.inr ⟨bits, rfl, by simp⟩)⟩⟩

section Shared

variable {t : Tables} {x : Token} {mid : List Token} {d : Nat}

/-- A reference is to the value of its object in the writer's table. -/
theorem written_shared (hd : mid.countP Token.recorded + 1 = d) {w : MLValue}
    (hw : (t.after x).written = t.written ++ [w]) :
    (mid.foldl Tables.after (t.after x)).written.reverse[d - 1]? = some w := by
  obtain ⟨reads, writes, hadds⟩ := adds mid (t.after x)
  rw [hadds.written, hw, show d - 1 = writes.length by rw [hadds.length_writes]; omega]
  exact getElem?_reverse_self t.written writes w

/-- **The reader finds the object** when as many objects came into its table
since. -/
theorem shared_same (hx : x.recorded = true) (hnoted : x.noted = true)
    (hcount : mid.countP Token.noted = mid.countP Token.recorded)
    (hd : mid.countP Token.recorded + 1 = d) :
    (Token.shared d).ReadBack (mid.foldl Tables.after (t.after x)) := by
  obtain ⟨w, hw, ⟨-, hr, -⟩ | ⟨form, boxed, rfl, -⟩⟩ := after_recorded t hx
  · obtain ⟨reads, writes, hadds⟩ := adds mid (t.after x)
    refine Eq.trans ?_ (written_shared hd hw).symm
    rw [hadds.read, hr, show d - 1 = reads.length by rw [hadds.length_read]; omega]
    exact getElem?_reverse_self t.read reads w
  · cases hnoted

/-- **It finds a later one** when there are more of them, unless this is a double
with the same bits. -/
theorem shared_later (hx : x.recorded = true)
    (hcount : mid.countP Token.recorded < mid.countP Token.noted)
    (hd : mid.countP Token.recorded + 1 = d)
    (hread : (Token.shared d).ReadBack (mid.foldl Tables.after (t.after x))) :
    ∃ bits, .double bits ∈ mid := by
  obtain ⟨w, hw, hcases⟩ := after_recorded t hx
  obtain ⟨reads, writes, hadds⟩ := adds mid (t.after x)
  have hlater : d - 1 < reads.length := by
    rw [hadds.length_read]
    omega
  obtain ⟨r, hr, hget⟩ := getElem?_reverse_after (t.after x).read reads hlater
  have hread : _ = _ := hread
  rw [written_shared hd hw, hadds.read, hget] at hread
  obtain rfl : r = w := Option.some.inj hread
  rcases hadds.between r hr with ⟨id, rfl, hlo, -⟩ | ⟨id, rfl, hlo, -⟩ | ⟨bits, -, hbits⟩
  · rcases hcases with ⟨-, -, hbetween⟩ | ⟨form, boxed, -, heq, -⟩
    · rcases hbetween with ⟨id', heq, -, hhi⟩ | ⟨id', heq, -⟩ | ⟨bits, heq, -⟩
      · cases heq
        omega
      · cases heq
      · cases heq
    · cases boxed <;> cases heq
  · rcases hcases with ⟨-, -, hbetween⟩ | ⟨form, boxed, -, heq, -⟩
    · rcases hbetween with ⟨id', heq, -⟩ | ⟨id', heq, -, hhi⟩ | ⟨bits, heq, -⟩
      · cases heq
      · cases heq
        omega
      · cases heq
    · cases boxed <;> cases heq
  · exact ⟨bits, hbits⟩

end Shared

/-! ## §3. Blocks, strings and small integers. -/

/-- A small integer or a pointer. -/
def Value.Ordinary : Value → Prop
  | .long n => -2 ^ 30 ≤ n ∧ n < 2 ^ 30
  | .ptr _ => True

/-- A block or a string. -/
def Obj.Ordinary : Obj → Prop
  | .block _ _ fields => ∀ v ∈ fields, v.Ordinary
  | .string _ => True
  | .double _ | .custom _ _ => False

/-- A graph of blocks, strings and small integers. -/
structure OrdinaryGraph (heap : Heap) (root : Value) : Prop where
  root : root.Ordinary
  objects : ∀ obj ∈ heap, obj.Ordinary

/-- A block of size 0. -/
def Token.isAtom : Token → Bool
  | .atom _ _ => true
  | _ => false

/-- **No block of size 0 is written between an object and a later reference to
it.** -/
def NoAtomBetween (tokens : List Token) : Prop :=
  ∀ pre x mid d post, tokens = pre ++ x :: (mid ++ .shared d :: post) → x.recorded = true →
    mid.countP Token.recorded + 1 = d → ∀ token ∈ mid, token.isAtom = false

/-- An item of such a graph. -/
def Token.Ordinary : Token → Prop
  | .int n => -2 ^ 30 ≤ n ∧ n < 2 ^ 30
  | .double _ | .custom _ _ => False
  | .atom _ _ | .shared _ | .string _ | .block _ _ _ => True

/-- The items of ordinary values are ordinary. -/
theorem Item.ordinary {heap : Heap} (hheap : ∀ obj ∈ heap, obj.Ordinary)
    {order order' : List Nat} {v : Value} {token : Token} {fields : List Value}
    (hv : v.Ordinary) (h : Item heap order v token order' fields) :
    token.Ordinary ∧ ∀ u ∈ fields, u.Ordinary := by
  cases h with
  | int n => exact ⟨hv, nofun⟩
  | atom hobj => exact ⟨trivial, nofun⟩
  | shared hobj hatom hmem => exact ⟨trivial, nofun⟩
  | @new a obj hobj hatom hmem =>
      have hok := hheap obj (List.mem_of_getElem? hobj)
      cases obj with
      | block tag color fields => exact ⟨trivial, hok⟩
      | string bytes => exact ⟨trivial, nofun⟩
      | double bits => exact hok.elim
      | custom form boxed => exact hok.elim

/-- The reader notes the recorded objects and the blocks of size 0. -/
theorem countP_noted_ordinary : ∀ {tokens : List Token}, (∀ token ∈ tokens, token.Ordinary) →
    tokens.countP Token.noted = tokens.countP Token.recorded + tokens.countP Token.isAtom
  | [], _ => rfl
  | token :: tokens, h => by
      obtain ⟨hhead, htail⟩ := List.forall_mem_cons.mp h
      have ih := countP_noted_ordinary htail
      rw [List.countP_cons, List.countP_cons, List.countP_cons, ih]
      cases token with
      | double bits => exact hhead.elim
      | custom form boxed => exact hhead.elim
      | int n => rfl
      | shared d => rfl
      | atom tag color => exact Nat.add_assoc _ _ _
      | string bytes => exact Nat.add_right_comm _ _ _
      | block tag color size => exact Nat.add_right_comm _ _ _

/-- **References are read back** exactly when no atom is between. -/
theorem readBack_ordinary_iff {tokens : List Token} (hordinary : ∀ token ∈ tokens, token.Ordinary)
    (hshared : ∀ pre d post, tokens = pre ++ .shared d :: post →
      0 < d ∧ d ≤ pre.countP Token.recorded) :
    ReadBack .start tokens ↔ NoAtomBetween tokens := by
  rw [readBack_iff]
  constructor
  · intro h pre x mid d post heq hx hd
    have hread := h (pre ++ x :: mid) (.shared d) post (by rw [heq]; simp)
    rw [List.foldl_append, List.foldl_cons] at hread
    have hmid : ∀ token ∈ mid, token.Ordinary := fun token htoken =>
      hordinary token (by rw [heq]; simp [htoken])
    have hcount := countP_noted_ordinary hmid
    -- an atom in between would shift the reader's table to a later object
    have hzero : mid.countP Token.isAtom = 0 := by
      refine Nat.eq_zero_of_not_pos fun hpos => ?_
      obtain ⟨bits, hbits⟩ := shared_later hx (by omega) hd hread
      exact hmid _ hbits
    exact fun token htoken => Bool.eq_false_iff.mpr (List.countP_eq_zero.mp hzero token htoken)
  · intro h pre token post heq
    have htoken : token.Ordinary := hordinary token (by rw [heq]; simp)
    cases token with
    | int n => exact htoken
    | atom tag color => trivial
    | string bytes => trivial
    | block tag color size => trivial
    | double bits => exact htoken.elim
    | custom form boxed => exact htoken.elim
    | shared d =>
        obtain ⟨hpos, hle⟩ := hshared pre d post heq
        -- the object that is referred to, counted from the back
        obtain ⟨pre', x, mid, rfl, hx, hmid⟩ :=
          exists_nth_last Token.recorded pre (d - 1) (by omega)
        have hd : mid.countP Token.recorded + 1 = d := by omega
        have hatoms : ∀ token ∈ mid, token.isAtom = false :=
          h pre' x mid d post (by rw [heq]; simp) hx hd
        have hmid' : ∀ token ∈ mid, token.Ordinary := fun token htoken =>
          hordinary token (by rw [heq]; simp [htoken])
        have hcount := countP_noted_ordinary hmid'
        have hzero : mid.countP Token.isAtom = 0 :=
          List.countP_eq_zero.mpr fun token htoken => Bool.eq_false_iff.mp (hatoms token htoken)
        have hxo : x.Ordinary := hordinary x (by rw [heq]; simp)
        have hnoted : x.noted = true := by
          cases x with
          | string bytes => rfl
          | block tag color size => rfl
          | custom form boxed => exact hxo.elim
          | double bits => rfl
          | int n => cases hx
          | atom tag color => rfl
          | shared d => cases hx
        rw [List.foldl_append, List.foldl_cons]
        exact shared_same hx hnoted (by omega) hd

/-- **A graph of blocks, strings and small integers is gotten back exactly when
no block of size 0 is written between an object and a reference to it.** -/
theorem ordinary_getsBack_iff {heap : Heap} {root : Value} (hheap : HeapOk heap)
    (hroot : root.Ok heap) (hgraph : OrdinaryGraph heap root) (rest : List UInt8) :
    ∃ tokens, externRec heap root = some tokens ∧
      (GetsBack heap root (externBytes tokens) rest ↔ NoAtomBetween tokens) := by
  obtain ⟨tokens, htokens, hwrites⟩ := externRec_writes hheap hroot
  have hordinary : ∀ token ∈ tokens, token.Ordinary :=
    hwrites.forall (fun hu h => h.ordinary hgraph.objects hu) (by simpa using hgraph.root)
  have hcustom : NoCustom tokens := fun form boxed hmem => hordinary _ hmem
  have hshared : ∀ pre d post, tokens = pre ++ .shared d :: post →
      0 < d ∧ d ≤ pre.countP Token.recorded := by simpa using hwrites.shared
  exact ⟨tokens, htokens, (getsBack_iff hheap hroot (.inr hcustom) hwrites rest).trans
    (readBack_ordinary_iff hordinary hshared)⟩

/-- A block with twice the same string. -/
theorem ordinary_getsBack_iff_pair : ∃ tokens,
    externRec [.block 0 0 [.ptr 1, .ptr 1], .string [104, 105]] (.ptr 0) = some tokens ∧
      (GetsBack [.block 0 0 [.ptr 1, .ptr 1], .string [104, 105]] (.ptr 0) (externBytes tokens) [] ↔
        NoAtomBetween tokens) := by
  have hlt : ∀ a < 2, Value.Ok [.block 0 0 [.ptr 1, .ptr 1], .string [104, 105]] (.ptr a) :=
    fun a ha => ha
  refine ordinary_getsBack_iff ⟨by decide, ?_⟩ (hlt 0 (by decide)) ⟨trivial, ?_⟩ []
  · intro obj hobj
    simp only [List.mem_cons, List.not_mem_nil, or_false] at hobj
    rcases hobj with rfl | rfl
    · refine ⟨by decide, by decide, by decide, fun v hv => ?_⟩
      simp only [List.mem_cons, List.not_mem_nil, or_false, or_self] at hv
      rw [hv]
      exact hlt 1 (by decide)
    · exact (by decide : 2 < 2 ^ 57)
  · intro obj hobj
    simp only [List.mem_cons, List.not_mem_nil, or_false] at hobj
    rcases hobj with rfl | rfl
    · intro v hv
      simp only [List.mem_cons, List.not_mem_nil, or_false, or_self] at hv
      rw [hv]
      trivial
    · trivial

/-- In `(r, [||], r)` the second reference to `r` is read as the empty array. -/
theorem atomBetween_not_getsBack : ∃ bytes,
    externValue [.block 0 0 [.ptr 1, .ptr 2, .ptr 1], .block 0 0 [.long 5], .block 0 3 []]
      (.ptr 0) = some bytes ∧
    inputValue bytes = .ok ⟨⟨[⟨0, [.block 1, .block 2, .block 2]⟩, ⟨0, [.int 5]⟩, ⟨0, []⟩], []⟩,
      .block 0, []⟩ ∧
    ¬ GetsBack [.block 0 0 [.ptr 1, .ptr 2, .ptr 1], .block 0 0 [.long 5], .block 0 3 []] (.ptr 0)
      bytes [] := by
  have hread : inputValue (externBytes
      [.block 0 0 3, .block 0 0 1, .int 5, .atom 0 3, .shared 1]) =
      .ok ⟨⟨[⟨0, [.block 1, .block 2, .block 2]⟩, ⟨0, [.int 5]⟩, ⟨0, []⟩], []⟩, .block 0, []⟩ := by
    decide
  refine ⟨externBytes [.block 0 0 3, .block 0 0 1, .int 5, .atom 0 3, .shared 1], by decide,
    hread, ?_⟩
  rintro ⟨out, hout, ⟨f, hiso⟩, -⟩
  rw [List.append_nil, hread] at hout
  cases hout
  obtain ⟨obj, hobj, hcorr⟩ := hiso.objects 0 (.block 0) hiso.root
  cases hobj
  obtain ⟨id, items, heq, hitems, hfields⟩ := hcorr
  cases heq
  cases hitems
  -- the first field says that block 1 is `r`, the last one that block 2 is
  cases hfields with
  | cons hfirst hfields =>
      cases hfields with
      | cons _ hfields =>
          cases hfields with
          | cons hlast _ =>
              have h₁ : f 1 = some (.block 1) := hfirst
              have h₂ : f 1 = some (.block 2) := hlast
              rw [h₁] at h₂
              cases h₂

end OcamlJit.Marshal

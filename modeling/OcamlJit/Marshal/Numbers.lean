/-
  OcamlJit.Marshal.Numbers
  ────────────────────────
  **BOXED NUMBERS.**

  The reader swaps the bytes of doubles, skips no size header, takes the length
  byte of a native integer for a part of it, and does not put boxed integers into
  its table, so that references count too far back.  `numbers_getsBack_iff` says
  for which graphs of boxed numbers all of this does not matter.
-/
import OcamlJit.Marshal.Sharing

namespace OcamlJit.Marshal

open OcamlJit.Lib

/-! ## §1. References in a graph of boxed numbers. -/

/-- A boxed integer. -/
def Token.isCustom : Token → Bool
  | .custom _ _ => true
  | _ => false

theorem forall₂_getElem? {α β : Type} {R : α → β → Prop} {xs : List α} {ys : List β}
    (h : List.Forall₂ R xs ys) {n : Nat} {y : β} (hy : ys[n]? = some y) :
    ∃ x, xs[n]? = some x ∧ R x y := by
  obtain ⟨hlt, rfl⟩ := List.getElem?_eq_some_iff.mp hy
  have hlt' : n < xs.length := h.length_eq ▸ hlt
  exact ⟨_, List.getElem?_eq_getElem hlt', h.get hlt' hlt⟩

/-- The reader's table has blocks, strings and doubles. -/
theorem between_start {pre : List Token} {w : MLValue} {n : Nat}
    (h : (pre.foldl Tables.after .start).read.reverse[n]? = some w) :
    Between .start (pre.foldl Tables.after .start) pre w := by
  obtain ⟨reads, writes, hadds⟩ := adds pre .start
  refine hadds.between w ?_
  have hmem := List.mem_reverse.mp (List.mem_of_getElem? h)
  rw [hadds.read] at hmem
  exact hmem

/-- Where it has a double, one was written. -/
theorem read_double {pre : List Token} {bits : BitVec 64} {n : Nat} :
    (pre.foldl Tables.after .start).read.reverse[n]? = some (.double bits) ↔
      (pre.filter Token.noted).reverse[n]? = some (.double bits) := by
  obtain ⟨reads, writes, hadds⟩ := adds pre .start
  have hvalues := List.rel_reverse hadds.values
  rw [hadds.read]
  constructor
  · intro h
    obtain ⟨token, htoken, hiff⟩ := forall₂_getElem? hvalues h
    rw [htoken, (hiff bits).mpr rfl]
  · intro h
    obtain ⟨w, hw, hiff⟩ := forall₂_getElem? hvalues.flip h
    show reads.reverse[n]? = _
    rw [hw, (hiff bits).mp rfl]

section Shared

variable {pre mid : List Token} {x : Token} {d : Nat}

/-- A reference to a boxed integer is read as something else. -/
theorem shared_custom {form : CustomForm} {boxed : Boxed}
    (hd : mid.countP Token.recorded + 1 = d) :
    ¬ (Token.shared d).ReadBack
      ((pre ++ .custom form boxed :: mid).foldl Tables.after .start) := by
  intro hread
  have hread : _ = _ := hread
  have hwritten : ((pre ++ .custom form boxed :: mid).foldl Tables.after
      .start).written.reverse[d - 1]? = some boxed.value := by
    rw [List.foldl_append, List.foldl_cons]
    exact written_shared hd rfl
  rw [hwritten] at hread
  rcases between_start hread with ⟨id, heq, -⟩ | ⟨id, heq, -⟩ | ⟨bits, heq, -⟩
  · cases boxed <;> cases heq
  · cases boxed <;> cases heq
  · cases boxed <;> cases heq

/-- **The reader finds an earlier object** when fewer came into its table since;
it is another one unless both are doubles with the same bits. -/
theorem shared_earlier (hx : x.recorded = true) (hnoted : x.noted = true) {k : Nat}
    (hcount : mid.countP Token.noted + (k + 1) = mid.countP Token.recorded)
    (hd : mid.countP Token.recorded + 1 = d) :
    (Token.shared d).ReadBack ((pre ++ x :: mid).foldl Tables.after .start) ↔
      ∃ bits, x = .double bits ∧ (pre.filter Token.noted).reverse[k]? = some (.double bits) := by
  have hfold : (pre ++ x :: mid).foldl Tables.after .start =
      mid.foldl Tables.after ((pre.foldl Tables.after .start).after x) := by
    rw [List.foldl_append, List.foldl_cons]
  obtain ⟨w, hw, ⟨-, hr, hbetween⟩ | ⟨form, boxed, rfl, -⟩⟩ :=
    after_recorded (pre.foldl Tables.after .start) hx
  · obtain ⟨reads, writes, hadds⟩ := adds mid ((pre.foldl Tables.after .start).after x)
    have hlen := hadds.length_read
    -- the reader counts back in its own table, into which fewer objects came
    have hget : ((pre ++ x :: mid).foldl Tables.after .start).read.reverse[d - 1]? =
        (pre.foldl Tables.after .start).read.reverse[k]? := by
      rw [hfold, hadds.read, getElem?_reverse_before _ reads (by omega), hr,
        getElem?_reverse_before _ [w] (by simp; omega)]
      congr 1
      simp
      omega
    have hiff : (Token.shared d).ReadBack ((pre ++ x :: mid).foldl Tables.after .start) ↔
        (pre.foldl Tables.after .start).read.reverse[k]? = some w := by
      show _ = _ ↔ _
      rw [hget, hfold, written_shared hd hw]
    rw [hiff]
    constructor
    · intro h
      -- what the reader has there is `w`: a block, a string or a double
      rcases between_start h with ⟨id, rfl, -, hid⟩ | ⟨id, rfl, -, hid⟩ | ⟨bits, rfl, -⟩
      · rcases hbetween with ⟨id', heq, hlo, -⟩ | ⟨_, heq, -⟩ | ⟨_, heq, -⟩
        · cases heq
          omega
        · cases heq
        · cases heq
      · rcases hbetween with ⟨_, heq, -⟩ | ⟨id', heq, hlo, -⟩ | ⟨_, heq, -⟩
        · cases heq
        · cases heq
          omega
        · cases heq
      · rcases hbetween with ⟨_, heq, -⟩ | ⟨_, heq, -⟩ | ⟨bits', heq, hmem⟩
        · cases heq
        · cases heq
        · cases heq
          exact ⟨bits, (List.mem_singleton.mp hmem).symm, read_double.mp h⟩
    · rintro ⟨bits, rfl, h⟩
      have hw' : w = .double bits := by
        have := List.append_cancel_left (show _ ++ [MLValue.double bits] = _ ++ [w] from hw)
        exact (List.singleton_inj.mp this).symm
      rw [hw']
      exact read_double.mpr h
  · cases hnoted

end Shared

/-! ## §2. Graphs of boxed numbers. -/

/-- A block of pointers, or a boxed number. -/
def Obj.Number : Obj → Prop
  | .block _ _ fields => fields ≠ [] ∧ ∀ n, .long n ∉ fields
  | .double _ | .custom _ _ => True
  | .string _ => False

/-- A graph whose leaves are boxed numbers. -/
structure NumberGraph (heap : Heap) (root : Value) : Prop where
  root : ∀ n, root ≠ .long n
  objects : ∀ obj ∈ heap, obj.Number

/-- Every reference is to a block or a double, and no boxed integer has been
written since, unless as many objects before this double there was another one
with the same bits. -/
def SharedOk (tokens : List Token) : Prop :=
  ∀ pre x mid d post, tokens = pre ++ x :: (mid ++ .shared d :: post) → x.recorded = true →
    mid.countP Token.recorded + 1 = d →
    x.isCustom = false ∧ (mid.countP Token.isCustom = 0 ∨ ∃ bits, x = .double bits ∧
      (pre.filter Token.noted).reverse[mid.countP Token.isCustom - 1]? = some (.double bits))

/-- **The items the reader gets right.** -/
structure NumbersOk (tokens : List Token) : Prop where
  doubles : ∀ bits, .double bits ∈ tokens → swapBytes bits = bits
  customs : ∀ form boxed, .custom form boxed ∈ tokens → customOk form boxed
  shared : SharedOk tokens

/-- An item of such a graph. -/
def Token.Number : Token → Prop
  | .int _ | .atom _ _ | .string _ => False
  | .double _ | .custom _ _ | .shared _ | .block _ _ _ => True

theorem Item.number {heap : Heap} (hheap : ∀ obj ∈ heap, obj.Number)
    {order order' : List Nat} {v : Value} {token : Token} {fields : List Value}
    (hv : ∀ n, v ≠ .long n) (h : Item heap order v token order' fields) :
    token.Number ∧ ∀ u ∈ fields, ∀ n, u ≠ .long n := by
  cases h with
  | int n => exact absurd rfl (hv n)
  | atom hobj => exact absurd rfl (hheap _ (List.mem_of_getElem? hobj)).1
  | shared hobj hatom hmem => exact ⟨trivial, nofun⟩
  | @new a obj hobj hatom hmem =>
      have hok := hheap obj (List.mem_of_getElem? hobj)
      cases obj with
      | block tag color fields => exact ⟨trivial, fun u hu n heq => hok.2 n (heq ▸ hu)⟩
      | double bits => exact ⟨trivial, nofun⟩
      | custom form boxed => exact ⟨trivial, nofun⟩
      | string bytes => exact hok.elim

/-- The reader notes the recorded objects that are not boxed integers. -/
theorem countP_noted_number : ∀ {tokens : List Token}, (∀ token ∈ tokens, token.Number) →
    tokens.countP Token.noted + tokens.countP Token.isCustom = tokens.countP Token.recorded
  | [], _ => rfl
  | token :: tokens, h => by
      obtain ⟨hhead, htail⟩ := List.forall_mem_cons.mp h
      have ih := countP_noted_number htail
      rw [List.countP_cons, List.countP_cons, List.countP_cons, ← ih]
      cases token with
      | int n => exact hhead.elim
      | atom tag color => exact hhead.elim
      | string bytes => exact hhead.elim
      | shared d => rfl
      | double bits => exact Nat.add_right_comm _ _ _
      | block tag color size => exact Nat.add_right_comm _ _ _
      | custom form boxed => exact (Nat.add_assoc _ _ _).symm

/-- What a reference is read as. -/
theorem shared_number_iff {pre mid : List Token} {x : Token} {d : Nat}
    (hmid : ∀ token ∈ mid, token.Number) (hx : x.recorded = true)
    (hd : mid.countP Token.recorded + 1 = d) :
    (Token.shared d).ReadBack ((pre ++ x :: mid).foldl Tables.after .start) ↔
      x.isCustom = false ∧ (mid.countP Token.isCustom = 0 ∨ ∃ bits, x = .double bits ∧
        (pre.filter Token.noted).reverse[mid.countP Token.isCustom - 1]? =
          some (.double bits)) := by
  have hcount := countP_noted_number hmid
  -- a boxed integer is not in the reader's table, so another object is found
  by_cases hcustom : x.isCustom = true
  · cases x with
    | custom form boxed =>
        exact ⟨fun h => absurd h (shared_custom hd), fun h => absurd h.1 (by simp [Token.isCustom])⟩
    | int n => cases hcustom
    | atom tag color => cases hcustom
    | shared d => cases hcustom
    | string bytes => cases hcustom
    | double bits => cases hcustom
    | block tag color size => cases hcustom
  · have hnoted : x.noted = true := by
      cases x with
      | custom form boxed => exact absurd rfl hcustom
      | int n => cases hx
      | shared d => cases hx
      | atom tag color => rfl
      | string bytes => rfl
      | double bits => rfl
      | block tag color size => rfl
    rw [Bool.not_eq_true] at hcustom
    rw [and_iff_right hcustom]
    rcases Nat.eq_zero_or_pos (mid.countP Token.isCustom) with hzero | hpos
    · rw [or_iff_left_of_imp fun _ => hzero, iff_true_right hzero, List.foldl_append,
        List.foldl_cons]
      exact shared_same hx hnoted (by omega) hd
    · rw [or_iff_right (Nat.ne_of_gt hpos)]
      exact shared_earlier hx hnoted (by omega) hd

theorem readBack_number_iff {tokens : List Token} (hnumber : ∀ token ∈ tokens, token.Number)
    (hshared : ∀ pre d post, tokens = pre ++ .shared d :: post →
      0 < d ∧ d ≤ pre.countP Token.recorded) :
    ReadBack .start tokens ↔ NumbersOk tokens := by
  rw [readBack_iff]
  constructor
  · intro h
    refine ⟨fun bits hmem => ?_, fun form boxed hmem => ?_, fun pre x mid d post heq hx hd => ?_⟩
    · obtain ⟨pre, post, heq⟩ := List.append_of_mem hmem
      exact h pre _ post heq
    · obtain ⟨pre, post, heq⟩ := List.append_of_mem hmem
      exact h pre _ post heq
    · refine (shared_number_iff (fun token htoken => hnumber token ?_) hx hd).mp
        (h (pre ++ x :: mid) (.shared d) post (by rw [heq]; simp))
      rw [heq]
      simp [htoken]
  -- the conditions are those of the tokens one by one
  · intro h pre token post heq
    have hmem : token ∈ tokens := by
      rw [heq]
      simp
    cases token with
    | int n => exact (hnumber _ hmem).elim
    | atom tag color => trivial
    | string bytes => trivial
    | block tag color size => trivial
    | double bits => exact h.doubles bits hmem
    | custom form boxed => exact h.customs form boxed hmem
    | shared d =>
        obtain ⟨hpos, hle⟩ := hshared pre d post heq
        obtain ⟨pre', x, mid, rfl, hx, hmid⟩ :=
          exists_nth_last Token.recorded pre (d - 1) (by omega)
        have hd : mid.countP Token.recorded + 1 = d := by omega
        refine (shared_number_iff (fun token htoken => hnumber token ?_) hx hd).mpr
          (h.shared pre' x mid d post (by rw [heq]; simp) hx hd)
        rw [heq]
        simp [htoken]

/-- **A graph of boxed numbers is gotten back exactly when** every double is the
same in both byte orders, every boxed integer an `Int32` or `Int64` without a
size header, and every reference counts right without the boxed integers. -/
theorem numbers_getsBack_iff {heap : Heap} {root : Value} (hheap : HeapOk heap)
    (hroot : root.Ok heap) (hgraph : NumberGraph heap root) (rest : List UInt8) :
    ∃ tokens, externRec heap root = some tokens ∧
      (GetsBack heap root (externBytes tokens) rest ↔ NumbersOk tokens) := by
  obtain ⟨tokens, htokens, hwrites⟩ := externRec_writes hheap hroot
  have hnumber : ∀ token ∈ tokens, token.Number :=
    hwrites.forall (fun hu h => h.number hgraph.objects hu) (by simpa using hgraph.root)
  have hlong : NoLong heap root := by
    refine ⟨hgraph.root, fun obj hobj n hmem => ?_⟩
    have hok := hgraph.objects obj hobj
    cases obj with
    | block tag color fields => exact hok.2 n hmem
    | string bytes => cases hmem
    | double bits => cases hmem
    | custom form boxed => cases hmem
  have hshared : ∀ pre d post, tokens = pre ++ .shared d :: post →
      0 < d ∧ d ≤ pre.countP Token.recorded := by simpa using hwrites.shared
  exact ⟨tokens, htokens, (getsBack_iff hheap hroot (.inl hlong) hwrites rest).trans
    (readBack_number_iff hnumber hshared)⟩

/-- A block with these fields, a double that is the same in both byte orders, an `Int32`
and an `Int64`. -/
def numberHeap (fields : List Value) : Heap :=
  [.block 0 0 fields, .double 0, .custom .fixed (.int32 7), .custom .fixed (.int64 8)]

/-- The double is read when it is referred to at once, and not when the boxed integers
come in between. -/
theorem numbers_getsBack_iff_twice :
    (∃ tokens, externRec (numberHeap [.ptr 1, .ptr 1, .ptr 2, .ptr 3]) (.ptr 0) = some tokens ∧
      GetsBack (numberHeap [.ptr 1, .ptr 1, .ptr 2, .ptr 3]) (.ptr 0) (externBytes tokens) []) ∧
    ∃ tokens, externRec (numberHeap [.ptr 1, .ptr 2, .ptr 3, .ptr 1]) (.ptr 0) = some tokens ∧
      ¬ GetsBack (numberHeap [.ptr 1, .ptr 2, .ptr 3, .ptr 1]) (.ptr 0) (externBytes tokens) [] := by
  have hok : ∀ fields : List Value, (∀ v ∈ fields, v.Ok (numberHeap fields)) →
      fields.length = 4 → HeapOk (numberHeap fields) := by
    intro fields hfields hlen
    refine ⟨?_, fun obj hobj => ?_⟩
    · show 4 < 2 ^ 61
      decide
    rcases List.mem_cons.mp hobj with rfl | hobj
    · exact ⟨by decide, by decide, by omega, hfields⟩
    · simp only [List.mem_cons, List.not_mem_nil, or_false] at hobj
      rcases hobj with rfl | rfl | rfl <;> trivial
  have hgraph : ∀ fields : List Value, fields ≠ [] → (∀ n, .long n ∉ fields) →
      NumberGraph (numberHeap fields) (.ptr 0) := by
    intro fields hne hlong
    refine ⟨nofun, fun obj hobj => ?_⟩
    rcases List.mem_cons.mp hobj with rfl | hobj
    · exact ⟨hne, hlong⟩
    · simp only [List.mem_cons, List.not_mem_nil, or_false] at hobj
      rcases hobj with rfl | rfl | rfl <;> trivial
  have hlt : ∀ (fields : List Value) (a : Nat), a < 4 → (Value.ptr a).Ok (numberHeap fields) :=
    fun _ _ h => h
  constructor
  · obtain ⟨tokens, htokens, hiff⟩ := numbers_getsBack_iff
      (hok [.ptr 1, .ptr 1, .ptr 2, .ptr 3] (by simp [hlt]) rfl) (hlt _ 0 (by decide))
      (hgraph _ nofun (by simp)) []
    refine ⟨tokens, htokens, hiff.mpr ?_⟩
    have heq : externRec (numberHeap [.ptr 1, .ptr 1, .ptr 2, .ptr 3]) (.ptr 0) =
        some [.block 0 0 4, .double 0, .shared 1, .custom .fixed (.int32 7),
          .custom .fixed (.int64 8)] := by decide
    obtain rfl := Option.some.inj (htokens.symm.trans heq)
    refine (readBack_number_iff (by simp [Token.Number]) fun pre d post heq => ?_).mp ?_
    · rcases pre with _ | ⟨_, _ | ⟨_, _ | ⟨_, _ | ⟨_, _ | ⟨_, pre⟩⟩⟩⟩⟩ <;> simp at heq
      obtain ⟨rfl, rfl, rfl, -⟩ := heq
      decide
    · have hdouble : swapBytes 0 = 0 := by decide
      exact ⟨trivial, hdouble, rfl, nofun, nofun, trivial⟩
  · obtain ⟨tokens, htokens, hiff⟩ := numbers_getsBack_iff
      (hok [.ptr 1, .ptr 2, .ptr 3, .ptr 1] (by simp [hlt]) rfl) (hlt _ 0 (by decide))
      (hgraph _ nofun (by simp)) []
    refine ⟨tokens, htokens, fun hback => ?_⟩
    have heq : externRec (numberHeap [.ptr 1, .ptr 2, .ptr 3, .ptr 1]) (.ptr 0) =
        some [.block 0 0 4, .double 0, .custom .fixed (.int32 7), .custom .fixed (.int64 8),
          .shared 3] := by decide
    obtain rfl := Option.some.inj (htokens.symm.trans heq)
    -- two boxed integers since, and no other double
    obtain ⟨-, hzero | ⟨bits, -, hbits⟩⟩ := (hiff.mp hback).shared [.block 0 0 4] (.double 0)
      [.custom .fixed (.int32 7), .custom .fixed (.int64 8)] 3 [] rfl rfl rfl
    · cases hzero
    · cases hbits

/-- The double 1.0 is read as another one. -/
theorem double_not_getsBack : ∃ bytes,
    externValue [.double 0x3FF0000000000000] (.ptr 0) = some bytes ∧
    inputValue bytes = .ok ⟨⟨[], []⟩, .double 0xF03F, []⟩ ∧
    ¬ GetsBack [.double 0x3FF0000000000000] (.ptr 0) bytes [] := by
  have hread : inputValue (externBytes [.double 0x3FF0000000000000]) =
      .ok ⟨⟨[], []⟩, .double 0xF03F, []⟩ := by decide
  refine ⟨externBytes [.double 0x3FF0000000000000], by decide, hread, ?_⟩
  rintro ⟨out, hout, ⟨f, hiso⟩, -⟩
  rw [List.append_nil, hread] at hout
  cases hout
  obtain ⟨obj, hobj, hcorr⟩ := hiso.objects 0 (.double 0xF03F) hiso.root
  cases hobj
  have heq : MLValue.double 0xF03F = .double 0x3FF0000000000000 := hcorr
  exact absurd heq (by decide)

end OcamlJit.Marshal

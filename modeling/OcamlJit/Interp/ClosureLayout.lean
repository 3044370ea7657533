/-
  OcamlJit.Interp.ClosureLayout
  ─────────────────────────────
  **WHAT `CLOSURE` AND `CLOSUREREC` LEAVE BEHIND.**

  The block of `n` functions over `vars` holds the code pointer of function `i`
  in field `2 * i`, an infix header of that offset in the field before, and the
  variables in the fields from `2 * n - 1` on.  `MadeClosures` says so of the
  requests an instruction makes, and what its stack and accumulator are then.
-/
import OcamlJit.Interp.Machine

namespace OcamlJit.Interp

open OcamlJit.Lib OcamlJit.Instructions

/-! ## §1. Words of a block. -/

/-- What a request writes to `addr`. -/
def Request.writes (addr : Value) : Request → Option Value
  | .store p v => if p = addr then some v else none
  | .camlInitialize p v => if p = addr then some v else none
  | .camlModify p v => if p = addr then some v else none
  | _ => none

/-- The last word written to `addr`. -/
def written (addr : Value) : List Request → Option Value
  | [] => none
  | e :: es => (written addr es).or (e.writes addr)

@[simp] theorem written_append (addr : Value) (es fs : List Request) :
    written addr (es ++ fs) = (written addr fs).or (written addr es) := by
  induction es with
  | nil => rw [List.nil_append, written, Option.or_none]
  | cons e es ih => rw [List.cons_append, written, ih, written, Option.or_assoc]

/-- The first field is at the address of the block. -/
theorem fieldN_zero (b : Value) : fieldN b 0 = b := by
  unfold fieldN field
  simp

/-- And the next one eight bytes on. -/
theorem fieldN_succ (b : Value) (i : Nat) : fieldN b (i + 1) = fieldN b i + 8 := by
  unfold fieldN field
  rw [BitVec.ofNat_add, BitVec.mul_add, BitVec.add_assoc]
  rfl

/-- Different fields have different addresses. -/
theorem fieldN_inj {b : Value} {i j : Nat} (hi : i < 2 ^ 61) (hj : j < 2 ^ 61) :
    fieldN b i = fieldN b j ↔ i = j := by
  refine ⟨fun h => ?_, fun h => h ▸ rfl⟩
  have h8 : (8#64 * BitVec.ofNat 64 i).toNat = (8#64 * BitVec.ofNat 64 j).toNat :=
    congrArg BitVec.toNat ((BitVec.add_right_inj b).mp h)
  simp only [BitVec.toNat_mul, BitVec.toNat_ofNat] at h8
  omega

section Layout

variable (rt : Layout)

/-- Field `j` of a block for the functions `ls` over `vars`. -/
def closureField (ls : List Nat) (vars : List Value) (j : Nat) : Option Value :=
  if j < 2 * ls.length - 1 then
    if j % 2 = 0 then ls[j / 2]?.map rt.codePointer
    else some (makeHeader (j + 1) infixTag)
  else vars[j - (2 * ls.length - 1)]?

/-- `Alloc_small` or `caml_alloc_shr`. -/
def allocRequest (wosize tag : Nat) : Request :=
  if wosize ≤ maxYoungWosize then .allocSmall wosize tag else .allocShr wosize tag

/-- The closures of `n` functions, last first. -/
def closurePointers (block : Value) : Nat → List Slot
  | 0 => []
  | n + 1 => .val (fieldN block (2 * n)) :: closurePointers block n

/-- The requests `es` make the block for `ls`; `pushed` closures are pushed. -/
structure MadeClosures (O : Oracle Request Value) (ls : List Nat) (nvars pushed : Nat)
    (vars : List Value) (s s' : State) (es : List Request) : Prop where
  block : ∃ writes, es = allocRequest (ls.length * 2 - 1 + nvars) closureTag :: writes ∧
    O.Answers (allocRequest (ls.length * 2 - 1 + nvars) closureTag) s'.accu ∧
    ∀ j, j < ls.length * 2 - 1 + nvars →
      written (fieldN s'.accu j) writes = closureField rt ls vars j
  env : s'.env = s.env
  stack : s'.stack = closurePointers s'.accu pushed ++ (spillAccu nvars s).stack.drop nvars

end Layout

/-! ## §2. The loops. -/

section Loops

variable {O : Oracle Request Value} {rt : Layout}

/-- **A row of stores** writes each field once. -/
theorem storeFields_logs {store : Value → Value → Request}
    (hstore : ∀ p v a, (store p v).writes a = if p = a then some v else none) (b : Value) :
    ∀ (vs : List Value) (i : Nat), i + vs.length ≤ 2 ^ 61 →
    Logs (storeFields store b i vs : Act O Unit) fun _ es => ∀ j, j < 2 ^ 61 →
      written (fieldN b j) es = if i ≤ j then vs[j - i]? else none
  | [], i, _ => Logs.pure fun j _ => by
      rw [written, List.getElem?_nil, ite_self]
  | v :: vs, i, hle => by
      rw [List.length_cons] at hle
      refine (Logs.perform _).bind fun _ es hes => ?_
      obtain ⟨rfl, -⟩ := hes
      refine (storeFields_logs hstore b vs (i + 1) (by omega)).mono fun _ es hes j hj => ?_
      rw [written_append, hes j hj, written, written, Option.none_or, hstore]
      simp only [fieldN_inj (show i < 2 ^ 61 by omega) hj]
      rcases Nat.lt_trichotomy i j with hlt | rfl | hgt
      · rw [if_pos (Nat.succ_le_of_lt hlt), if_neg (Nat.ne_of_lt hlt), if_pos (Nat.le_of_lt hlt), Option.or_none,
          show j - i = j - (i + 1) + 1 by omega, List.getElem?_cons_succ]
      · rw [if_neg (Nat.not_succ_le_self i), if_pos rfl, if_pos (Nat.le_refl i), Nat.sub_self]
        rfl
      · rw [if_neg (by omega), if_neg (Nat.ne_of_gt hgt), if_neg (Nat.not_le.mpr hgt)]
        rfl

/-- A block is allocated, and its fields are written. -/
theorem allocBlock_logs {wosize tag start : Nat} {vs : List Value}
    (hle : start + vs.length ≤ 2 ^ 61) :
    Logs (allocBlock wosize tag start vs : Act O Value) fun b es =>
      ∃ writes, es = allocRequest wosize tag :: writes ∧
        O.Answers (allocRequest wosize tag) b ∧
        ∀ j, j < 2 ^ 61 → written (fieldN b j) writes = if start ≤ j then vs[j - start]? else none := by
  unfold allocBlock allocRequest
  split
  · refine (Logs.perform _).bind fun b es hes => ?_
    obtain ⟨rfl, hb⟩ := hes
    refine (storeFields_logs (fun _ _ _ => rfl) b vs start hle).bind fun _ es hes => Logs.pure ?_
    exact ⟨es, by simp, hb, hes⟩
  · refine (Logs.perform _).bind fun b es hes => ?_
    obtain ⟨rfl, hb⟩ := hes
    refine (storeFields_logs (fun _ _ _ => rfl) b vs start hle).bind fun _ es hes => Logs.pure ?_
    exact ⟨es, by simp, hb, hes⟩

/-- Every other field has a code pointer in it. -/
theorem closureField_code {all : List Nat} {i l : Nat} (vars : List Value) (hl : all[i]? = some l) :
    closureField rt all vars (2 * i) = some (rt.codePointer l) := by
  have hlt : i < all.length := (List.getElem?_eq_some_iff.mp hl).1
  unfold closureField
  rw [if_pos (by omega), if_pos (by omega), show 2 * i / 2 = i by omega, hl]
  rfl

/-- Between them there are infix headers. -/
theorem closureField_header {all : List Nat} {i : Nat} (vars : List Value) (hi : 0 < i)
    (hlt : i < all.length) :
    closureField rt all vars (2 * i - 1) = some (makeHeader (i * 2) infixTag) := by
  unfold closureField
  rw [if_pos (by omega), if_neg (by omega), show 2 * i - 1 + 1 = i * 2 by omega]

/-- The loop over the functions from number `i` on writes their fields and
pushes their closures. -/
theorem storeInfixes_logs (b : Value) (all : List Nat) (vars : List Value) (hall : all.length ≤ 2 ^ 59) :
    ∀ (ls : List Nat) (i : Nat) (s : State), 0 < i → all.drop i = ls →
    Logs (storeInfixes rt b i ls s : Act O State) fun s' es =>
      s'.accu = s.accu ∧ s'.env = s.env ∧
      (∀ below, s.stack = closurePointers b i ++ below →
        s'.stack = closurePointers b (i + ls.length) ++ below) ∧
      ∀ j, j < 2 ^ 61 → written (fieldN b j) es =
        if 2 * i - 1 ≤ j ∧ j < 2 * (i + ls.length) - 1 then closureField rt all vars j else none
  | [], i, s, hi, _ => Logs.pure ⟨rfl, rfl, fun _ h => h, fun j _ => by
      rw [if_neg (by rw [List.length_nil]; omega), written]⟩
  | l :: ls, i, s, hi, hdrop => by
      have hl : all[i]? = some l := by
        rw [← Nat.add_zero i, ← List.getElem?_drop, hdrop]
        rfl
      have hlt : i < all.length := (List.getElem?_eq_some_iff.mp hl).1
      have hrest : all.drop (i + 1) = ls := by
        rw [← List.drop_drop, hdrop]
        rfl
      have hlen : all.length = i + (ls.length + 1) := by
        have := congrArg List.length hdrop
        rw [List.length_drop, List.length_cons] at this
        omega
      -- the header and the code pointer, then the functions after this one
      refine (Logs.perform _).bind fun _ es hes => ?_
      obtain ⟨rfl, -⟩ := hes
      refine (Logs.perform _).bind fun _ es hes => ?_
      obtain ⟨rfl, -⟩ := hes
      refine (storeInfixes_logs b all vars hall ls (i + 1) _ (Nat.succ_pos i) hrest).mono
        fun s' es ⟨haccu, henv, hstack, hes⟩ => ⟨haccu, henv, fun below hbelow => ?_, fun j hj => ?_⟩
      · rw [hstack below (by rw [State.pushed, hbelow]; rfl), List.length_cons,
          Nat.add_assoc, Nat.add_comm 1]
      · rw [written_append, written_append, hes j hj, List.length_cons]
        simp only [written, Option.none_or, Request.writes,
          fieldN_inj (show 2 * i - 1 < 2 ^ 61 by omega) hj,
          fieldN_inj (show 2 * i < 2 ^ 61 by omega) hj]
        -- the field is the header here, the code pointer here, or a later one
        by_cases hhead : j = 2 * i - 1
        · rw [hhead, closureField_header vars hi hlt, if_neg (by omega), if_neg (by omega),
            if_pos rfl, if_pos (by omega)]
          rfl
        by_cases hcode : j = 2 * i
        · rw [hcode, closureField_code vars hl, if_neg (by omega), if_pos rfl, if_neg (by omega),
            if_pos (by omega)]
          rfl
        · rw [if_neg (c := 2 * i = j) (fun h => hcode h.symm),
            if_neg (c := 2 * i - 1 = j) (fun h => hhead h.symm), Option.or_none, Option.or_none]
          exact if_congr (by omega) rfl rfl

end Loops

/-! ## §3. The instructions. -/

section Instructions

variable {O : Oracle Request Value} {rt : Layout} {s : State} {nvars : Nat} {vars : List Value}

/-- What can be picked can be dropped. -/
theorem drop?_of_picks? (h : s.picks? nvars = some vars) :
    s.drop? nvars = some { s with stack := s.stack.drop nvars } :=
  if_pos (picks?_eq_some h).1

/-- Spilling the accumulator leaves the environment. -/
theorem spillAccu_env (nvars : Nat) (s : State) : (spillAccu nvars s).env = s.env := by
  unfold spillAccu
  split <;> rfl

/-- The variables, the first code pointer and then the other functions. -/
theorem written_closure {b : Value} {ls : List Nat} {l : Nat} {rest : List Nat}
    {ws es : List Request} (hls : ls = l :: rest)
    (hsize : ls.length * 2 - 1 + nvars < 2 ^ 61)
    (hws : ∀ j, j < 2 ^ 61 → written (fieldN b j) ws =
      if ls.length * 2 - 1 ≤ j then vars[j - (ls.length * 2 - 1)]? else none)
    (hes : ∀ j, j < 2 ^ 61 → written (fieldN b j) es =
      if 2 * 1 - 1 ≤ j ∧ j < 2 * (1 + rest.length) - 1 then closureField rt ls vars j else none)
    {j : Nat} (hj : j < ls.length * 2 - 1 + nvars) :
    written (fieldN b j) (ws ++ ([.store b (rt.codePointer l)] ++ es))
      = closureField rt ls vars j := by
  have hlength : ls.length = rest.length + 1 := by rw [hls, List.length_cons]
  have hfirst : written (fieldN b j) [.store b (rt.codePointer l)]
      = if j = 0 then some (rt.codePointer l) else none := by
    show (if b = fieldN b j then some (rt.codePointer l) else none) = _
    refine if_congr ?_ rfl rfl
    rw [← fieldN_inj (b := b) (show j < 2 ^ 61 by omega) (Nat.two_pow_pos 61), fieldN_zero]
    exact eq_comm
  rw [written_append, written_append, hes j (by omega), hfirst, hws j (by omega)]
  rcases Nat.eq_zero_or_pos j with rfl | hpos
  · -- the code pointer of the first function
    rw [if_neg (by omega), if_pos rfl, if_neg (by omega)]
    exact (closureField_code (i := 0) vars (by rw [hls]; rfl)).symm
  · rw [if_neg (Nat.ne_of_gt hpos), Option.or_none]
    by_cases hcode : j < ls.length * 2 - 1
    · rw [if_pos (by omega), if_neg (Nat.not_le.mpr hcode), Option.or_none]
    · rw [if_neg (by omega), if_pos (Nat.not_lt.mp hcode), Option.none_or]
      unfold closureField
      rw [if_neg (by omega), Nat.mul_comm 2]

/-- **`CLOSUREREC` makes the closures.** -/
theorem doClosureRec_logs {l : Nat} {rest : List Nat}
    (hvars : (spillAccu nvars s).picks? nvars = some vars) (hfuncs : (l :: rest).length ≤ 2 ^ 59)
    (hnvars : nvars ≤ 2 ^ 59) :
    Logs (doClosureRec rt (l :: rest) nvars s : Act O State)
      (MadeClosures rt O (l :: rest) nvars (l :: rest).length vars s) := by
  have hlen : vars.length = nvars := length_of_picks? hvars
  have henv : (spillAccu nvars s).env = s.env := spillAccu_env nvars s
  unfold doClosureRec
  dsimp only
  rw [hvars, drop?_of_picks? hvars]
  refine (allocBlock_logs (by omega)).bind fun b es hes => ?_
  obtain ⟨writes, rfl, hb, hwrites⟩ := hes
  refine (Logs.perform _).bind fun _ es hes => ?_
  obtain ⟨rfl, -⟩ := hes
  refine (storeInfixes_logs b (l :: rest) vars hfuncs rest 1 _ Nat.one_pos rfl).mono
    fun s' es ⟨haccu, henv', hstack, hes⟩ => ?_
  obtain rfl : s'.accu = b := haccu
  refine ⟨⟨_, rfl, hb, fun j hj => ?_⟩, henv'.trans henv, ?_⟩
  · exact written_closure rfl (by omega) hwrites hes hj
  · rw [hstack _ (by rw [closurePointers, closurePointers, Nat.mul_zero, fieldN_zero]; rfl),
      List.length_cons, Nat.add_comm 1]
    rfl

/-- **`CLOSURE` makes the closure of one function.** -/
theorem doClosure_logs {l : Nat} (hvars : (spillAccu nvars s).picks? nvars = some vars)
    (hnvars : nvars ≤ 2 ^ 59) :
    Logs (doClosure rt l nvars s : Act O State) (MadeClosures rt O [l] nvars 0 vars s) := by
  have hlen : vars.length = nvars := length_of_picks? hvars
  unfold doClosure
  dsimp only
  rw [hvars, drop?_of_picks? hvars]
  refine (allocBlock_logs (by omega)).bind fun b es hes => ?_
  obtain ⟨writes, rfl, hb, hwrites⟩ := hes
  refine (Logs.perform _).bind fun _ es hes => Logs.pure ?_
  obtain ⟨rfl, -⟩ := hes
  refine ⟨⟨_, rfl, hb, fun j hj => ?_⟩, spillAccu_env nvars s, rfl⟩
  exact written_closure rfl (by rw [List.length_singleton]; omega) hwrites
    (fun j _ => by rw [if_neg (by rw [List.length_nil]; omega), written]) hj

end Instructions

end OcamlJit.Interp

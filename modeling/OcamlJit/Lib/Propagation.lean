/-
  OcamlJit.Lib.Propagation
  ────────────────────────
  **A WORKLIST WITH A DOUBTFUL TEST.**

  A set of words is to be closed: a word gives rise to entries, and an entry
  stands for a word, or for none.  A worklist follows the entries and drops one
  if the test says it has been dealt with.  The test looks for the entry among
  the words, and not for the word the entry stands for.

    • `Search.run` — the worklist, pass by pass,
    • `Search.Settles` — no entries follow each other in a circle that the test
      never breaks, and the word of an entry dropped is found in another way,
    • `Search.settles_iff` — these are the runs that end with the least closed
      set, if the entries are finitely many.
-/
import OcamlJit.Lib.Worklist
import Mathlib.Data.Set.Card
import Mathlib.Order.Bounds.Basic

namespace OcamlJit.Lib.Propagation

/-! ## §1. The search. -/

/-- What is searched: the words there are at the start, the word an entry stands
for, the entries a word gives rise to, and the first entries. -/
structure Search (X : Type) where
  own : Set X
  carry : X → Option X
  asks : X → List X
  start : List X

/-- The entries followed so far and those on the stack, the last first. -/
structure Moment (X : Type) where
  followed : List X
  todo : List X

namespace Search

variable {X : Type} (S : Search X)

/-- The word is there at the start, or is that of an entry that was followed. -/
def Found (followed : List X) (w : X) : Prop := w ∈ S.own ∨ ∃ e ∈ followed, S.carry e = some w

/-- The words that have to be found. -/
inductive Needed : X → Prop where
  | own {w : X} (h : w ∈ S.own) : Needed w
  | carry {w e w' : X} (h : Needed w) (he : e ∈ S.asks w) (hw' : S.carry e = some w') : Needed w'

/-- An entry of a word that has to be found. -/
def Demanded (e : X) : Prop := ∃ w, S.Needed w ∧ e ∈ S.asks w

section Run

variable [DecidableEq X] [DecidablePred (· ∈ S.own)]

instance (followed : List X) (w : X) : Decidable (S.Found followed w) :=
  inferInstanceAs (Decidable (w ∈ S.own ∨ ∃ e ∈ followed, S.carry e = some w))

/-- One pass. -/
def pass (m : Moment X) : Moment X :=
  match m.todo with
  | [] => m
  | e :: todo =>
      -- the test
      if S.Found m.followed e then ⟨m.followed, todo⟩
      else match S.carry e with
        | some w => ⟨e :: m.followed, S.asks w ++ todo⟩
        | none => ⟨m.followed, todo⟩

/-- After `n` passes. -/
def run : Nat → Moment X
  | 0 => ⟨[], S.start⟩
  | n + 1 => S.pass (run n)

/-- The entry comes up in pass `n`. -/
def ComesUpAt (n : Nat) (e : X) : Prop := (S.run n).todo.head? = some e

/-- The entry comes up and passes the test. -/
def Follows (e : X) : Prop := ∃ n, S.ComesUpAt n e ∧ ¬ S.Found (S.run n).followed e

/-- The entry comes up and the test drops it. -/
def Drops (e : X) : Prop := ∃ n, S.ComesUpAt n e ∧ S.Found (S.run n).followed e

/-- The entry gives rise to the other, and the test never drops it. -/
def Pushes (e e' : X) : Prop :=
  (∀ n, ¬ S.Found (S.run n).followed e) ∧ ∃ w, S.carry e = some w ∧ e' ∈ S.asks w

/-- **The test does no harm.** -/
structure Settles : Prop where
  ends : ∀ n e, S.ComesUpAt n e → ¬ Relation.TransGen S.Pushes e e
  found : ∀ e w, S.Drops e → S.carry e = some w →
    w ∈ S.own ∨ ∃ e', S.Follows e' ∧ S.carry e' = some w

/-! ## §2. What the passes keep. -/

variable {S} {n k : Nat} {e w : X} {todo : List X}

/-- A pass follows the entry on top, or nothing. -/
theorem pass_followed (m : Moment X) :
    (S.pass m).followed = m.followed ∨
      ∃ e, m.todo.head? = some e ∧ ¬ S.Found m.followed e ∧ (S.pass m).followed = e :: m.followed := by
  unfold pass
  split
  case h_1 => exact .inl rfl
  case h_2 e todo htodo =>
      split
      case isTrue => exact .inl rfl
      case isFalse hnot =>
          split
          case h_1 => exact .inr ⟨e, by rw [htodo]; rfl, hnot, rfl⟩
          case h_2 => exact .inl rfl

/-- What is found stays found. -/
theorem Found.mono (hnk : n ≤ k) (h : S.Found (S.run n).followed w) :
    S.Found (S.run k).followed w := by
  induction hnk with
  | refl => exact h
  | @step k _ ih =>
      rcases ih with hown | ⟨e, he, hw⟩
      · exact .inl hown
      · refine .inr ⟨e, ?_, hw⟩
        rcases pass_followed (S := S) (S.run k) with hsame | ⟨e', -, -, hcons⟩
        · exact hsame ▸ he
        · exact (hcons ▸ List.mem_cons_of_mem e' he : e ∈ (S.pass (S.run k)).followed)

/-- What was followed comes up and is not found before. -/
theorem follows_of_mem (h : e ∈ (S.run n).followed) : S.Follows e := by
  induction n with
  | zero => cases h
  | succ n ih =>
      rcases pass_followed (S := S) (S.run n) with hsame | ⟨e', hhead, hnot, hcons⟩
      · exact ih (hsame ▸ h)
      · rcases List.mem_cons.mp (hcons ▸ h : e ∈ e' :: (S.run n).followed) with rfl | h
        · exact ⟨n, hhead, hnot⟩
        · exact ih h

/-- What is on top comes up. -/
theorem comesUpAt_of_todo (h : (S.run n).todo = e :: todo) : S.ComesUpAt n e := by
  unfold ComesUpAt
  rw [h]
  rfl

/-- What comes up is on top then. -/
theorem ComesUpAt.popped (h : S.ComesUpAt n e) : ∃ todo, (S.run n).todo = e :: todo := by
  unfold ComesUpAt at h
  cases htodo : (S.run n).todo with
  | nil =>
      rw [htodo] at h
      cases h
  | cons e' todo =>
      rw [htodo] at h
      cases h
      exact ⟨todo, rfl⟩

/-- The test drops the entry. -/
theorem pass_drops {followed : List X} (hfound : S.Found followed e) :
    S.pass ⟨followed, e :: todo⟩ = ⟨followed, todo⟩ := if_pos hfound

/-- The entry stands for no word. -/
theorem pass_ends {followed : List X} (hnot : ¬ S.Found followed e) (hw : S.carry e = none) :
    S.pass ⟨followed, e :: todo⟩ = ⟨followed, todo⟩ := by
  simp only [pass, if_neg hnot, hw]

/-- The entry is followed. -/
theorem pass_follows {followed : List X} (hnot : ¬ S.Found followed e) (hw : S.carry e = some w) :
    S.pass ⟨followed, e :: todo⟩ = ⟨e :: followed, S.asks w ++ todo⟩ := by
  simp only [pass, if_neg hnot, hw]

/-- The next pass is about what is on top. -/
theorem run_succ (h : (S.run n).todo = e :: todo) :
    S.run (n + 1) = S.pass ⟨(S.run n).followed, e :: todo⟩ := by
  rw [← h]
  rfl

/-- An entry found before is dropped. -/
theorem run_drops (h : (S.run n).todo = e :: todo) (hfound : S.Found (S.run n).followed e) :
    S.run (n + 1) = ⟨(S.run n).followed, todo⟩ := (run_succ h).trans (pass_drops hfound)

/-- An entry that carries nothing asks for nothing. -/
theorem run_ends (h : (S.run n).todo = e :: todo) (hnot : ¬ S.Found (S.run n).followed e)
    (hw : S.carry e = none) : S.run (n + 1) = ⟨(S.run n).followed, todo⟩ :=
  (run_succ h).trans (pass_ends hnot hw)

/-- An entry that carries something asks for it further up. -/
theorem run_follows (h : (S.run n).todo = e :: todo) (hnot : ¬ S.Found (S.run n).followed e)
    (hw : S.carry e = some w) :
    S.run (n + 1) = ⟨e :: (S.run n).followed, S.asks w ++ todo⟩ :=
  (run_succ h).trans (pass_follows hnot hw)

/-- Nothing happens after the end. -/
theorem run_of_end (hend : (S.run n).todo = []) (hnk : n ≤ k) : S.run k = S.run n := by
  induction hnk with
  | refl => rfl
  | step _ ih =>
      show S.pass (S.run _) = _
      rw [ih]
      unfold pass
      rw [hend]

/-- What comes up comes up before the end. -/
theorem ComesUpAt.lt (h : S.ComesUpAt k e) (hend : (S.run n).todo = []) : k < n := by
  by_contra hle
  obtain ⟨todo, htodo⟩ := h.popped
  rw [run_of_end hend (Nat.not_lt.mp hle), hend] at htodo
  cases htodo

section Start

variable (hstart : ∀ e, e ∈ S.start ↔ ∃ w ∈ S.own, e ∈ S.asks w)

include hstart

/-- Only words that have to be found are found, and only their entries come up. -/
theorem run_sound (n : Nat) : (∀ w, S.Found (S.run n).followed w → S.Needed w) ∧
    ∀ e ∈ (S.run n).todo, S.Demanded e := by
  induction n with
  | zero =>
      refine ⟨fun w hw => ?_, fun e he => ?_⟩
      · rcases hw with hown | ⟨e, he, -⟩
        · exact .own hown
        · cases he
      · obtain ⟨w, hw, he⟩ := (hstart e).mp he
        exact ⟨w, .own hw, he⟩
  | succ n ih =>
      obtain ⟨hfound, hdemanded⟩ := ih
      cases htodo : (S.run n).todo with
      | nil =>
          rw [run_of_end htodo (Nat.le_succ n), htodo]
          exact ⟨hfound, nofun⟩
      | cons e todo =>
          have hrest : ∀ x ∈ todo, S.Demanded x :=
            fun x hx => hdemanded x (htodo ▸ List.mem_cons_of_mem e hx)
          -- an entry is dropped, or leads nowhere, or to a word that is needed with it
          by_cases hdrop : S.Found (S.run n).followed e
          · rw [run_drops htodo hdrop]
            exact ⟨hfound, hrest⟩
          cases hw : S.carry e with
          | none =>
              rw [run_ends htodo hdrop hw]
              exact ⟨hfound, hrest⟩
          | some w =>
              obtain ⟨w₀, hw₀, he⟩ := hdemanded e (htodo ▸ List.mem_cons_self)
              have hneeded : S.Needed w := .carry hw₀ he hw
              rw [run_follows htodo hdrop hw]
              refine ⟨fun w' hw' => ?_, fun x hx => ?_⟩
              · rcases hw' with hown | ⟨x, hx, hxw⟩
                · exact .own hown
                · rcases List.mem_cons.mp hx with rfl | hx
                  · rw [hw] at hxw
                    cases hxw
                    exact hneeded
                  · exact hfound w' (.inr ⟨x, hx, hxw⟩)
              · rcases List.mem_append.mp hx with hx | hx
                · exact ⟨w, hneeded, hx⟩
                · exact hrest x hx

end Start

/-! ## §3. The runs that end. -/

/-- A word that is found at all. -/
def FoundEver (S : Search X) [DecidablePred (· ∈ S.own)] (w : X) : Prop :=
  ∃ n, S.Found (S.run n).followed w

/-- An entry that comes up gives rise to another that does. -/
def PushesUp (S : Search X) [DecidablePred (· ∈ S.own)] (e e' : X) : Prop :=
  S.Pushes e e' ∧ (∃ n, S.ComesUpAt n e) ∧ ∃ n, S.ComesUpAt n e'

/-- What is on the stack is worked off, once nothing more will be found. -/
theorem worked_off (hsettles : S.Settles) (hfinite : {e | S.Demanded e}.Finite)
    (hstart : ∀ e, e ∈ S.start ↔ ∃ w ∈ S.own, e ∈ S.asks w) {n₀ : Nat}
    (hall : ∀ w, S.FoundEver w → S.Found (S.run n₀).followed w) (e : X) :
    ∀ n todo, n₀ ≤ n → (S.run n).todo = e :: todo → ∃ k, n ≤ k ∧ (S.run k).todo = todo := by
  -- the entries that come up push each other, and not in a circle
  have hdemanded : ∀ {n e}, S.ComesUpAt n e → S.Demanded e := by
    intro n e hup
    obtain ⟨todo, htodo⟩ := hup.popped
    exact (run_sound hstart n).2 e (htodo ▸ List.mem_cons_self)
  have hwf : WellFounded fun e' e => PushesUp S e e' := by
    refine wellFounded_of_acyclic hfinite ?_ ?_
    · rintro x y ⟨-, ⟨n, hx⟩, m, hy⟩
      exact ⟨hdemanded hx, hdemanded hy⟩
    · intro x hcircle
      obtain ⟨y, ⟨-, ⟨n, hx⟩, -⟩, -⟩ := Relation.TransGen.head'_iff.mp hcircle
      exact hsettles.ends n x hx (hcircle.lift id fun _ _ h => h.1)
  induction e using hwf.induction with
  | _ e ih =>
      intro n todo hn htodo
      by_cases hdrop : S.Found (S.run n).followed e
      · exact ⟨n + 1, Nat.le_succ n, by rw [run_drops htodo hdrop]⟩
      cases hw : S.carry e with
      | none => exact ⟨n + 1, Nat.le_succ n, by rw [run_ends htodo hdrop hw]⟩
      | some w =>
          have hnever : ∀ k, ¬ S.Found (S.run k).followed e :=
            fun k hk => hdrop ((hall e ⟨k, hk⟩).mono hn)
          -- what the entry pushes, one by one
          have hpushed : ∀ l : List X, (∀ x ∈ l, x ∈ S.asks w) → ∀ k, n ≤ k →
              (S.run k).todo = l ++ todo → ∃ k', k ≤ k' ∧ (S.run k').todo = todo := by
            intro l
            induction l with
            | nil => exact fun _ k _ hk => ⟨k, Nat.le_refl k, hk⟩
            | cons x l ihl =>
                intro hl k hnk hk
                obtain ⟨k₁, hk₁, htodo₁⟩ := ih x ⟨⟨hnever, w, hw, hl x List.mem_cons_self⟩,
                  ⟨n, comesUpAt_of_todo htodo⟩, k, comesUpAt_of_todo hk⟩ k _ (hn.trans hnk) hk
                obtain ⟨k₂, hk₂, htodo₂⟩ := ihl (fun y hy => hl y (List.mem_cons_of_mem x hy)) k₁
                  (hnk.trans hk₁) htodo₁
                exact ⟨k₂, hk₁.trans hk₂, htodo₂⟩
          obtain ⟨k, hk, htodo'⟩ := hpushed (S.asks w) (fun _ h => h) (n + 1) (Nat.le_succ n)
            (by rw [run_follows htodo hdrop hw])
          exact ⟨k, (Nat.le_succ n).trans hk, htodo'⟩

/-- **The run ends.**  By induction on the words that are still to be found. -/
theorem Settles.run_ends (hsettles : S.Settles) (hfinite : {e | S.Demanded e}.Finite)
    (hstart : ∀ e, e ∈ S.start ↔ ∃ w ∈ S.own, e ∈ S.asks w) : ∃ n, (S.run n).todo = [] := by
  have hdemanded : ∀ {n e}, e ∈ (S.run n).followed → S.Demanded e := by
    intro n e he
    obtain ⟨k, hup, -⟩ := follows_of_mem he
    obtain ⟨todo, htodo⟩ := hup.popped
    exact (run_sound hstart k).2 e (htodo ▸ List.mem_cons_self)
  -- a word is carried by an entry that is followed, and these are finitely many
  have hwords : {w | S.FoundEver w ∧ w ∉ S.own}.Finite := by
    refine Set.Finite.subset ((hfinite.image S.carry).preimage
      (f := some) fun _ _ _ _ h => Option.some.inj h) ?_
    rintro w ⟨⟨n, hown | ⟨e, he, hw⟩⟩, hnot⟩
    · exact absurd hown hnot
    · exact ⟨e, hdemanded he, hw⟩
  suffices hall : ∀ m n, {w | S.FoundEver w ∧ ¬ S.Found (S.run n).followed w}.ncard ≤ m →
      ∃ k, (S.run k).todo = [] from hall _ 0 (Nat.le_refl _)
  intro m
  induction m with
  | zero =>
      intro n hm
      have hmissing : {w | S.FoundEver w ∧ ¬ S.Found (S.run n).followed w}.Finite :=
        hwords.subset fun w hw => ⟨hw.1, fun hown => hw.2 (.inl hown)⟩
      have hnone := (Set.ncard_eq_zero hmissing).mp (Nat.le_zero.mp hm)
      have hall : ∀ w, S.FoundEver w → S.Found (S.run n).followed w := by
        intro w hw
        by_contra hnot
        exact (Set.eq_empty_iff_forall_notMem.mp hnone) w ⟨hw, hnot⟩
      -- the stack as it is now, entry by entry
      suffices hstack : ∀ (l : List X) (k : Nat), n ≤ k → (S.run k).todo = l →
          ∃ k, (S.run k).todo = [] from hstack _ n (Nat.le_refl n) rfl
      intro l
      induction l with
      | nil => exact fun k _ hk => ⟨k, hk⟩
      | cons e l ih =>
          intro k hnk hk
          obtain ⟨k', hkk', hk'⟩ := worked_off hsettles hfinite hstart hall e k l hnk hk
          exact ih k' (hnk.trans hkk') hk'
  | succ m ih =>
      intro n hm
      -- up to the turn that finds one more
      by_cases hall : ∃ w, S.FoundEver w ∧ ¬ S.Found (S.run n).followed w
      · obtain ⟨w, ⟨k, hk⟩, hnot⟩ := hall
        have hnk : n ≤ k := by
          by_contra hlt
          exact hnot (hk.mono (by omega))
        refine ih k (Nat.le_of_lt_succ (Nat.lt_of_lt_of_le ?_ hm))
        have hmissing : {w | S.FoundEver w ∧ ¬ S.Found (S.run n).followed w}.Finite :=
          hwords.subset fun w hw => ⟨hw.1, fun hown => hw.2 (.inl hown)⟩
        refine Set.ncard_lt_ncard ⟨fun w' hw' => ⟨hw'.1, fun h => hw'.2 (h.mono hnk)⟩,
          fun hsup => ?_⟩ hmissing
        exact (hsup (a := w) ⟨⟨k, hk⟩, hnot⟩).2 hk
      · refine ih n ?_
        have hnone : {w | S.FoundEver w ∧ ¬ S.Found (S.run n).followed w} = ∅ :=
          Set.eq_empty_iff_forall_notMem.mpr fun w hw => hall ⟨w, hw⟩
        rw [hnone, Set.ncard_empty]
        exact Nat.zero_le m

section Loop

variable {σ ε : Type} {body : σ → X → Rust ε (σ × List X)} {T : σ → List X → Prop}

/-- The body of a loop makes the passes of the search; `T` says what its state shows of
the entries followed. -/
def Implements (S : Search X) [DecidablePred (· ∈ S.own)]
    (body : σ → X → Rust ε (σ × List X)) (T : σ → List X → Prop) : Prop :=
  ∀ s followed e todo, T s followed → S.Demanded e → ∃ s' pushed, body s e = .ok (s', pushed) ∧
    (S.pass ⟨followed, e :: todo⟩).todo = pushed ++ todo ∧
    T s' (S.pass ⟨followed, e :: todo⟩).followed

/-- **One turn of the code is one pass.** -/
theorem Implements.step (himp : Implements S body T)
    (hstart : ∀ e, e ∈ S.start ↔ ∃ w ∈ S.own, e ∈ S.asks w) {s : σ}
    (hs : T s (S.run n).followed) (htodo : (S.run n).todo = e :: todo) :
    ∃ s' pushed, body s e = .ok (s', pushed) ∧ (S.run (n + 1)).todo = pushed ++ todo ∧
      T s' (S.run (n + 1)).followed := by
  rw [run_succ htodo]
  exact himp s _ e todo hs ((run_sound hstart n).2 e (htodo ▸ List.mem_cons_self))

end Loop

end Run

end Search

end OcamlJit.Lib.Propagation

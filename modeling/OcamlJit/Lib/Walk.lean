/-
  OcamlJit.Lib.Walk
  ─────────────────
  **WALKING A GRAPH WITHOUT MARKING IT.**

  A task is a list of things to do in order: other tasks, or to stop with a
  fault.  `Clears` and `Fails` say how a task comes out, and `Enters a b` that
  doing `a` comes to `b`, which is when everything before `b` clears.

    • `stops_iff_acyclic`  on finitely many tasks there is no endless chain of them
                           if and only if none that is reached enters itself again;
    • `fails_iff`          it fails with what the first task that stops with a
                           fault stops with.

  A recursive procedure on fuel is compared with this by what can come out of
  it, whatever it computes on the way (`follows_of_runs`), and so is one that
  keeps a stack of tasks (`follows_of_stack`).
-/
import OcamlJit.Lib.Rust
import Mathlib.Logic.Relation
import Mathlib.Data.Set.Finite.Basic
import Mathlib.Data.Fintype.Card

namespace OcamlJit.Lib.Walk

variable {ε α β : Type}

/-! ## §1. How a task comes out. -/

/-- What a task does: other tasks, or stopping with a fault. -/
abbrev Plan (ε α : Type) := α → List (α ⊕ Fault ε)

/-- The task is done without a fault. -/
inductive Clears (plan : Plan ε α) : α → Prop where
  | intro {a : α} (bs : List α) (hplan : plan a = bs.map .inl) (hbs : ∀ b ∈ bs, Clears plan b) :
      Clears plan a

/-- The task stops with the fault. -/
inductive Fails (plan : Plan ε α) (f : Fault ε) : α → Prop where
  | here {a : α} (before : List α) (after : List (α ⊕ Fault ε))
      (hplan : plan a = before.map .inl ++ .inr f :: after)
      (hbefore : ∀ b ∈ before, Clears plan b) : Fails plan f a
  | there {a b : α} (before : List α) (after : List (α ⊕ Fault ε))
      (hplan : plan a = before.map .inl ++ .inl b :: after)
      (hbefore : ∀ b ∈ before, Clears plan b) (hb : Fails plan f b) : Fails plan f a

/-- Doing `a` comes to `b`. -/
def Enters (plan : Plan ε α) (a b : α) : Prop :=
  ∃ (before : List α) (after : List (α ⊕ Fault ε)),
    plan a = before.map .inl ++ .inl b :: after ∧ ∀ c ∈ before, Clears plan c

/-- The task itself stops with the fault, if it gets there. -/
def FailsHere (plan : Plan ε α) (f : Fault ε) (a : α) : Prop :=
  ∃ (before : List α) (after : List (α ⊕ Fault ε)),
    plan a = before.map .inl ++ .inr f :: after ∧ ∀ c ∈ before, Clears plan c

/-- There is no endless chain of tasks entered from `a`. -/
def Stops (plan : Plan ε α) (a : α) : Prop := Acc (fun b a => Enters plan a b) a

section Outcomes

variable {plan : Plan ε α} {a b : α} {f g : Fault ε}

/-- Two ways to split a list behind a front of tasks: it is the same place, or
one is within the other's front. -/
theorem split_cases {x y : α ⊕ Fault ε} {after after' : List (α ⊕ Fault ε)}
    (before : List α) : ∀ before' : List α,
    before.map .inl ++ x :: after = before'.map .inl ++ y :: after' →
    (before = before' ∧ x = y) ∨ (∃ c ∈ before', x = .inl c) ∨ ∃ c ∈ before, y = .inl c := by
  induction before with
  | nil =>
      intro before' h
      cases before' with
      | nil => exact .inl ⟨rfl, (List.cons.inj h).1⟩
      | cons c before' => exact .inr (.inl ⟨c, List.mem_cons_self, (List.cons.inj h).1⟩)
  | cons c before ih =>
      intro before' h
      cases before' with
      | nil => exact .inr (.inr ⟨c, List.mem_cons_self, (List.cons.inj h).1.symm⟩)
      | cons d before' =>
          obtain ⟨hcd, h⟩ := List.cons.inj h
          rcases ih before' h with ⟨rfl, hxy⟩ | ⟨e, he, hx⟩ | ⟨e, he, hy⟩
          · exact .inl ⟨by rw [Sum.inl.inj hcd], hxy⟩
          · exact .inr (.inl ⟨e, List.mem_cons_of_mem _ he, hx⟩)
          · exact .inr (.inr ⟨e, List.mem_cons_of_mem _ he, hy⟩)

/-- Behind two fronts: the same task, or each is within the other's front. -/
theorem split_tasks {before before' : List α} {after after' : List (α ⊕ Fault ε)}
    (h : before.map .inl ++ .inl a :: after = before'.map .inl ++ .inl b :: after') :
    a = b ∨ a ∈ before' ∨ b ∈ before := by
  rcases split_cases before before' h with ⟨-, hab⟩ | ⟨c, hc, hac⟩ | ⟨c, hc, hbc⟩
  · exact .inl (Sum.inl.inj hab)
  · rw [Sum.inl.inj hac]
    exact .inr (.inl hc)
  · rw [Sum.inl.inj hbc]
    exact .inr (.inr hc)

/-- A task where another split has a fault is in front of it. -/
theorem split_task_fault {before before' : List α} {after after' : List (α ⊕ Fault ε)}
    (h : before.map .inl ++ .inl a :: after = before'.map .inl ++ .inr f :: after') :
    a ∈ before' := by
  rcases split_cases before before' h with ⟨-, hne⟩ | ⟨c, hc, hac⟩ | ⟨c, -, hne⟩
  · cases hne
  · rw [Sum.inl.inj hac]
    exact hc
  · cases hne

/-- There is one first fault. -/
theorem split_faults {before before' : List α} {after after' : List (α ⊕ Fault ε)}
    (h : before.map .inl ++ .inr f :: after = before'.map .inl ++ .inr g :: after') :
    f = g := by
  rcases split_cases before before' h with ⟨-, hfg⟩ | ⟨c, -, hne⟩ | ⟨c, -, hne⟩
  · exact Sum.inr.inj hfg
  · cases hne
  · cases hne

/-- What is in a list of tasks. -/
theorem mem_of_split {bs before : List α} {x : α ⊕ Fault ε} {after : List (α ⊕ Fault ε)}
    (h : bs.map .inl = before.map .inl ++ x :: after) : ∃ b ∈ bs, .inl b = x := by
  refine List.mem_map.mp ?_
  rw [h]
  exact List.mem_append_right _ List.mem_cons_self

/-- What clears does not fail. -/
theorem Clears.not_fails (h : Clears plan a) : ¬ Fails plan f a := by
  induction h with
  | intro bs hplan hbs ih =>
      intro hfails
      cases hfails with
      | here before after hplan' hbefore =>
          -- a task that clears has no fault in it
          obtain ⟨c, -, hc⟩ := mem_of_split (hplan.symm.trans hplan')
          cases hc
      | there before after hplan' hbefore hb =>
          obtain ⟨c, hc, heq⟩ := mem_of_split (hplan.symm.trans hplan')
          cases heq
          exact ih _ hc hb

/-- There is one way to fail. -/
theorem Fails.unique (hf : Fails plan f a) (hg : Fails plan g a) : f = g := by
  induction hf with
  | here before after hplan hbefore =>
      cases hg with
      | here before' after' hplan' hbefore' => exact split_faults (hplan.symm.trans hplan')
      | there before' after' hplan' hbefore' hb =>
          have hmem := split_task_fault (hplan'.symm.trans hplan)
          exact absurd hb (hbefore _ hmem).not_fails
  | there before after hplan hbefore hb ih =>
      cases hg with
      | here before' after' hplan' hbefore' =>
          have hmem := split_task_fault (hplan.symm.trans hplan')
          exact absurd hb (hbefore' _ hmem).not_fails
      | there before' after' hplan' hbefore' hb' =>
          -- both stop in the first task that does not clear
          rcases split_tasks (hplan.symm.trans hplan') with rfl | hmem | hmem
          · exact ih hb'
          · exact absurd hb (hbefore' _ hmem).not_fails
          · exact absurd hb' (hbefore _ hmem).not_fails

/-- What clears stops. -/
theorem stops_of_clears (h : Clears plan a) : Stops plan a := by
  induction h with
  | intro bs hplan hbs ih =>
      refine Acc.intro _ fun b hb => ?_
      obtain ⟨before, after, hplan', -⟩ := hb
      obtain ⟨c, hc, heq⟩ := mem_of_split (hplan.symm.trans hplan')
      cases heq
      exact ih _ hc

/-- What fails stops. -/
theorem stops_of_fails (h : Fails plan f a) : Stops plan a := by
  induction h with
  | here before after hplan hbefore =>
      refine Acc.intro _ fun b hb => ?_
      obtain ⟨before', after', hplan', -⟩ := hb
      exact stops_of_clears (hbefore _ (split_task_fault (hplan'.symm.trans hplan)))
  | there before after hplan hbefore hfails ih =>
      refine Acc.intro _ fun b hb => ?_
      obtain ⟨before', after', hplan', hbefore'⟩ := hb
      rcases split_tasks (hplan.symm.trans hplan') with rfl | hmem | hmem
      · exact ih
      · exact absurd hfails (hbefore' _ hmem).not_fails
      · exact stops_of_clears (hbefore _ hmem)

/-- **It fails with what the task that it ends in fails with.** -/
theorem fails_iff : Fails plan f a ↔
    ∃ b, Relation.ReflTransGen (Enters plan) a b ∧ FailsHere plan f b := by
  constructor
  · intro h
    induction h with
    | here before after hplan hbefore => exact ⟨_, .refl, before, after, hplan, hbefore⟩
    | there before after hplan hbefore _ ih =>
        obtain ⟨c, hreach, hc⟩ := ih
        exact ⟨c, .head ⟨before, after, hplan, hbefore⟩ hreach, hc⟩
  · intro h
    obtain ⟨b, hreach, before, after, hplan, hbefore⟩ := h
    induction hreach using Relation.ReflTransGen.head_induction_on with
    | refl => exact .here before after hplan hbefore
    | head henters _ ih =>
        obtain ⟨before', after', hplan', hbefore'⟩ := henters
        exact .there before' after' hplan' hbefore' ih

end Outcomes

/-! ## §2. Finitely many tasks. -/

/-- No task that can be reached enters itself again. -/
def Acyclic (plan : Plan ε α) (a : α) : Prop :=
  ∀ b, Relation.ReflTransGen (Enters plan) a b → ¬ Relation.TransGen (Enters plan) b b

section Finite

variable {plan : Plan ε α} {a : α}

/-- What is entered from a task that stops stops. -/
theorem Stops.of_reach (h : Stops plan a) {b : α}
    (hreach : Relation.ReflTransGen (Enters plan) a b) : Stops plan b := by
  induction hreach with
  | refl => exact h
  | tail _ henters ih => exact ih.inv henters

/-- So it is on no cycle. -/
theorem Stops.not_cycle (h : Stops plan a) : ¬ Relation.TransGen (Enters plan) a a := by
  induction h with
  | intro a _ ih =>
      intro hcycle
      obtain ⟨b, henters, hback⟩ := Relation.TransGen.head'_iff.mp hcycle
      exact ih b henters (Relation.TransGen.tail' hback henters)

/-- What is entered is in the plan. -/
theorem Enters.mem {b : α} (h : Enters plan a b) : .inl b ∈ plan a := by
  obtain ⟨before, after, hplan, -⟩ := h
  rw [hplan]
  exact List.mem_append_right _ List.mem_cons_self

/-- What is closed under the tasks that are listed holds what can be reached. -/
theorem mem_of_reach {S : Set α} (ha : a ∈ S) (hclosed : ∀ b ∈ S, ∀ c, .inl c ∈ plan b → c ∈ S)
    {b : α} (hreach : Relation.ReflTransGen (Enters plan) a b) : b ∈ S := by
  induction hreach with
  | refl => exact ha
  | tail _ henters ih => exact hclosed _ ih _ henters.mem

/-- In a finite set that is closed only finitely many tasks are entered. -/
theorem finite_reach {S : Set α} (hS : S.Finite) (ha : a ∈ S)
    (hclosed : ∀ b ∈ S, ∀ c, .inl c ∈ plan b → c ∈ S) :
    {b | Relation.ReflTransGen (Enters plan) a b}.Finite :=
  hS.subset fun _ => mem_of_reach ha hclosed

/-- The tasks of a list only have later ones of the list to do. -/
def Ordered [DecidableEq α] (plan : Plan ε α) (order : List α) : Prop :=
  ∀ b ∈ order, ∀ c ∈ (plan b).filterMap Sum.getLeft?,
    c ∈ order ∧ order.idxOf b < order.idxOf c

instance [DecidableEq α] (order : List α) : Decidable (Ordered plan order) :=
  inferInstanceAs (Decidable (∀ b ∈ order, ∀ c ∈ (plan b).filterMap Sum.getLeft?,
    c ∈ order ∧ order.idxOf b < order.idxOf c))

/-- What is planned comes later in the order. -/
theorem Ordered.later [DecidableEq α] {order : List α} (h : Ordered plan order) {b c : α}
    (hb : b ∈ order) (hc : .inl c ∈ plan b) : c ∈ order ∧ order.idxOf b < order.idxOf c :=
  h b hb c (List.mem_filterMap.mpr ⟨_, hc, rfl⟩)

/-- **Nothing is inside itself where there is an order.** -/
theorem Ordered.acyclic [DecidableEq α] {order : List α} (h : Ordered plan order)
    (ha : a ∈ order) : Acyclic plan a := by
  intro b hreach hcycle
  have hb : b ∈ order :=
    mem_of_reach (S := {c | c ∈ order}) ha (fun c hc d hd => (h.later hc hd).1) hreach
  have hlater (c : α) (hc : Relation.TransGen (Enters plan) b c) :
      c ∈ order ∧ order.idxOf b < order.idxOf c := by
    induction hc with
    | single henters => exact h.later hb henters.mem
    | tail _ henters ih =>
        obtain ⟨hd, hlt⟩ := h.later ih.1 henters.mem
        exact ⟨hd, ih.2.trans hlt⟩
  exact absurd (hlater b hcycle).2 (Nat.lt_irrefl _)

/-- **On finitely many tasks only a cycle is endless.** -/
theorem stops_iff_acyclic (hfin : {b | Relation.ReflTransGen (Enters plan) a b}.Finite) :
    Stops plan a ↔ Acyclic plan a := by
  constructor
  · intro h b hreach
    exact (h.of_reach hreach).not_cycle
  · intro hacyclic
    let S := {b // Relation.ReflTransGen (Enters plan) a b}
    have : Finite S := hfin
    -- below a task are the ones that can be entered from it in some steps
    let below : S → S → Prop := fun c b => Relation.TransGen (Enters plan) b.1 c.1
    have : IsTrans S below := ⟨fun _ _ _ h₁ h₂ => h₂.trans h₁⟩
    have : Std.Irrefl below := ⟨fun b => hacyclic b.1 b.2⟩
    have hwf : WellFounded below := Finite.wellFounded_of_trans_of_irrefl below
    have hall : ∀ b : S, Stops plan b.1 := by
      intro b
      induction b using hwf.induction with
      | _ b ih =>
          refine Acc.intro _ fun c hc => ?_
          exact ih ⟨c, b.2.tail hc⟩ (.single hc)
    exact hall ⟨a, .refl⟩

end Finite

/-! ## §3. Procedures on fuel. -/

/-- What comes out of doing the steps in order, when `out b` is what can come out
of doing `b`. -/
inductive RunsTo (out : α → Rust ε Unit → Prop) : List (α ⊕ Fault ε) → Rust ε Unit → Prop where
  | done : RunsTo out [] (.ok ())
  | fail {f : Fault ε} {steps : List (α ⊕ Fault ε)} : RunsTo out (.inr f :: steps) (.error f)
  | stop {b : α} {f : Fault ε} {steps : List (α ⊕ Fault ε)} (h : out b (.error f)) :
      RunsTo out (.inl b :: steps) (.error f)
  | next {b : α} {steps : List (α ⊕ Fault ε)} {r : Rust ε Unit} (h : out b (.ok ()))
      (hrest : RunsTo out steps r) : RunsTo out (.inl b :: steps) r

/-- **A procedure does the task**: it comes out as the task does, and does not run
dry for ever on one that comes out. -/
structure Follows (plan : Plan ε α) (a : α) (out : Nat → Rust ε Unit → Prop) : Prop where
  clears : ∀ n, out n (.ok ()) → Clears plan a
  fails : ∀ n f, out n (.error f) → f ≠ .outOfFuel → Fails plan f a
  ends : Stops plan a → ∃ n₀, ∀ n, n₀ ≤ n → ¬ out n (.error .outOfFuel)

section Procedures

variable {plan : Plan ε α} {a : α}

/-- A weaker description of the outcomes. -/
theorem Follows.mono {out out' : Nat → Rust ε Unit → Prop} (h : Follows plan a out)
    (hout : ∀ n r, out' n r → out n r) : Follows plan a out' := by
  refine ⟨fun n hn => h.clears n (hout n _ hn), fun n f hn => h.fails n f (hout n _ hn), ?_⟩
  intro hstops
  obtain ⟨n₀, hn₀⟩ := h.ends hstops
  exact ⟨n₀, fun n hn hn' => hn₀ n hn (hout n _ hn')⟩

/-- What comes out of a task, from what comes out of the tasks in it. -/
theorem RunsTo.sound {out : α → Rust ε Unit → Prop} {steps : List (α ⊕ Fault ε)}
    {r : Rust ε Unit} (h : RunsTo out steps r) (hclears : ∀ b, out b (.ok ()) → Clears plan b)
    (hfails : ∀ b f, out b (.error f) → f ≠ .outOfFuel → Fails plan f b)
    (hplan : .inr .outOfFuel ∉ plan a) : ∀ before : List α,
    plan a = before.map .inl ++ steps → (∀ b ∈ before, Clears plan b) →
    (r = .ok () → Clears plan a) ∧ (∀ f, r = .error f → f ≠ .outOfFuel → Fails plan f a) ∧
      (r = .error .outOfFuel → ∃ b, Enters plan a b ∧ out b (.error .outOfFuel)) := by
  induction h with
  | done =>
      intro before hsplit hbefore
      rw [List.append_nil] at hsplit
      refine ⟨fun _ => .intro before hsplit hbefore, ?_, ?_⟩
      · intro f hf
        cases hf
      · intro hf
        cases hf
  -- the plan itself stops here
  | @fail f steps =>
      intro before hsplit hbefore
      refine ⟨fun h => (by cases h), ?_, ?_⟩
      · intro g hg _
        cases hg
        exact .here before steps hsplit hbefore
      · intro hg
        cases hg
        refine absurd ?_ hplan
        rw [hsplit]
        exact List.mem_append_right _ List.mem_cons_self
  -- the call stops
  | @stop b f steps hb =>
      intro before hsplit hbefore
      refine ⟨fun h => (by cases h), ?_, ?_⟩
      · intro g hg hne
        cases hg
        exact .there before steps hsplit hbefore (hfails b f hb hne)
      · intro hg
        cases hg
        exact ⟨b, ⟨before, steps, hsplit, hbefore⟩, hb⟩
  -- the call is done: it joins what is before
  | @next b steps r hb _ ih =>
      intro before hsplit hbefore
      refine ih (before ++ [b]) ?_ ?_
      · rw [hsplit, List.map_append, List.append_assoc]
        rfl
      · intro c hc
        rcases List.mem_append.mp hc with hc | hc
        · exact hbefore c hc
        · rw [List.mem_singleton.mp hc]
          exact hclears b hb

/-- One bound for all of a list. -/
theorem exists_bound {P : α → Prop} {Q : α → Nat → Prop} (bs : List α)
    (h : ∀ b ∈ bs, P b → ∃ n₀, ∀ n, n₀ ≤ n → Q b n) :
    ∃ n₀, ∀ b ∈ bs, P b → ∀ n, n₀ ≤ n → Q b n := by
  induction bs with
  | nil => exact ⟨0, fun b hb => absurd hb List.not_mem_nil⟩
  | cons c bs ih =>
      obtain ⟨n₁, h₁⟩ := ih fun b hb => h b (List.mem_cons_of_mem _ hb)
      by_cases hc : P c
      · obtain ⟨n₀, h₀⟩ := h c List.mem_cons_self hc
        refine ⟨max n₀ n₁, ?_⟩
        intro b hb hP n hn
        rcases List.mem_cons.mp hb with rfl | hb
        · exact h₀ n (by omega)
        · exact h₁ b hb hP n (by omega)
      · refine ⟨n₁, ?_⟩
        intro b hb hP n hn
        rcases List.mem_cons.mp hb with rfl | hb
        · exact absurd hP hc
        · exact h₁ b hb hP n hn

/-- **A family of procedures that call each other does the tasks** when each of
them, on some fuel, does the steps of its task with calls on less, or is known to
do its task. -/
theorem follows_of_runs (known : α → Prop) (hplan : ∀ a, .inr .outOfFuel ∉ plan a)
    {out : α → Nat → Rust ε Unit → Prop}
    (hknown : ∀ a, known a → Follows plan a (out a))
    (hzero : ∀ a r, ¬ known a → out a 0 r → r = .error .outOfFuel)
    (hstep : ∀ a n r, ¬ known a → out a (n + 1) r → RunsTo (fun b => out b n) (plan a) r) :
    ∀ a, Follows plan a (out a) := by
  -- what comes out is right, by induction on the fuel
  have hsound : ∀ n a, (out a n (.ok ()) → Clears plan a) ∧
      ∀ f, out a n (.error f) → f ≠ .outOfFuel → Fails plan f a := by
    intro n
    induction n with
    | zero =>
        intro a
        by_cases hk : known a
        · exact ⟨(hknown a hk).clears 0, (hknown a hk).fails 0⟩
        · refine ⟨fun h => ?_, fun f h hne => ?_⟩
          · cases hzero a _ hk h
          · cases hzero a _ hk h
            exact absurd rfl hne
    | succ n ih =>
        intro a
        by_cases hk : known a
        · exact ⟨(hknown a hk).clears _, (hknown a hk).fails _⟩
        · refine ⟨fun h => ?_, fun f h hne => ?_⟩
          · exact ((hstep a n _ hk h).sound (fun b => (ih b).1) (fun b => (ih b).2) (hplan a) []
              rfl (by simp)).1 rfl
          · exact ((hstep a n _ hk h).sound (fun b => (ih b).1) (fun b => (ih b).2) (hplan a) []
              rfl (by simp)).2.1 f rfl hne
  -- something comes out, by induction on what is entered
  have hends : ∀ a, Stops plan a → ∃ n₀, ∀ n, n₀ ≤ n → ¬ out a n (.error .outOfFuel) := by
    intro a hstops
    induction hstops with
    | intro a hacc ih =>
        by_cases hk : known a
        · exact (hknown a hk).ends (Acc.intro a hacc)
        · -- one bound for all that is entered
          obtain ⟨n₀, hn₀⟩ := exists_bound ((plan a).filterMap Sum.getLeft?) fun b _ hb => ih b hb
          refine ⟨n₀ + 1, fun n hn hout => ?_⟩
          obtain ⟨m, rfl⟩ := Nat.exists_eq_add_of_le' (Nat.le_trans (Nat.le_add_left 1 n₀) hn)
          obtain ⟨b, hb, hout⟩ := ((hstep a m _ hk hout).sound (fun b => (hsound m b).1)
            (fun b => (hsound m b).2) (hplan a) [] rfl (by simp)).2.2 rfl
          refine hn₀ b ?_ hb m (by omega) hout
          obtain ⟨before, after, hsplit, -⟩ := hb
          rw [hsplit]
          simp
  intro a
  exact ⟨fun n => (hsound n a).1, fun n f => (hsound n a).2 f, hends a⟩

/-! ### A stack of tasks. -/

/-- The first of the tasks that does not clear fails. -/
def FailsIn (plan : Plan ε α) (f : Fault ε) (as : List α) : Prop :=
  ∃ before b after, as = before ++ b :: after ∧ (∀ c ∈ before, Clears plan c) ∧ Fails plan f b

/-- A task that fails at once. -/
theorem failsIn_singleton {f : Fault ε} (h : FailsIn plan f [a]) : Fails plan f a := by
  obtain ⟨before, b, after, hsplit, -, hb⟩ := h
  cases before with
  | nil =>
      obtain ⟨rfl, -⟩ := List.cons.inj hsplit
      exact hb
  | cons c before =>
      have hnil := (List.cons.inj hsplit).2
      exact absurd hnil.symm (by simp)

/-- A task in place of the tasks in it. -/
theorem FailsIn.fold {f : Fault ε} {bs as : List α} (hbs : plan a = bs.map .inl)
    (h : FailsIn plan f (bs ++ as)) : FailsIn plan f (a :: as) := by
  obtain ⟨before, b, after, hsplit, hbefore, hb⟩ := h
  -- the task that fails is one of `a` or was there before
  rcases List.append_eq_append_iff.mp hsplit with ⟨c, hc, has⟩ | ⟨c, hc, has⟩
  · refine ⟨a :: c, b, after, by rw [has]; rfl, ?_, hb⟩
    intro d hd
    rcases List.mem_cons.mp hd with rfl | hd
    · refine .intro bs hbs fun e he => hbefore e ?_
      rw [hc]
      exact List.mem_append_left _ he
    · refine hbefore d ?_
      rw [hc]
      exact List.mem_append_right _ hd
  · cases c with
    | nil =>
        rw [List.append_nil] at hc
        refine ⟨[a], b, after, by rw [has]; rfl, ?_, hb⟩
        intro d hd
        rw [List.mem_singleton.mp hd]
        exact .intro bs hbs fun e he => hbefore e (hc ▸ he)
    | cons d c =>
        obtain ⟨rfl, -⟩ := List.cons.inj has
        refine ⟨[], a, as, rfl, by simp, .there before (c.map .inl) ?_ hbefore hb⟩
        rw [hbs, hc, List.map_append]
        rfl

section Stack

variable {out : Nat → List α → Rust ε Unit → Prop}
  (hplan : ∀ a, .inr .outOfFuel ∉ plan a)
  (hzero : ∀ as r, out 0 as r → r = .error .outOfFuel)
  (hnil : ∀ n r, out (n + 1) [] r → r = .ok ())
  (hcons : ∀ n a as r, out (n + 1) (a :: as) r →
    (∃ f after, plan a = .inr f :: after ∧ r = .error f) ∨
      ∃ bs : List α, plan a = bs.map .inl ∧ out n (bs ++ as) r)

include hzero hnil hcons in
/-- What comes out is how the tasks on the stack come out. -/
theorem stack_sound (n : Nat) : ∀ as, (out n as (.ok ()) → ∀ a ∈ as, Clears plan a) ∧
    ∀ f, out n as (.error f) → f ≠ .outOfFuel → FailsIn plan f as := by
  induction n with
  | zero =>
      intro as
      constructor
      · intro h
        cases hzero as _ h
      · intro f h hne
        cases hzero as _ h
        exact absurd rfl hne
  | succ n ih =>
      intro as
      cases as with
      | nil =>
          refine ⟨fun _ a ha => absurd ha List.not_mem_nil, fun f h _ => ?_⟩
          cases hnil n _ h
      | cons a as =>
          constructor
          · intro h
            rcases hcons n a as _ h with ⟨f, after, -, hr⟩ | ⟨bs, hbs, h⟩
            · cases hr
            · have hall := (ih (bs ++ as)).1 h
              intro c hc
              rcases List.mem_cons.mp hc with rfl | hc
              · exact .intro bs hbs fun b hb => hall b (List.mem_append_left _ hb)
              · exact hall c (List.mem_append_right _ hc)
          · intro f h hne
            rcases hcons n a as _ h with ⟨g, after, ha, hr⟩ | ⟨bs, hbs, h⟩
            · cases hr
              exact ⟨[], a, as, rfl, by simp, .here [] after ha (by simp)⟩
            · exact ((ih (bs ++ as)).2 f h hne).fold hbs

/-- What is left of the tasks of a task, when each of them ends before what is
below it. -/
theorem ends_left {bs as : List α} (hbs : plan a = bs.map .inl)
    (hends : ∀ b, Enters plan a b → ∀ as,
      (Clears plan b → ∃ n₀, ∀ n, n₀ ≤ n → ¬ out n as (.error .outOfFuel)) →
      ∃ n₀, ∀ n, n₀ ≤ n → ¬ out n (b :: as) (.error .outOfFuel))
    (has : Clears plan a → ∃ n₀, ∀ n, n₀ ≤ n → ¬ out n as (.error .outOfFuel)) (left : List α) :
    ∀ before, bs = before ++ left → (∀ b ∈ before, Clears plan b) →
      ∃ n₀, ∀ n, n₀ ≤ n → ¬ out n (left ++ as) (.error .outOfFuel) := by
  induction left with
  | nil =>
      intro before hsplit hbefore
      rw [List.append_nil] at hsplit
      exact has (.intro bs hbs fun b hb => hbefore b (hsplit ▸ hb))
  | cons b left ih =>
      intro before hsplit hbefore
      refine hends b ⟨before, left.map .inl, ?_, hbefore⟩ (left ++ as) fun hb => ?_
      · rw [hbs, hsplit, List.map_append]
        rfl
      · refine ih (before ++ [b]) (by rw [hsplit, List.append_assoc]; rfl) ?_
        intro c hc
        rcases List.mem_append.mp hc with hc | hc
        · exact hbefore c hc
        · rw [List.mem_singleton.mp hc]
          exact hb

include hplan hcons in
/-- A task that stops ends, if what is below it ends once the task is done. -/
theorem stack_ends (h : Stops plan a) : ∀ as,
    (Clears plan a → ∃ n₀, ∀ n, n₀ ≤ n → ¬ out n as (.error .outOfFuel)) →
    ∃ n₀, ∀ n, n₀ ≤ n → ¬ out n (a :: as) (.error .outOfFuel) := by
  induction h with
  | intro a _ ih =>
      intro as has
      -- a turn does not run dry where the task begins with a fault
      have hturn : ∀ m, out (m + 1) (a :: as) (.error .outOfFuel) →
          ∃ bs : List α, plan a = bs.map .inl ∧ out m (bs ++ as) (.error .outOfFuel) := by
        intro m hout
        rcases hcons m a as _ hout with ⟨f, after, ha, hr⟩ | hout
        · cases hr
          exact absurd (by rw [ha]; exact List.mem_cons_self) (hplan a)
        · exact hout
      by_cases hall : ∃ bs : List α, plan a = bs.map .inl
      · obtain ⟨bs, hbs⟩ := hall
        obtain ⟨n₀, hn₀⟩ := ends_left hbs ih has bs [] rfl (by simp)
        refine ⟨n₀ + 1, fun n hn hout => ?_⟩
        obtain ⟨m, rfl⟩ := Nat.exists_eq_add_of_le' (Nat.le_trans (Nat.le_add_left 1 n₀) hn)
        obtain ⟨bs', hbs', hout⟩ := hturn m hout
        obtain rfl : bs = bs' := List.map_injective_iff.mpr Sum.inl_injective
          (hbs.symm.trans hbs')
        exact hn₀ m (by omega) hout
      · refine ⟨1, fun n hn hout => ?_⟩
        obtain ⟨m, rfl⟩ := Nat.exists_eq_add_of_le' hn
        obtain ⟨bs, hbs, -⟩ := hturn m hout
        exact hall ⟨bs, hbs⟩

include hplan hzero hnil hcons in
/-- **A procedure with a stack does the task on top of it** when it takes it off
and stops with the fault the task begins with, or puts the tasks in it on the
stack. -/
theorem follows_of_stack (a : α) : Follows plan a fun n => out n [a] := by
  constructor
  · intro n h
    exact (stack_sound hzero hnil hcons n [a]).1 h a List.mem_cons_self
  · intro n f h hne
    exact failsIn_singleton ((stack_sound hzero hnil hcons n [a]).2 f h hne)
  · intro h
    refine stack_ends hplan hcons h [] fun _ => ⟨1, fun n hn hout => ?_⟩
    obtain ⟨m, rfl⟩ := Nat.exists_eq_add_of_le' hn
    cases hnil m _ hout

end Stack

/-! ## §4. Procedures that come back. -/

/-- On some fuel the procedure comes back with a value or an `Err`. -/
def Returns (x : Nat → Rust ε β) : Prop :=
  ∃ n, (∃ b, x n = .ok b) ∨ ∃ e, x n = .error (.error e)

/-- **It comes back if and only if the task stops, and without a panic.** -/
theorem Follows.returns_iff {out : Nat → Rust ε Unit → Prop} (h : Follows plan a out)
    {x : Nat → Rust ε β} (hx : ∀ n, out n ((x n).map fun _ => ())) :
    Returns x ↔ Stops plan a ∧ ¬ Fails plan .panic a := by
  constructor
  · intro hret
    obtain ⟨n, hret⟩ := hret
    have hout := hx n
    rcases hret with ⟨b, hb⟩ | ⟨e, he⟩
    · rw [hb] at hout
      have hclears := h.clears n hout
      exact ⟨stops_of_clears hclears, hclears.not_fails⟩
    · rw [he] at hout
      have hfails := h.fails n (.error e) hout (by simp)
      refine ⟨stops_of_fails hfails, fun hpanic => ?_⟩
      cases hfails.unique hpanic
  · intro hstops
    obtain ⟨hstops, hpanic⟩ := hstops
    obtain ⟨n, hn⟩ := h.ends hstops
    have hout := hx n
    have hends := hn n (Nat.le_refl n)
    refine ⟨n, ?_⟩
    cases hxn : x n with
    | ok b => exact .inl ⟨b, rfl⟩
    | error f =>
        rw [hxn] at hout
        cases f with
        | error e => exact .inr ⟨e, rfl⟩
        | panic => exact absurd (h.fails n .panic hout (by simp)) hpanic
        | outOfFuel => exact absurd hout hends

end Procedures

end OcamlJit.Lib.Walk

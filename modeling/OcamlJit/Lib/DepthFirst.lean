/-
  OcamlJit.Lib.DepthFirst
  ───────────────────────
  **DEPTH-FIRST SEARCH AND ITS POST-ORDER.**

  `Searches succ seen ws new`: a search that has seen `seen` goes through the
  vertices `ws` in order and finishes the vertices `new`, in this order.  It is a
  relation, so that any program which recurses on unseen successors can be shown
  to be one, whatever else it computes on the way.

    • `Searches.nodup`, `Searches.new_not_seen` — nothing is finished twice,
    • `Searches.closed` — successors are seen or finished,
    • `Searches.mem_root_iff` — from one root: exactly what can be reached,
    • `Searches.parent` — every vertex is finished before a predecessor of it,
    • `Searches.retreating_root` — an edge to a vertex finished later is on a
      cycle.
-/
import Mathlib.Logic.Relation
import Mathlib.Data.Set.Insert
import Mathlib.Data.List.Nodup

namespace OcamlJit.Lib

variable {α : Type}

/-! ## §1. The search. -/

/-- There is a path from the one to the other. -/
def Leads (succ : α → List α) : α → α → Prop := Relation.ReflTransGen fun u v => v ∈ succ u

/-- A depth-first search. -/
inductive Searches (succ : α → List α) : Set α → List α → List α → Prop where
  | nil {seen : Set α} : Searches succ seen [] []
  | skip {seen : Set α} {w : α} {ws new : List α} (hw : w ∈ seen)
      (hrest : Searches succ seen ws new) : Searches succ seen (w :: ws) new
  /-- An unseen vertex is finished after its successors. -/
  | enter {seen : Set α} {w : α} {ws inner new : List α} (hw : w ∉ seen)
      (hinner : Searches succ (insert w seen) (succ w) inner)
      (hrest : Searches succ (insert w seen ∪ {x | x ∈ inner}) ws new) :
      Searches succ seen (w :: ws) (inner ++ w :: new)

namespace Searches

variable {succ : α → List α} {seen : Set α} {ws new : List α}

/-! ## §2. What is finished. -/

theorem new_not_seen (h : Searches succ seen ws new) : ∀ x ∈ new, x ∉ seen := by
  induction h with
  | nil =>
      intro x hx
      cases hx
  | skip _ _ ih => exact ih
  | @enter seen w ws inner new hw _ _ ihinner ihrest =>
      intro x hx hseen
      rcases List.mem_append.mp hx with hx | hx
      · exact ihinner x hx (Set.mem_insert_of_mem w hseen)
      · rcases List.mem_cons.mp hx with rfl | hx
        · exact hw hseen
        · exact ihrest x hx (.inl (Set.mem_insert_of_mem w hseen))

theorem nodup (h : Searches succ seen ws new) : new.Nodup := by
  induction h with
  | nil => exact List.nodup_nil
  | skip _ _ ih => exact ih
  | @enter seen w ws inner new hw hinner hrest ihinner ihrest =>
      have hfresh : ∀ x ∈ new, x ∉ insert w seen ∪ {x | x ∈ inner} := hrest.new_not_seen
      have hw' : w ∉ new := fun hmem => hfresh w hmem (.inl (Set.mem_insert w seen))
      refine List.nodup_append.mpr ⟨ihinner, List.nodup_cons.mpr ⟨hw', ihrest⟩, ?_⟩
      intro x hx y hy hxy
      subst hxy
      rcases List.mem_cons.mp hy with rfl | hy
      · exact hinner.new_not_seen x hx (Set.mem_insert x seen)
      · exact hfresh x hy (.inr hx)

/-- What the search is asked to go through has been seen or is finished. -/
theorem covers (h : Searches succ seen ws new) : ∀ w ∈ ws, w ∈ seen ∨ w ∈ new := by
  induction h with
  | nil =>
      intro w hw
      cases hw
  | skip hw _ ih =>
      intro v hv
      rcases List.mem_cons.mp hv with rfl | hv
      · exact .inl hw
      · exact ih v hv
  | @enter seen w ws inner new hw _ _ _ ihrest =>
      intro v hv
      rcases List.mem_cons.mp hv with rfl | hv
      · exact .inr (by simp)
      · rcases ihrest v hv with (hv | hv) | hv
        · rcases Set.mem_insert_iff.mp hv with rfl | hv
          · exact .inr (by simp)
          · exact .inl hv
        · exact .inr (List.mem_append_left _ hv)
        · exact .inr (by simp [hv])

/-- Successors of what is finished have been seen or are finished. -/
theorem closed (h : Searches succ seen ws new) :
    ∀ u ∈ new, ∀ v ∈ succ u, v ∈ seen ∨ v ∈ new := by
  induction h with
  | nil =>
      intro u hu
      cases hu
  | skip _ _ ih => exact ih
  | @enter seen w ws inner new hw hinner hrest ihinner ihrest =>
      intro u hu v hv
      have hcover : v ∈ insert w seen ∨ v ∈ inner ∨ v ∈ new := by
        rcases List.mem_append.mp hu with hu | hu
        · rcases ihinner u hu v hv with h | h
          · exact .inl h
          · exact .inr (.inl h)
        · rcases List.mem_cons.mp hu with rfl | hu
          · rcases hinner.covers v hv with h | h
            · exact .inl h
            · exact .inr (.inl h)
          · rcases ihrest u hu v hv with (h | h) | h
            · exact .inl h
            · exact .inr (.inl h)
            · exact .inr (.inr h)
      rcases hcover with h | h | h
      · rcases Set.mem_insert_iff.mp h with rfl | h
        · exact .inr (by simp)
        · exact .inl h
      · exact .inr (by simp [h])
      · exact .inr (by simp [h])

/-- There is a path to everything that is finished. -/
theorem leads (h : Searches succ seen ws new) : ∀ u ∈ new, ∃ w ∈ ws, Leads succ w u := by
  induction h with
  | nil =>
      intro u hu
      cases hu
  | skip _ _ ih =>
      intro u hu
      obtain ⟨w, hw, hlead⟩ := ih u hu
      exact ⟨w, List.mem_cons_of_mem _ hw, hlead⟩
  | @enter seen w ws inner new _ _ _ ihinner ihrest =>
      intro u hu
      rcases List.mem_append.mp hu with hu | hu
      · obtain ⟨v, hv, hlead⟩ := ihinner u hu
        exact ⟨w, List.mem_cons_self .., Relation.ReflTransGen.head hv hlead⟩
      · rcases List.mem_cons.mp hu with rfl | hu
        · exact ⟨u, List.mem_cons_self .., Relation.ReflTransGen.refl⟩
        · obtain ⟨v, hv, hlead⟩ := ihrest u hu
          exact ⟨v, List.mem_cons_of_mem _ hv, hlead⟩

/-- One search after another. -/
theorem append {ws' new' : List α} (h : Searches succ seen ws new)
    (h' : Searches succ (seen ∪ {x | x ∈ new}) ws' new') :
    Searches succ seen (ws ++ ws') (new ++ new') := by
  induction h with
  | nil => simpa using h'
  | skip hw _ ih => exact .skip hw (ih h')
  | @enter seen w ws inner new hw hinner _ _ ihrest =>
      rw [List.cons_append, List.append_assoc, List.cons_append]
      refine .enter hw hinner (ihrest ?_)
      have hseen : insert w seen ∪ {x | x ∈ inner} ∪ {x | x ∈ new}
          = seen ∪ {x | x ∈ inner ++ w :: new} := by
        ext x
        simp only [Set.mem_union, Set.mem_insert_iff, Set.mem_ofPred_eq, List.mem_append,
          List.mem_cons]
        tauto
      rwa [hseen]

/-! ## §3. In which order. -/

/-- A finished vertex is one the search was asked for, or has a predecessor that
is finished later. -/
theorem parent (h : Searches succ seen ws new) :
    ∀ l u r, new = l ++ u :: r → u ∈ ws ∨ ∃ p ∈ r, u ∈ succ p := by
  induction h with
  | nil =>
      intro l u r heq
      cases l <;> cases heq
  | skip _ _ ih =>
      intro l u r heq
      rcases ih l u r heq with h | h
      · exact .inl (List.mem_cons_of_mem _ h)
      · exact .inr h
  | @enter seen w ws inner new _ _ _ ihinner ihrest =>
      intro l u r heq
      rcases List.append_eq_append_iff.mp heq with ⟨l', rfl, htail⟩ | ⟨r', rfl, htail⟩
      · cases l' with
        | nil =>
            obtain ⟨rfl, -⟩ := List.cons.inj htail
            exact .inl (List.mem_cons_self ..)
        | cons x l' =>
            obtain ⟨-, htail⟩ := List.cons.inj htail
            rcases ihrest l' u r htail with h | h
            · exact .inl (List.mem_cons_of_mem _ h)
            · exact .inr h
      · cases r' with
        | nil =>
            obtain ⟨rfl, -⟩ := List.cons.inj htail
            exact .inl (List.mem_cons_self ..)
        | cons x r' =>
            obtain ⟨rfl, rfl⟩ := List.cons.inj htail
            rcases ihinner l u r' rfl with h | ⟨p, hp, h⟩
            · exact .inr ⟨w, by simp, h⟩
            · exact .inr ⟨p, by simp [hp], h⟩

/-- **Where an edge goes**: to a vertex finished earlier, or to one the search has
left before, or back to a vertex it came by.  `active` are the vertices on the way
to `ws`. -/
theorem retreating (h : Searches succ seen ws new) :
    ∀ active : Set α, (∀ a ∈ active, ∀ w ∈ ws, Leads succ a w) →
      ∀ l u r, new = l ++ u :: r → ∀ v ∈ succ u,
        v ∈ l ∨ (v ∈ seen ∧ v ∉ active) ∨ Leads succ v u := by
  induction h with
  | nil =>
      intro active _ l u r heq
      cases l <;> cases heq
  | skip _ _ ih =>
      intro active hactive
      exact ih active fun a ha w hw => hactive a ha w (List.mem_cons_of_mem _ hw)
  | @enter seen w ws inner new hw hinner _ ihinner ihrest =>
      intro active hactive l u r heq v hv
      have hto : ∀ a ∈ active, Leads succ a w := fun a ha => hactive a ha w (List.mem_cons_self ..)
      have hinside : ∀ a ∈ insert w active, ∀ x ∈ succ w, Leads succ a x := by
        intro a ha x hx
        rcases Set.mem_insert_iff.mp ha with rfl | ha
        · exact Relation.ReflTransGen.single hx
        · exact (hto a ha).tail hx
      -- the edges of the vertex itself
      have hself : ∀ v ∈ succ w, v ∈ inner ∨ (v ∈ seen ∧ v ∉ active) ∨ Leads succ v w := by
        intro v hv
        rcases hinner.covers v hv with h | h
        · rcases Set.mem_insert_iff.mp h with rfl | h
          · exact .inr (.inr Relation.ReflTransGen.refl)
          · by_cases ha : v ∈ active
            · exact .inr (.inr (hto v ha))
            · exact .inr (.inl ⟨h, ha⟩)
        · exact .inl h
      -- `u` is found below `w`, or is `w`, or comes later
      rcases List.append_eq_append_iff.mp heq with ⟨l', rfl, htail⟩ | ⟨r', rfl, htail⟩
      · cases l' with
        | nil =>
            obtain ⟨rfl, -⟩ := List.cons.inj htail
            rw [List.append_nil]
            exact hself v hv
        | cons x l' =>
            obtain ⟨rfl, hnew⟩ := List.cons.inj htail
            have hrest := ihrest active (fun a ha x hx => hactive a ha x (List.mem_cons_of_mem _ hx))
              l' u r hnew v hv
            rcases hrest with h | ⟨h | h, ha⟩ | h
            · exact .inl (by simp [h])
            · rcases Set.mem_insert_iff.mp h with rfl | h
              · exact .inl (by simp)
              · exact .inr (.inl ⟨h, ha⟩)
            · exact .inl (List.mem_append_left _ h)
            · exact .inr (.inr h)
      · cases r' with
        | nil =>
            rw [List.append_nil] at hself
            obtain ⟨rfl, -⟩ := List.cons.inj htail
            exact hself v hv
        | cons x r' =>
            obtain ⟨rfl, rfl⟩ := List.cons.inj htail
            rcases ihinner (insert w active) hinside l u r' rfl v hv with h | ⟨h, ha⟩ | h
            · exact .inl h
            · have hne : v ≠ w := fun heq => ha (heq ▸ Set.mem_insert w active)
              exact .inr (.inl ⟨Set.mem_of_mem_insert_of_ne h hne,
                fun hact => ha (Set.mem_insert_of_mem w hact)⟩)
            · exact .inr (.inr h)

/-! ## §4. From one root. -/

section Root

variable {root : α}

/-- The root is finished last. -/
theorem root_last (h : Searches succ ∅ [root] new) : ∃ inner, new = inner ++ [root] := by
  cases h with
  | skip hw => cases hw
  | @enter _ _ _ inner _ _ _ hrest =>
      cases hrest
      exact ⟨inner, rfl⟩

/-- **Exactly what can be reached is finished.** -/
theorem mem_root_iff (h : Searches succ ∅ [root] new) (u : α) : u ∈ new ↔ Leads succ root u := by
  constructor
  · intro hu
    obtain ⟨w, hw, hlead⟩ := h.leads u hu
    rw [List.mem_singleton.mp hw] at hlead
    exact hlead
  · intro hlead
    induction hlead with
    | refl =>
        rcases h.covers root (List.mem_singleton_self root) with hroot | hroot
        · cases hroot
        · exact hroot
    | tail _ hedge ih =>
        rcases h.closed _ ih _ hedge with hv | hv
        · cases hv
        · exact hv

/-- A vertex that is not the root is finished before a predecessor of it. -/
theorem parent_root (h : Searches succ ∅ [root] new) {l r : List α} {u : α}
    (hsplit : new = l ++ u :: r) (hu : u ≠ root) : ∃ p ∈ r, u ∈ succ p := by
  rcases h.parent l u r hsplit with hroot | hp
  · exact absurd (List.mem_singleton.mp hroot) hu
  · exact hp

/-- **An edge to a vertex that is not finished earlier is on a cycle.** -/
theorem retreating_root (h : Searches succ ∅ [root] new) {l r : List α} {u v : α}
    (hsplit : new = l ++ u :: r) (hedge : v ∈ succ u) (hv : v ∉ l) : Leads succ v u := by
  rcases h.retreating ∅ (fun a ha => absurd ha (Set.notMem_empty a)) l u r hsplit v hedge with
    hl | ⟨hseen, -⟩ | hlead
  · exact absurd hl hv
  · cases hseen
  · exact hlead

end Root

end Searches

end OcamlJit.Lib

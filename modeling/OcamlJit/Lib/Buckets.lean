/-
  OcamlJit.Lib.Buckets
  ────────────────────
  **ONE STACK FOR EACH KEY.**

  A bucket is an element and those that it hides.  When all in a bucket have one
  key and different buckets have different ones, looking at the tops only misses
  something exactly when a key occurs twice (`tops_perm_iff`).
-/
import Mathlib.Data.List.Basic
import Mathlib.Data.List.Perm.Basic

namespace OcamlJit.Lib.Buckets

variable {β κ : Type}

/-- All in a bucket. -/
def all (b : β × List β) : List β := b.1 :: b.2

/-- The tops of the buckets. -/
def tops (bs : List (β × List β)) : List β := bs.map Prod.fst

/-- All in the buckets. -/
def contents (bs : List (β × List β)) : List β := bs.flatMap all

@[simp] theorem tops_cons (b : β × List β) (bs : List (β × List β)) :
    tops (b :: bs) = b.1 :: tops bs := rfl

@[simp] theorem contents_cons (b : β × List β) (bs : List (β × List β)) :
    contents (b :: bs) = b.1 :: (b.2 ++ contents bs) := rfl

/-- One key in a bucket, and different ones in different buckets. -/
structure Keyed (key : β → κ) (bs : List (β × List β)) : Prop where
  same : ∀ b ∈ bs, ∀ x ∈ b.2, key x = key b.1
  apart : ((tops bs).map key).Nodup

theorem length_tops_le (bs : List (β × List β)) : (tops bs).length ≤ (contents bs).length := by
  induction bs with
  | nil => exact Nat.le_refl 0
  | cons b bs ih =>
      rw [tops_cons, contents_cons, List.length_cons, List.length_cons, List.length_append]
      omega

theorem contents_eq_tops {bs : List (β × List β)} (h : ∀ b ∈ bs, b.2 = []) :
    contents bs = tops bs := by
  induction bs with
  | nil => rfl
  | cons b bs ih =>
      rw [contents_cons, tops_cons, h b List.mem_cons_self,
        ih fun c hc => h c (List.mem_cons_of_mem _ hc)]
      rfl

/-- Nothing is hidden if there are as many as tops. -/
theorem hides_nothing_of_length {bs : List (β × List β)}
    (h : (contents bs).length ≤ (tops bs).length) : ∀ b ∈ bs, b.2 = [] := by
  induction bs with
  | nil =>
      intro b hb
      cases hb
  | cons b bs ih =>
      rw [tops_cons, contents_cons, List.length_cons, List.length_cons, List.length_append] at h
      have hle := length_tops_le bs
      intro c hc
      rcases List.mem_cons.mp hc with rfl | hc
      · exact List.eq_nil_of_length_eq_zero (by omega)
      · exact ih (by omega) c hc

/-- Nothing is hidden if no key occurs twice. -/
theorem hides_nothing_of_nodup {key : β → κ} {bs : List (β × List β)} (h : Keyed key bs)
    (hnodup : ((contents bs).map key).Nodup) : ∀ b ∈ bs, b.2 = [] := by
  intro b hb
  cases hhides : b.2 with
  | nil => rfl
  | cons x xs =>
      have hsub : (all b).Sublist (contents bs) := List.sublist_flatten_of_mem
        (List.mem_map_of_mem hb)
      have hb' := (hsub.map key).nodup hnodup
      unfold all at hb'
      rw [hhides, List.map_cons, List.map_cons, List.nodup_cons] at hb'
      refine absurd ?_ hb'.1
      rw [h.same b hb x (by rw [hhides]; exact List.mem_cons_self)]
      exact List.mem_cons_self

/-- **The tops are all there is if and only if no key occurs twice.** -/
theorem tops_perm_iff {key : β → κ} {bs : List (β × List β)} (h : Keyed key bs) :
    (tops bs).Perm (contents bs) ↔ ((contents bs).map key).Nodup := by
  constructor
  · intro hperm
    rw [contents_eq_tops (hides_nothing_of_length (Nat.le_of_eq hperm.length_eq.symm))]
    exact h.apart
  · intro hnodup
    rw [contents_eq_tops (hides_nothing_of_nodup h hnodup)]

end OcamlJit.Lib.Buckets

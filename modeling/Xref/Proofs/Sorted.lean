import Mathlib.Data.List.Pairwise
import Xref.Sorting

/-!
# Sorted lists

A list that is strictly ascending is what sorting any arrangement of its elements gives. Sorting
needs its comparison on the elements of the list only.
-/

namespace Xref

open List

theorem sortOn_congr {cmp cmp' : α → α → Ordering} {xs : List α}
    (h : ∀ a ∈ xs, ∀ b ∈ xs, cmp a b = cmp' a b) : sortOn cmp xs = sortOn cmp' xs := by
  have hsame : (fun a b : { x // x ∈ xs } => cmp a.1 b.1) = fun a b => cmp' a.1 b.1 := by
    funext a b
    exact h a.1 a.2 b.1 b.2
  have hattach : ∀ cmp : α → α → Ordering,
      (sortOn (fun a b : { x // x ∈ xs } => cmp a.1 b.1) xs.attach).map Subtype.val =
        sortOn cmp xs := by
    intro cmp
    rw [map_sortOn fun _ _ => rfl, attach_map_subtype_val]
  rw [← hattach cmp, ← hattach cmp', hsame]

section

variable {cmp : α → α → Ordering} [Std.TransCmp cmp] {xs : List α}

theorem cmp_ne_eq_of_pairwise_lt (h : xs.Pairwise fun a b => cmp a b = .lt) {a b : α}
    (ha : a ∈ xs) (hb : b ∈ xs) (hne : a ≠ b) : cmp a b ≠ .eq := by
  have hapart : xs.Pairwise fun a b => cmp a b ≠ .eq := h.imp fun hlt heq => by
    rw [hlt] at heq
    cases heq
  have hsymm : Std.Symm fun a b : α => cmp a b ≠ .eq :=
    ⟨fun _ _ hab hba => hab (Std.OrientedCmp.eq_symm hba)⟩
  exact hapart.forall ha hb hne

/-- A strictly ascending list is the sorted form of every arrangement of its elements. -/
theorem sortOn_eq_of_perm {xs ys : List α} (hperm : xs.Perm ys)
    (hys : ys.Pairwise fun a b => cmp a b = .lt) : sortOn cmp xs = ys := by
  have hle : ys.Pairwise fun a b => (cmp a b).isLE := hys.imp fun hlt => by
    rw [hlt]
    rfl
  refine ((sortOn_perm cmp xs).trans hperm).eq_of_pairwise ?_ (pairwise_sortOn xs) hle
  intro a b ha hb hab hba
  by_contra hne
  exact cmp_ne_eq_of_pairwise_lt hys (hperm.mem_iff.mp (mem_sortOn.mp ha)) hb hne
    (Std.OrientedCmp.isLE_antisymm hab hba)

/-- The last element of a strictly ascending list is the greatest. -/
theorem getLast?_eq_some_iff_of_pairwise (h : xs.Pairwise fun a b => cmp a b = .lt) {a : α} :
    xs.getLast? = some a ↔ a ∈ xs ∧ ∀ b ∈ xs, (cmp b a).isLE := by
  obtain rfl | ⟨xs, z, rfl⟩ := xs.eq_nil_or_concat
  · simp
  · rw [concat_eq_append] at h ⊢
    rw [List.getLast?_append, List.getLast?_singleton, Option.some_or, Option.some_inj]
    have hlt : ∀ b ∈ xs, cmp b z = .lt := fun b hb => (pairwise_append.mp h).2.2 b hb z (by simp)
    constructor
    · rintro rfl
      refine ⟨by simp, fun b hb => ?_⟩
      rcases mem_append.mp hb with hb | hb
      · simp [hlt b hb]
      · rw [mem_singleton.mp hb, show cmp z z = .eq from Std.ReflCmp.compare_self]
        rfl
    · rintro ⟨ha, hmax⟩
      rcases mem_append.mp ha with ha | ha
      · have hle := hmax z (by simp)
        rw [Std.OrientedCmp.gt_of_lt (hlt a ha)] at hle
        cases hle
      · exact (mem_singleton.mp ha).symm

/-- Distinct elements that are told apart by a comparison are sorted strictly. -/
theorem pairwise_lt_sortOn (hnodup : xs.Nodup) (heq : ∀ a ∈ xs, ∀ b ∈ xs, cmp a b = .eq → a = b) :
    (sortOn cmp xs).Pairwise fun a b => cmp a b = .lt := by
  have hne : (sortOn cmp xs).Nodup := (sortOn_perm cmp xs).nodup_iff.mpr hnodup
  refine ((pairwise_sortOn xs).and hne).imp_of_mem ?_
  intro a b ha hb ⟨hle, hab⟩
  cases hcmp : cmp a b with
  | lt => rfl
  | eq => exact absurd (heq a (mem_sortOn.mp ha) b (mem_sortOn.mp hb) hcmp) hab
  | gt =>
    rw [hcmp] at hle
    cases hle

end

end Xref

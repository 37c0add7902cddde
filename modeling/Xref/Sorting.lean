import Xref.Text.Surrogate

/-!
# Stable sorting along a comparison

Every order that an answer shows is given by a comparison built from `compareOn` and `compareLex`;
elements that compare as equal keep their order. Texts go by their code points. Lists are sorted by
halves, and the recursion is structural, so that sorting a given list computes.
-/

namespace Xref

open List

/-- Merges the list of an element and what `rest` merges with another list. -/
def mergeAfter (cmp : α → α → Ordering) (a : α) (rest : List α → List α) : List α → List α
  | [] => a :: rest []
  | b :: bs => if (cmp a b).isLE then a :: rest (b :: bs) else b :: mergeAfter cmp a rest bs

/-- Merges two lists in ascending order; of equal elements those of the first list come first. -/
def mergeOn (cmp : α → α → Ordering) : List α → List α → List α
  | [] => id
  | a :: as => mergeAfter cmp a (mergeOn cmp as)

/-- Sorts a list by halves; the first argument bounds how often it is halved. -/
def sortHalves (cmp : α → α → Ordering) : Nat → List α → List α
  | 0, xs => xs
  | bound + 1, xs =>
    if xs.length < 2 then xs
    else
      let half := (xs.length + 1) / 2
      mergeOn cmp (sortHalves cmp bound (xs.take half)) (sortHalves cmp bound (xs.drop half))

/-- The list in ascending order of a comparison. -/
def sortOn (cmp : α → α → Ordering) (xs : List α) : List α :=
  sortHalves cmp xs.length xs

theorem mergeOn_eq_merge (cmp : α → α → Ordering) (xs ys : List α) :
    mergeOn cmp xs ys = xs.merge ys fun a b => (cmp a b).isLE := by
  induction xs generalizing ys with
  | nil => simp [mergeOn]
  | cons x xs ih =>
    rw [mergeOn]
    induction ys with
    | nil => simp [mergeAfter, ih]
    | cons y ys ihy => rw [mergeAfter, merge, ih, ihy]

theorem sortHalves_eq_mergeSort (cmp : α → α → Ordering) {bound : Nat} {xs : List α}
    (h : xs.length ≤ bound) : sortHalves cmp bound xs = xs.mergeSort fun a b => (cmp a b).isLE := by
  induction bound generalizing xs with
  | zero =>
    have : xs = [] := eq_nil_of_length_eq_zero (by omega)
    simp [this, sortHalves]
  | succ bound ih =>
    rw [sortHalves]
    match xs with
    | [] => simp
    | [a] => simp
    | a :: b :: xs =>
      have hlt : ¬ (a :: b :: xs).length < 2 := by simp
      rw [if_neg hlt, mergeSort]
      simp only [mergeOn_eq_merge, MergeSort.Internal.splitInTwo, splitAt_eq]
      simp only [length_cons] at h ⊢
      rw [ih (by simp only [length_take, length_cons]; omega),
        ih (by simp only [length_drop, length_cons]; omega)]

theorem sortOn_eq_mergeSort (cmp : α → α → Ordering) (xs : List α) :
    sortOn cmp xs = xs.mergeSort fun a b => (cmp a b).isLE :=
  sortHalves_eq_mergeSort cmp (Nat.le_refl _)

theorem sortOn_perm (cmp : α → α → Ordering) (xs : List α) : (sortOn cmp xs).Perm xs := by
  rw [sortOn_eq_mergeSort]
  exact mergeSort_perm xs _

@[simp] theorem mem_sortOn {cmp : α → α → Ordering} {a : α} {xs : List α} :
    a ∈ sortOn cmp xs ↔ a ∈ xs :=
  (sortOn_perm cmp xs).mem_iff

theorem map_mergeAfter {cmp : α → α → Ordering} {cmp' : β → β → Ordering} {f : α → β}
    (h : ∀ a b, cmp' (f a) (f b) = cmp a b) (a : α) {rest : List α → List α}
    {rest' : List β → List β} (hrest : ∀ ys, (rest ys).map f = rest' (ys.map f)) (ys : List α) :
    (mergeAfter cmp a rest ys).map f = mergeAfter cmp' (f a) rest' (ys.map f) := by
  induction ys with
  | nil => simp [mergeAfter, hrest]
  | cons y ys ih =>
    rw [map_cons, mergeAfter, mergeAfter, h]
    split
    · simp [hrest]
    · simp [ih]

theorem map_mergeOn {cmp : α → α → Ordering} {cmp' : β → β → Ordering} {f : α → β}
    (h : ∀ a b, cmp' (f a) (f b) = cmp a b) (xs ys : List α) :
    (mergeOn cmp xs ys).map f = mergeOn cmp' (xs.map f) (ys.map f) := by
  induction xs generalizing ys with
  | nil => rfl
  | cons x xs ih => exact map_mergeAfter h x ih ys

/-- Sorting commutes with a map that keeps the comparison. -/
theorem map_sortOn {cmp : α → α → Ordering} {cmp' : β → β → Ordering} {f : α → β}
    (h : ∀ a b, cmp' (f a) (f b) = cmp a b) (xs : List α) :
    (sortOn cmp xs).map f = sortOn cmp' (xs.map f) := by
  have hhalves : ∀ bound (xs : List α),
      (sortHalves cmp bound xs).map f = sortHalves cmp' bound (xs.map f) := by
    intro bound
    induction bound with
    | zero => exact fun _ => rfl
    | succ bound ih =>
      intro xs
      rw [sortHalves, sortHalves, length_map]
      split
      · rfl
      · rw [map_mergeOn h, ih, ih, map_take, map_drop]
  rw [sortOn, sortOn, length_map]
  exact hhalves _ xs

section

variable {cmp : α → α → Ordering} [Std.TransCmp cmp]

omit [Std.TransCmp cmp] in
theorem isLE_total [Std.OrientedCmp cmp] (a b : α) : ((cmp a b).isLE || (cmp b a).isLE) = true := by
  cases h : cmp a b with
  | lt => rfl
  | eq => rfl
  | gt => simp [Std.OrientedCmp.lt_of_gt h]

theorem pairwise_sortOn (xs : List α) : (sortOn cmp xs).Pairwise fun a b => (cmp a b).isLE := by
  rw [sortOn_eq_mergeSort]
  exact pairwise_mergeSort (fun _ _ _ => Std.TransCmp.isLE_trans) isLE_total xs

/-- An element that comes before all others is sorted to the front. -/
theorem head?_sortOn {a : α} {xs : List α} (ha : a ∈ xs) (hlt : ∀ b ∈ xs, b ≠ a → cmp a b = .lt) :
    (sortOn cmp xs).head? = some a := by
  have hsorted : (sortOn cmp xs).Pairwise fun a b => (cmp a b).isLE := pairwise_sortOn xs
  have hmem : ∀ b, b ∈ sortOn cmp xs ↔ b ∈ xs := fun b => mem_sortOn
  generalize sortOn cmp xs = ys at hsorted hmem
  cases ys with
  | nil => cases (hmem a).mpr ha
  | cons b ys =>
    by_cases hb : b = a
    · rw [hb]
      rfl
    · have hin : a ∈ ys := (mem_cons.mp ((hmem a).mpr ha)).resolve_left (Ne.symm hb)
      have hle := (pairwise_cons.mp hsorted).1 a hin
      rw [Std.OrientedCmp.gt_of_lt (hlt b ((hmem b).mp (by simp)) hb)] at hle
      cases hle

end

/-- A split list is given by the elements that a test holds of, when it holds of the second part
only. -/
theorem filter_append_split {p : α → Bool} {xs ys : List α} (hx : ∀ x ∈ xs, p x = false)
    (hy : ∀ y ∈ ys, p y = true) :
    (xs ++ ys).filter (fun a => !p a) = xs ∧ (xs ++ ys).filter p = ys := by
  constructor
  · rw [filter_append, filter_eq_self.mpr, filter_eq_nil_iff.mpr, append_nil]
    · intro y hmem
      simp [hy y hmem]
    · intro x hmem
      simp [hx x hmem]
  · rw [filter_append, filter_eq_nil_iff.mpr, filter_eq_self.mpr, nil_append]
    · exact hy
    · intro x hmem
      simp [hx x hmem]

/-- Sorting puts an element behind the smaller ones and before the others. -/
theorem exists_sortOn_cons (cmp : α → α → Ordering) [Std.TransCmp cmp] (a : α) (xs : List α) :
    ∃ before after, sortOn cmp (a :: xs) = before ++ a :: after ∧ sortOn cmp xs = before ++ after ∧
      (∀ b ∈ before, (cmp a b).isLE = false) ∧ ∀ b ∈ after, (cmp a b).isLE = true := by
  have hsorted : (sortOn cmp (a :: xs)).Pairwise fun a b => (cmp a b).isLE :=
    pairwise_sortOn (a :: xs)
  have htotal : ∀ a b : α, ((cmp a b).isLE || (cmp b a).isLE) = true := isLE_total
  rw [sortOn_eq_mergeSort] at hsorted ⊢
  rw [sortOn_eq_mergeSort]
  obtain ⟨before, after, hcons, hrest, hlt⟩ :=
    mergeSort_cons (fun _ _ _ => Std.TransCmp.isLE_trans) htotal a xs
  refine ⟨before, after, hcons, hrest, fun b hb => by simpa using hlt b hb, ?_⟩
  rw [hcons, pairwise_append] at hsorted
  exact (pairwise_cons.mp hsorted.2.1).1

theorem filter_sortOn_comm (cmp : α → α → Ordering) [Std.TransCmp cmp] (p : α → Bool)
    (xs : List α) : (sortOn cmp xs).filter p = sortOn cmp (xs.filter p) := by
  induction xs with
  | nil => rfl
  | cons a xs ih =>
    obtain ⟨before, after, hcons, hrest, hlt, hle⟩ := exists_sortOn_cons cmp a xs
    rw [hrest, filter_append] at ih
    rw [hcons, filter_append]
    cases ha : p a with
    | false => rw [filter_cons_of_neg (by simp [ha]), filter_cons_of_neg (by simp [ha]), ih]
    | true =>
      rw [filter_cons_of_pos ha, filter_cons_of_pos ha]
      obtain ⟨before', after', hcons', hrest', hlt', hle'⟩ := exists_sortOn_cons cmp a (xs.filter p)
      rw [hrest'] at ih
      -- both lists are split at the elements that do not come before this one
      have hkept : ∀ b ∈ before.filter p, (cmp a b).isLE = false :=
        fun b hb => hlt b (mem_filter.mp hb).1
      have hkept' : ∀ b ∈ after.filter p, (cmp a b).isLE = true :=
        fun b hb => hle b (mem_filter.mp hb).1
      have hsplit := filter_append_split hkept hkept'
      have hsplit' := filter_append_split hlt' hle'
      rw [ih] at hsplit
      rw [hcons', ← hsplit.1, ← hsplit.2, hsplit'.1, hsplit'.2]

theorem filter_sortOn {cmp : α → α → Ordering} [Std.TransCmp cmp] {p : α → Bool} {xs : List α}
    (h : ∀ a b, p a → p b → cmp a b = .eq) : (sortOn cmp xs).filter p = xs.filter p := by
  have hpairs : (xs.filter p).Pairwise fun a b => (cmp a b).isLE := by
    refine pairwise_of_forall_mem_list ?_
    intro a ha b hb
    rw [h a b (mem_filter.mp ha).2 (mem_filter.mp hb).2]
    rfl
  rw [filter_sortOn_comm, sortOn_eq_mergeSort]
  exact mergeSort_of_pairwise hpairs

/-- By the code points of a text. -/
def byText (text : α → String) : α → α → Ordering :=
  compareOn fun a => Text.codePoints (text a)

def textOrder : String → String → Ordering :=
  byText id

instance (text : α → String) : Std.TransCmp (byText text) :=
  inferInstanceAs (Std.TransCmp (compareOn fun a => Text.codePoints (text a)))

instance : Std.TransCmp textOrder :=
  inferInstanceAs (Std.TransCmp (byText id))

theorem byText_eq_iff {text : α → String} {a b : α} : byText text a b = .eq ↔ text a = text b := by
  constructor
  · intro h
    exact Text.codePoints_injective (Std.LawfulEqCmp.eq_of_compare h)
  · intro h
    show compare (Text.codePoints (text a)) (Text.codePoints (text b)) = _
    rw [h]
    exact Std.ReflCmp.compare_self

/-- The distinct texts of a list in ascending order. -/
def sortedSet (xs : List String) : List String :=
  sortOn textOrder xs.eraseDups

@[simp] theorem mem_sortedSet {x : String} {xs : List String} : x ∈ sortedSet xs ↔ x ∈ xs := by
  simp [sortedSet]

end Xref

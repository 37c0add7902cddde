import Mathlib.Data.List.Nodup
import Mathlib.Order.WellFoundedSet
import Xref.Hierarchy.Build

/-!
# What a merge gives

A merge goes by rounds, and an element leaves all lists in each of them, so that it comes to an end.
If then nothing is left, the elements are listed once each and in the order of every list. Otherwise
each head that is left stands behind another one, so that the lists are at odds: no order agrees
with all of them.
-/

namespace Xref.Hierarchy

open List

variable {α : Type u} [DecidableEq α] {lists : List (List α)}

/-! ## Rounds -/

def remaining (lists : List (List α)) : List (List α) :=
  lists.filter fun l => !l.isEmpty

/-- What a merge comes to, round by round: it is over when all lists are empty, it fails when no
head can be taken, and a head that is taken out of all lists is put before what the others come
to. -/
inductive Rounds : List (List α) → Option (List α) → Prop
  | ended {lists : List (List α)} (h : ∀ l ∈ lists, l = []) : Rounds lists (some [])
  | stuck {lists : List (List α)} (hleft : ∃ l ∈ lists,
      l ≠ []) (h : candidate? (remaining lists) = none) :
      Rounds lists none
  | round {lists : List (List α)} {head : α} {result : Option (List α)}
      (h : candidate? (remaining lists) = some head)
      (hrest : Rounds ((remaining lists).map fun l => l.filter (· ≠ head)) result) :
      Rounds lists (result.map (head :: ·))

omit [DecidableEq α] in
theorem mem_remaining {l : List α} : l ∈ remaining lists ↔ l ∈ lists ∧ l ≠ [] := by
  simp [remaining, mem_filter]

/-- A head that is taken is in some list, and in no tail. -/
theorem candidate?_spec {head : α} (h : candidate? (remaining lists) = some head) :
    (∃ l ∈ lists, head ∈ l) ∧ ∀ l ∈ lists, head ∉ l.tail := by
  obtain ⟨l, hl, hsome⟩ := exists_of_findSome?_eq_some h
  cases l with
  | nil => cases hsome
  | cons a rest =>
    dsimp only at hsome
    split at hsome
    · cases hsome
    · next hfree =>
      cases hsome
      simp only [any_eq_true, contains_iff_mem, not_exists, not_and] at hfree
      refine ⟨⟨_, (mem_remaining.mp hl).1, by simp⟩, fun l hl => ?_⟩
      by_cases hne : l = []
      · simp [hne]
      · exact hfree l (mem_remaining.mpr ⟨hl, hne⟩)

/-- The rounds come to an end: a bound that covers the elements of all lists does not cut them
off. -/
theorem rounds_mergeUpTo {bound : Nat} (h : lists.flatten.length ≤ bound) :
    Rounds lists (mergeUpTo bound lists) := by
  induction bound generalizing lists with
  | zero =>
    have hnil : ∀ l ∈ lists, l = [] := flatten_eq_nil_iff.mp (eq_nil_of_length_eq_zero (by omega))
    rw [mergeUpTo, filter_eq_nil_iff.mpr (by simpa using hnil)]
    exact .ended hnil
  | succ bound ih =>
    rw [mergeUpTo]
    split
    · next hnil => exact .ended fun l hl => by simpa using filter_eq_nil_iff.mp hnil l hl
    · next l ls hcons =>
      have hleft : l ∈ lists ∧ l ≠ [] := mem_remaining.mp (by simp [remaining, hcons])
      rw [← hcons]
      dsimp only
      split
      · next hnone => exact .stuck ⟨l, hleft⟩ hnone
      · next head hhead =>
        refine .round hhead (ih ?_)
        -- the head is no longer among the elements
        obtain ⟨⟨l', hl', hin⟩, _⟩ := candidate?_spec hhead
        have hlt : (lists.flatten.filter (· ≠ head)).length < lists.flatten.length :=
          length_filter_lt_length_iff_exists.mpr ⟨head, mem_flatten.mpr ⟨l', hl', hin⟩, by simp⟩
        have hflat : (remaining lists).flatten = lists.flatten := flatten_filter_not_isEmpty
        rw [← filter_flatten, hflat]
        omega

theorem rounds_merge? (lists : List (List α)) : Rounds lists (merge? lists) :=
  rounds_mergeUpTo (Nat.le_refl _)

/-! ## Merges -/

/-- A list follows an order that starts with an element of no tail, if the rest of it follows the
rest. -/
theorem sublist_cons_of_filter {head : α} {l order : List α} (hfree : head ∉ l.tail)
    (h : (l.filter (· ≠ head)).Sublist order) : l.Sublist (head :: order) := by
  cases l with
  | nil => exact nil_sublist _
  | cons a rest =>
    have hrest : rest.filter (· ≠ head) = rest := by
      refine filter_eq_self.mpr fun x hx => ?_
      simp only [ne_eq, decide_eq_true_eq]
      rintro rfl
      exact hfree hx
    by_cases ha : a = head
    · subst ha
      simp only [filter_cons, ne_eq, not_true_eq_false, decide_false, Bool.false_eq_true,
        if_false] at h
      rw [hrest] at h
      exact h.cons_cons a
    · simp only [filter_cons, ne_eq, ha, not_false_eq_true, decide_true, if_true] at h
      rw [hrest] at h
      exact h.cons head

/-- A list has the elements of some lists, each once and in the order of every list. -/
structure Merges (lists : List (List α)) (merged : List α) : Prop where
  nodup : merged.Nodup
  mem_iff : ∀ x, x ∈ merged ↔ ∃ l ∈ lists, x ∈ l
  sublist : ∀ l ∈ lists, l.Sublist merged

omit [DecidableEq α] in
theorem Merges.nil (h : ∀ l ∈ lists, l = []) : Merges lists [] where
  nodup := nodup_nil
  mem_iff x := by
    simp only [not_mem_nil, false_iff, not_exists, not_and]
    intro l hl
    simp [h l hl]
  sublist l hl := h l hl ▸ nil_sublist _

theorem Merges.cons {head : α} {rest : List α} (hin : ∃ l ∈ lists, head ∈ l)
    (hfree : ∀ l ∈ lists, head ∉ l.tail)
    (h : Merges ((remaining lists).map fun l => l.filter (· ≠ head)) rest) :
    Merges lists (head :: rest) := by
  -- what the rest holds is what the lists hold beside the head
  have hmem : ∀ x, x ∈ rest ↔ ∃ l ∈ lists, x ∈ l ∧ x ≠ head := by
    intro x
    rw [h.mem_iff]
    simp only [mem_map, exists_exists_and_eq_and, mem_filter (p := (· ≠ head)),
      mem_remaining, decide_eq_true_eq]
    constructor
    · rintro ⟨l, ⟨hl, _⟩, hx, hne⟩
      exact ⟨l, hl, hx, hne⟩
    · rintro ⟨l, hl, hx, hne⟩
      exact ⟨l, ⟨hl, ne_nil_of_mem hx⟩, hx, hne⟩
  refine ⟨nodup_cons.mpr ⟨fun hhead => ?_, h.nodup⟩, fun x => ?_, fun l hl => ?_⟩
  · obtain ⟨_, _, _, hne⟩ := (hmem head).mp hhead
    exact hne rfl
  · rw [mem_cons, hmem]
    constructor
    · rintro (rfl | ⟨l, hl, hx, _⟩)
      · exact hin
      · exact ⟨l, hl, hx⟩
    · rintro ⟨l, hl, hx⟩
      by_cases hne : x = head
      · exact .inl hne
      · exact .inr ⟨l, hl, hx, hne⟩
  · by_cases hne : l = []
    · exact hne ▸ nil_sublist _
    · refine sublist_cons_of_filter (hfree l hl) (h.sublist _ ?_)
      exact mem_map_of_mem (mem_remaining.mpr ⟨hl, hne⟩)

theorem Rounds.merges {result : Option (List α)} (h : Rounds lists result) :
    ∀ merged ∈ result, Merges lists merged := by
  induction h with
  | ended hnil =>
    rintro _ ⟨⟩
    exact .nil hnil
  | stuck => rintro _ ⟨⟩
  | round hhead _ ih =>
    intro merged hmerged
    obtain ⟨rest, hrest, rfl⟩ := Option.map_eq_some_iff.mp hmerged
    obtain ⟨hin, hfree⟩ := candidate?_spec hhead
    exact .cons hin hfree (ih rest hrest)

theorem merges_of_merge? {merged : List α} (h : merge? lists = some merged) : Merges lists merged :=
  (rounds_merge? lists).merges merged h

/-! ## Lists at odds -/

/-- An element stands before another in one of the lists. -/
def Precedes (lists : List (List α)) (a b : α) : Prop :=
  ∃ l ∈ lists, [a, b].Sublist l

/-- Going from element to element, each before the next in some list, one comes back. -/
def AtOdds (lists : List (List α)) : Prop :=
  ∃ a, Relation.TransGen (Precedes lists) a a

/-- Where no head can be taken, each is preceded by another, and there are only finitely many. -/
theorem atOdds_of_stuck (hleft : ∃ l ∈ lists, l ≠ []) (h : candidate? (remaining lists) = none) :
    AtOdds lists := by
  by_contra hagree
  have hbefore : ∀ b ∈ lists.filterMap head?, ∃ a ∈ lists.filterMap head?, Precedes lists a b := by
    intro b hb
    obtain ⟨l, hl, hhead⟩ := mem_filterMap.mp hb
    obtain ⟨rest, rfl⟩ := head?_eq_some_iff.mp hhead
    have hnone := findSome?_eq_none_iff.mp h _ (mem_remaining.mpr ⟨hl, cons_ne_nil b rest⟩)
    have hbehind : ∃ l ∈ remaining lists, b ∈ l.tail := by simpa using hnone
    obtain ⟨l', hl', hin⟩ := hbehind
    obtain ⟨hmem, hne⟩ := mem_remaining.mp hl'
    obtain ⟨a, rest', rfl⟩ := exists_cons_of_ne_nil hne
    exact ⟨a, mem_filterMap.mpr ⟨_, hmem, rfl⟩, _, hmem, (singleton_sublist.mpr hin).cons_cons a⟩
  have hstrict : IsStrictOrder α (Relation.TransGen (Precedes lists)) :=
    { irrefl := fun a ha => hagree ⟨a, ha⟩, trans := fun _ _ _ => Relation.TransGen.trans }
  obtain ⟨l, hl, hne⟩ := hleft
  obtain ⟨first, rest, rfl⟩ := exists_cons_of_ne_nil hne
  have hfirst : first ∈ lists.filterMap head? := mem_filterMap.mpr ⟨_, hl, rfl⟩
  obtain ⟨⟨b, hb⟩, _, hmin⟩ := (finite_toSet (lists.filterMap head?)).wellFoundedOn
    (r := Relation.TransGen (Precedes lists)) |>.has_min Set.univ ⟨⟨first, hfirst⟩, trivial⟩
  obtain ⟨a, ha, hab⟩ := hbefore b hb
  exact hmin ⟨a, ha⟩ trivial (.single hab)

theorem Rounds.atOdds {result : Option (List α)} (h : Rounds lists result) (hnone : result = none) :
    AtOdds lists := by
  induction h with
  | ended => cases hnone
  | stuck hleft hstuck => exact atOdds_of_stuck hleft hstuck
  | round _ _ ih =>
    obtain ⟨a, ha⟩ := ih (Option.map_eq_none_iff.mp hnone)
    refine ⟨a, Relation.TransGen.mono ?_ a a ha⟩
    rintro b c ⟨l, hl, hpair⟩
    obtain ⟨l', hl', rfl⟩ := mem_map.mp hl
    exact ⟨l', (mem_remaining.mp hl').1, hpair.trans filter_sublist⟩

/-- Lists that one order agrees with are not at odds: each step goes on in the order. -/
theorem not_atOdds {order : List α} (hnodup : order.Nodup) (hsub : ∀ l ∈ lists, l.Sublist order) :
    ¬ AtOdds lists := by
  have hpair : ∀ a b, Precedes lists a b → order.idxOf a < order.idxOf b := by
    rintro a b ⟨l, hl, hab⟩
    obtain ⟨before, after, rfl, ha, hb⟩ := cons_sublist_iff.mp (hab.trans (hsub l hl))
    rw [singleton_sublist] at hb
    have hout : b ∉ before := fun hin => (nodup_append'.mp hnodup).2.2 hin hb
    rw [idxOf_append_of_mem ha, idxOf_append_of_notMem hout]
    exact Nat.lt_add_right _ (idxOf_lt_length_iff.mpr ha)
  have hlt : ∀ a b, Relation.TransGen (Precedes lists) a b → order.idxOf a < order.idxOf b := by
    intro a b h
    induction h with
    | single hab => exact hpair _ _ hab
    | tail _ hbc ih => exact Nat.lt_trans ih (hpair _ _ hbc)
  rintro ⟨a, ha⟩
  exact Nat.lt_irrefl _ (hlt a a ha)

theorem merge?_eq_none_iff : merge? lists = none ↔ AtOdds lists := by
  refine ⟨(rounds_merge? lists).atOdds, fun hodds => ?_⟩
  cases h : merge? lists with
  | none => rfl
  | some merged =>
    exact absurd hodds (not_atOdds (merges_of_merge? h).nodup (merges_of_merge? h).sublist)

/-- There is a merge exactly when some order agrees with all lists. -/
theorem exists_merge?_iff :
    (∃ merged, merge? lists = some merged) ↔
      ∃ order : List α, order.Nodup ∧ ∀ l ∈ lists, l.Sublist order := by
  constructor
  · rintro ⟨merged, h⟩
    exact ⟨merged, (merges_of_merge? h).nodup, (merges_of_merge? h).sublist⟩
  · rintro ⟨order, hnodup, hsub⟩
    exact Option.ne_none_iff_exists'.mp fun h => not_atOdds hnodup hsub (merge?_eq_none_iff.mp h)

/-- **A merge is sound and complete.** The rounds of a merge end, whatever the lists and however
often an element is repeated in them. It fails exactly if the lists are at odds, and otherwise has
the elements of the lists, each once and in the order of every list. -/
theorem merge_ends_unless_at_odds (lists : List (List α)) :
    Rounds lists (merge? lists) ∧ (merge? lists = none ↔ AtOdds lists) ∧
      ∀ merged, merge? lists = some merged → Merges lists merged :=
  ⟨rounds_merge? lists, merge?_eq_none_iff, fun _ => merges_of_merge?⟩

end Xref.Hierarchy

import Xref.Text.Dotted

/-!
# Dotted names and their parts

Cutting a dotted name into parts undoes joining them. Names that hold dots themselves are cut
further when they have been joined.
-/

namespace Xref

open List

theorem splitAt_append [DecidableEq α] (sep : α) (xs ys : List α) :
    splitAt sep (xs ++ sep :: ys) = splitAt sep xs ++ splitAt sep ys := by
  induction xs with
  | nil => simp [splitAt]
  | cons x xs ih =>
    rw [cons_append, splitAt, splitAt, ih]
    split
    · rfl
    · cases hs : splitAt sep xs with
      | nil => exact absurd hs (splitAt_ne_nil sep xs)
      | cons part parts => rfl

theorem splitAt_of_not_mem [DecidableEq α] {sep : α} {xs : List α} (h : sep ∉ xs) :
    splitAt sep xs = [xs] := by
  induction xs with
  | nil => rfl
  | cons x xs ih =>
    simp only [mem_cons, not_or] at h
    rw [splitAt, if_neg (Ne.symm h.1), ih h.2]

theorem length_splitAt [DecidableEq α] (sep : α) (xs : List α) :
    (splitAt sep xs).length = xs.count sep + 1 := by
  induction xs with
  | nil => rfl
  | cons x xs ih =>
    rw [splitAt]
    split
    · next h => simp [ih, h]
    · next h =>
      cases hs : splitAt sep xs with
      | nil => exact absurd hs (splitAt_ne_nil sep xs)
      | cons part parts => simpa [hs, h] using ih

theorem not_mem_of_mem_splitAt [DecidableEq α] {sep : α} {xs part : List α}
    (h : part ∈ splitAt sep xs) : sep ∉ part := by
  induction xs generalizing part with
  | nil =>
    rw [splitAt, mem_singleton] at h
    simp [h]
  | cons x xs ih =>
    rw [splitAt] at h
    split at h
    · rcases mem_cons.mp h with rfl | h
      · simp
      · exact ih h
    · next hx =>
      cases hs : splitAt sep xs with
      | nil => exact absurd hs (splitAt_ne_nil sep xs)
      | cons first rest =>
        rw [hs] at h ih
        rcases mem_cons.mp h with rfl | h
        · simpa [Ne.symm hx] using ih mem_cons_self
        · exact ih (mem_cons_of_mem _ h)

theorem mem_joinWith {sep x : α} {part : List α} {parts : List (List α)} (hpart : part ∈ parts)
    (hx : x ∈ part) : x ∈ joinWith sep parts := by
  fun_induction joinWith sep parts with
  | case1 => cases hpart
  | case2 only =>
    rw [mem_singleton] at hpart
    exact hpart ▸ hx
  | case3 first next parts ih =>
    rcases mem_cons.mp hpart with rfl | hpart
    · exact mem_append_left _ hx
    · exact mem_append_right _ (mem_cons_of_mem _ (ih hpart))

theorem mem_of_mem_splitAt [DecidableEq α] {sep x : α} {xs part : List α}
    (hpart : part ∈ splitAt sep xs) (hx : x ∈ part) : x ∈ xs :=
  joinWith_splitAt sep xs ▸ mem_joinWith hpart hx

namespace Text.Dotted

theorem join_ne_empty {first : String} {rest : List String} (h : first ≠ "") :
    join (first :: rest) ≠ "" := by
  cases rest with
  | nil => exact h
  | cons next rest => simp [join]

theorem parts_of_undotted {name : String} (h : '.' ∉ name.toList) : parts name = [name] := by
  simp [parts, splitAt_of_not_mem h]

theorem undotted_of_mem_parts {name part : String} (h : part ∈ parts name) : '.' ∉ part.toList := by
  obtain ⟨cs, hcs, rfl⟩ := mem_map.mp h
  simpa using not_mem_of_mem_splitAt hcs

variable (name : String)

theorem length_parts : (parts name).length = name.toList.count '.' + 1 := by
  rw [parts, length_map, length_splitAt]

theorem parts_append_dot (a b : String) : parts (a ++ "." ++ b) = parts a ++ parts b := by
  have hlist : (a ++ "." ++ b).toList = a.toList ++ '.' :: b.toList := by simp
  rw [parts, hlist, splitAt_append, map_append]
  rfl

theorem join_cons (part : String) {rest : List String} (h : rest ≠ []) :
    join (part :: rest) = part ++ "." ++ join rest := by
  cases rest with
  | nil => exact absurd rfl h
  | cons next rest => rfl

variable {names : List String}

/-- Joined names are cut where they hold dots and where they were joined. -/
theorem parts_join (h : names ≠ []) : parts (join names) = names.flatMap parts := by
  induction names with
  | nil => exact absurd rfl h
  | cons name names ih =>
    cases names with
    | nil => simp [join]
    | cons next rest =>
      rw [join_cons name (by simp), parts_append_dot, ih (by simp)]
      rfl

theorem flatMap_parts_of_undotted (h : ∀ c ∈ names, '.' ∉ c.toList) :
    names.flatMap parts = names := by
  induction names with
  | nil => rfl
  | cons name names ih =>
    rw [flatMap_cons, parts_of_undotted (h name mem_cons_self),
      ih fun c hc => h c (mem_cons_of_mem _ hc)]
    rfl

theorem parts_join_of_undotted (hne : names ≠ []) (h : ∀ c ∈ names, '.' ∉ c.toList) :
    parts (join names) = names := by
  rw [parts_join hne, flatMap_parts_of_undotted h]

theorem join_parts : join (parts name) = name := by
  have hjoin : ∀ css :
    List (List Char), join (css.map String.ofList) = String.ofList (joinWith '.' css) := by
    intro css
    induction css with
    | nil => rfl
    | cons cs css ih =>
      cases css with
      | nil => rfl
      | cons next rest =>
        rw [map_cons, join_cons _ (by simp), ih, joinWith]
        apply String.toList_injective
        simp
  rw [parts, hjoin, joinWith_splitAt, String.ofList_toList]

/-- Names without dots are told by what they are joined to. -/
theorem join_injective {as bs : List String} (has : ∀ c ∈ as, '.' ∉ c.toList)
    (hbs : ∀ c ∈ bs, '.' ∉ c.toList) (hne : as ≠ []) (hne' : bs ≠ [])
    (h : join as = join bs) : as = bs := by
  rw [← parts_join_of_undotted hne has, h, parts_join_of_undotted hne' hbs]

theorem join_append {others : List String} (h : names ≠ []) (ho : others ≠ []) :
    join (names ++ others) = join names ++ "." ++ join others := by
  induction names with
  | nil => exact absurd rfl h
  | cons first rest ih =>
    cases rest with
    | nil => exact join_cons first ho
    | cons next rest =>
      rw [cons_append, join_cons first (by simp), ih (by simp), join_cons first (by simp)]
      simp only [String.append_assoc]

theorem join_append_singleton (h : names ≠ []) (name : String) :
    join (names ++ [name]) = join names ++ "." ++ name :=
  join_append h (by simp)

theorem parts_ne_nil : parts name ≠ [] := by
  intro h
  have := length_parts name
  simp [h] at this

/-- The names that enclose a name are what stands before a dot in it. -/
theorem mem_enclosing {name p : String} : p ∈ enclosing name ↔ ∃ rest, name = p ++ "." ++ rest := by
  simp only [enclosing, mem_map, mem_range, Nat.lt_sub_iff_add_lt]
  constructor
  · rintro ⟨n, hn, rfl⟩
    refine ⟨join ((parts name).drop (n + 1)), ?_⟩
    rw [← join_append (by simp [parts_ne_nil]) (by simpa using hn), take_append_drop, join_parts]
  · rintro ⟨rest, rfl⟩
    have hp := length_pos_iff.mpr (parts_ne_nil p)
    have hrest := length_pos_iff.mpr (parts_ne_nil rest)
    refine ⟨(parts p).length - 1, ?_, ?_⟩
    · rw [parts_append_dot, length_append]
      omega
    · rw [parts_append_dot, Nat.sub_add_cancel hp, take_left, join_parts]

end Text.Dotted

theorem Text.toNat_of_isAlpha {c : Char} (h : c.isAlpha) : 65 ≤ c.toNat ∧ c.toNat < 128 := by
  rcases Bool.or_eq_true_iff.mp h with h | h
  · obtain ⟨hlow, hhigh⟩ := of_decide_eq_true h
    have hlow : 65 ≤ c.toNat := UInt32.le_iff_toNat_le.mp hlow
    have hhigh : c.toNat ≤ 90 := UInt32.le_iff_toNat_le.mp hhigh
    omega
  · obtain ⟨hlow, hhigh⟩ := Bool.and_eq_true_iff.mp h
    have hlow : 97 ≤ c.toNat := UInt32.le_iff_toNat_le.mp (of_decide_eq_true hlow)
    have hhigh : c.toNat ≤ 122 := UInt32.le_iff_toNat_le.mp (of_decide_eq_true hhigh)
    omega

end Xref

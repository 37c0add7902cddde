import Mathlib.Data.List.TakeWhile
import Xref.Text.Characters

/-!
# Stripped texts

A stripped text is what is left of a text between two ends of characters that are stripped off. It
starts and ends with other characters, and is the only part of the text that does.
-/

namespace Xref.Text

open List

variable {p : Char → Bool}

theorem dropWhile_append_of_head? {left rest : List Char} (hleft : ∀ c ∈ left, p c)
    (hhead : ∀ c ∈ rest.head?, p c = false) : (left ++ rest).dropWhile p = rest := by
  rw [dropWhile_append_of_pos hleft]
  cases rest with
  | nil => rfl
  | cons c cs => exact dropWhile_cons_of_neg (by simp [hhead c rfl])

theorem stripWhile_eq_nil {cs : List Char} (h : ∀ c ∈ cs, p c) : stripWhile p cs = [] := by
  rw [stripWhile, dropWhile_eq_nil_iff.mpr h]
  rfl

theorem stripWhile_eq {left core right : List Char} (hleft : ∀ c ∈ left, p c)
    (hright : ∀ c ∈ right, p c) (hhead : ∀ c ∈ core.head?, p c = false)
    (hlast : ∀ c ∈ core.getLast?, p c = false) : stripWhile p (left ++ core ++ right) = core := by
  cases core with
  | nil =>
    refine stripWhile_eq_nil fun c hc => ?_
    rcases mem_append.mp hc with hc | hc
    · exact hleft c (by simpa using hc)
    · exact hright c hc
  | cons c cs =>
    have hhead' : ∀ d ∈ (c :: cs ++ right).head?, p d = false := by simpa using hhead
    have hlast' : ∀ d ∈ (c :: cs).reverse.head?, p d = false := by rwa [List.head?_reverse]
    rw [stripWhile, append_assoc, dropWhile_append_of_head? hleft hhead', reverse_append,
      dropWhile_append_of_head? (by simpa using hright) hlast', reverse_reverse]

/-- What is stripped off stands at the two ends, and the rest starts and ends with something
else. -/
theorem exists_stripWhile (p : Char → Bool) (cs : List Char) :
    ∃ left right, cs = left ++ stripWhile p cs ++ right ∧ (∀ c ∈ left, p c) ∧
      (∀ c ∈ right, p c) ∧ (∀ c ∈ (stripWhile p cs).head?, p c = false) ∧
      ∀ c ∈ (stripWhile p cs).getLast?, p c = false := by
  have hright :
    stripWhile p cs ++ ((cs.dropWhile p).reverse.takeWhile p).reverse = cs.dropWhile p := by
    rw [stripWhile, ← reverse_append, takeWhile_append_dropWhile, reverse_reverse]
  refine ⟨cs.takeWhile p, ((cs.dropWhile p).reverse.takeWhile p).reverse, ?_, ?_, ?_, ?_, ?_⟩
  · rw [append_assoc, hright, takeWhile_append_dropWhile]
  · exact fun c hc => mem_takeWhile_imp hc
  · exact fun c hc => mem_takeWhile_imp (mem_reverse.mp hc)
  · intro c hc
    have hhead : (cs.dropWhile p).head? = some c := by rw [← hright, List.head?_append, hc]; rfl
    simpa [hhead] using List.head?_dropWhile_not p cs
  · intro c hc
    rw [stripWhile, List.getLast?_reverse] at hc
    simpa [Option.mem_def.mp hc] using List.head?_dropWhile_not p (cs.dropWhile p).reverse

/-- A text that starts and ends with other characters is not stripped. -/
theorem stripWhile_of_ends {cs : List Char} (hhead : ∀ c ∈ cs.head?, p c = false)
    (hlast : ∀ c ∈ cs.getLast?, p c = false) : stripWhile p cs = cs := by
  have h : stripWhile p ([] ++ cs ++ []) = cs := stripWhile_eq (by simp) (by simp) hhead hlast
  simpa using h

theorem stripWhile_sublist (p : Char → Bool) (cs : List Char) : (stripWhile p cs).Sublist cs := by
  obtain ⟨left, right, hcs, _⟩ := exists_stripWhile p cs
  have h : (stripWhile p cs).Sublist (left ++ stripWhile p cs ++ right) :=
    (sublist_append_right left _).trans (sublist_append_left _ right)
  rwa [← hcs] at h

end Xref.Text

/-!
# Splitting at a separator

Cutting a list at every occurrence of a separator and putting the parts together again.
-/

namespace Xref

variable {α : Type u}

/-- The parts of a list between the occurrences of a separator: one more than there are of it. -/
def splitAt [DecidableEq α] (sep : α) : List α → List (List α)
  | [] => [[]]
  | c :: cs =>
    if c = sep then [] :: splitAt sep cs
    else
      match splitAt sep cs with
      | [] => [[c]]
      | part :: parts => (c :: part) :: parts

/-- The parts with a separator between any two neighbours. -/
def joinWith (sep : α) : List (List α) → List α
  | [] => []
  | [part] => part
  | part :: next :: parts => part ++ sep :: joinWith sep (next :: parts)

theorem splitAt_ne_nil [DecidableEq α] (sep : α) (cs : List α) : splitAt sep cs ≠ [] := by
  cases cs with
  | nil => simp [splitAt]
  | cons c cs =>
    rw [splitAt]
    split
    · simp
    · split <;> simp

theorem joinWith_splitAt [DecidableEq α] (sep : α) (cs : List α) :
    joinWith sep (splitAt sep cs) = cs := by
  induction cs with
  | nil => rfl
  | cons c cs ih =>
    rw [splitAt]
    split
    · next h =>
      cases hs : splitAt sep cs with
      | nil => exact absurd hs (splitAt_ne_nil sep cs)
      | cons part parts =>
        rw [hs] at ih
        simp [joinWith, ih, h]
    · cases hs : splitAt sep cs with
      | nil => exact absurd hs (splitAt_ne_nil sep cs)
      | cons part parts =>
        rw [hs] at ih
        cases parts <;> simp_all [joinWith]

end Xref

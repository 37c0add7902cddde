import Xref.Cst.Outline
import Xref.Proofs.Digest.Omitted

/-!
# Numbered items

Every item that is read from a syntax tree gets the next number as its id, and items come in the
order of their numbers: an item after what is evaluated before it, and before what stands inside it.
So wherever the check has seen the ids up to a number, it accepts the items that are read from there
on.
-/

namespace Xref.Cst

open List Item

open Outline (checkItems checkItem defect?)

/-! ## Numbers -/

def numbered (k : Nat) : String :=
  "n" ++ toString k

/-- The ids up to a number, the last first. -/
def numbers : Nat → List String
  | 0 => []
  | k + 1 => numbered (k + 1) :: numbers k

variable {k k' : Nat}

theorem numbered_inj {j : Nat} (h : numbered j = numbered k) : j = k := by
  have hrepr : j.repr = k.repr := by simpa [numbered] using h
  have hread :
    Nat.ofDigitChars 10 (Nat.toDigits 10 j) 0 = Nat.ofDigitChars 10 (Nat.toDigits 10 k) 0 := by
    rw [← Nat.toList_repr, ← Nat.toList_repr, hrepr]
  simpa using hread

theorem numbered_not_mem {j : Nat} (h : k < j) : numbered j ∉ numbers k := by
  induction k with
  | zero => simp [numbers]
  | succ k ih =>
    rw [numbers, mem_cons, not_or]
    exact ⟨fun heq => absurd (numbered_inj heq) (by omega), ih (by omega)⟩

theorem nodup_numbers (k : Nat) : (numbers k).Nodup := by
  induction k with
  | zero => exact nodup_nil
  | succ k ih => exact nodup_cons.mpr ⟨numbered_not_mem (by omega), ih⟩

/-! ## Accepted items -/

/-- Where the ids up to a number were seen, an item with the next number is accepted. -/
theorem checkItem_numbered {lambdas : List String} {i : Item}
    (hid : i.mark?.bind (·.id) = some (numbered (k + 1))) (hdefect : defect? lambdas i = none) :
    checkItem ⟨numbers k, lambdas⟩ i = .ok ⟨numbers (k + 1), i.lambdaId?.toList ++ lambdas⟩ := by
  have hne : numbered (k + 1) ≠ "" := by simp [numbered]
  exact Outline.checkItem_eq_ok_iff.mpr ⟨_, hid, hne, numbered_not_mem (by omega), hdefect, rfl⟩

/-- Items that are numbered from one number to another, with no file among them and no lambda whose
place no text can hold. The check accepts them where it has seen the ids up to the first number and
some known lambdas. -/
structure Fits (known : List String) (start stop : Nat) (items : List Item) : Prop where
  flat : ∀ i ∈ preorderAll items, i.isFileBody = false ∧ i.isNameable
  checked : ∀ lambdas, (∀ id ∈ known, id ∈ lambdas) → ∃ lambdas',
    checkItems ⟨numbers start, lambdas⟩ (preorderAll items) = .ok ⟨numbers stop, lambdas'⟩

namespace Fits

variable {known known' : List String} {start mid stop : Nat} {is js : List Item}

theorem nil : Fits known start start [] where
  flat _ h := by cases h
  checked lambdas _ := ⟨lambdas, rfl⟩

/-- The second items may also refer to lambdas among the first. -/
theorem append (hi : Fits known start mid is) (hj : Fits known' mid stop js)
    (hknown : ∀ id ∈ known', id ∈ lambdaIds (preorderAll is) ∨ id ∈ known) :
    Fits known start stop (is ++ js) where
  flat := by
    rw [preorderAll_append]
    exact forall_mem_append.mpr ⟨hi.flat, hj.flat⟩
  checked lambdas hl := by
    obtain ⟨lambdas₁, hfirst⟩ := hi.checked lambdas hl
    have hseen : lambdas₁ = (lambdaIds (preorderAll is)).reverse ++ lambdas :=
      (Outline.seen_of_checkItems hfirst).2
    have hl₁ : ∀ id ∈ known', id ∈ lambdas₁ := by
      intro id hid
      rw [hseen, mem_append, mem_reverse]
      exact (hknown id hid).imp_right (hl id)
    obtain ⟨lambdas₂, hsecond⟩ := hj.checked lambdas₁ hl₁
    refine ⟨lambdas₂, ?_⟩
    rw [preorderAll_append, Outline.checkItems_append, hfirst]
    exact hsecond

theorem beside (hi : Fits known start mid is) (hj : Fits known mid stop js) :
    Fits known start stop (is ++ js) :=
  hi.append hj fun _ hid => .inr hid

/-- An item with the next number before the items in its body. -/
theorem around {i : Item} {body : List Item}
    (hid : i.mark?.bind (·.id) = some (numbered (start + 1)))
    (hpre : i.preorder = i :: preorderAll body) (hflat : i.isFileBody = false ∧ i.isNameable)
    (hdefect : ∀ lambdas, (∀ id ∈ known, id ∈ lambdas) → defect? lambdas i = none)
    (hbody : Fits [] (start + 1) stop body) : Fits known start stop [i] where
  flat := by
    rw [preorderAll, hpre, preorderAll, append_nil]
    exact forall_mem_cons.mpr ⟨hflat, hbody.flat⟩
  checked lambdas hl := by
    obtain ⟨lambdas', hrest⟩ := hbody.checked (i.lambdaId?.toList ++ lambdas) (by simp)
    refine ⟨lambdas', ?_⟩
    simp only [preorderAll, hpre, append_nil, checkItems,
      checkItem_numbered hid (hdefect lambdas hl)]
    exact hrest

theorem leaf {i : Item} (hid : i.mark?.bind (·.id) = some (numbered (start + 1)))
    (hpre : i.preorder = [i]) (hflat : i.isFileBody = false ∧ i.isNameable)
    (hdefect : ∀ lambdas, (∀ id ∈ known, id ∈ lambdas) → defect? lambdas i = none) :
    Fits known start (start + 1) [i] := by
  refine around hid ?_ hflat hdefect nil
  exact hpre

end Fits

/-! ## Readings -/

theorem run_bind_eq_ok {m : Reading α} {f : α → Reading β} {b : β} :
    (m >>= f).run k = .ok (b, k') ↔ ∃ a j, m.run k = .ok (a, j) ∧ (f a).run j = .ok (b, k') := by
  rw [StateT.run_bind]
  constructor
  · intro h
    obtain ⟨⟨a, j⟩, ha, hb⟩ := bind_eq_ok h
    exact ⟨a, j, ha, hb⟩
  · rintro ⟨a, j, ha, hb⟩
    rw [ha]
    exact hb

theorem run_pure_eq_ok {a b : α} : (pure a : Reading α).run k = .ok (b, k') ↔ a = b ∧ k = k' := by
  have hrun : (pure a : Reading α).run k = .ok (a, k) := rfl
  simp [hrun]

theorem run_lift_eq_ok {x : Except Fault α} {a : α} :
    (liftM x : Reading α).run k = .ok (a, k') ↔ x = .ok a ∧ k = k' := by
  cases x with
  | error e =>
    have hrun : (liftM (Except.error e : Except Fault α) : Reading α).run k = .error e := rfl
    simp [hrun]
  | ok b =>
    have hrun : (liftM (Except.ok b : Except Fault α) : Reading α).run k = .ok (b, k) := rfl
    simp [hrun]

theorem run_freshMark_eq_ok {n : Cst} {mark : Mark} :
    (freshMark n).run k = .ok (mark, k') ↔ mark = ⟨some (numbered (k + 1)), n.location⟩ ∧
      k' = k + 1 := by
  have hrun : (freshMark n).run k = .ok (⟨some (numbered (k + 1)), n.location⟩, k + 1) := rfl
  simp [hrun, eq_comm]

theorem count_of_mapM {f : α → Except Fault β} {xs : List α} {ys : List β}
    (h : (xs.mapM fun x => (liftM (f x) : Reading β)).run k = .ok (ys, k')) : k = k' := by
  induction xs generalizing ys with
  | nil => exact (run_pure_eq_ok.mp h).2
  | cons x xs ih =>
    simp only [mapM_cons, run_bind_eq_ok, run_pure_eq_ok, run_lift_eq_ok] at h
    obtain ⟨_, _, ⟨-, rfl⟩, _, _, hrest, -, rfl⟩ := h
    exact ih hrest

/-- Whatever a reading makes fits after the items made before. -/
def Makes (m : Reading (List Item)) : Prop :=
  ∀ start items stop, m.run start = .ok (items, stop) → Fits [] start stop items

theorem makes_nothing : Makes (pure []) := by
  intro start items stop h
  obtain ⟨rfl, rfl⟩ := run_pure_eq_ok.mp h
  exact .nil

theorem makes_both {m m' : Reading (List Item)} (hm : Makes m) (hm' : Makes m') :
    Makes (do return (← m) ++ (← m')) := by
  intro start items stop h
  simp only [run_bind_eq_ok, run_pure_eq_ok] at h
  obtain ⟨is, mid, his, js, _, hjs, rfl, rfl⟩ := h
  exact (hm start is mid his).beside (hm' mid js _ hjs)

theorem makes_ite {c : Prop} [Decidable c] {m m' : Reading (List Item)} (hm : Makes m)
    (hm' : Makes m') : Makes (if c then m else m') := by
  split
  · exact hm
  · exact hm'

/-- One item without a body for each of some values, all marked at one place. -/
theorem fits_eachMarked {known : List String} {f : Mark → α → Item} {place : Cst} {xs : List α}
    (hleaf : ∀ mark x, (f mark x).mark? = some mark ∧ (f mark x).preorder = [f mark x] ∧
      (f mark x).isFileBody = false ∧ (f mark x).isNameable)
    (hf : ∀ x ∈ xs, ∀ mark lambdas,
      (∀ id ∈ known, id ∈ lambdas) → defect? lambdas (f mark x) = none) {items : List Item}
    {start stop : Nat}
    (h : (xs.mapM fun x => do return f (← freshMark place) x : Reading (List Item)).run start =
      .ok (items, stop)) : Fits known start stop items := by
  induction xs generalizing start items with
  | nil =>
    obtain ⟨rfl, rfl⟩ := run_pure_eq_ok.mp h
    exact .nil
  | cons x xs ih =>
    obtain ⟨hx, hxs⟩ := forall_mem_cons.mp hf
    simp only [mapM_cons, run_bind_eq_ok, run_pure_eq_ok, run_freshMark_eq_ok] at h
    obtain ⟨_, _, ⟨mark, _, ⟨rfl, rfl⟩, rfl, rfl⟩, rest, _, hrest, rfl, rfl⟩ := h
    obtain ⟨hmark, hpre, hflat⟩ := hleaf ⟨some (numbered (start + 1)), place.location⟩ x
    have hid := congrArg (Option.bind · Mark.id) hmark
    exact (Fits.leaf hid hpre hflat (hx _)).beside (ih hxs hrest)

end Xref.Cst

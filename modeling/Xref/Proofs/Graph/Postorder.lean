import Xref.Proofs.Graph.Reachability

/-!
# What a depth first walk lists

A depth first walk with room for all nodes leaves every node that it enters, once, and every
successor of a node before it, unless the successor leads back to the node. While the walk is under
way, a node that is entered and not left leads to the node that is visited next: this is what the
walk keeps on its way down. A walk with less room passes a node over only at the end of a chain as
long as the room.
-/

namespace Xref.Graph

open List

variable {α : Type u} {next : α → List α}

/-- A list in which every node stands after its successors, but for those that lead back to it. -/
inductive AfterSuccessors (next : α → List α) : List α → Prop
  | nil : AfterSuccessors next []
  | snoc {ns : List α} {n : α} (hns : AfterSuccessors next ns)
      (hn : ∀ m ∈ next n, m ∈ ns ∨ Reaches next m n) : AfterSuccessors next (ns ++ [n])

/-- Where no node leads back to itself, such a list is closed under successors. -/
theorem AfterSuccessors.mem_of_mem {ns : List α} (h : AfterSuccessors next ns)
    (hfree : ∀ n ∈ ns, ¬ Leads next n n) : ∀ n ∈ ns, ∀ m ∈ next n, m ∈ ns := by
  induction h with
  | nil => simp
  | @snoc ns n _ hn ih =>
    intro k hk m hm
    rcases mem_append.mp hk with hk' | hk'
    · exact mem_append_left _ (ih (fun j hj => hfree j (by simp [hj])) k hk' m hm)
    · obtain rfl := mem_singleton.mp hk'
      rcases hn m hm with hin | hback
      · exact mem_append_left _ hin
      · exact absurd (Relation.TransGen.head' hm hback) (hfree k (by simp))

namespace Walk

/-- What holds of a walk over some nodes at any moment. -/
structure Orderly (next : α → List α) (nodes : List α) (w : Walk α) : Prop where
  nodup : w.entered.Nodup
  inside : ∀ n ∈ w.entered, n ∈ nodes
  entered : ∀ n ∈ w.left, n ∈ w.entered
  left_nodup : w.left.Nodup
  left_after : AfterSuccessors next w.left

/-- A walk went on: what it entered since then it has left, and nothing that was entered before. -/
structure GoesOn (w w' : Walk α) : Prop where
  entered : ∀ n ∈ w.entered, n ∈ w'.entered
  left : ∀ n ∈ w.left, n ∈ w'.left
  settled : ∀ n ∈ w'.entered, n ∈ w'.left ∨ n ∈ w.entered
  kept : ∀ n ∈ w.entered, n ∈ w'.left → n ∈ w.left

namespace GoesOn

variable {w w₁ w₂ w₃ : Walk α}

theorem refl (w : Walk α) : w.GoesOn w :=
  ⟨fun _ h => h, fun _ h => h, fun _ h => .inr h, fun _ _ h => h⟩

theorem trans (h : w₁.GoesOn w₂) (h' : w₂.GoesOn w₃) : w₁.GoesOn w₃ where
  entered n hn := h'.entered n (h.entered n hn)
  left n hn := h'.left n (h.left n hn)
  settled n hn := by
    rcases h'.settled n hn with hl | he
    · exact .inl hl
    · exact (h.settled n he).imp_left (h'.left n)
  kept n hn hl := h.kept n hn (h'.kept n (h.entered n hn) hl)

end GoesOn

namespace Orderly

variable {nodes : List α} {w w' : Walk α}

theorem length_le (h : w.Orderly next nodes) : w.entered.length ≤ nodes.length :=
  (h.nodup.subperm h.inside).length_le

theorem length_mono (h : w.Orderly next nodes) (hg : w.GoesOn w') :
    w.entered.length ≤ w'.entered.length :=
  (h.nodup.subperm hg.entered).length_le

theorem start (next : α → List α) (nodes : List α) : (Walk.start : Walk α).Orderly next nodes where
  nodup := nodup_nil
  inside _ h := by cases h
  entered _ h := by cases h
  left_nodup := nodup_nil
  left_after := .nil

theorem enter (h : w.Orderly next nodes) {n : α} (hn : n ∈ nodes) (hnew : n ∉ w.entered) :
    Orderly next nodes { w with entered := n :: w.entered } where
  nodup := nodup_cons.mpr ⟨hnew, h.nodup⟩
  inside m hm := by
    rcases mem_cons.mp hm with rfl | hm
    · exact hn
    · exact h.inside m hm
  entered m hm := mem_cons_of_mem n (h.entered m hm)
  left_nodup := h.left_nodup
  left_after := h.left_after

theorem leave (h : w.Orderly next nodes) {n : α} (hn : n ∈ w.entered) (hnew : n ∉ w.left)
    (hnext : ∀ m ∈ next n, m ∈ w.left ∨ Reaches next m n) :
    Orderly next nodes { w with left := w.left ++ [n] } where
  nodup := h.nodup
  inside := h.inside
  entered m hm := by
    rcases mem_append.mp hm with hm | hm
    · exact h.entered m hm
    · exact mem_singleton.mp hm ▸ hn
  left_nodup := by
    refine h.left_nodup.append (nodup_singleton n) fun m hm hm' => ?_
    exact hnew (mem_singleton.mp hm' ▸ hm)
  left_after := h.left_after.snoc hnext

end Orderly

variable [DecidableEq α] {nodes : List α}

/-- What visiting nodes does, if the room covers the nodes not yet entered. The nodes on the way,
which are entered and not left, lead to the node that is visited. -/
def VisitsWell (next : α → List α) (nodes : List α) (bound : Nat) : Prop :=
  ∀ (w : Walk α) (n : α), w.Orderly next nodes → n ∈ nodes →
    nodes.length ≤ bound + w.entered.length →
    (∀ m ∈ w.entered, m ∈ w.left ∨ Reaches next m n) →
    (w.visit next bound n).Orderly next nodes ∧ w.GoesOn (w.visit next bound n) ∧
      n ∈ (w.visit next bound n).entered

theorem VisitsWell.foldl {bound : Nat} (hv : VisitsWell next nodes bound) {ns : List α} {w : Walk α}
    (h : w.Orderly next nodes) (hns : ∀ n ∈ ns, n ∈ nodes)
    (hroom : nodes.length ≤ bound + w.entered.length)
    (hback : ∀ m ∈ w.entered, m ∈ w.left ∨ ∀ n ∈ ns, Reaches next m n) :
    (ns.foldl (Walk.visit next bound) w).Orderly next nodes ∧
      w.GoesOn (ns.foldl (Walk.visit next bound) w) ∧
      ∀ n ∈ ns, n ∈ (ns.foldl (Walk.visit next bound) w).entered := by
  induction ns generalizing w with
  | nil => exact ⟨h, .refl w, by simp⟩
  | cons n ns ih =>
    rw [foldl_cons]
    obtain ⟨h₁, hg₁, hn₁⟩ := hv w n h (hns n (by simp)) hroom
      fun m hm => (hback m hm).imp_right fun hr => hr n (by simp)
    have hlen := h.length_mono hg₁
    obtain ⟨h₂, hg₂, hn₂⟩ := ih h₁ (fun m hm => hns m (by simp [hm])) (by omega) fun m hm => by
      rcases hg₁.settled m hm with hl | he
      · exact .inl hl
      · rcases hback m he with hl | hr
        · exact .inl (hg₁.left m hl)
        · exact .inr fun n' hn' => hr n' (by simp [hn'])
    refine ⟨h₂, hg₁.trans hg₂, fun m hm => ?_⟩
    rcases mem_cons.mp hm with rfl | hm
    · exact hg₂.entered m hn₁
    · exact hn₂ m hm

theorem visitsWell (hnext : ∀ n ∈ nodes, ∀ m ∈ next n, m ∈ nodes) (bound : Nat) :
    VisitsWell next nodes bound := by
  induction bound with
  | zero =>
    intro w n h hn hroom _
    -- without room all nodes have been entered
    have hin : n ∈ w.entered := by
      by_contra hnew
      have := (h.enter hn hnew).length_le
      simp only [length_cons] at this
      omega
    have hsame : w.visit next 0 n = w := by simp [Walk.visit, hin]
    rw [hsame]
    exact ⟨h, .refl w, hin⟩
  | succ bound ih =>
    intro w n h hn hroom hback
    by_cases hin : n ∈ w.entered
    · have hsame : w.visit next (bound + 1) n = w := by simp [Walk.visit, hin]
      rw [hsame]
      exact ⟨h, .refl w, hin⟩
    · have hvisit : w.visit next (bound + 1) n =
          let w' := (next n).foldl (Walk.visit next bound) { w with entered := n :: w.entered }
          { w' with left := w'.left ++ [n] } := by simp [Walk.visit, hin]
      rw [hvisit]
      have hunleft : n ∉ w.left := fun hl => hin (h.entered n hl)
      obtain ⟨h₁, hg₁, hn₁⟩ := ih.foldl (h.enter hn hin) (hnext n hn)
        (by simp only [length_cons]; omega) fun m hm => by
          rcases mem_cons.mp hm with rfl | hm
          · exact .inr fun m' hm' => .single hm'
          · exact (hback m hm).imp_right fun hr m' hm' => hr.tail hm'
      generalize (next n).foldl (Walk.visit next bound) { w with entered := n :: w.entered } = w₁
        at h₁ hg₁ hn₁
      have hself : n ∈ w₁.entered := hg₁.entered n (by simp)
      have hlast : n ∉ w₁.left := fun hl => hunleft (hg₁.kept n (by simp) hl)
      refine ⟨h₁.leave hself hlast fun m hm => ?_, ⟨?_, ?_, ?_, ?_⟩, hself⟩
      · -- a successor was left on the way, or is one of the nodes that lead here
        rcases hg₁.settled m (hn₁ m hm) with hl | he
        · exact .inl hl
        · rcases mem_cons.mp he with rfl | he
          · exact .inr .refl
          · exact (hback m he).imp_left (hg₁.left m)
      · intro m hm
        exact hg₁.entered m (by simp [hm])
      · intro m hm
        exact mem_append_left _ (hg₁.left m hm)
      · intro m hm
        rcases hg₁.settled m hm with hl | he
        · exact .inl (mem_append_left _ hl)
        · rcases mem_cons.mp he with rfl | he
          · exact .inl (by simp)
          · exact .inr he
      · intro m hm hl
        rcases mem_append.mp hl with hl | hl
        · exact hg₁.kept m (by simp [hm]) hl
        · exact absurd (mem_singleton.mp hl ▸ hm) hin

end Walk

section postorder

variable [DecidableEq α] {nodes roots : List α} {bound : Nat}

variable (hnext : ∀ n ∈ nodes, ∀ m ∈ next n, m ∈ nodes)
include hnext

/-- A walk from some roots ends orderly, with everything left that it entered. -/
theorem orderly_postorder (hroots : ∀ n ∈ roots, n ∈ nodes) (hbound : nodes.length ≤ bound) :
    ∃ w : Walk α, w.left = postorder next bound roots ∧ w.Orderly next nodes ∧
      (∀ n ∈ w.entered, n ∈ w.left) ∧ ∀ n ∈ roots, n ∈ w.entered := by
  obtain ⟨h, hg, hall⟩ := (Walk.visitsWell hnext bound).foldl (Walk.Orderly.start next nodes) hroots
    (by omega) (fun m hm => by cases hm)
  refine ⟨_, rfl, h, fun n hn => (hg.settled n hn).resolve_right ?_, hall⟩
  intro he
  cases he

/-- A walk from some roots lists them among the nodes, each node once and after its successors. -/
theorem postorder_spec (hroots : ∀ n ∈ roots, n ∈ nodes) (hbound : nodes.length ≤ bound) :
    (postorder next bound roots).Nodup ∧ (∀ n ∈ roots, n ∈ postorder next bound roots) ∧
      (∀ n ∈ postorder next bound roots, n ∈ nodes) ∧
      AfterSuccessors next (postorder next bound roots) := by
  obtain ⟨w, hw, h, hsettled, hall⟩ := orderly_postorder hnext hroots hbound
  rw [← hw]
  exact ⟨h.left_nodup, fun n hn => hsettled n (hall n hn),
    fun n hn => h.inside n (h.entered n hn), h.left_after⟩

end postorder

/-! ## Running out of room -/

variable [DecidableEq α] {bound : Nat} {w : Walk α}

theorem Walk.exists_of_isCut_foldl {P : α → Prop}
    (hv : ∀ (w : Walk α) n, (w.visit next bound n).isCut → w.isCut ∨ P n) {ns : List α}
    (h : (ns.foldl (Walk.visit next bound) w).isCut) : w.isCut ∨ ∃ n ∈ ns, P n := by
  induction ns generalizing w with
  | nil => exact .inl h
  | cons n ns ih =>
    rcases ih h with hn | ⟨m, hm, hp⟩
    · exact (hv w n hn).imp_right fun hp => ⟨n, by simp, hp⟩
    · exact .inr ⟨m, by simp [hm], hp⟩

/-- A visit passes a node over only at the end of a chain as long as its room. -/
theorem Walk.hasChain_of_isCut_visit (next : α → List α) (bound : Nat) (w : Walk α) (n : α)
    (h : (w.visit next bound n).isCut) : w.isCut ∨ HasChain next bound n := by
  induction bound generalizing w n with
  | zero => exact .inr (.zero next n)
  | succ bound ih =>
    by_cases hin : n ∈ w.entered
    · simp only [Walk.visit, contains_iff_mem, hin, if_true] at h
      exact .inl h
    · simp only [Walk.visit, contains_iff_mem, hin, if_false] at h
      rcases Walk.exists_of_isCut_foldl ih h with hw | ⟨m, hm, hchain⟩
      · exact .inl hw
      · exact .inr (hasChain_succ_iff.mpr ⟨m, hm, hchain⟩)

/-- A walk goes deeper than a bound only along a chain as long as the bound. -/
theorem exists_hasChain_of_exceeds {roots : List α} (h : exceeds next bound roots) :
    ∃ n ∈ roots, HasChain next bound n := by
  rcases Walk.exists_of_isCut_foldl (Walk.hasChain_of_isCut_visit next bound) h with hstart | hchain
  · cases hstart
  · exact hchain

/-! ## Going straight down -/

omit [DecidableEq α] in
theorem Walk.isCut_foldl {visit : Walk α → α → Walk α} (hv : ∀ w n, w.isCut → (visit w n).isCut)
    {ns : List α} (h : w.isCut) : (ns.foldl visit w).isCut := by
  induction ns generalizing w with
  | nil => exact h
  | cons n ns ih => exact ih (hv w n h)

theorem Walk.isCut_visit (next : α → List α) (bound : Nat) (w : Walk α) (n : α)
    (h : w.isCut) : (w.visit next bound n).isCut := by
  induction bound generalizing w n with
  | zero =>
    rw [Walk.visit]
    split
    · exact h
    · rfl
  | succ bound ih =>
    rw [Walk.visit]
    split
    · exact h
    · exact Walk.isCut_foldl ih h

/-- A walk that starts with a chain of first successors as long as its room is cut short. -/
theorem Walk.isCut_visit_of_chain {f : Nat → α} {length : Nat}
    (hnext : ∀ i < length, (next (f i)).head? = some (f (i + 1)))
    (hinj : ∀ i ≤ length, ∀ j ≤ length, f i = f j → i = j) {i : Nat} (hi : i + bound = length)
    (hnew : ∀ j ≤ length, i ≤ j → f j ∉ w.entered) : (w.visit next bound (f i)).isCut := by
  induction bound generalizing i w with
  | zero => simp [Walk.visit, hnew i (by omega) (Nat.le_refl i)]
  | succ bound ih =>
    obtain ⟨rest, hrest⟩ := List.head?_eq_some_iff.mp (hnext i (by omega))
    rw [Walk.visit, if_neg (by simpa using hnew i (by omega) (Nat.le_refl i)), hrest]
    rw [foldl_cons]
    refine Walk.isCut_foldl (Walk.isCut_visit next bound) (ih (by omega) ?_)
    intro j hj hij hin
    rcases mem_cons.mp hin with heq | hin
    · have := hinj j hj i (by omega) heq
      omega
    · exact hnew j hj (by omega) hin

theorem exceeds_of_chain {f : Nat → α} {roots : List α}
    (hnext : ∀ i < bound, (next (f i)).head? = some (f (i + 1)))
    (hinj : ∀ i ≤ bound, ∀ j ≤ bound, f i = f j → i = j) : exceeds next bound (f 0 :: roots) := by
  rw [exceeds, foldl_cons]
  refine Walk.isCut_foldl (Walk.isCut_visit next bound) ?_
  exact Walk.isCut_visit_of_chain hnext hinj (by omega) fun j _ _ hin => by cases hin

end Xref.Graph

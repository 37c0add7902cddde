import Mathlib.Data.List.Chain
import Mathlib.Data.List.Duplicate
import Mathlib.Data.List.Nodup
import Mathlib.Data.List.Perm.Subperm
import Mathlib.Logic.Relation
import Xref.Graph.Explore

/-!
# Reachable nodes

A walk over a graph whose nodes are at most as many as its bound lists exactly the nodes that can be
reached from where it starts, each once, and the start first. The invariant of the walk says of its
two lists together what the statement says of the result, and of the nodes handled already that
their successors are listed too. A chain with more steps than there are nodes comes back to one of
them.
-/

namespace Xref.Graph

open List

variable {α : Type u} [DecidableEq α]

/-- There is a path from one node to another, perhaps without a step. -/
def Reaches (next : α → List α) : α → α → Prop :=
  Relation.ReflTransGen fun a b => b ∈ next a

/-- There is a path from one node to another, of at least one step. -/
def Leads (next : α → List α) : α → α → Prop :=
  Relation.TransGen fun a b => b ∈ next a

theorem nodup_eraseDups (xs : List α) : xs.eraseDups.Nodup := by
  match xs with
  | [] => simp
  | a :: as =>
    rw [eraseDups_cons, nodup_cons]
    exact ⟨by simp, nodup_eraseDups _⟩
termination_by xs.length
decreasing_by
  have := length_filter_le (fun b => !b == a) as
  simp only [length_cons]
  omega

@[simp] theorem mem_fresh {known nodes : List α} {n : α} :
    n ∈ fresh known nodes ↔ n ∈ nodes ∧ n ∉ known := by
  simp [fresh]

theorem nodup_fresh (known nodes : List α) : (fresh known nodes).Nodup :=
  (nodup_eraseDups nodes).filter _

/-- What holds of a walk from some nodes: what it lists is distinct, is reached, contains the start,
and contains the successors of what was handled. -/
structure WalkInv (next : α → List α) (start done queue : List α) : Prop where
  nodup : (done ++ queue).Nodup
  reached : ∀ n ∈ done ++ queue, ∃ s ∈ start, Reaches next s n
  started : ∀ s ∈ start, s ∈ done ++ queue
  closed : ∀ n ∈ done, ∀ m ∈ next n, m ∈ done ++ queue

namespace WalkInv

variable {next : α → List α} {start done queue : List α}

omit [DecidableEq α] in
theorem init (h : start.Nodup) : WalkInv next start [] start := by
  refine ⟨by simpa using h, ?_, by simp, by simp⟩
  intro n hn
  exact ⟨n, by simpa using hn, .refl⟩

/-- Handling the next node keeps the invariant. -/
theorem step {n : α} (h : WalkInv next start done (n :: queue)) :
    WalkInv next start (done ++ [n]) (queue ++ fresh (done ++ n :: queue) (next n)) := by
  have hlist : (done ++ [n]) ++ (queue ++ fresh (done ++ n :: queue) (next n)) =
      (done ++ n :: queue) ++ fresh (done ++ n :: queue) (next n) := by simp
  refine ⟨?_, ?_, ?_, ?_⟩
  · rw [hlist]
    refine h.nodup.append (nodup_fresh _ _) ?_
    intro a ha hf
    exact (mem_fresh.mp hf).2 ha
  · intro m hm
    rw [hlist] at hm
    rcases mem_append.mp hm with hm | hm
    · exact h.reached m hm
    · obtain ⟨s, hs, hp⟩ := h.reached n (by simp)
      exact ⟨s, hs, hp.tail (mem_fresh.mp hm).1⟩
  · intro s hs
    rw [hlist]
    exact mem_append_left _ (h.started s hs)
  · intro a ha m hm
    rw [hlist]
    rcases mem_append.mp ha with ha | ha
    · exact mem_append_left _ (h.closed a ha m hm)
    · -- the node handled now: its successors are listed already or fresh
      rw [mem_singleton.mp ha] at hm
      by_cases hk : m ∈ done ++ n :: queue
      · exact mem_append_left _ hk
      · exact mem_append_right _ (mem_fresh.mpr ⟨hm, hk⟩)

/-- A walk with a bound that covers the nodes it has not handled ends with an empty queue. -/
theorem explore {nodes : List α} (hnext : ∀ n ∈ nodes, ∀ m ∈ next n, m ∈ nodes) :
    ∀ {bound : Nat} {done queue : List α}, WalkInv next start done queue →
      (∀ n ∈ done ++ queue, n ∈ nodes) → nodes.length ≤ bound + done.length →
      WalkInv next start (explore next bound done queue) [] := by
  intro bound
  induction bound with
  | zero =>
    intro done queue h hsub hlen
    have hle : (done ++ queue).length ≤ nodes.length := (h.nodup.subperm hsub).length_le
    have hnil : queue = [] := by
      rw [length_append] at hle
      exact eq_nil_of_length_eq_zero (by omega)
    subst hnil
    rw [Graph.explore, append_nil]
    exact h
  | succ bound ih =>
    intro done queue h hsub hlen
    cases queue with
    | nil => exact h
    | cons n queue =>
      rw [Graph.explore]
      refine ih h.step ?_ (by simp only [length_append, length_singleton]; omega)
      intro m hm
      by_cases hk : m ∈ done ++ n :: queue
      · exact hsub m hk
      · have hf : m ∈ fresh (done ++ n :: queue) (next n) := by
          simp only [mem_append, mem_cons] at hm hk ⊢
          tauto
        exact hnext n (hsub n (by simp)) m (mem_fresh.mp hf).1

end WalkInv

variable {next : α → List α}

theorem explore_prefix (next : α → List α) (bound : Nat) (done queue : List α) :
    done <+: explore next bound done queue := by
  induction bound generalizing done queue with
  | zero => exact prefix_append done queue
  | succ bound ih =>
    cases queue with
    | nil => exact prefix_refl done
    | cons n queue => exact (prefix_append done [n]).trans (ih _ _)

/-- A walk lists the node that it starts from first. -/
theorem head?_reachable (next : α → List α) (bound : Nat) (start : α) :
    (reachable next bound start).head? = some start := by
  cases bound with
  | zero => rfl
  | succ bound =>
    obtain ⟨rest, h⟩ := explore_prefix next bound [start] (fresh [start] (next start))
    simp only [reachable, explore, nil_append]
    rw [← h]
    rfl

variable {bound : Nat}

theorem walkInv_reachable {nodes : List α} {start : α}
    (hnext : ∀ n ∈ nodes, ∀ m ∈ next n, m ∈ nodes) (hstart : start ∈ nodes)
    (hbound : nodes.length ≤ bound) : WalkInv next [start] (reachable next bound start) [] := by
  refine WalkInv.explore hnext (.init (by simp)) ?_ (by simpa using hbound)
  intro n hn
  rw [nil_append, mem_singleton] at hn
  exact hn ▸ hstart

theorem nodup_reachable {nodes : List α} {start : α} (hnext : ∀ n ∈ nodes, ∀ m ∈ next n, m ∈ nodes)
    (hstart : start ∈ nodes) (hbound : nodes.length ≤ bound) :
    (reachable next bound start).Nodup := by
  simpa using (walkInv_reachable hnext hstart hbound).nodup

/-- A walk lists exactly what can be reached. -/
theorem mem_reachable {nodes : List α} {start n : α} (hnext : ∀ n ∈ nodes, ∀ m ∈ next n, m ∈ nodes)
    (hstart : start ∈ nodes) (hbound : nodes.length ≤ bound) :
    n ∈ reachable next bound start ↔ Reaches next start n := by
  have h := walkInv_reachable hnext hstart hbound
  constructor
  · intro hn
    obtain ⟨s, hs, hp⟩ := h.reached n (by simpa using hn)
    rw [mem_singleton] at hs
    exact hs ▸ hp
  · intro hp
    induction hp with
    | refl => simpa using h.started start (by simp)
    | tail _ hlast ih => simpa using h.closed _ ih _ hlast

/-! ## Chains of successors -/

variable {α : Type u} {next : α → List α} {a b d : α}

/-- There is a chain of so many steps from a node. -/
def HasChain (next : α → List α) (length : Nat) (n : α) : Prop :=
  ∃ ns : List α, ns.length = length ∧ (n :: ns).IsChain fun a b => b ∈ next a

theorem HasChain.zero (next : α → List α) (a : α) : HasChain next 0 a :=
  ⟨[], rfl, isChain_singleton a⟩

variable {length : Nat}

theorem hasChain_succ_iff :
    HasChain next (length + 1) a ↔ ∃ b ∈ next a, HasChain next length b := by
  constructor
  · rintro ⟨ns, hlen, hchain⟩
    cases ns with
    | nil => cases hlen
    | cons b ns =>
      obtain ⟨hb, hrest⟩ := isChain_cons_cons.mp hchain
      exact ⟨b, hb, ns, by simpa using hlen, hrest⟩
  · rintro ⟨b, hb, ns, hlen, hchain⟩
    exact ⟨b :: ns, by simp [hlen], isChain_cons_cons.mpr ⟨hb, hchain⟩⟩

theorem HasChain.mono {m n : Nat} (h : HasChain next n a) (hle : m ≤ n) : HasChain next m a := by
  induction m generalizing n a with
  | zero => exact .zero next a
  | succ m ih =>
    obtain ⟨n, rfl⟩ : ∃ k, n = k + 1 := ⟨n - 1, by omega⟩
    obtain ⟨b, hb, hchain⟩ := hasChain_succ_iff.mp h
    exact hasChain_succ_iff.mpr ⟨b, hb, ih hchain (by omega)⟩

/-- A node leads to a cycle. -/
def Loops (next : α → List α) (a : α) : Prop :=
  ∃ k, Reaches next a k ∧ Leads next k k

/-- From a node that leads to a cycle there are chains of every length. -/
theorem Loops.hasChain (h : Loops next a) (length : Nat) : HasChain next length a := by
  induction length generalizing a with
  | zero => exact .zero next a
  | succ length ih =>
    obtain ⟨k, hreach, hcycle⟩ := h
    -- the way to the cycle, or once around it, has a first step
    have hlead : Leads next a k := by
      rcases Relation.reflTransGen_iff_eq_or_transGen.mp hreach with rfl | hlead
      · exact hcycle
      · exact hlead
    obtain ⟨b, hb, hback⟩ := Relation.TransGen.head'_iff.mp hlead
    exact hasChain_succ_iff.mpr ⟨b, hb, ih ⟨k, hback, hcycle⟩⟩

/-- All nodes of a chain but the last have successors. -/
theorem mem_of_mem_dropLast {nodes ns : List α} (hnodes : ∀ a b, b ∈ next a → a ∈ nodes)
    (hchain : (a :: ns).IsChain fun a b => b ∈ next a) : ∀ x ∈ (a :: ns).dropLast, x ∈ nodes := by
  induction ns generalizing a with
  | nil => simp
  | cons b ns ih =>
    obtain ⟨hb, hrest⟩ := isChain_cons_cons.mp hchain
    intro x hx
    rcases mem_cons.mp hx with rfl | hx
    · exact hnodes x b hb
    · exact ih hrest x hx

/-- A chain with more steps than there are nodes with successors leads to a cycle. -/
theorem HasChain.loops {nodes : List α} (hnodes : ∀ a b, b ∈ next a → a ∈ nodes)
    (h : HasChain next length a) (hlen : nodes.length < length) : Loops next a := by
  obtain ⟨ns, rfl, hchain⟩ := h
  -- one of the nodes comes twice
  have htwice : ¬ (a :: ns).Nodup := by
    intro hnodup
    have hle := ((hnodup.sublist (dropLast_sublist _)).subperm
      (mem_of_mem_dropLast hnodes hchain)).length_le
    simp at hle
    omega
  obtain ⟨k, hk⟩ := exists_duplicate_iff_not_nodup.mpr htwice
  have hpairs : (a :: ns).Pairwise (Leads next) :=
    (hchain.imp fun _ _ hb => Relation.TransGen.single hb).pairwise
  have hcycle : Leads next k k := by simpa using hpairs.sublist (duplicate_iff_sublist.mp hk)
  refine ⟨k, ?_, hcycle⟩
  rcases mem_cons.mp hk.mem with rfl | hin
  · exact .refl
  · exact ((pairwise_cons.mp hpairs).1 k hin).to_reflTransGen

/-! ## At most one successor -/

theorem hasChain_succ_of_nil (h : next a = []) (length : Nat) : ¬ HasChain next (length + 1) a := by
  simp [hasChain_succ_iff, h]

theorem hasChain_succ_of_singleton (h : next a = [b]) :
    HasChain next (length + 1) a ↔ HasChain next length b := by
  simp [hasChain_succ_iff, h]

theorem reaches_iff_of_nil (h : next a = []) : Reaches next a d ↔ d = a := by
  constructor
  · intro hr
    rcases Relation.ReflTransGen.cases_head hr with heq | ⟨b, hb, _⟩
    · exact heq.symm
    · simp [h] at hb
  · rintro rfl
    exact .refl

theorem reaches_iff_of_singleton (h : next a = [b]) :
    Reaches next a d ↔ d = a ∨ Reaches next b d := by
  constructor
  · intro hr
    rcases Relation.ReflTransGen.cases_head hr with heq | ⟨b', hb, hr⟩
    · exact .inl heq.symm
    · rw [h, mem_singleton] at hb
      exact .inr (hb ▸ hr)
  · rintro (rfl | hr)
    · exact .refl
    · exact .head (by simp [h]) hr

end Xref.Graph

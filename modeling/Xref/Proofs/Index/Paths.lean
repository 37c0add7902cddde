import Xref.Proofs.Index.Edges

/-!
# Paths of calls

One definition calls another if a call site of the first has the second among its targets. Whether
calls lead from one definition to another, what they lead to, and what they never come to from some
roots is told by the closure of that relation, on any cycles and for ids without any call.
-/

namespace Xref

open List Xref.Graph OrderedMap CallGraph Xref.Small

/-! ## Walks over a call graph -/

namespace CallGraph

/-- The ends of the edges of a graph are among some nodes, as many as the graph has. -/
structure Spanned (g : CallGraph) (nodes : List DefId) : Prop where
  size_eq : nodes.length = g.nodes.size
  ends : ∀ e ∈ g.edges, e.source ∈ nodes ∧ e.target ∈ nodes

/-- The ends of the calls of some sites, in order of arrival. -/
def endsOf (sites : List Site) : List DefId :=
  (((sortOn Site.callerOrder sites).filter fun s => !s.targets.isEmpty).flatMap fun s =>
    s.caller :: s.targets).eraseDups

theorem keys_nodes_build (definitions : OrderedMap DefId Definition) (sites : List Site) :
    (build definitions sites).nodes.keys = endsOf sites := by
  have hfst : ((endsOf sites).map fun id => (id, definitions.get? id)).map Prod.fst =
    endsOf sites := by
    rw [map_map]
    exact map_id' _
  have hnodup : (endsOf sites).Nodup := nodup_eraseDups _
  rw [← hfst] at hnodup
  exact (keys_ofList_of_nodup hnodup).trans hfst

theorem spanned_build (definitions : OrderedMap DefId Definition) (sites : List Site) :
    (build definitions sites).Spanned (endsOf sites) := by
  constructor
  · rw [← keys_nodes_build definitions sites, OrderedMap.keys, length_map]
    rfl
  · intro e he
    obtain ⟨s, hs, he⟩ := mem_flatMap.mp he
    obtain ⟨t, ht, rfl⟩ := mem_edgesOf.mp he
    simp only [endsOf, mem_eraseDups, mem_flatMap]
    exact ⟨⟨s, hs, mem_cons_self⟩, ⟨s, hs, mem_cons_of_mem _ ht⟩⟩

theorem mem_next {g : CallGraph} {a b : DefId} :
    b ∈ g.next a ↔ ∃ e ∈ g.edges, e.source = a ∧ e.target = b := by
  simp [next, and_assoc]

/-- A walk from a node without successors comes to that node only. -/
theorem reachable_of_next_nil {next : DefId → List DefId} {a : DefId} (h : next a = [])
    (bound : Nat) : reachable next bound a = [a] := by
  have hdone : ∀ bound, explore next bound [a] [] = [a] := by
    intro bound
    cases bound with
    | zero | succ bound => rfl
  cases bound with
  | zero => rfl
  | succ bound =>
    rw [reachable, explore, h]
    exact hdone bound

namespace Spanned

variable {g : CallGraph} {nodes : List DefId} {a b : DefId}

variable (h : g.Spanned nodes)
include h

theorem next_closed (hb : b ∈ g.next a) : b ∈ nodes := by
  obtain ⟨e, he, _, rfl⟩ := mem_next.mp hb
  exact (h.ends e he).2

theorem next_eq_nil (ha : a ∉ nodes) : g.next a = [] := by
  rw [eq_nil_iff_forall_not_mem]
  intro b hb
  obtain ⟨e, he, rfl, _⟩ := mem_next.mp hb
  exact ha (h.ends e he).1

/-- A walk lists the id it starts from first and then, each once, the other ids that calls lead
to. -/
theorem walk (a : DefId) : (reachable g.next g.nodes.size a).Nodup ∧
      ∀ b, b ∈ reachable g.next g.nodes.size a ↔ Reaches g.next a b := by
  by_cases ha : a ∈ nodes
  · have hclosed : ∀ n ∈ nodes, ∀ m ∈ g.next n, m ∈ nodes := fun _ _ _ hm => h.next_closed hm
    exact ⟨nodup_reachable hclosed ha h.size_eq.le, fun b => mem_reachable hclosed ha h.size_eq.le⟩
  · -- an id outside of the graph calls nothing
    have hnil := h.next_eq_nil ha
    rw [reachable_of_next_nil hnil]
    refine ⟨nodup_singleton a, fun b => ?_⟩
    rw [mem_singleton]
    constructor
    · rintro rfl
      exact .refl
    · intro hab
      rcases Relation.ReflTransGen.cases_head hab with rfl | ⟨c, hc, _⟩
      · rfl
      · rw [hnil] at hc
        cases hc

theorem nodup_reachableFrom (a : DefId) : (g.reachableFrom a).Nodup :=
  (h.walk a).1.sublist (drop_sublist 1 _)

/-- The ids that calls lead to from one, without it itself. -/
theorem mem_reachableFrom : b ∈ g.reachableFrom a ↔ b ≠ a ∧ Leads g.next a b := by
  obtain ⟨hnodup, hmem⟩ := h.walk a
  have hhead := head?_reachable g.next g.nodes.size a
  have hmem := hmem b
  rw [reachableFrom]
  generalize reachable g.next g.nodes.size a = found at hnodup hmem hhead
  cases found with
  | nil => cases hhead
  | cons c found =>
    cases hhead
    rw [nodup_cons] at hnodup
    rw [mem_cons, Reaches, Relation.reflTransGen_iff_eq_or_transGen] at hmem
    constructor
    · intro hb
      have hne : b ≠ a := by
        rintro rfl
        exact hnodup.1 hb
      exact ⟨hne, (hmem.mp (.inr hb)).resolve_left hne⟩
    · rintro ⟨hne, hab⟩
      exact (hmem.mpr (.inr hab)).resolve_left hne

theorem hasPath_iff : g.hasPath a b ↔ a = b ∨ Leads g.next a b := by
  simp only [hasPath, Bool.or_eq_true, decide_eq_true_eq, contains_iff_mem, h.mem_reachableFrom]
  by_cases hab : a = b
  · simp [hab]
  · simp [hab, Ne.symm hab]

end Spanned

end CallGraph

namespace Index

/-! ## The relation of calling -/

/-- A call site of the first definition has the second among its targets. -/
def Calls (x : Index) (a b : DefId) : Prop :=
  ∃ s ∈ x.sites.values, s.caller = a ∧ b ∈ s.targets

namespace Linked

variable {x : Index}

theorem spanned (h : x.Linked) : x.graph.Spanned (endsOf x.sites.values) := by
  rw [h.graph_eq]
  exact spanned_build _ _

theorem mem_next_iff (h : x.Linked) {a b : DefId} : b ∈ x.graph.next a ↔ x.Calls a b := by
  simp only [mem_next, h.mem_edges]
  constructor
  · rintro ⟨e, ⟨s, hs, he⟩, rfl, rfl⟩
    obtain ⟨t, ht, rfl⟩ := mem_edgesOf.mp he
    exact ⟨s, hs, rfl, ht⟩
  · rintro ⟨s, hs, rfl, hb⟩
    exact ⟨_, ⟨s, hs, mem_edgesOf.mpr ⟨b, hb, rfl⟩⟩, rfl, rfl⟩

theorem leads_iff (h : x.Linked) {a b : DefId} :
    Leads x.graph.next a b ↔ Relation.TransGen x.Calls a b := by
  have hrel : (fun a b => b ∈ x.graph.next a) = x.Calls := by
    funext a b
    exact propext h.mem_next_iff
  rw [Leads, hrel]

end Linked

/-! ## What no root comes to -/

/-- The order of ids by qualified name and then by themselves. -/
def idOrder (x : Index) : DefId → DefId → Ordering :=
  compareLex (byText x.catalog.qualnameOf) textOrder

instance (x : Index) : Std.TransCmp x.idOrder :=
  inferInstanceAs (Std.TransCmp (compareLex (byText x.catalog.qualnameOf) textOrder))

instance : Std.TransCmp Definition.nameOrder :=
  inferInstanceAs (Std.TransCmp (compareLex (byText Definition.qualname) (byText Definition.id)))

/-- Every definition of an index stands under its id. -/
def KeyedDefinitions (x : Index) : Prop :=
  ∀ id d, x.catalog.definitions.get? id = some d → d.id = id

theorem Reached.keyedDefinitions {policy : Policy} {files : String → Option Outline} {m : Made}
    (h : Reached policy files m) : m.index.KeyedDefinitions := by
  obtain ⟨ds, hds⟩ := h.tracks.merged
  intro id d hd
  rw [hds] at hd
  exact (Catalog.exists_digest_of_get?_merge hd).1

namespace KeyedDefinitions

variable {x : Index}

/-- The order of definitions is that of their ids. -/
theorem idOrder_eq (h : x.KeyedDefinitions) {a b : Definition}
    (ha : a ∈ x.catalog.definitions.values) (hb : b ∈ x.catalog.definitions.values) :
    x.idOrder a.id b.id = Definition.nameOrder a b := by
  have hname : ∀ d ∈ x.catalog.definitions.values, x.catalog.qualnameOf d.id = d.qualname := by
    intro d hd
    rw [Catalog.qualnameOf, OrderedMap.get?_key_of_mem h hd]
    rfl
  simp only [idOrder, Definition.nameOrder, compareLex, byText, compareOn, textOrder, hname a ha,
    hname b hb, id]

/-- What no root comes to is listed strictly by qualified name and id. -/
theorem pairwise_unreachable (h : x.KeyedDefinitions) (roots : List DefId) :
    (x.unreachable roots).Pairwise fun a b => x.idOrder a b = .lt := by
  rw [unreachable, pairwise_map]
  have hnodup := (nodup_map_key_values h).of_map
  refine (pairwise_lt_sortOn (hnodup.filter _) ?_).imp_of_mem ?_
  · intro a ha b hb heq
    have hid : a.id = b.id := byText_eq_iff.mp (Ordering.then_eq_eq.mp heq).2
    exact eq_of_key_eq h (mem_filter.mp ha).1 (mem_filter.mp hb).1 hid
  · intro a b ha hb hlt
    rw [h.idOrder_eq (mem_filter.mp (mem_sortOn.mp ha)).1 (mem_filter.mp (mem_sortOn.mp hb)).1]
    exact hlt

end KeyedDefinitions

theorem mem_unreachable {x : Index} (hd : x.KeyedDefinitions) (hl : x.Linked) {roots : List DefId}
    {id : DefId} : id ∈ x.unreachable roots ↔
      ∃ d, x.catalog.definitions.get? id = some d ∧ d.kind.isCallable ∧ id ∉ roots ∧
        ∀ r ∈ roots, ¬ Relation.TransGen x.Calls r id := by
  have hreached : ∀ id, id ∈ (roots.flatMap fun r => r :: x.graph.reachableFrom r) ↔
      id ∈ roots ∨ ∃ r ∈ roots, Relation.TransGen x.Calls r id := by
    intro id
    simp only [mem_flatMap, mem_cons, hl.spanned.mem_reachableFrom, hl.leads_iff]
    constructor
    · rintro ⟨r, hr, rfl | ⟨_, hlead⟩⟩
      · exact .inl hr
      · exact .inr ⟨r, hr, hlead⟩
    · rintro (hr | ⟨r, hr, hlead⟩)
      · exact ⟨id, hr, .inl rfl⟩
      · by_cases hid : id = r
        · exact ⟨r, hr, .inl hid⟩
        · exact ⟨r, hr, .inr ⟨hid, hlead⟩⟩
  simp only [unreachable, mem_map, mem_sortOn, mem_filter, Bool.and_eq_true, Bool.not_eq_true',
    contains_eq_mem, decide_eq_false_iff_not, hreached, not_or, not_exists, not_and]
  constructor
  · rintro ⟨d, ⟨hmem, hcallable, hroots, hleads⟩, rfl⟩
    exact ⟨d, get?_key_of_mem hd hmem, hcallable, hroots, hleads⟩
  · rintro ⟨d, hget, hcallable, hroots, hleads⟩
    have hid := hd id d hget
    subst hid
    exact ⟨d, ⟨mem_values_of_get? hget, hcallable, hroots, hleads⟩, rfl⟩

/-- The questions about paths are answered by the closure of the relation of calling, whatever the
history of an index, its cycles, and the ids that are asked for. There is a path from an id to
itself and to all that calls lead to; what can be reached from an id are the others that calls lead
to; and what no root reaches are the callable definitions that are no roots and that calls lead to
from none, by qualified name and id. -/
theorem paths_are_closure {policy : Policy} {files : String → Option Outline} {m : Made}
    (h : Reached policy files m) :
    (∀ a b, m.index.graph.hasPath a b = true ↔ a = b ∨ Relation.TransGen m.index.Calls a b) ∧
    (∀ a, (m.index.graph.reachableFrom a).Nodup ∧
      ∀ b, b ∈ m.index.graph.reachableFrom a ↔ b ≠ a ∧ Relation.TransGen m.index.Calls a b) ∧
    ∀ roots, (m.index.unreachable roots).Pairwise (fun a b => m.index.idOrder a b = .lt) ∧
      (m.index.unreachable roots).Nodup ∧
      ∀ id, id ∈ m.index.unreachable roots ↔
        ∃ d, m.index.catalog.definitions.get? id = some d ∧ d.kind.isCallable = true ∧ id ∉ roots ∧
          ∀ r ∈ roots, ¬ Relation.TransGen m.index.Calls r id := by
  have hl := h.linked
  have hd := h.keyedDefinitions
  refine ⟨fun a b => ?_, fun a => ⟨hl.spanned.nodup_reachableFrom a, fun b => ?_⟩, fun roots => ?_⟩
  · rw [hl.spanned.hasPath_iff, hl.leads_iff]
  · rw [hl.spanned.mem_reachableFrom, hl.leads_iff]
  · have hsorted := hd.pairwise_unreachable roots
    refine ⟨hsorted, hsorted.imp ?_, fun id => mem_unreachable hd hl⟩
    rintro a _ hlt rfl
    have hself : m.index.idOrder a a = .eq := Std.ReflCmp.compare_self
    rw [hself] at hlt
    cases hlt

/-- Two functions that call each other, one that calls itself, and one that calls a missing name. -/
def cyclicFile : Outline :=
  file "m.py" "m"
    [functionItem "even" "even" false [callItem "odd-call" "odd"],
     functionItem "odd" "odd" false [callItem "even-call" "even"],
     functionItem "loop" "loop" false [callItem "loop-call" "loop"],
     functionItem "idle" "idle" false [callItem "missing-call" "missing"]]

/-- Calls lead from one function of a cycle to the other and back, and never out of it. -/
theorem paths_are_closure_on_cycle :
    ∃ m, build [cyclicFile] .standard none = .ok m ∧
      m.index.graph.reachableFrom "m.py::m.even" = ["m.py::m.odd"] ∧
      m.index.unreachable ["m.py::m.odd", "nowhere"] = ["m.py::m.idle", "m.py::m.loop"] ∧
      Relation.TransGen m.index.Calls "m.py::m.even" "m.py::m.odd" ∧
      ¬ Relation.TransGen m.index.Calls "m.py::m.even" "m.py::m.loop" := by
  have hbuilt : (build [cyclicFile] .standard none).toOption.any (fun m =>
      decide (m.index.graph.reachableFrom "m.py::m.even" = ["m.py::m.odd"]) &&
      m.index.unreachable ["m.py::m.odd", "nowhere"] = ["m.py::m.idle", "m.py::m.loop"]) := by
    decide +kernel
  obtain ⟨m, hm, hpaths⟩ := exists_of_any hbuilt
  obtain ⟨hreached, hleft⟩ := Bool.and_eq_true_iff.mp hpaths
  have hreached := of_decide_eq_true hreached
  have hclosure := ((paths_are_closure (.built hm)).2.1 "m.py::m.even").2
  rw [hreached] at hclosure
  refine ⟨m, hm, hreached, of_decide_eq_true hleft, ((hclosure "m.py::m.odd").mp (by simp)).2, ?_⟩
  intro hlead
  have hin := (hclosure "m.py::m.loop").mpr ⟨by decide, hlead⟩
  simp at hin

end Index

end Xref

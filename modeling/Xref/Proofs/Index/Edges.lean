import Mathlib.Algebra.BigOperators.Group.List.Lemmas
import Mathlib.Data.Finset.Card
import Xref.Proofs.Catalog.Apart
import Xref.Proofs.Index.History
import Xref.Proofs.Sorted

/-!
# The views of the call relation

The call sites of an index, its graph, its saved data and its counts tell of the same edges: one for
each call site and each of its targets. What a definition calls is listed site by site in the order
of the source, and what calls it by caller and place.
-/

namespace Xref

open CallGraph List OrderedMap Xref.Small

/-! ## Maps by a key of their values -/

namespace OrderedMap

variable {κ : Type u} {α : Type v} [DecidableEq κ] {m : OrderedMap κ α} {key : α → κ}

theorem get?_key_of_mem (h : ∀ k v, m.get? k = some v → key v = k) {v : α} (hv : v ∈ m.values) :
    m.get? (key v) = some v := by
  obtain ⟨⟨k, _⟩, he, rfl⟩ := mem_map.mp hv
  have hget := get?_eq_some_iff.mpr he
  rwa [h k _ hget]

theorem nodup_map_key_values (h : ∀ k v, m.get? k = some v → key v = k) :
    (m.values.map key).Nodup := by
  have hkeys : m.values.map key = m.keys := by
    rw [values, OrderedMap.keys, map_map]
    refine map_congr_left fun e he => ?_
    exact h e.1 e.2 (get?_eq_some_iff.mpr he)
  rw [hkeys]
  exact m.distinct

theorem eq_of_key_eq (h : ∀ k v, m.get? k = some v → key v = k) {v w : α} (hv : v ∈ m.values)
    (hw : w ∈ m.values) (hkey : key v = key w) : v = w := by
  have hget := get?_key_of_mem h hv
  rw [hkey, get?_key_of_mem h hw] at hget
  exact (Option.some.inj hget).symm

end OrderedMap

/-! ## Edges of some call sites -/

namespace CallGraph

variable {e : CallEdge} {sites : List Site}

theorem mem_edgesOf {s : Site} :
    e ∈ edgesOf s ↔ ∃ t ∈ s.targets, ⟨s.caller, t, s.id, s.dispatch, s.confidence,
      s.order⟩ = e := by
  simp [edgesOf]

theorem nodup_edgesOf (s : Site) : (edgesOf s).Nodup := by
  refine (Graph.nodup_eraseDups s.targets).map fun t t' h => ?_
  exact congrArg CallEdge.target h

theorem mem_edges_build {definitions : OrderedMap DefId Definition} :
    e ∈ (build definitions sites).edges ↔ ∃ s ∈ sites, e ∈ edgesOf s := by
  simp only [build, mem_flatMap, mem_filter, mem_sortOn]
  constructor
  · rintro ⟨s, ⟨hs, _⟩, he⟩
    exact ⟨s, hs, he⟩
  · rintro ⟨s, hs, he⟩
    -- a site with an edge has a target
    obtain ⟨t, ht, _⟩ := mem_edgesOf.mp he
    have hsome : (!s.targets.isEmpty) := by
      rw [Bool.not_eq_true', isEmpty_eq_false_iff]
      exact ne_nil_of_mem ht
    exact ⟨s, ⟨hs, hsome⟩, he⟩

/-- The edges of sites with different ids are different. -/
theorem nodup_flatMap_edgesOf (h : (sites.map Site.id).Nodup) : (sites.flatMap edgesOf).Nodup := by
  rw [nodup_flatMap]
  refine ⟨fun s _ => nodup_edgesOf s, (pairwise_map.mp h).imp ?_⟩
  intro s t hne e hs ht
  obtain ⟨_, _, rfl⟩ := mem_edgesOf.mp hs
  obtain ⟨_, _, he⟩ := mem_edgesOf.mp ht
  exact hne (congrArg CallEdge.site he).symm

theorem nodup_edges_build (definitions : OrderedMap DefId Definition)
    (h : (sites.map Site.id).Nodup) : (build definitions sites).edges.Nodup := by
  refine nodup_flatMap_edgesOf ?_
  have hsorted : ((sortOn Site.callerOrder sites).map Site.id).Nodup :=
    ((sortOn_perm Site.callerOrder sites).map Site.id).nodup_iff.mpr h
  exact hsorted.sublist (filter_sublist.map Site.id)

theorem mem_edgesFrom {g : CallGraph} {source : DefId} :
    e ∈ g.edgesFrom source ↔ e ∈ g.edges ∧ e.source = source := by
  simp only [edgesFrom, mem_flatMap, mem_eraseDups, mem_map, mem_filter, decide_eq_true_eq]
  constructor
  · rintro ⟨_, _, he, _⟩
    exact he
  · intro he
    exact ⟨e.target, ⟨e, he, rfl⟩, he, rfl⟩

theorem nodup_edgesFrom {g : CallGraph} (h : g.edges.Nodup) (source : DefId) :
    (g.edgesFrom source).Nodup := by
  rw [edgesFrom, nodup_flatMap]
  refine ⟨fun t _ => (h.filter _).filter _, (Graph.nodup_eraseDups _).imp ?_⟩
  intro t t' hne e he he'
  have ht : e.target = t := by simpa using (mem_filter.mp he).2
  have ht' : e.target = t' := by simpa using (mem_filter.mp he').2
  exact hne (ht.symm.trans ht')

end CallGraph

/-! ## Places among targets -/

theorem idxOf_filter_lt [DecidableEq α] {p : α → Bool} {xs : List α} {a b : α} (ha : p a)
    (hb : p b) (h : (xs.filter p).idxOf a < (xs.filter p).idxOf b) : xs.idxOf a < xs.idxOf b := by
  induction xs with
  | nil => simp at h
  | cons x xs ih =>
    by_cases hx : p x
    · rw [filter_cons_of_pos hx] at h
      by_cases hax : x = a
      · subst hax
        by_cases hbx : x = b
        · simp [hbx] at h
        · simp [idxOf_cons_ne xs hbx]
      · by_cases hbx : x = b
        · simp [hbx] at h
        · rw [idxOf_cons_ne _ hax, idxOf_cons_ne _ hbx] at h ⊢
          have := ih (by omega)
          omega
    · rw [filter_cons_of_neg hx] at h
      have hax : x ≠ a := fun e => hx (e ▸ ha)
      have hbx : x ≠ b := fun e => hx (e ▸ hb)
      rw [idxOf_cons_ne _ hax, idxOf_cons_ne _ hbx]
      have := ih h
      omega

/-- Without repeats, elements stand in the order of their first places. -/
theorem pairwise_idxOf_eraseDups [DecidableEq α] (xs : List α) :
    xs.eraseDups.Pairwise fun a b => xs.idxOf a < xs.idxOf b := by
  cases xs with
  | nil => simp
  | cons x xs =>
    rw [eraseDups_cons, pairwise_cons]
    constructor
    · intro b hb
      have hne : x ≠ b := by
        rintro rfl
        simp at hb
      rw [idxOf_cons_self, idxOf_cons_ne _ hne]
      omega
    · refine (pairwise_idxOf_eraseDups (xs.filter fun b => !b == x)).imp_of_mem ?_
      intro a b ha hb hlt
      have hpa := (mem_filter.mp (mem_eraseDups.mp ha)).2
      have hpb := (mem_filter.mp (mem_eraseDups.mp hb)).2
      have hxs : xs.idxOf a < xs.idxOf b := idxOf_filter_lt hpa hpb hlt
      have hax : x ≠ a := by
        rintro rfl
        simp at hpa
      have hbx : x ≠ b := by
        rintro rfl
        simp at hpb
      rw [idxOf_cons_ne _ hax, idxOf_cons_ne _ hbx]
      omega
termination_by xs.length
decreasing_by
  have := length_filter_le (fun b => !b == x) xs
  simp only [length_cons]
  omega

namespace Site

/-- By place, program order and id. -/
def placeOrder : Site → Site → Ordering :=
  compareLex (compareOn (·.location)) (compareLex (compareOn (·.order)) (byText (·.id)))

instance : Std.TransCmp placeOrder :=
  inferInstanceAs (Std.TransCmp (compareLex (compareOn Site.location)
    (compareLex (compareOn Site.order) (byText Site.id))))

instance : Std.TransCmp callerOrder :=
  inferInstanceAs (Std.TransCmp (compareLex (byText Site.caller) placeOrder))

variable {s t : Site}

theorem callerOrder_of_caller_eq (h : s.caller = t.caller) : callerOrder s t = placeOrder s t := by
  show (byText Site.caller s t).then (placeOrder s t) = _
  rw [byText_eq_iff.mpr h]
  rfl

theorem id_eq_of_placeOrder (h : placeOrder s t = .eq) : s.id = t.id := by
  have h := (Ordering.then_eq_eq.mp (Ordering.then_eq_eq.mp h).2).2
  exact byText_eq_iff.mp h

theorem id_eq_of_callerOrder (h : callerOrder s t = .eq) : s.id = t.id :=
  id_eq_of_placeOrder (Ordering.then_eq_eq.mp h).2

end Site

namespace Index

/-! ## Linked indexes -/

/-- The graph of an index is that of its call sites, and each of these stands under its id. -/
structure Linked (x : Index) : Prop where
  keyed : x.KeyedSites
  graph_eq : x.graph = CallGraph.build x.catalog.definitions x.sites.values

theorem graph_eq_of_assemble {digests : List Digest} {policy : Policy} {generation : Nat}
    {token : Token} {reuse : Hierarchy → Reuse} {m : Made}
    (h : assemble digests policy generation token reuse = .ok m) :
    m.index.graph = CallGraph.build m.index.catalog.definitions m.index.sites.values := by
  obtain ⟨_, _, _, _, rfl⟩ := exists_of_assemble h
  rfl

/-- Whatever its history, an index is linked. -/
theorem Reached.linked {policy : Policy} {files : String → Option Outline} {m : Made}
    (h : Reached policy files m) : m.index.Linked := by
  refine ⟨h.tracks.keyed, ?_⟩
  cases h with
  | built h =>
    unfold build at h
    dsimp only at h
    split at h
    · cases h
    · obtain ⟨⟨_, _⟩, _, h⟩ := bind_eq_ok h
      exact graph_eq_of_assemble h
  | changed _ ha =>
    obtain ⟨_, _, _, ha⟩ := exists_assemble_of_apply ha
    exact graph_eq_of_assemble ha

namespace Linked

variable {x : Index}

variable (h : x.Linked)
include h

theorem get?_site {s : Site} (hs : s ∈ x.sites.values) : x.sites.get? s.id = some s :=
  get?_key_of_mem h.keyed hs

theorem nodup_ids : (x.sites.values.map Site.id).Nodup :=
  nodup_map_key_values h.keyed

theorem nodup_sites : x.sites.values.Nodup :=
  h.nodup_ids.of_map

theorem eq_of_id_eq {s t : Site} (hs : s ∈ x.sites.values) (ht : t ∈ x.sites.values)
    (hid : s.id = t.id) : s = t :=
  eq_of_key_eq h.keyed hs ht hid

theorem mem_edges {e : CallEdge} :
    e ∈ x.graph.edges ↔ ∃ s ∈ x.sites.values, e ∈ CallGraph.edgesOf s := by
  rw [h.graph_eq]
  exact mem_edges_build

theorem nodup_edges : x.graph.edges.Nodup := by
  rw [h.graph_eq]
  exact nodup_edges_build _ h.nodup_ids

end Linked

/-! ## Calls by and of a definition -/

def callsBy (x : Index) (d : DefId) : List Site :=
  sortOn Site.placeOrder (x.sites.values.filter fun s => s.caller = d)

/-- The call sites with a target, by caller and place. -/
def callsTo (x : Index) (d : DefId) : List Site :=
  sortOn Site.callerOrder (x.sites.values.filter fun s => s.targets.contains d)

/-- The order of the edges of one caller, told by the edges and the places of their sites. -/
def edgePlaceOrder (x : Index) : CallEdge → CallEdge → Ordering :=
  compareLex (compareOn fun e => ((x.sites.get? e.site).map (·.location)).getD .unknown)
    (compareLex (compareOn (·.order))
      (compareLex (byText (·.site))
        (compareOn fun e => ((x.sites.get? e.site).map fun s => s.targets.idxOf e.target).getD 0)))

instance (x : Index) : Std.TransCmp x.edgePlaceOrder := by
  unfold edgePlaceOrder
  infer_instance

namespace Linked

variable {x : Index} {s : Site}

/-- The order of two edges is that of their sites, and of the places of the targets. -/
theorem edgePlaceOrder_eq (h : x.Linked) {t : Site} (hs : s ∈ x.sites.values)
    (ht : t ∈ x.sites.values) {a b : CallEdge} (ha : a ∈ CallGraph.edgesOf s)
    (hb : b ∈ CallGraph.edgesOf t) :
    x.edgePlaceOrder a b =
      (Site.placeOrder s t).then
        (compare (s.targets.idxOf a.target) (t.targets.idxOf b.target)) := by
  obtain ⟨_, _, rfl⟩ := mem_edgesOf.mp ha
  obtain ⟨_, _, rfl⟩ := mem_edgesOf.mp hb
  simp only [edgePlaceOrder, Site.placeOrder, compareLex, compareOn, h.get?_site hs, h.get?_site ht,
    Option.map_some, Option.getD_some, byText, Ordering.then_assoc]

theorem edgeOrder_eq (h : x.Linked) {t : Site} (hs : s ∈ x.sites.values) (ht : t ∈ x.sites.values)
    (hcaller : s.caller = t.caller) {a b : CallEdge} (ha : a ∈ CallGraph.edgesOf s)
    (hb : b ∈ CallGraph.edgesOf t) : x.edgeOrder a b = x.edgePlaceOrder a b := by
  rw [h.edgePlaceOrder_eq hs ht ha hb, ← Site.callerOrder_of_caller_eq hcaller]
  obtain ⟨_, _, rfl⟩ := mem_edgesOf.mp ha
  obtain ⟨_, _, rfl⟩ := mem_edgesOf.mp hb
  simp only [edgeOrder, compareLex, compareOn, h.get?_site hs, h.get?_site ht, Option.map_some,
    Option.getD_some]

theorem mem_callsBy {d : DefId} : s ∈ x.callsBy d ↔ s ∈ x.sites.values ∧ s.caller = d := by
  simp [callsBy]

theorem pairwise_callsBy (h : x.Linked) (d : DefId) :
    (x.callsBy d).Pairwise fun s t => Site.placeOrder s t = .lt := by
  refine pairwise_lt_sortOn (h.nodup_sites.filter _) ?_
  intro s hs t ht heq
  exact h.eq_of_id_eq (mem_filter.mp hs).1 (mem_filter.mp ht).1 (Site.id_eq_of_placeOrder heq)

/-- The edges of one caller, site by site, are in ascending order. -/
theorem pairwise_edgesBy (h : x.Linked) (d : DefId) :
    ((x.callsBy d).flatMap CallGraph.edgesOf).Pairwise fun a b => x.edgePlaceOrder a b = .lt := by
  rw [pairwise_flatMap]
  constructor
  · intro s hs
    have hin := (mem_callsBy.mp hs).1
    -- within a site the place of the target decides
    refine (pairwise_map.mpr ((pairwise_idxOf_eraseDups s.targets).imp_of_mem ?_))
    intro t t' ht ht' hlt
    have hself : Site.placeOrder s s = .eq := Std.ReflCmp.compare_self
    rw [h.edgePlaceOrder_eq hin hin (mem_map_of_mem ht) (mem_map_of_mem ht'), hself]
    exact Nat.compare_eq_lt.mpr hlt
  · refine (h.pairwise_callsBy d).imp_of_mem ?_
    intro s t hs ht hlt a ha b hb
    rw [h.edgePlaceOrder_eq (mem_callsBy.mp hs).1 (mem_callsBy.mp ht).1 ha hb, hlt]
    rfl

/-- What a definition calls: the targets of its sites, site by site. -/
theorem calleesOf_eq (h : x.Linked) (d : DefId) :
    x.calleesOf d = (x.callsBy d).flatMap CallGraph.edgesOf := by
  have hmem : ∀ e, e ∈ x.graph.edgesFrom d ↔ e ∈ (x.callsBy d).flatMap CallGraph.edgesOf := by
    intro e
    simp only [mem_edgesFrom, h.mem_edges, mem_flatMap, mem_callsBy]
    constructor
    · rintro ⟨⟨s, hs, he⟩, rfl⟩
      obtain ⟨_, _, rfl⟩ := mem_edgesOf.mp he
      exact ⟨s, ⟨hs, rfl⟩, he⟩
    · rintro ⟨s, ⟨hs, rfl⟩, he⟩
      refine ⟨⟨s, hs, he⟩, ?_⟩
      obtain ⟨_, _, rfl⟩ := mem_edgesOf.mp he
      rfl
  have hnodup : ((x.callsBy d).flatMap CallGraph.edgesOf).Nodup := by
    refine nodup_flatMap_edgesOf ?_
    refine ((sortOn_perm Site.placeOrder _).map Site.id).nodup_iff.mpr ?_
    exact h.nodup_ids.sublist (filter_sublist.map Site.id)
  have hperm : (x.graph.edgesFrom d).Perm ((x.callsBy d).flatMap CallGraph.edgesOf) :=
    (perm_ext_iff_of_nodup (nodup_edgesFrom h.nodup_edges d) hnodup).mpr hmem
  have horder : ∀ a ∈ x.graph.edgesFrom d, ∀ b ∈ x.graph.edgesFrom d,
      x.edgeOrder a b = x.edgePlaceOrder a b := by
    intro a ha b hb
    obtain ⟨s, hs, ha⟩ := mem_flatMap.mp ((hmem a).mp ha)
    obtain ⟨t, ht, hb⟩ := mem_flatMap.mp ((hmem b).mp hb)
    obtain ⟨hs, hcaller⟩ := mem_callsBy.mp hs
    obtain ⟨ht, hcaller'⟩ := mem_callsBy.mp ht
    exact h.edgeOrder_eq hs ht (hcaller.trans hcaller'.symm) ha hb
  rw [calleesOf, sortOn_congr horder]
  exact sortOn_eq_of_perm hperm (h.pairwise_edgesBy d)

theorem mem_callsTo {d : DefId} : s ∈ x.callsTo d ↔ s ∈ x.sites.values ∧ d ∈ s.targets := by
  simp [callsTo]

theorem pairwise_callsTo (h : x.Linked) (d : DefId) :
    (x.callsTo d).Pairwise fun s t => Site.callerOrder s t = .lt := by
  refine pairwise_lt_sortOn (h.nodup_sites.filter _) ?_
  intro s hs t ht heq
  exact h.eq_of_id_eq (mem_filter.mp hs).1 (mem_filter.mp ht).1 (Site.id_eq_of_callerOrder heq)

/-- What calls a definition: the sites with it among their targets. -/
theorem callersOf_eq (h : x.Linked) (d : DefId) : x.callersOf d = x.callsTo d := by
  have hmem : ∀ s,
    s ∈ (((x.graph.edges.filter fun e => e.target = d).map (·.site)).eraseDups).filterMap
      x.sites.get? ↔ s ∈ x.callsTo d := by
    intro s
    simp only [mem_filterMap, mem_eraseDups, mem_map, mem_filter, h.mem_edges,
      decide_eq_true_eq, mem_callsTo]
    constructor
    · rintro ⟨_, ⟨e, ⟨⟨t, ht, he⟩, rfl⟩, rfl⟩, hget⟩
      obtain ⟨target, htarget, rfl⟩ := mem_edgesOf.mp he
      rw [h.get?_site ht] at hget
      cases hget
      exact ⟨ht, htarget⟩
    · rintro ⟨hs, htarget⟩
      have he := mem_edgesOf.mpr ⟨d, htarget, rfl⟩
      exact ⟨s.id, ⟨_, ⟨⟨s, hs, he⟩, rfl⟩, rfl⟩, h.get?_site hs⟩
  have hnodup : ((((x.graph.edges.filter fun e => e.target = d).map (·.site)).eraseDups).filterMap
      x.sites.get?).Nodup := by
    refine (Graph.nodup_eraseDups _).filterMap fun id id' s hs hs' => ?_
    exact (h.keyed id s hs).symm.trans (h.keyed id' s hs')
  have hto : (x.callsTo d).Nodup :=
    (sortOn_perm Site.callerOrder _).nodup_iff.mpr (h.nodup_sites.filter _)
  exact sortOn_eq_of_perm ((perm_ext_iff_of_nodup hnodup hto).mpr hmem) (h.pairwise_callsTo d)

end Linked

/-! ## Saved edges and counts -/

/-- The call sites, each with one of its targets. -/
def callPairs (x : Index) : List (SiteId × DefId) :=
  x.sites.values.flatMap fun s => s.targets.map fun t => (s.id, t)

def savedEdges (x : Index) : List Json :=
  x.sitesByCaller.flatMap fun s => s.targets.map (edgeRecord s)

def savedEdge (e : CallEdge) : Json :=
  .obj
    [("source", .str e.source), ("target", .str e.target), ("site", .str e.site),
     ("dispatch", .str e.dispatch.word)]

theorem mem_savedEdges {x : Index} {j : Json} :
    j ∈ x.savedEdges ↔ ∃ s ∈ x.sites.values, ∃ t ∈ s.targets, j = edgeRecord s t := by
  simp only [savedEdges, sitesByCaller, mem_flatMap, mem_map, mem_sortOn, eq_comm]

/-- The counts of the words of a list add up to its length. -/
theorem foldr_count_sortedSet (words : List String) :
    ((sortedSet words).map fun w => (w, words.count w)).foldr (fun c n =>
      c.2 + n) 0 = words.length := by
  have hsum : ∀ ws : List String,
      (ws.map fun w => (w, words.count w)).foldr (fun c n =>
        c.2 + n) 0 = (ws.map words.count).sum := by
    intro ws
    induction ws with
    | nil => rfl
    | cons w ws ih =>
      rw [map_cons, foldr_cons, ih, map_cons, sum_cons]
  have hperm : (sortedSet words).Perm words.dedup := by
    refine (sortOn_perm textOrder _).trans ?_
    refine (perm_ext_iff_of_nodup (Graph.nodup_eraseDups words) words.nodup_dedup).mpr fun w => ?_
    rw [mem_eraseDups, mem_dedup]
  rw [hsum, (hperm.map words.count).sum_eq, sum_map_count_dedup_eq_length]

namespace Linked

variable {x : Index}

/-- There are as many edges as distinct pairs of a call site and a target. -/
theorem length_edges (h : x.Linked) : x.graph.edges.length = x.callPairs.toFinset.card := by
  have hinj : ∀ a ∈ x.graph.edges, ∀ b ∈ x.graph.edges, (a.site, a.target) = (b.site, b.target) →
    a = b := by
    intro a ha b hb hab
    obtain ⟨s, hs, ha⟩ := h.mem_edges.mp ha
    obtain ⟨t, ht, hb⟩ := h.mem_edges.mp hb
    obtain ⟨_, _, rfl⟩ := mem_edgesOf.mp ha
    obtain ⟨_, _, rfl⟩ := mem_edgesOf.mp hb
    obtain ⟨hid, rfl⟩ := Prod.mk.inj hab
    cases h.eq_of_id_eq hs ht hid
    rfl
  have hnodup : (x.graph.edges.map fun e => (e.site, e.target)).Nodup :=
    (nodup_map_iff_inj_on h.nodup_edges).mpr hinj
  have hpairs :
    (x.graph.edges.map fun e => (e.site, e.target)).toFinset = x.callPairs.toFinset := by
    ext ⟨id, target⟩
    simp only [mem_toFinset, callPairs, mem_map, mem_flatMap, h.mem_edges]
    constructor
    · rintro ⟨e, ⟨s, hs, he⟩, hpair⟩
      obtain ⟨t, ht, rfl⟩ := mem_edgesOf.mp he
      exact ⟨s, hs, t, ht, hpair⟩
    · rintro ⟨s, hs, t, ht, hpair⟩
      exact ⟨_, ⟨s, hs, mem_edgesOf.mpr ⟨t, ht, rfl⟩⟩, hpair⟩
  rw [← hpairs, toFinset_card_of_nodup hnodup, length_map]

theorem mem_savedEdges_iff_callees (h : x.Linked) {j : Json} :
    j ∈ x.savedEdges ↔ ∃ d, ∃ e ∈ x.calleesOf d, j = savedEdge e := by
  rw [mem_savedEdges]
  constructor
  · rintro ⟨s, hs, t, ht, rfl⟩
    refine ⟨s.caller, ⟨s.caller, t, s.id, s.dispatch, s.confidence, s.order⟩, ?_, rfl⟩
    rw [h.calleesOf_eq]
    exact mem_flatMap.mpr ⟨s, mem_callsBy.mpr ⟨hs, rfl⟩, mem_edgesOf.mpr ⟨t, ht, rfl⟩⟩
  · rintro ⟨d, e, he, rfl⟩
    rw [h.calleesOf_eq] at he
    obtain ⟨s, hs, he⟩ := mem_flatMap.mp he
    obtain ⟨t, ht, rfl⟩ := mem_edgesOf.mp he
    exact ⟨s, (mem_callsBy.mp hs).1, t, ht, rfl⟩

theorem mem_savedEdges_iff_callers (h : x.Linked) {j : Json} :
    j ∈ x.savedEdges ↔ ∃ d, ∃ s ∈ x.callersOf d, j = edgeRecord s d := by
  simp only [mem_savedEdges, h.callersOf_eq, mem_callsTo]
  constructor
  · rintro ⟨s, hs, t, ht, rfl⟩
    exact ⟨t, s, ⟨hs, ht⟩, rfl⟩
  · rintro ⟨d, s, ⟨hs, hd⟩, rfl⟩
    exact ⟨s, hs, d, hd, rfl⟩

end Linked

/-- All views of the calls of an index agree, whatever its history. What a definition calls are the
targets of its sites without repeats, site by site in order of place; what calls it are the sites
with it among their targets, by caller and place; the saved edges are the edges of both; and the
count of edges and the sum of their counts by dispatch are the number of distinct pairs of a site
and a target. The ids that order sites are compared by `Text.codePoint`, to which a character from
U+10D800 to U+10DFFF is always the carrier of a half of a surrogate pair, never itself. -/
theorem call_views_agree {policy : Policy} {files : String → Option Outline} {m : Made}
    (h : Reached policy files m) :
    (∀ d, ∃ sites : List Site, sites.Pairwise (fun s t => Site.placeOrder s t = .lt) ∧
      (∀ s, s ∈ sites ↔ s ∈ m.index.sites.values ∧ s.caller = d) ∧
      m.index.calleesOf d = sites.flatMap fun s =>
        s.targets.eraseDups.map fun t => ⟨d, t, s.id, s.dispatch, s.confidence, s.order⟩) ∧
    (∀ d, (m.index.callersOf d).Pairwise (fun s t => Site.callerOrder s t = .lt) ∧
      (m.index.callersOf d).Nodup ∧
      ∀ s, s ∈ m.index.callersOf d ↔ s ∈ m.index.sites.values ∧ d ∈ s.targets) ∧
    (∃ edges, m.index.toData.get? "edges" = some (.arr edges) ∧
      (∀ j, j ∈ edges ↔ ∃ d, ∃ e ∈ m.index.calleesOf d, j = savedEdge e) ∧
      ∀ j, j ∈ edges ↔ ∃ d, ∃ s ∈ m.index.callersOf d, j = edgeRecord s d) ∧
    m.index.stats.get? "edges" = some (.int m.index.callPairs.toFinset.card) ∧
    ∃ counts : List (String × Nat),
      m.index.stats.get? "edges_by_dispatch" = some (.obj (counts.map fun c => (c.1, .int c.2))) ∧
      counts.foldr (fun c n => c.2 + n) 0 = m.index.callPairs.toFinset.card := by
  have hx := h.linked
  refine ⟨fun d => ⟨m.index.callsBy d, hx.pairwise_callsBy d, fun s => Linked.mem_callsBy, ?_⟩,
    fun d => ?_, ⟨m.index.savedEdges, rfl, fun j => hx.mem_savedEdges_iff_callees,
      fun j => hx.mem_savedEdges_iff_callers⟩, ?_, ?_⟩
  · rw [hx.calleesOf_eq]
    refine flatMap_congr fun s hs => ?_
    rw [CallGraph.edgesOf, (Linked.mem_callsBy.mp hs).2]
  · rw [hx.callersOf_eq]
    refine ⟨hx.pairwise_callsTo d, ?_, fun s => Linked.mem_callsTo⟩
    exact (sortOn_perm Site.callerOrder _).nodup_iff.mpr (hx.nodup_sites.filter _)
  · rw [← hx.length_edges]
    rfl
  · refine ⟨(sortedSet (m.index.graph.edges.map fun e => e.dispatch.word)).map fun w =>
      (w, (m.index.graph.edges.map fun e => e.dispatch.word).count w), ?_, ?_⟩
    · rw [map_map]
      rfl
    · rw [foldr_count_sortedSet, length_map, hx.length_edges]

/-- A function that calls an overridden method twice and in between itself. -/
def repeatingFile : Outline :=
  file "m.py" "m"
    [classItem "Base" [] [functionItem "stop" "stop" false []],
     classItem "Job" ["Base"] [functionItem "halt" "stop" false []],
     .functionDecl (mark "use") ⟨"use", [⟨"base", some "Base", false, .positional⟩], [],
       false, false⟩
      [.call (mark "last") ⟨"stop", some "base", some 0⟩,
       .call (mark "again") ⟨"use", none, some 1⟩,
       .call (mark "first") ⟨"stop", some "base", some 0⟩]]

/-- The three calls have five edges, listed in the order of the calls. -/
theorem call_views_agree_on_repeats :
    ∃ m, build [repeatingFile] .standard none = .ok m ∧
      (m.index.calleesOf "m.py::m.use").map (fun e => (e.site, e.target)) =
        [("m.py#last", "m.py::m.Base.stop"), ("m.py#last", "m.py::m.Job.stop"),
         ("m.py#again", "m.py::m.use"),
         ("m.py#first", "m.py::m.Base.stop"), ("m.py#first", "m.py::m.Job.stop")] ∧
      m.index.callPairs.toFinset.card = 5 ∧
      m.index.stats.get? "edges" = some (.int m.index.callPairs.toFinset.card) := by
  have hbuilt : (build [repeatingFile] .standard none).toOption.any (fun m =>
      decide ((m.index.calleesOf "m.py::m.use").map (fun e => (e.site, e.target)) =
        [("m.py#last", "m.py::m.Base.stop"), ("m.py#last", "m.py::m.Job.stop"),
         ("m.py#again", "m.py::m.use"),
         ("m.py#first", "m.py::m.Base.stop"), ("m.py#first", "m.py::m.Job.stop")]) &&
      m.index.callPairs.toFinset.card = 5) := by
    decide +kernel
  obtain ⟨m, hm, hview⟩ := exists_of_any hbuilt
  obtain ⟨hcallees, hcard⟩ := Bool.and_eq_true_iff.mp hview
  exact ⟨m, hm, of_decide_eq_true hcallees, of_decide_eq_true hcard,
    (call_views_agree (.built hm)).2.2.2.1⟩

end Index

end Xref

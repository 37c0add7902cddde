import Xref.Hierarchy.Build
import Xref.Proofs.Graph.Reachability

/-!
# The shape of a built hierarchy

A hierarchy is built in two steps: bare entries first, then the members of each. Filling in the
members changes neither orders nor bases nor cycles, so whatever walks along these is the same in
both. The classes derived from a class are listed once each, and they are all of them.
-/

namespace Xref.Hierarchy

open List OrderedMap Xref.Graph

/-! ## Filling in members -/

/-- The hierarchy of a catalog before members are known. -/
def bare (c : Catalog) (a : Ancestry) : Hierarchy :=
  ⟨.ofList (a.bases.keys.filterMap fun id =>
    (c.classes.get? id).map fun decl => (id, bareEntry c a (orderAll a).orders id decl))⟩

/-- The hierarchy with the members of every class filled in. -/
def filled (h : Hierarchy) (c : Catalog) : Hierarchy :=
  ⟨h.entries.mapValues fun _ e => withMembers h c e⟩

variable {c : Catalog} {h : Hierarchy} {reports : List Diagnostic} {id : DefId}

/-- A hierarchy is built exactly when no base nests too deeply and no class waits for too many
others. -/
theorem build_eq_ok_iff {built : Hierarchy × List Diagnostic} :
    build c = .ok built ↔ hasDeepBase c = false ∧
      (Ancestry.ofBases (allBases c)).isTooHigh = false ∧
      ofAncestry c (.ofBases (allBases c)) = built := by
  unfold build
  split
  · next hdeep => simp [hdeep]
  · next hdeep =>
    dsimp only
    split
    · next hhigh => simp [hhigh]
    · next hhigh => simp [hdeep, hhigh]

/-- What holds of every hierarchy that is built holds of the one that there is, if there is one. -/
theorem exists_build_iff {P : Hierarchy → List Diagnostic → Prop}
    (hP : ∀ h reports, build c = .ok (h, reports) → P h reports) :
    (∃ h reports, build c = .ok (h, reports) ∧ P h reports) ↔
      hasDeepBase c = false ∧ (Ancestry.ofBases (allBases c)).isTooHigh = false := by
  constructor
  · rintro ⟨h, reports, hb, _⟩
    obtain ⟨hdeep, hhigh, _⟩ := build_eq_ok_iff.mp hb
    exact ⟨hdeep, hhigh⟩
  · rintro ⟨hdeep, hhigh⟩
    have hb := build_eq_ok_iff.mpr ⟨hdeep, hhigh, rfl⟩
    exact ⟨_, _, hb, hP _ _ hb⟩

/-- A hierarchy that is built is a bare one filled in. -/
theorem eq_filled_of_build (hb : build c = .ok (h, reports)) :
    h = filled (bare c (.ofBases (allBases c))) c :=
  (congrArg Prod.fst (build_eq_ok_iff.mp hb).2.2).symm

/-- The reports of a hierarchy: its cycles, then the classes without a consistent order. -/
theorem reports_of_build (hb : build c = .ok (h, reports)) :
    reports = (Ancestry.ofBases (allBases c)).cycles.map (cycleReport c) ++
      (orderAll (.ofBases (allBases c))).inconsistent.map fun id =>
        .inconsistentOrder (c.qualnameOf id) :=
  (congrArg Prod.snd (build_eq_ok_iff.mp hb).2.2).symm

section withMembers

variable (h : Hierarchy) (c : Catalog) (e : ClassEntry)

@[simp] theorem withMembers_id : (withMembers h c e).id = e.id := by
  unfold withMembers
  split <;> rfl

@[simp] theorem withMembers_qualname : (withMembers h c e).qualname = e.qualname := by
  unfold withMembers
  split <;> rfl

@[simp] theorem withMembers_order : (withMembers h c e).order = e.order := by
  unfold withMembers
  split <;> rfl

@[simp] theorem withMembers_resolvedBases :
    (withMembers h c e).resolvedBases = e.resolvedBases := by
  unfold withMembers
  split <;> rfl

@[simp] theorem withMembers_isCyclic : (withMembers h c e).isCyclic = e.isCyclic := by
  unfold withMembers
  split <;> rfl

end withMembers

section

variable (h : Hierarchy) (c : Catalog) (id : DefId)

theorem get?_filled : (h.filled c).entries.get? id = (h.entries.get? id).map (withMembers h c) :=
  get?_mapValues ..

@[simp] theorem keys_filled : (h.filled c).entries.keys = h.entries.keys :=
  keys_mapValues ..

@[simp] theorem order?_filled : (h.filled c).order? id = h.order? id := by
  unfold order?
  rw [get?_filled]
  cases h.entries.get? id <;> simp

@[simp] theorem isCyclic_filled : (h.filled c).isCyclic id = h.isCyclic id := by
  unfold isCyclic
  rw [get?_filled]
  cases h.entries.get? id <;> simp

@[simp] theorem children_filled : (h.filled c).children = h.children := by
  funext id
  unfold children filled
  rw [values_mapValues, OrderedMap.values, filter_map, filter_map, map_map, map_map]
  simp only [Function.comp_def, withMembers_id, withMembers_resolvedBases, withMembers_isCyclic]

@[simp] theorem subtree?_filled : (h.filled c).subtree? id = h.subtree? id := by
  unfold subtree?
  have hsize : (h.filled c).entries.size = h.entries.size := size_mapValues ..
  have hc : (h.filled c).entries.contains id = h.entries.contains id := by
    rw [Bool.eq_iff_iff, contains_eq_true_iff, contains_eq_true_iff, keys_filled]
  rw [children_filled, hsize, hc]

@[simp] theorem lookup?_filled (member : String) (start : Option DefId) :
    (h.filled c).lookup? c id member start = h.lookup? c id member start := by
  unfold lookup?
  rw [order?_filled]

@[simp] theorem concrete?_filled (member : String) :
    (h.filled c).concrete? c member = h.concrete? c member := by
  funext id
  unfold concrete?
  rw [lookup?_filled]

end

/-! ## Entries -/

section

variable {c : Catalog} {h : Hierarchy} {reports : List Diagnostic}

theorem keys_allBases (c : Catalog) : (allBases c).keys = classIds c ∧
    ∀ id, (allBases c).get? id = (c.classes.get? id).map (basesOf c) := by
  have hfst : ((classIds c).filterMap fun id => (c.classes.get? id).map fun d =>
    (id, basesOf c d)).map
      Prod.fst = classIds c := by
    have hsome : ∀ id ∈ classIds c,
        ((c.classes.get? id).map fun d => (id, basesOf c d)).map Prod.fst = some id := by
      intro id hid
      obtain ⟨decl, hdecl⟩ := mem_keys_iff.mp (mem_sortOn.mp hid)
      rw [hdecl]
      rfl
    rw [map_filterMap, filterMap_congr hsome, filterMap_some]
  have hnodup : (classIds c).Nodup := (sortOn_perm _ _).nodup_iff.mpr c.classes.distinct
  refine ⟨(keys_ofList_of_nodup (hfst.symm ▸ hnodup)).trans hfst, fun id => ?_⟩
  refine Option.ext fun bases => ?_
  rw [allBases, get?_ofList_of_nodup (hfst.symm ▸ hnodup), mem_filterMap]
  simp only [Option.map_eq_some_iff, Prod.mk.injEq]
  constructor
  · rintro ⟨_, _, decl, hdecl, rfl, rfl⟩
    exact ⟨decl, hdecl, rfl⟩
  · rintro ⟨decl, hdecl, rfl⟩
    exact ⟨id, mem_sortOn.mpr (mem_keys_iff.mpr ⟨decl, hdecl⟩), decl, hdecl, rfl, rfl⟩

variable {id : DefId}

theorem mem_keys_allBases : id ∈ (allBases c).keys ↔ id ∈ c.classes.keys := by
  rw [(keys_allBases c).1, classIds, mem_sortOn]

theorem resolvedBases_allBases {decl : ClassDecl} (h : c.classes.get? id = some decl) :
    resolvedBases (allBases c) id = (basesOf c decl).resolved := by
  rw [resolvedBases, (keys_allBases c).2, h]
  rfl

section

variable (hb : build c = .ok (h, reports))
include hb

/-- The classes of a hierarchy are those of the catalog. -/
theorem mem_keys_of_build : id ∈ h.entries.keys ↔ id ∈ c.classes.keys := by
  rw [eq_filled_of_build hb, keys_filled, bare, mem_keys_ofList]
  simp only [mem_map, mem_filterMap, Option.map_eq_some_iff]
  constructor
  · rintro ⟨_, ⟨id', hid', decl, hdecl, rfl⟩, rfl⟩
    exact mem_keys_iff.mpr ⟨decl, hdecl⟩
  · intro hid
    obtain ⟨decl, hdecl⟩ := mem_keys_iff.mp hid
    exact ⟨_, ⟨id, mem_keys_allBases.mpr hid, decl, hdecl, rfl⟩, rfl⟩

/-- The entry of a class is its bare entry with the members filled in. -/
theorem exists_decl_of_build {e : ClassEntry} (he : h.entries.get? id = some e) :
    ∃ decl, c.classes.get? id = some decl ∧
      e = withMembers (bare c (.ofBases (allBases c))) c (bareEntry c (.ofBases (allBases c))
        (orderAll (.ofBases (allBases c))).orders id decl) := by
  rw [eq_filled_of_build hb, get?_filled] at he
  obtain ⟨e', he', rfl⟩ := Option.map_eq_some_iff.mp he
  obtain ⟨id', _, hm⟩ := mem_filterMap.mp (mem_of_get?_ofList he')
  obtain ⟨decl, hdecl, hp⟩ := Option.map_eq_some_iff.mp hm
  obtain ⟨rfl, rfl⟩ := Prod.mk.inj hp
  exact ⟨decl, hdecl, rfl⟩

/-- The entry of a class tells its qualified name and its order. -/
theorem fields_of_build {e : ClassEntry} (he : h.entries.get? id = some e) :
    e.qualname = c.qualnameOf id ∧ e.order = (orderAll (.ofBases (allBases c))).orders.get? id := by
  obtain ⟨decl, _, rfl⟩ := exists_decl_of_build hb he
  rw [withMembers_qualname, withMembers_order]
  exact ⟨rfl, rfl⟩

end

/-- Every order lists its class first. -/
theorem head?_of_foldl_add (bases : OrderedMap DefId Bases) {ids : List DefId} {o : Linearized}
    (ho : ∀ id order, o.orders.get? id = some order → order.head? = some id) :
    ∀ id order, (ids.foldl (Linearized.add bases) o).orders.get? id = some order →
      order.head? = some id := by
  induction ids generalizing o with
  | nil => exact ho
  | cons a ids ih =>
    rw [foldl_cons]
    refine ih fun id order hget => ?_
    have hinsert : ∀ rest : List DefId, (o.orders.insert a (a :: rest)).get? id = some order →
        order.head? = some id := by
      intro rest hget
      rw [get?_insert] at hget
      split at hget
      · next heq =>
        cases hget
        rw [heq]
        rfl
      · exact ho id order hget
    unfold Linearized.add at hget
    dsimp only at hget
    split at hget <;> exact hinsert _ hget

theorem head?_order (hb : build c = .ok (h, reports)) {order : List DefId}
    (ho : h.order? id = some order) : order.head? = some id := by
  obtain ⟨e, he, ho⟩ := Option.bind_eq_some_iff.mp ho
  rw [(fields_of_build hb he).2] at ho
  exact head?_of_foldl_add _ (fun _ _ hget => by cases hget) id order ho

end

/-! ## Subtrees -/

/-- Every class is listed under its own id. -/
def Keyed (h : Hierarchy) : Prop :=
  ∀ id e, h.entries.get? id = some e → e.id = id

theorem keyed_bare (c : Catalog) (a : Ancestry) : (bare c a).Keyed := by
  intro id e he
  obtain ⟨id', _, hm⟩ := mem_filterMap.mp (mem_of_get?_ofList he)
  obtain ⟨decl, _, hp⟩ := Option.map_eq_some_iff.mp hm
  obtain ⟨rfl, rfl⟩ := Prod.mk.inj hp
  rfl

theorem Keyed.filled (hk : h.Keyed) (c : Catalog) : (h.filled c).Keyed := by
  intro id e he
  rw [get?_filled] at he
  obtain ⟨e', he', rfl⟩ := Option.map_eq_some_iff.mp he
  rw [withMembers_id]
  exact hk id e' he'

theorem keyed_of_build (hb : build c = .ok (h, reports)) : h.Keyed := by
  rw [eq_filled_of_build hb]
  exact (keyed_bare c _).filled c

/-- A class names another among its bases and does not lead to a cycle. -/
def DirectlyDerives (h : Hierarchy) (base id : DefId) : Prop :=
  ∃ e, h.entries.get? id = some e ∧ base ∈ e.resolvedBases ∧ e.isCyclic = false

/-- A class, or one that derives from it directly or through others. -/
def Derives (h : Hierarchy) : DefId → DefId → Prop :=
  Relation.ReflTransGen h.DirectlyDerives

variable (hk : h.Keyed)
include hk

theorem Keyed.mem_children {base : DefId} : id ∈ h.children base ↔ h.DirectlyDerives base id := by
  unfold children DirectlyDerives
  simp only [values, mem_map, mem_filter, Bool.and_eq_true, contains_iff_mem,
    Bool.not_eq_true', Prod.exists, exists_eq_right]
  constructor
  · rintro ⟨e, ⟨⟨k, hm⟩, hb, hc⟩, rfl⟩
    have hg := get?_eq_some_iff.mpr hm
    rw [hk k e hg]
    exact ⟨e, hg, hb, hc⟩
  · rintro ⟨e, hg, hb, hc⟩
    exact ⟨e, ⟨⟨id, get?_eq_some_iff.mp hg⟩, hb, hc⟩, hk id e hg⟩

theorem Keyed.reaches_children {base : DefId} : Reaches h.children base id ↔ h.Derives base id := by
  have hrel : (fun a b => b ∈ h.children a) = h.DirectlyDerives := by
    funext a b
    exact propext hk.mem_children
  unfold Reaches Derives
  rw [hrel]

/-- The subtree of a class lists it first, and then every class that derives from it, each once. -/
theorem Keyed.subtree (hid : id ∈ h.entries.keys) :
    ∃ below, h.subtree? id = some below ∧ below.head? = some id ∧ below.Nodup ∧
      ∀ d, d ∈ below ↔ h.Derives id d := by
  have hnext : ∀ n ∈ h.entries.keys, ∀ m ∈ h.children n, m ∈ h.entries.keys := by
    intro n _ m hm
    obtain ⟨e, he, _⟩ := hk.mem_children.mp hm
    exact mem_keys_iff.mpr ⟨e, he⟩
  have hlen : h.entries.keys.length ≤ h.entries.size := by simp [OrderedMap.keys, size]
  have hc : h.entries.contains id := contains_eq_true_iff.mpr hid
  refine ⟨reachable h.children h.entries.size id, ?_, head?_reachable .., ?_, ?_⟩
  · simp [subtree?, hc]
  · exact nodup_reachable hnext hid hlen
  · intro d
    rw [mem_reachable hnext hid hlen, hk.reaches_children]

theorem Keyed.mem_keys_of_subtree? {d : DefId} {below : List DefId}
    (hs : h.subtree? id = some below) (hd : d ∈ below) : d ∈ h.entries.keys := by
  have hid : id ∈ h.entries.keys := by
    rw [← contains_eq_true_iff]
    unfold subtree? at hs
    split at hs
    · assumption
    · cases hs
  obtain ⟨_, hs', _, _, hmem⟩ := hk.subtree hid
  cases hs.symm.trans hs'
  rcases Relation.ReflTransGen.cases_tail ((hmem d).mp hd) with rfl | ⟨_, _, e, he, _⟩
  · exact hid
  · exact mem_keys_iff.mpr ⟨e, he⟩

end Xref.Hierarchy

import Xref.Proofs.Catalog.Merge
import Xref.Proofs.Graph.Postorder
import Xref.Proofs.Hierarchy.Shape

/-!
# Ancestors and cycles

Along the bases of a sound catalog one never leaves its classes. So the ancestors that are found for
a class are all that the bases lead to, a class is set aside exactly when they lead to a cycle, and
the cycles that are listed are the components of classes that lead to each other, each once.
-/

namespace Xref.Hierarchy

open List OrderedMap Ancestry

/-! ## Bases -/

/-- The indexed bases of every class are distinct and are listed themselves. -/
structure Grounded (bases : OrderedMap DefId Bases) : Prop where
  nodup : ∀ id, (resolvedBases bases id).Nodup
  mem_keys : ∀ id, ∀ base ∈ resolvedBases bases id, base ∈ bases.keys

/-- A base is added as a class with a definition that is not there yet, or not at all. -/
theorem resolved_add (c : Catalog) (scope : ScopeId) (bases : Bases) (base : String) :
    (bases.add c scope base).resolved = bases.resolved ∨
      ∃ id target, c.definitions.get? id = some target ∧ target.kind = .classBody ∧
        target.id ∉ bases.resolved ∧
        (bases.add c scope base).resolved = bases.resolved ++ [target.id] := by
  unfold Bases.add
  split
  · exact .inl rfl
  · generalize ((View.mk c none).name scope base).run [] = named
    obtain ⟨r, mentions⟩ := named
    dsimp only
    split
    · next target hindexed =>
      split
      · exact .inl rfl
      · next hnew =>
        split at hindexed
        · next id maker hmeaning =>
          obtain ⟨hget, hkind⟩ := Option.filter_eq_some_iff.mp hindexed
          exact .inr ⟨id, target, hget, by simpa using hkind, by simpa using hnew, rfl⟩
        · cases hindexed
    · exact .inl rfl
    · exact .inl rfl

theorem resolved_foldl_add {c : Catalog} (hs : c.Sound) (scope : ScopeId) (names : List String)
    {bases : Bases} (hnodup : bases.resolved.Nodup)
    (hmem : ∀ b ∈ bases.resolved, b ∈ c.classes.keys) :
    (names.foldl (Bases.add c scope) bases).resolved.Nodup ∧
      ∀ b ∈ (names.foldl (Bases.add c scope) bases).resolved, b ∈ c.classes.keys := by
  induction names generalizing bases with
  | nil => exact ⟨hnodup, hmem⟩
  | cons name names ih =>
    rw [foldl_cons]
    rcases resolved_add c scope bases name with hsame | ⟨id, target, hget, hkind, hnew, hadd⟩
    · exact ih (hsame ▸ hnodup) (hsame ▸ hmem)
    · have htarget : target.id ∈ c.classes.keys := hs.id_eq hget ▸ hs.mem_classes hget hkind
      refine ih ?_ ?_
      · rw [hadd]
        refine hnodup.append (nodup_singleton _) fun b hb hb' => ?_
        exact hnew (mem_singleton.mp hb' ▸ hb)
      · intro b hb
        rw [hadd, mem_append, mem_singleton] at hb
        rcases hb with hb | rfl
        · exact hmem b hb
        · exact htarget

theorem grounded_allBases {c : Catalog} (hs : c.Sound) : Grounded (allBases c) := by
  have hboth : ∀ id, (resolvedBases (allBases c) id).Nodup ∧
      ∀ b ∈ resolvedBases (allBases c) id, b ∈ c.classes.keys := by
    intro id
    cases hget : c.classes.get? id with
    | none => simp [resolvedBases, (keys_allBases c).2, hget]
    | some decl =>
      rw [resolvedBases_allBases hget, basesOf]
      split
      · exact resolved_foldl_add hs _ _ nodup_nil fun b hb => by cases hb
      · simp
  exact ⟨fun id => (hboth id).1, fun id b hb => mem_keys_allBases.mpr ((hboth id).2 b hb)⟩

/-! ## Ancestors -/

open Xref.Graph

namespace Grounded

variable {bases : OrderedMap DefId Bases} {id d : DefId}

theorem mem_keys_of_base {base : DefId} (hb : base ∈ resolvedBases bases id) : id ∈ bases.keys := by
  by_contra hid
  simp [resolvedBases, get?_eq_none_iff.mpr hid] at hb

theorem mem_keys_left (h : Leads (resolvedBases bases) id d) : id ∈ bases.keys := by
  obtain ⟨base, hb, _⟩ := Relation.TransGen.head'_iff.mp h
  exact mem_keys_of_base hb

section

variable (hg : Grounded bases)
include hg

/-- The walk over the ancestors of a class, at its end. -/
theorem walkInv_properAncestors (id : DefId) :
    WalkInv (resolvedBases bases) (resolvedBases bases id) (properAncestors bases id) [] := by
  refine WalkInv.explore (fun n (_ : n ∈ bases.keys) m hm => hg.mem_keys n m hm)
    (.init (hg.nodup id)) ?_ ?_
  · simpa using hg.mem_keys id
  · simp [OrderedMap.keys, size]

theorem nodup_properAncestors (id : DefId) : (properAncestors bases id).Nodup := by
  simpa using (hg.walkInv_properAncestors id).nodup

theorem mem_properAncestors : d ∈ properAncestors bases id ↔ Leads (resolvedBases bases) id d := by
  have h := hg.walkInv_properAncestors id
  constructor
  · intro hd
    obtain ⟨base, hb, hr⟩ := h.reached d (by simpa using hd)
    exact Relation.TransGen.head' hb hr
  · intro hl
    induction hl with
    | single hb => simpa using h.started _ hb
    | tail _ hb ih => simpa using h.closed _ ih _ hb

theorem mem_ancestors : d ∈ (ofBases bases).ancestors id ↔ Leads (resolvedBases bases) id d := by
  unfold ancestors ofBases
  rw [get?_mapValues]
  cases hget : bases.get? id with
  | none =>
    simp only [Option.map_none, Option.getD_none, not_mem_nil, false_iff]
    exact fun hl => get?_eq_none_iff.mp hget (mem_keys_left hl)
  | some b => exact hg.mem_properAncestors

theorem nodup_ancestors (id : DefId) : ((ofBases bases).ancestors id).Nodup := by
  unfold ancestors ofBases
  rw [get?_mapValues]
  cases bases.get? id with
  | none => exact nodup_nil
  | some b => exact hg.nodup_properAncestors id

/-! ## Cycles -/

theorem mem_circular : id ∈ (ofBases bases).circular ↔ Leads (resolvedBases bases) id id := by
  have hcircular : id ∈ (ofBases bases).circular ↔
      id ∈ bases.keys ∧ id ∈ properAncestors bases id := by
    simp only [ofBases, mapValues, mem_map, mem_filter,
      contains_iff_mem, Prod.exists, OrderedMap.keys]
    constructor
    · rintro ⟨k, above, ⟨⟨k', b, hmem, hpair⟩, hself⟩, rfl⟩
      obtain ⟨rfl, rfl⟩ := Prod.mk.inj hpair
      exact ⟨⟨_, _, hmem, rfl⟩, hself⟩
    · rintro ⟨⟨k, b, hmem, rfl⟩, hself⟩
      exact ⟨_, _, ⟨⟨_, _, hmem, rfl⟩, hself⟩, rfl⟩
  rw [hcircular, hg.mem_properAncestors]
  exact ⟨And.right, fun hl => ⟨mem_keys_left hl, hl⟩⟩

/-- A class is set aside exactly when its bases lead to a class that leads to itself. -/
theorem leadsToCycle_iff :
    (Ancestry.ofBases bases).leadsToCycle id ↔ Loops (resolvedBases bases) id := by
  unfold Ancestry.leadsToCycle
  simp only [any_eq_true, mem_cons, contains_iff_mem, hg.mem_circular, hg.mem_ancestors]
  refine exists_congr fun k => and_congr_left fun _ => ?_
  rw [Reaches, Relation.reflTransGen_iff_eq_or_transGen]
  exact Iff.rfl

theorem leadsToCycle_of_base {base : DefId} (hb : base ∈ resolvedBases bases id)
    (h : (ofBases bases).leadsToCycle base) : (ofBases bases).leadsToCycle id := by
  obtain ⟨k, hr, hl⟩ := hg.leadsToCycle_iff.mp h
  exact hg.leadsToCycle_iff.mpr ⟨k, .head hb hr, hl⟩

end

theorem mem_sound :
    id ∈ (ofBases bases).sound ↔ id ∈ bases.keys ∧ (ofBases bases).leadsToCycle id = false := by
  unfold sound
  rw [mem_filter, Bool.not_eq_true']
  exact Iff.rfl

variable (hg : Grounded bases)
include hg

/-- The bases of a class that does not lead to a cycle do not either. -/
theorem sound_closed : ∀ id ∈ (ofBases bases).sound, ∀ base ∈ resolvedBases bases id,
      base ∈ (ofBases bases).sound := by
  intro id hid base hb
  refine mem_sound.mpr ⟨hg.mem_keys id base hb, ?_⟩
  by_contra hcyclic
  have := hg.leadsToCycle_of_base hb (by simpa using hcyclic)
  simp [(mem_sound.mp hid).2] at this

theorem not_leads_self (hid : id ∈ (ofBases bases).sound) :
    ¬ Leads (resolvedBases bases) id id := by
  intro hl
  have := hg.leadsToCycle_iff.mpr ⟨id, .refl, hl⟩
  simp [(mem_sound.mp hid).2] at this

/-- Going from a class that does not lead to a cycle to its bases comes to an end: there are ever
fewer ancestors. -/
theorem wellFounded_bases :
    WellFounded fun base id => id ∈ (ofBases bases).sound ∧ base ∈ resolvedBases bases id := by
  refine Subrelation.wf (fun {base id} h => ?_)
    (measure fun id => ((ofBases bases).ancestors id).length).wf
  obtain ⟨hid, hb⟩ := h
  have hfree := hg.not_leads_self (hg.sound_closed id hid base hb)
  -- the base and its ancestors are ancestors of the class
  have hsub : ∀ d ∈ base :: (ofBases bases).ancestors base,
      d ∈ (ofBases bases).ancestors id := by
    intro d hd
    rw [hg.mem_ancestors]
    rcases mem_cons.mp hd with rfl | hd
    · exact .single hb
    · exact .head hb (hg.mem_ancestors.mp hd)
  have hnodup : (base :: (ofBases bases).ancestors base).Nodup :=
    nodup_cons.mpr ⟨fun hself => hfree (hg.mem_ancestors.mp hself), hg.nodup_ancestors base⟩
  have hle := (hnodup.subperm hsub).length_le
  simp only [length_cons] at hle
  exact hle

/-! ## Components -/

theorem mem_component : d ∈ (ofBases bases).component id ↔
      Leads (resolvedBases bases) id d ∧ Leads (resolvedBases bases) d id := by
  unfold component
  rw [mem_filter, hg.mem_ancestors, contains_iff_mem, hg.mem_ancestors]

theorem nodup_component (id : DefId) : ((ofBases bases).component id).Nodup :=
  (hg.nodup_ancestors id).filter _

/-- The components that are closed along a list of classes on cycles: each is the component of one
of them, each of them is in one, and no class is in two. -/
theorem closing_spec {ids : List DefId} (hids : ∀ id ∈ ids, Leads (resolvedBases bases) id id) :
    (∀ ms ∈ (Ancestry.ofBases bases).closing ids, ∃ id ∈ ids,
        ms = (Ancestry.ofBases bases).component id) ∧
      (∀ id ∈ ids, ∃ ms ∈ (Ancestry.ofBases bases).closing ids, id ∈ ms) ∧
      ((Ancestry.ofBases bases).closing ids).Pairwise List.Disjoint := by
  induction ids with
  | nil => simp [Ancestry.closing]
  | cons id later ih =>
    obtain ⟨hfrom, hin, hdisjoint⟩ := ih fun k hk => hids k (by simp [hk])
    have hself := hids id (by simp)
    rw [Ancestry.closing]
    split
    · next hlater =>
      -- a later class closes the component
      simp only [any_eq_true, contains_iff_mem, hg.mem_component] at hlater
      obtain ⟨k, hk, hto, hback⟩ := hlater
      refine ⟨fun ms hms => ?_, fun j hj => ?_, hdisjoint⟩
      · obtain ⟨j, hj, heq⟩ := hfrom ms hms
        exact ⟨j, by simp [hj], heq⟩
      · rcases mem_cons.mp hj with rfl | hj
        · obtain ⟨ms, hms, hkms⟩ := hin k hk
          obtain ⟨l, _, rfl⟩ := hfrom ms hms
          obtain ⟨hlk, hkl⟩ := hg.mem_component.mp hkms
          exact ⟨_, hms, hg.mem_component.mpr ⟨hlk.trans hback, hto.trans hkl⟩⟩
        · exact hin j hj
    · next hlater =>
      simp only [any_eq_true, contains_iff_mem, hg.mem_component, not_exists, not_and]
        at hlater
      refine ⟨fun ms hms => ?_, fun j hj => ?_, pairwise_cons.mpr ⟨fun ms hms => ?_, hdisjoint⟩⟩
      · rcases mem_cons.mp hms with rfl | hms
        · exact ⟨id, by simp, rfl⟩
        · obtain ⟨j, hj, heq⟩ := hfrom ms hms
          exact ⟨j, by simp [hj], heq⟩
      · rcases mem_cons.mp hj with rfl | hj
        · exact ⟨_, by simp, hg.mem_component.mpr ⟨hself, hself⟩⟩
        · obtain ⟨ms, hms, hjms⟩ := hin j hj
          exact ⟨ms, by simp [hms], hjms⟩
      · -- a class in both would lead from this component to a later one
        obtain ⟨k, hk, rfl⟩ := hfrom ms hms
        intro x hx hx'
        obtain ⟨hix, hxi⟩ := hg.mem_component.mp hx
        obtain ⟨hkx, hxk⟩ := hg.mem_component.mp hx'
        exact hlater k hk (hix.trans hxk) (hkx.trans hxi)

/-- The cycles that are listed: components of classes that lead to each other, every class on a
cycle in exactly one of them. -/
theorem cycles_spec : (∀ ms ∈ (ofBases bases).cycles, ∃ id, Leads (resolvedBases bases) id id ∧
        ms = (ofBases bases).component id) ∧
      (∀ id, Leads (resolvedBases bases) id id → ∃ ms ∈ (ofBases bases).cycles, id ∈ ms) ∧
      (ofBases bases).cycles.Pairwise List.Disjoint := by
  have hsize : bases.keys.length ≤ bases.size := by simp [OrderedMap.keys, size]
  obtain ⟨_, hall, _, _⟩ := postorder_spec (fun n (_ : n ∈ bases.keys) m hm => hg.mem_keys n m hm)
    (fun n (hn : n ∈ bases.keys) => hn) hsize
  have hleft : ∀ id ∈ (postorder (resolvedBases bases) bases.size bases.keys).filter
      (ofBases bases).circular.contains, Leads (resolvedBases bases) id id :=
    fun id hid => hg.mem_circular.mp (by simpa using (mem_filter.mp hid).2)
  obtain ⟨hfrom, hin, hdisjoint⟩ := hg.closing_spec hleft
  refine ⟨fun ms hms => ?_, fun id hid => ?_, hdisjoint⟩
  · obtain ⟨id, hid, heq⟩ := hfrom ms hms
    exact ⟨id, hleft id hid, heq⟩
  · refine hin id (mem_filter.mpr ⟨hall id (mem_keys_left hid), ?_⟩)
    simpa using hg.mem_circular.mpr hid

end Grounded

/-! ## Heights -/

/-- Classes wait for too many others only along a chain of so many bases. -/
theorem exists_hasChain_of_isTooHigh {bases : OrderedMap DefId Bases}
    (h : (ofBases bases).isTooHigh) :
    ∃ id ∈ bases.keys, HasChain (resolvedBases bases) maxClimb id := by
  obtain ⟨id, hid, hchain⟩ := exists_hasChain_of_exceeds h
  exact ⟨id, (Grounded.mem_sound.mp hid).1, hchain⟩

/-- They do if the first class starts a chain of first bases that is long enough. -/
theorem isTooHigh_of_chain {bases : OrderedMap DefId Bases} {f : Nat → DefId}
    (hhead : bases.keys.head? = some (f 0)) (hfirst : (ofBases bases).leadsToCycle (f 0) = false)
    (hnext : ∀ i < maxClimb, (resolvedBases bases (f i)).head? = some (f (i + 1)))
    (hinj : ∀ i ≤ maxClimb, ∀ j ≤ maxClimb, f i = f j → i = j) : (ofBases bases).isTooHigh := by
  obtain ⟨rest, hkeys⟩ := List.head?_eq_some_iff.mp hhead
  have hsound : (ofBases bases).sound =
      f 0 :: rest.filter fun id => !(ofBases bases).leadsToCycle id := by
    show bases.keys.filter _ = _
    rw [hkeys, filter_cons_of_pos (by simp [hfirst])]
  rw [isTooHigh, hsound]
  exact exceeds_of_chain hnext hinj

/-! ## Built hierarchies -/

/-- The indexed bases that a hierarchy lists for a class. -/
def namedBases (h : Hierarchy) (id : DefId) : List DefId :=
  ((h.entries.get? id).map (·.resolvedBases)).getD []

section

variable {c : Catalog} {h : Hierarchy} {reports : List Diagnostic}

variable (hb : build c = .ok (h, reports))
include hb

theorem namedBases_of_build : h.namedBases = resolvedBases (allBases c) := by
  funext id
  unfold namedBases
  cases hget : h.entries.get? id with
  | none =>
    have hid : id ∉ (allBases c).keys := by
      rw [mem_keys_allBases, ← mem_keys_of_build hb]
      exact get?_eq_none_iff.mp hget
    simp [resolvedBases, get?_eq_none_iff.mpr hid]
  | some e =>
    obtain ⟨decl, _, rfl⟩ := exists_decl_of_build hb hget
    rw [Option.map_some, Option.getD_some, withMembers_resolvedBases]
    rfl

theorem isCyclic_of_build {id : DefId} (hid : id ∈ c.classes.keys) :
    h.isCyclic id = (ofBases (allBases c)).leadsToCycle id := by
  obtain ⟨e, he⟩ := mem_keys_iff.mp ((mem_keys_of_build hb).mpr hid)
  obtain ⟨decl, _, rfl⟩ := exists_decl_of_build hb he
  rw [isCyclic, he, Option.map_some, Option.getD_some, withMembers_isCyclic]
  rfl

theorem mem_sound_of_build {id : DefId} (hid : id ∈ c.classes.keys) :
    id ∈ (ofBases (allBases c)).sound ↔ h.isCyclic id = false := by
  rw [Grounded.mem_sound, mem_keys_allBases, isCyclic_of_build hb hid]
  exact and_iff_right hid

end

end Xref.Hierarchy

import Xref.Proofs.Hierarchy.Orders

/-!
# Cycles of bases

The classes that lead to each other form components, and a cycle is a component of several classes
or of one that is its own base. The cycles that a hierarchy lists are all of these, each once. A
class is set aside exactly when it leads to one, and then it has no order.
-/

namespace Xref.Hierarchy

open List Xref.Graph Catalog Xref.Small

/-! ## Components -/

section

variable {α : Type u} {parents : α → List α} {a b : α} {members : List α}

/-- The nodes that lead to each other, each listed once. -/
structure Component (parents : α → List α) (members : List α) : Prop where
  nodup : members.Nodup
  nonempty : members ≠ []
  mem_iff : ∀ a ∈ members, ∀ d, d ∈ members ↔ Reaches parents a d ∧ Reaches parents d a

/-- A component of several nodes or of one that is its own successor. -/
structure Cycle (parents : α → List α) (members : List α) :
    Prop extends Component parents members where
  closed : 2 ≤ members.length ∨ ∃ a ∈ members, a ∈ parents a

theorem leads_of_reaches_of_ne (h : Reaches parents a b) (hne : a ≠ b) : Leads parents a b :=
  (Relation.reflTransGen_iff_eq_or_transGen.mp h).resolve_left (Ne.symm hne)

/-- Every node of a cycle leads to itself. -/
theorem Cycle.leads_self (h : Cycle parents members) (ha : a ∈ members) : Leads parents a a := by
  rcases h.closed with hlen | ⟨b, hb, hself⟩
  · -- there is another node, and the way there leads back
    have hother : ∃ b ∈ members, a ≠ b := by
      by_contra hnone
      simp only [not_exists, not_and, not_not] at hnone
      match members, hlen, h.nodup with
      | b :: d :: _, _, hnodup =>
        have hb := hnone b (by simp)
        have hd := hnone d (by simp)
        exact (nodup_cons.mp hnodup).1 (by simp [← hb, ← hd])
    obtain ⟨b, hb, hne⟩ := hother
    obtain ⟨hto, hback⟩ := (h.mem_iff a ha b).mp hb
    exact (leads_of_reaches_of_ne hto hne).trans_left hback
  · obtain ⟨hto, hback⟩ := (h.mem_iff a ha b).mp hb
    exact Relation.TransGen.trans_left (Relation.TransGen.trans_right hto (.single hself)) hback

/-- The nodes that a node leads to and that lead to it are a cycle, if there are any. -/
theorem cycle_of_leads_self (hself : Leads parents a a) (hnodup : members.Nodup)
    (hmem : ∀ d, d ∈ members ↔ Leads parents a d ∧ Leads parents d a) : Cycle parents members := by
  have ha : a ∈ members := (hmem a).mpr ⟨hself, hself⟩
  refine ⟨⟨hnodup, ne_nil_of_mem ha, fun b hb d => ?_⟩, ?_⟩
  · obtain ⟨hab, hba⟩ := (hmem b).mp hb
    rw [hmem]
    constructor
    · rintro ⟨had, hda⟩
      exact ⟨(hba.trans had).to_reflTransGen, (hda.trans hab).to_reflTransGen⟩
    · rintro ⟨hbd, hdb⟩
      exact ⟨hab.trans_left hbd, .trans_right hdb hba⟩
  · obtain ⟨b, hb, hback⟩ := Relation.TransGen.head'_iff.mp hself
    by_cases hab : b = a
    · exact .inr ⟨a, ha, hab ▸ hb⟩
    · -- the first node on the way is another one of the cycle
      have hbmem : b ∈ members := (hmem b).mpr ⟨.single hb, leads_of_reaches_of_ne hback hab⟩
      have hpair : [a, b].Nodup := by simp [Ne.symm hab]
      have hsub : [a, b] ⊆ members := by simp [ha, hbmem]
      exact .inl (hpair.subperm hsub).length_le

/-- Cycles that share a node have the same nodes. -/
theorem Cycle.perm {others : List α} (h : Cycle parents members) (h' : Cycle parents others)
    (ha : a ∈ members) (ha' : a ∈ others) : members.Perm others :=
  (perm_ext_iff_of_nodup h.nodup h'.nodup).mpr fun d =>
    (h.mem_iff a ha d).trans (h'.mem_iff a ha' d).symm

end

theorem Grounded.cycle_of_mem_cycles {bases : OrderedMap DefId Bases} (hg : Grounded bases)
    {members : List DefId} (h : members ∈ (Ancestry.ofBases bases).cycles) :
    Cycle (resolvedBases bases) members := by
  obtain ⟨id, hself, rfl⟩ := hg.cycles_spec.1 members h
  exact cycle_of_leads_self hself (hg.nodup_component id) fun _ => hg.mem_component

/-! ## Built hierarchies -/

/-- The classes that a diagnostic says to be in a cycle. -/
def cycle? : Diagnostic → Option (List String)
  | .cyclicInheritance qualnames => some qualnames
  | _ => none

/-- Some texts in ascending order. -/
def Sorted (texts : List String) : Prop :=
  texts.Pairwise fun a b => (textOrder a b).isLE

/-- What a hierarchy and its reports tell of cycles. -/
structure TellsCycles (c : Catalog) (h : Hierarchy) (reports : List Diagnostic) : Prop where
  isCyclic_iff : ∀ id ∈ c.classes.keys, h.isCyclic id ↔ Loops h.namedBases id
  order_iff : ∀ id ∈ c.classes.keys, h.order? id = none ↔ h.isCyclic id
  closed : ∀ id ∈ c.classes.keys, h.isCyclic id = false → ∀ base ∈ h.namedBases id,
    base ∈ c.classes.keys ∧ h.isCyclic base = false
  wellFounded : WellFounded fun base id => h.isCyclic id = false ∧ base ∈ h.namedBases id
  reported : ∃ cycles : List (List DefId), cycles.Pairwise List.Disjoint ∧
    (∀ members ∈ cycles, Cycle h.namedBases members) ∧
    (∀ members, Cycle h.namedBases members → ∃ listed ∈ cycles, listed.Perm members) ∧
    List.Forall₂ (fun members qualnames =>
      Sorted qualnames ∧
        qualnames.Perm (members.map c.qualnameOf)) cycles (reports.filterMap cycle?)

section

variable {c : Catalog} {h : Hierarchy} {reports : List Diagnostic}

theorem filterMap_cycle?_of_build (hb : build c = .ok (h, reports)) :
    reports.filterMap cycle? = (Ancestry.ofBases (allBases c)).cycles.map fun members =>
      sortOn textOrder (members.map c.qualnameOf) := by
  rw [reports_of_build hb, filterMap_append, filterMap_map, filterMap_map]
  have horders : (orderAll (.ofBases (allBases c))).inconsistent.filterMap
      (cycle? ∘ fun id => .inconsistentOrder (c.qualnameOf id)) = [] :=
    filterMap_eq_nil_iff.mpr fun _ _ => rfl
  rw [horders, append_nil]
  exact congrFun filterMap_eq_map _

theorem tellsCycles_of_build (hs : c.Sound) (hb : build c = .ok (h, reports)) :
    TellsCycles c h reports := by
  have hg := grounded_allBases hs
  have hbases := namedBases_of_build hb
  refine ⟨fun id hid => ?_, fun id hid => ?_, fun id hid hfree base hbase => ?_, ?_, ?_⟩
  · rw [isCyclic_of_build hb hid, hbases]
    exact hg.leadsToCycle_iff
  · obtain ⟨ids, _, hids, ho⟩ := hg.ordered_orderAll
    rw [order?_of_build hs hb]
    constructor
    · intro hnone
      by_contra hfree
      have hsound := (mem_sound_of_build hb hid).mpr (by simpa using hfree)
      obtain ⟨order, horder⟩ := Linearization.of_ordered hg hids ho hsound
      cases hnone.symm.trans horder.found
    · intro hcyclic
      refine ho.get?_of_not_mem id fun hin => ?_
      have := (mem_sound_of_build hb hid).mp ((hids id).mp hin)
      simp [hcyclic] at this
  · rw [hbases] at hbase
    have hclass := mem_keys_allBases.mp (hg.mem_keys id base hbase)
    have hsound := hg.sound_closed id ((mem_sound_of_build hb hid).mpr hfree) base hbase
    exact ⟨hclass, (mem_sound_of_build hb hclass).mp hsound⟩
  · refine Subrelation.wf (fun {base id} hstep => ?_) hg.wellFounded_bases
    rw [hbases] at hstep
    have hid := mem_keys_allBases.mp (Grounded.mem_keys_of_base hstep.2)
    exact ⟨(mem_sound_of_build hb hid).mpr hstep.1, hstep.2⟩
  · rw [hbases]
    obtain ⟨_, hin, hdisjoint⟩ := hg.cycles_spec
    refine ⟨_, hdisjoint, fun _ => hg.cycle_of_mem_cycles, fun members hcycle => ?_, ?_⟩
    · obtain ⟨id, hid⟩ := exists_mem_of_ne_nil members hcycle.nonempty
      obtain ⟨listed, hlisted, hidl⟩ := hin id (hcycle.leads_self hid)
      exact ⟨listed, hlisted, (hg.cycle_of_mem_cycles hlisted).perm hcycle hidl hid⟩
    · rw [filterMap_cycle?_of_build hb, forall₂_map_right_iff]
      exact forall₂_same.mpr fun members _ => ⟨pairwise_sortOn _, sortOn_perm _ _⟩

/-- A hierarchy that sets aside the classes that lead to cycles, and no others, with one report for
each cycle, is built from every catalog, unless a base is given by a type that nests too deeply or
too many classes wait for each other. -/
theorem build_tells_cycles_iff {digests : List Digest}
    (hd : ∀ d ∈ digests, ∃ o version, Digest.ofOutline o version = .ok d) :
    (∃ h reports, build (merge digests).1 = .ok (h, reports) ∧
        TellsCycles (merge digests).1 h reports) ↔
      hasDeepBase (merge digests).1 = false ∧
        (Ancestry.ofBases (allBases (merge digests).1)).isTooHigh = false :=
  exists_build_iff fun _ _ => tellsCycles_of_build (sound_merge_of_outlines hd)

end

/-- Two classes that are bases of each other, one that is its own base, one that derives from the
first two, and one that is free. -/
def tangledFile : Outline :=
  classFile [("Hen", ["Egg"]), ("Egg", ["Hen"]), ("Self", ["Self"]), ("Chick", ["Hen", "Free"]),
    ("Free", [])]

theorem build_tells_tangled_cycles :
    (∀ d ∈ digestsOf [tangledFile], ∃ o version, Digest.ofOutline o version = .ok d) ∧
      ∃ h reports, build (merge (digestsOf [tangledFile])).1 = .ok (h, reports) ∧
        TellsCycles (merge (digestsOf [tangledFile])).1 h reports := by
  have hd : ∀ d ∈ digestsOf [tangledFile], ∃ o version, Digest.ofOutline o version = .ok d :=
    fun _ => exists_outline_of_mem_digestsOf
  exact ⟨hd, (build_tells_cycles_iff hd).mpr (by decide +kernel)⟩

/-- Beside a chain of six hundred classes, two classes that are bases of each other stay unreported:
there is no hierarchy to tell of them. -/
theorem build_fails_beside_cycle :
    tallId 601 ∈ (tallCatalog 600).classes.keys ∧
      Leads (resolvedBases (allBases (tallCatalog 600))) (tallId 601) (tallId 601) ∧
      build (tallCatalog 600) = .error .tooDeep := by
  have hheight : 600 < 900 := by decide
  obtain ⟨hto, hback⟩ := resolvedBases_pair hheight
  refine ⟨(mem_classes_tall hheight (by decide)).1, ?_, build_tall hheight (by decide)⟩
  have hfirst : tallId 602 ∈
      resolvedBases (allBases (tallCatalog 600)) (tallId 601) := by simp [hto]
  have hsecond : tallId 601 ∈
      resolvedBases (allBases (tallCatalog 600)) (tallId 602) := by simp [hback]
  exact .head hfirst (.single hsecond)

end Xref.Hierarchy

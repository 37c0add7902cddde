import Xref.Proofs.Hierarchy.Merging
import Xref.Proofs.Hierarchy.Tall

/-!
# Orders of ancestors

Classes are ordered one after the other, each after its bases. A step orders one class from the
orders of its bases and touches no other, so at the end every class is ordered from the final orders
of its bases. From this follows, by induction from the bases up, what an order lists and which
orders it agrees with.
-/

namespace Xref.Hierarchy

open List Xref.Graph OrderedMap Ancestry Catalog Xref.Small

namespace Linearized

variable {bases : OrderedMap DefId Bases} {o : Linearized} {id n : DefId}

/-! ## One class -/

/-- The order found for a class. -/
def orderOf (o : Linearized) (id : DefId) : List DefId :=
  (o.orders.get? id).getD []

/-- The lists that the order of a class is merged from: the orders of its bases, and its bases. -/
def lists (bases : OrderedMap DefId Bases) (o : Linearized) (id : DefId) : List (List DefId) :=
  (resolvedBases bases id).map o.orderOf ++ [resolvedBases bases id]

/-- The order of a class is what the orders of its bases give: their merge, or, with the class among
the inconsistent ones, their classes in a row. -/
inductive Settles (bases : OrderedMap DefId Bases) (o : Linearized) (id : DefId) : Prop
  | merged {merged : List DefId} (hmerge : merge? (o.lists bases id) = some merged)
      (hget : o.orders.get? id = some (id :: merged)) (hid : id ∉ o.inconsistent)
  | unmerged (hmerge : merge? (o.lists bases id) = none)
      (hget : o.orders.get? id =
        some (id :: ((resolvedBases bases id).map o.orderOf).flatten.eraseDups))
      (hid : id ∈ o.inconsistent)

theorem add_cases (bases : OrderedMap DefId Bases) (o : Linearized) (n : DefId) :
    (∃ merged, merge? (o.lists bases n) = some merged ∧
        o.add bases n = ⟨o.orders.insert n (n :: merged), o.inconsistent⟩) ∨
      (merge? (o.lists bases n) = none ∧
        o.add bases n =
          ⟨o.orders.insert n (n :: ((resolvedBases bases n).map o.orderOf).flatten.eraseDups),
            o.inconsistent ++ [n]⟩) := by
  unfold add
  dsimp only
  split
  · next merged hmerge => exact .inl ⟨merged, hmerge, rfl⟩
  · next hmerge => exact .inr ⟨hmerge, rfl⟩

theorem get?_add_of_ne (hne : id ≠ n) : (o.add bases n).orders.get? id = o.orders.get? id := by
  rcases add_cases bases o n with ⟨merged, _, hadd⟩ | ⟨_, hadd⟩ <;>
    rw [hadd, get?_insert, if_neg hne]

theorem mem_inconsistent_add_of_ne (hne : id ≠ n) :
    id ∈ (o.add bases n).inconsistent ↔ id ∈ o.inconsistent := by
  rcases add_cases bases o n with ⟨merged, _, hadd⟩ | ⟨_, hadd⟩ <;> simp [hadd, hne]

/-- Ordering a class does not change the orders of the bases of another that does not name it. -/
theorem map_orderOf_add (hbases : n ∉ resolvedBases bases id) :
    (resolvedBases bases id).map (o.add bases n).orderOf = (resolvedBases bases id).map
      o.orderOf := by
  refine map_congr_left fun p hp => ?_
  unfold orderOf
  rw [get?_add_of_ne]
  rintro rfl
  exact hbases hp

theorem lists_add (hbases : n ∉ resolvedBases bases id) :
    (o.add bases n).lists bases id = o.lists bases id := by
  unfold lists
  rw [map_orderOf_add hbases]

theorem Settles.add (h : o.Settles bases id) (hne : id ≠ n) (hbases : n ∉ resolvedBases bases id) :
    (o.add bases n).Settles bases id := by
  cases h with
  | merged hmerge hget hid =>
    exact .merged ((lists_add hbases).symm ▸ hmerge) ((get?_add_of_ne hne).trans hget)
      (mt (mem_inconsistent_add_of_ne hne).mp hid)
  | unmerged hmerge hget hid =>
    refine .unmerged ((lists_add hbases).symm ▸ hmerge) ?_
      ((mem_inconsistent_add_of_ne hne).mpr hid)
    rw [get?_add_of_ne hne, map_orderOf_add hbases, hget]

theorem settles_add (hnew : n ∉ o.inconsistent) (hbases : n ∉ resolvedBases bases n) :
    (o.add bases n).Settles bases n := by
  rcases add_cases bases o n with ⟨merged, hmerge, hadd⟩ | ⟨hmerge, hadd⟩
  · refine .merged ((lists_add hbases).symm ▸ hmerge) ?_ ?_
    · rw [hadd, get?_insert, if_pos rfl]
    · rw [hadd]
      exact hnew
  · refine .unmerged ((lists_add hbases).symm ▸ hmerge) ?_ ?_
    · rw [map_orderOf_add hbases, hadd, get?_insert, if_pos rfl]
    · rw [hadd]
      simp

/-! ## All classes -/

/-- What holds when some classes have been ordered. -/
structure Ordered (bases : OrderedMap DefId Bases) (ids : List DefId) (o : Linearized) : Prop where
  settles : ∀ id ∈ ids, o.Settles bases id
  get?_of_not_mem : ∀ id, id ∉ ids → o.orders.get? id = none
  sublist : o.inconsistent.Sublist ids

theorem Ordered.add {ids : List DefId} (h : Ordered bases ids o) (hnew : n ∉ ids)
    (hclosed : ∀ id ∈ ids ++ [n], ∀ base ∈ resolvedBases bases id, base ∈ ids) :
    Ordered bases (ids ++ [n]) (o.add bases n) where
  settles id hid := by
    -- no class up to this one names it as a base
    have hbases : n ∉ resolvedBases bases id := fun hn => hnew (hclosed id hid n hn)
    rcases mem_append.mp hid with hin | hid
    · refine (h.settles id hin).add ?_ hbases
      rintro rfl
      exact hnew hin
    · obtain rfl := mem_singleton.mp hid
      exact settles_add (fun hn => hnew (h.sublist.subset hn)) hbases
  get?_of_not_mem id hid := by
    simp only [mem_append, mem_singleton, not_or] at hid
    rw [get?_add_of_ne hid.2]
    exact h.get?_of_not_mem id hid.1
  sublist := by
    rcases add_cases bases o n with ⟨merged, _, hadd⟩ | ⟨_, hadd⟩ <;> rw [hadd]
    · exact h.sublist.trans (sublist_append_left ids [n])
    · exact h.sublist.append (List.Sublist.refl [n])

theorem ordered_foldl_add {ids : List DefId} (h : AfterSuccessors (resolvedBases bases) ids)
    (hnodup : ids.Nodup) (hfree : ∀ id ∈ ids, ¬ Leads (resolvedBases bases) id id) :
    Ordered bases ids (ids.foldl (Linearized.add bases) ⟨∅, []⟩) := by
  induction h with
  | nil => exact ⟨by simp, fun _ _ => rfl, List.Sublist.refl []⟩
  | @snoc ids n hids hn ih =>
    obtain ⟨hnodup', _, hdisjoint⟩ := nodup_append'.mp hnodup
    have hfree' : ∀ id ∈ ids, ¬ Leads (resolvedBases bases) id id :=
      fun id hid => hfree id (by simp [hid])
    rw [foldl_append]
    refine (ih hnodup' hfree').add (fun hin => hdisjoint hin (by simp)) fun id hid base hb => ?_
    rcases mem_append.mp hid with hid | hid
    · exact hids.mem_of_mem hfree' id hid base hb
    · obtain rfl := mem_singleton.mp hid
      refine (hn base hb).resolve_right fun hback => ?_
      exact hfree id (by simp) (.head' hb hback)

end Linearized

namespace Grounded

variable {bases : OrderedMap DefId Bases} {o : Linearized} {id : DefId}

theorem length_sound_le : (ofBases bases).sound.length ≤ bases.size := by
  have h := length_filter_le (fun id => !(ofBases bases).leadsToCycle id) bases.keys
  simp only [OrderedMap.keys, length_map] at h
  exact h

/-- All classes that do not lead to a cycle are ordered, and no other. -/
theorem ordered_orderAll (hg : Grounded bases) :
    ∃ ids, ids.Nodup ∧ (∀ id, id ∈ ids ↔ id ∈ (ofBases bases).sound) ∧
      Linearized.Ordered bases ids (orderAll (.ofBases bases)) := by
  obtain ⟨hnodup, hall, hinside, hafter⟩ := postorder_spec hg.sound_closed
    (fun id (hid : id ∈ (ofBases bases).sound) => hid) length_sound_le
  refine ⟨_, hnodup, fun id => ⟨hinside id, hall id⟩, ?_⟩
  exact Linearized.ordered_foldl_add hafter hnodup fun id hid => hg.not_leads_self (hinside id hid)

end Grounded

/-! ## What an order lists -/

section

variable (parents : DefId → List DefId) (order? : DefId → Option (List DefId))

/-- An order of the ancestors of a class that agrees with the orders of its bases and with the order
in which it names them. -/
structure Consistent (id : DefId) (order : List DefId) : Prop where
  nodup : order.Nodup
  mem_iff : ∀ d, d ∈ order ↔ Leads parents id d
  base_sublist : ∀ base ∈ parents id, ∀ above, order? base = some above → above.Sublist order
  bases_sublist : (parents id).Sublist order

/-- The order of a class: the class first, then its ancestors, each once. Unless the class is among
those warned of, and it is if it has no consistent order of ancestors, the order agrees with those
of the bases and with the list of bases. Without any warning on the way, each class stands before
its own ancestors. -/
structure Linearization (warned : List DefId) (id : DefId) (order : List DefId) : Prop where
  found : order? id = some order
  head : order.head? = some id
  nodup : order.Nodup
  mem_iff : ∀ d, d ∈ order ↔ Reaches parents id d
  warned_iff : id ∈ warned ↔ ¬ ∃ ancestors, Consistent parents order? id ancestors
  base_sublist : id ∉ warned → ∀ base ∈ parents id, ∃ above, order? base = some above ∧
    above.Sublist order
  bases_sublist : id ∉ warned → (parents id).Sublist order
  before : (∀ d, Reaches parents id d → d ∉ warned) → ∀ a ∈ order, ∀ d, Leads parents a d →
    [a, d].Sublist order

end

namespace Linearization

variable {bases : OrderedMap DefId Bases} {o : Linearized} {id : DefId}

/-- A merge agrees with the orders of the bases. -/
theorem sublist_of_merges {merged above : List DefId} (hm : Merges (o.lists bases id) merged)
    {base : DefId} (hb : base ∈ resolvedBases bases id) (habove : o.orders.get? base = some above) :
    above.Sublist merged := by
  refine hm.sublist above (mem_append_left _ (mem_map.mpr ⟨base, hb, ?_⟩))
  rw [Linearized.orderOf, habove, Option.getD_some]

section

variable (h : ∀ base ∈ resolvedBases bases id, ∃ above,
  Linearization (resolvedBases bases) o.orders.get? o.inconsistent base above)
include h

/-- The classes above a class are those in the orders of its bases. -/
theorem mem_flatten_iff (d : DefId) :
    d ∈ ((resolvedBases bases id).map o.orderOf).flatten ↔ Leads (resolvedBases bases) id d := by
  simp only [mem_flatten, mem_map, exists_exists_and_eq_and]
  have hmem : ∀ base ∈ resolvedBases bases id,
      (d ∈ o.orderOf base ↔ Reaches (resolvedBases bases) base d) := by
    intro base hb
    obtain ⟨above, habove⟩ := h base hb
    rw [Linearized.orderOf, habove.found, Option.getD_some]
    exact habove.mem_iff d
  rw [Leads, Relation.TransGen.head'_iff]
  exact exists_congr fun base => and_congr_right fun hb => hmem base hb

theorem mem_lists_iff (d : DefId) :
    (∃ l ∈ o.lists bases id, d ∈ l) ↔ Leads (resolvedBases bases) id d := by
  rw [← mem_flatten_iff h, Linearized.lists]
  simp only [mem_append, mem_singleton, mem_flatten]
  constructor
  · rintro ⟨l, hl | rfl, hd⟩
    · exact ⟨l, hl, hd⟩
    · -- a base stands in its own order
      obtain ⟨above, habove⟩ := h d hd
      refine ⟨o.orderOf d, mem_map_of_mem hd, ?_⟩
      rw [Linearized.orderOf, habove.found, Option.getD_some, habove.mem_iff]
      exact .refl
  · rintro ⟨l, hl, hd⟩
    exact ⟨l, .inl hl, hd⟩

/-- The lists that an order is merged from have a merge exactly when there is a consistent order. -/
theorem exists_merge_iff :
    (∃ merged, merge? (o.lists bases id) = some merged) ↔
      ∃ ancestors, Consistent (resolvedBases bases) o.orders.get? id ancestors := by
  constructor
  · rintro ⟨merged, hmerge⟩
    have hm := merges_of_merge? hmerge
    exact ⟨merged, hm.nodup, fun d => (hm.mem_iff d).trans (mem_lists_iff h d),
      fun base hb above => sublist_of_merges hm hb, hm.sublist _ (by simp [Linearized.lists])⟩
  · rintro ⟨ancestors, hc⟩
    refine exists_merge?_iff.mpr ⟨ancestors, hc.nodup, fun l hl => ?_⟩
    rcases mem_append.mp hl with hl | hl
    · obtain ⟨base, hb, rfl⟩ := mem_map.mp hl
      obtain ⟨above, habove⟩ := h base hb
      rw [Linearized.orderOf, habove.found, Option.getD_some]
      exact hc.base_sublist base hb above habove.found
    · exact mem_singleton.mp hl ▸ hc.bases_sublist

variable (hfree : ¬ Leads (resolvedBases bases) id id)
include hfree

theorem of_merged {merged : List DefId} (hmerge : merge? (o.lists bases id) = some merged)
    (hget : o.orders.get? id = some (id :: merged)) (hid : id ∉ o.inconsistent) :
    Linearization (resolvedBases bases) o.orders.get? o.inconsistent id (id :: merged) := by
  have hm := merges_of_merge? hmerge
  have hmem : ∀ d, d ∈ merged ↔ Leads (resolvedBases bases) id d :=
    fun d => (hm.mem_iff d).trans (mem_lists_iff h d)
  refine ⟨hget, rfl, nodup_cons.mpr ⟨mt (hmem id).mp hfree, hm.nodup⟩, fun d => ?_,
    iff_of_false hid (not_not_intro ((exists_merge_iff h).mp ⟨merged, hmerge⟩)), ?_, ?_, ?_⟩
  · rw [mem_cons, hmem, Reaches, Relation.reflTransGen_iff_eq_or_transGen]
    exact Iff.rfl
  · intro _ base hb
    obtain ⟨above, habove⟩ := h base hb
    exact ⟨above, habove.found, (sublist_of_merges hm hb habove.found).cons id⟩
  · intro _
    exact (hm.sublist _ (by simp [Linearized.lists])).cons id
  · intro hclean a ha d hd
    rcases mem_cons.mp ha with rfl | ha
    · exact (singleton_sublist.mpr ((hmem d).mpr hd)).cons_cons a
    · -- a class further up stands in the order of a base, before its ancestors there
      obtain ⟨base, hb, hr⟩ := Relation.TransGen.head'_iff.mp ((hmem a).mp ha)
      obtain ⟨above, habove⟩ := h base hb
      have hpair := habove.before (fun e he => hclean e (.head hb he)) a
        ((habove.mem_iff a).mpr hr) d hd
      exact (hpair.trans (sublist_of_merges hm hb habove.found)).cons id

/-- A class whose order is only the classes of the orders of its bases in a row. -/
theorem of_unmerged (hmerge : merge? (o.lists bases id) = none) (hget : o.orders.get? id =
      some (id :: ((resolvedBases bases id).map o.orderOf).flatten.eraseDups))
    (hid : id ∈ o.inconsistent) :
    Linearization (resolvedBases bases) o.orders.get? o.inconsistent id
      (id :: ((resolvedBases bases id).map o.orderOf).flatten.eraseDups) := by
  have hmem : ∀ d, d ∈ ((resolvedBases bases id).map o.orderOf).flatten.eraseDups ↔
      Leads (resolvedBases bases) id d := fun d => mem_eraseDups.trans (mem_flatten_iff h d)
  refine ⟨hget, rfl, nodup_cons.mpr ⟨mt (hmem id).mp hfree, nodup_eraseDups _⟩, fun d => ?_,
    iff_of_true hid fun hc => ?_, absurd hid, absurd hid, fun hclean =>
      absurd hid (hclean id .refl)⟩
  · rw [mem_cons, hmem, Reaches, Relation.reflTransGen_iff_eq_or_transGen]
    exact Iff.rfl
  · obtain ⟨merged, hsome⟩ := (exists_merge_iff h).mpr hc
    cases hmerge.symm.trans hsome

end

/-- Every class that does not lead to a cycle has its order, by induction from the bases up. -/
theorem of_ordered (hg : Grounded bases) {ids : List DefId}
    (hids : ∀ id, id ∈ ids ↔ id ∈ (ofBases bases).sound)
    (ho : Linearized.Ordered bases ids o) (hid : id ∈ (ofBases bases).sound) :
    ∃ order, Linearization (resolvedBases bases) o.orders.get? o.inconsistent id order := by
  induction id using hg.wellFounded_bases.induction with
  | _ id ih =>
    have hbases : ∀ base ∈ resolvedBases bases id, ∃ above,
        Linearization (resolvedBases bases) o.orders.get? o.inconsistent base above :=
      fun base hb => ih base ⟨hid, hb⟩ (hg.sound_closed id hid base hb)
    cases ho.settles id ((hids id).mpr hid) with
    | merged hmerge hget hcons =>
      exact ⟨_, of_merged hbases (hg.not_leads_self hid) hmerge hget hcons⟩
    | unmerged hmerge hget hinc =>
      exact ⟨_, of_unmerged hbases (hg.not_leads_self hid) hmerge hget hinc⟩

end Linearization

/-! ## Built hierarchies -/

/-- The class that a diagnostic says to have no consistent order. -/
def unordered? : Diagnostic → Option String
  | .inconsistentOrder qualname => some qualname
  | _ => none

/-- The classes that are free of cycles have their orders, and the reports name, each once, those of
them that have no consistent one. -/
def OrdersClasses (c : Catalog) (h : Hierarchy) (reports : List Diagnostic) : Prop :=
  ∃ warned : List DefId, warned.Nodup ∧
    (∀ id ∈ warned, id ∈ c.classes.keys ∧ h.isCyclic id = false) ∧
    reports.filterMap unordered? = warned.map c.qualnameOf ∧
    ∀ id ∈ c.classes.keys, h.isCyclic id = false →
      ∃ order, Linearization h.namedBases h.order? warned id order

section

variable {c : Catalog} {h : Hierarchy} {reports : List Diagnostic}

theorem order?_of_build (hs : c.Sound) (hb : build c = .ok (h, reports)) :
    h.order? = (orderAll (.ofBases (allBases c))).orders.get? := by
  funext id
  obtain ⟨ids, _, hids, ho⟩ := (grounded_allBases hs).ordered_orderAll
  unfold order?
  cases hget : h.entries.get? id with
  | none =>
    -- what is no class is not ordered
    refine (ho.get?_of_not_mem id fun hin => ?_).symm
    have hid := (Grounded.mem_sound.mp ((hids id).mp hin)).1
    rw [mem_keys_allBases, ← mem_keys_of_build hb] at hid
    exact get?_eq_none_iff.mp hget hid
  | some e => exact (fields_of_build hb hget).2

theorem filterMap_unordered?_of_build (hb : build c = .ok (h, reports)) :
    reports.filterMap unordered? =
      (orderAll (.ofBases (allBases c))).inconsistent.map c.qualnameOf := by
  rw [reports_of_build hb, filterMap_append, filterMap_map, filterMap_map]
  have hcycles : (ofBases (allBases c)).cycles.filterMap (unordered? ∘ cycleReport c) = [] :=
    filterMap_eq_nil_iff.mpr fun _ _ => rfl
  rw [hcycles, nil_append]
  exact congrFun filterMap_eq_map _

theorem ordersClasses_of_build (hs : c.Sound) (hb : build c = .ok (h, reports)) :
    OrdersClasses c h reports := by
  have hg := grounded_allBases hs
  obtain ⟨ids, hnodup, hids, ho⟩ := hg.ordered_orderAll
  refine ⟨_, ho.sublist.nodup hnodup, fun id hid => ?_, filterMap_unordered?_of_build hb, ?_⟩
  · have hsound := (hids id).mp (ho.sublist.subset hid)
    have hclass := mem_keys_allBases.mp (Grounded.mem_sound.mp hsound).1
    exact ⟨hclass, (mem_sound_of_build hb hclass).mp hsound⟩
  · intro id hid hfree
    rw [namedBases_of_build hb, order?_of_build hs hb]
    exact Linearization.of_ordered hg hids ho ((mem_sound_of_build hb hid).mpr hfree)

/-- A hierarchy with the orders of all classes that are free of cycles, and a report for each
without a consistent one, is built from every catalog, unless a base is given by a type that nests
too deeply or too many classes wait for each other, which takes a chain of so many bases. -/
theorem build_orders_iff {digests : List Digest}
    (hd : ∀ d ∈ digests, ∃ o version, Digest.ofOutline o version = .ok d) :
    ((∃ h reports, build (merge digests).1 = .ok (h, reports) ∧
        OrdersClasses (merge digests).1 h reports) ↔
      hasDeepBase (merge digests).1 = false ∧
        (ofBases (allBases (merge digests).1)).isTooHigh = false) ∧
      ((ofBases (allBases (merge digests).1)).isTooHigh = true →
        ∃ id ∈ (merge digests).1.classes.keys,
          HasChain (resolvedBases (allBases (merge digests).1)) maxClimb id) := by
  have hs := sound_merge_of_outlines hd
  refine ⟨exists_build_iff fun _ _ => ordersClasses_of_build hs, fun hhigh => ?_⟩
  obtain ⟨id, hid, hchain⟩ := exists_hasChain_of_isTooHigh hhigh
  exact ⟨id, mem_keys_allBases.mp hid, hchain⟩

end

/-- A diamond of classes, and a class that names a base and then one derived from it. -/
def diamondFile : Outline :=
  classFile [("Top", []), ("Left", ["Top"]), ("Right", ["Top"]), ("Bottom", ["Left", "Right"]),
    ("Twisted", ["Top", "Left"])]

theorem build_orders_diamond :
    (∀ d ∈ digestsOf [diamondFile], ∃ o version, Digest.ofOutline o version = .ok d) ∧
      ∃ h reports, build (merge (digestsOf [diamondFile])).1 = .ok (h, reports) ∧
        OrdersClasses (merge (digestsOf [diamondFile])).1 h reports := by
  have hd : ∀ d ∈ digestsOf [diamondFile], ∃ o version, Digest.ofOutline o version = .ok d :=
    fun _ => exists_outline_of_mem_digestsOf
  exact ⟨hd, (build_orders_iff hd).1.mpr (by decide +kernel)⟩

/-- The class at the top of a chain of six hundred classes leads to no cycle, and yet there is no
hierarchy that orders it. -/
theorem build_fails_on_tall_chain :
    tallId 0 ∈ (tallCatalog 600).classes.keys ∧
      ¬ Loops (resolvedBases (allBases (tallCatalog 600))) (tallId 0) ∧
      ¬ ∃ h reports, build (tallCatalog 600) = .ok (h, reports) := by
  have hheight : 600 < 900 := by decide
  have hg := grounded_allBases (declares_tallCatalog hheight).1
  refine ⟨(mem_classes_tall hheight (by decide)).1, ?_, ?_⟩
  · rw [← hg.leadsToCycle_iff, leadsToCycle_tall hheight]
    exact Bool.false_ne_true
  · rintro ⟨h, reports, hb⟩
    rw [build_tall hheight (by decide)] at hb
    cases hb

end Xref.Hierarchy

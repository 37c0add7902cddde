import Xref.Index.Persisted
import Xref.Proofs.Unversioned

/-!
# What a saved index tells

The saved data of an index tells its definitions but for their versions, its hierarchy, and its call
sites but for their dependencies and the paths of their files.
-/

namespace Xref

open List Definition

/-- The part of a call site that is saved. -/
def Site.saved (s : Site) : Site :=
  { s with path := "", dependencies := [] }

namespace Index

theorem word_injective_receiverKind {a b : ReceiverKind} (h : a.word = b.word) : a = b := by
  cases a <;> cases b <;> first | rfl | simp [ReceiverKind.word] at h

theorem word_injective_confidence {a b : Confidence} (h : a.word = b.word) : a = b := by
  cases a <;> cases b <;> first | rfl | simp [Confidence.word] at h

theorem word_injective_dispatch {a b : Dispatch} (h : a.word = b.word) : a = b := by
  cases a <;> cases b <;> first | rfl | simp [Dispatch.word] at h

theorem texts_injective {xs ys : List String} (h : Json.texts xs = Json.texts ys) : xs = ys := by
  unfold Json.texts at h
  injection h with h
  exact (List.map_inj_right fun a b hab => by injection hab).mp h

theorem text?_injective {a b : Option String} (h : Json.text? a = Json.text? b) : a = b := by
  cases a <;> cases b <;> simp_all [Json.text?]

theorem int?_injective {a b : Option Int} (h : Json.int? a = Json.int? b) : a = b := by
  cases a <;> cases b <;> simp_all [Json.int?]

/-- The fields of a call site tell all that is saved of it. -/
theorem saved_eq_of_siteFields {s t : Site} (h : siteFields s = siteFields t) :
    s.saved = t.saved := by
  simp only [siteFields, List.cons.injEq, Prod.mk.injEq, true_and, Json.str.injEq, Json.int.injEq,
    Json.bool.injEq, and_true] at h
  obtain ⟨hid, hcaller, hline, hcolumn, horder, hcallee, hreceiver, hkind, hargs, htargets,
    hconfidence, hdispatch, hsuspended, hdecorators⟩ := h
  have hlocation : s.location = t.location := by
    cases hs : s.location
    cases ht : t.location
    simp_all
  cases s
  cases t
  simp only [Site.saved, Site.mk.injEq, true_and, and_true]
  exact ⟨hid, hcaller, hlocation, Int.ofNat.inj horder, hcallee, text?_injective hreceiver,
    word_injective_receiverKind hkind, int?_injective hargs, texts_injective htargets,
    word_injective_confidence hconfidence, word_injective_dispatch hdispatch, hsuspended,
    texts_injective hdecorators⟩

def savedOrder (c : Catalog) : Site → Site → Ordering :=
  compareLex (byText fun s : Site => c.qualnameOf s.caller)
    (compareLex (compareOn (·.location)) (compareLex (compareOn (·.order)) (byText (·.id))))

theorem map_saved_sitesByCaller (x : Index) :
    x.sitesByCaller.map Site.saved = sortOn (savedOrder x.catalog)
      (x.sites.values.map Site.saved) := by
  have hsaved : ∀ a b : Site,
      savedOrder x.catalog a.saved b.saved = savedOrder x.catalog a b := fun _ _ => rfl
  exact map_sortOn hsaved x.sites.values

theorem fileRecords_unversioned (c : Catalog) :
    (sortOn (byText Digest.path) c.unversioned.files.values).map fileRecord =
      (sortOn (byText Digest.path) c.files.values).map fileRecord := by
  have hpath : ∀ a b : Digest,
      byText Digest.path a.unversioned b.unversioned = byText Digest.path a b := fun _ _ => rfl
  rw [c.values_files_unversioned, ← map_sortOn hpath, map_map]
  rfl

theorem definitionRecords_unversioned (c : Catalog) :
    (sortOn nameOrder c.unversioned.definitions.values).map definitionRecord =
      (sortOn nameOrder c.definitions.values).map definitionRecord := by
  have hname : ∀ a b : Definition,
      nameOrder a.unversioned b.unversioned = nameOrder a b := fun _ _ => rfl
  rw [c.values_definitions_unversioned, ← map_sortOn hname, map_map]
  rfl

/-- Indexes that agree on what is saved of them are saved as the same data. -/
theorem toData_congr {x y : Index} (hc : x.catalog.unversioned = y.catalog.unversioned)
    (hh : x.hierarchy = y.hierarchy)
    (hs : x.sites.values.map Site.saved = y.sites.values.map Site.saved) : x.toData = y.toData := by
  have hsites : x.sitesByCaller.map Site.saved = y.sitesByCaller.map Site.saved := by
    have hnames : x.catalog.qualnameOf = y.catalog.qualnameOf := by
      rw [← x.catalog.qualnameOf_unversioned, ← y.catalog.qualnameOf_unversioned, hc]
    rw [map_saved_sitesByCaller, map_saved_sitesByCaller, hs, savedOrder, savedOrder, hnames]
  have hrecords : x.sitesByCaller.map (fun s => Json.obj (siteFields s)) =
      y.sitesByCaller.map fun s => Json.obj (siteFields s) := by
    have := congrArg (List.map fun s => Json.obj (siteFields s)) hsites
    rwa [map_map, map_map] at this
  have hedges : x.sitesByCaller.flatMap (fun s => s.targets.map (edgeRecord s)) =
      y.sitesByCaller.flatMap fun s => s.targets.map (edgeRecord s) := by
    have := congrArg (List.flatMap fun s : Site => s.targets.map (edgeRecord s)) hsites
    rwa [flatMap_map, flatMap_map] at this
  unfold toData
  dsimp only
  rw [hrecords, hedges, hh, ← fileRecords_unversioned x.catalog,
    ← fileRecords_unversioned y.catalog,
    ← definitionRecords_unversioned x.catalog, ← definitionRecords_unversioned y.catalog, hc]

/-- Every call site stands under its id. -/
def KeyedSites (x : Index) : Prop :=
  ∀ id s, x.sites.get? id = some s → s.id = id

/-- The data tells what is saved of each call site. -/
theorem get?_saved_of_toData {x y : Index} (hx : x.KeyedSites) (hy : y.KeyedSites)
    (h : x.toData = y.toData) (id : SiteId) {s : Site} (hs : x.sites.get? id = some s) :
    ∃ t, y.sites.get? id = some t ∧ s.saved = t.saved := by
  have hrecords : x.sitesByCaller.map (fun s => Json.obj (siteFields s)) =
      y.sitesByCaller.map fun s => Json.obj (siteFields s) := by
    unfold toData at h
    simp only [Json.obj.injEq, List.cons.injEq, Prod.mk.injEq, Json.arr.injEq, true_and] at h
    exact h.2.2.2.1
  have hmem : s ∈ x.sitesByCaller := by
    refine mem_sortOn.mpr (mem_map.mpr ⟨(id, s), ?_, rfl⟩)
    exact OrderedMap.get?_eq_some_iff.mp hs
  have hrecord : Json.obj (siteFields s) ∈ y.sitesByCaller.map fun s => Json.obj (siteFields s) :=
    hrecords ▸ mem_map_of_mem hmem
  obtain ⟨t, ht, hfields⟩ := mem_map.mp hrecord
  have hsaved : s.saved = t.saved := (saved_eq_of_siteFields (Json.obj.inj hfields)).symm
  obtain ⟨⟨id', t'⟩, he, rfl⟩ := mem_map.mp (mem_sortOn.mp ht)
  have hget : y.sites.get? id' = some t' := OrderedMap.get?_eq_some_iff.mpr he
  have hids : s.saved.id = t'.saved.id := congrArg Site.id hsaved
  change s.id = t'.id at hids
  rw [hx id s hs, hy id' t' hget] at hids
  subst hids
  exact ⟨t', hget, hsaved⟩

end Index

end Xref

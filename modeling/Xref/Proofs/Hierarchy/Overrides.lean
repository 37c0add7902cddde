import Xref.Proofs.Hierarchy.Shape
import Xref.Proofs.SmallFiles

/-!
# The override index

For each class and member the hierarchy lists the concrete definitions that the member may run on an
object of the class. The list is made for the members whose names occur in the class, in its
ancestors or in the classes derived from it. For these it holds exactly what lookups in the derived
classes give. A derived class can also inherit a member from a base outside these: then nothing is
listed for it.
-/

namespace Xref.Hierarchy

open List OrderedMap Xref.Small

def DefinesMember (c : Catalog) (member : String) (id : DefId) : Prop :=
  ∃ b, c.ownMember? id member = some b ∧ b.value.definition?.isSome

variable {c : Catalog} {id : DefId} {member : String} {h : Hierarchy} {below : List DefId}

theorem mem_definedNames : member ∈ definedNames c id ↔ DefinesMember c member id := by
  unfold definedNames DefinesMember Catalog.ownMember?
  cases hd : c.classes.get? id with
  | none => simp
  | some decl =>
    cases hs : c.scopes.get? decl.body with
    | none => simp [hs]
    | some scope =>
      simp only [Option.bind_some, hs, Option.bind_eq_bind, mem_map, mem_filter, Prod.exists,
        exists_and_right, exists_eq_right]
      constructor
      · rintro ⟨b, hm, hb⟩
        exact ⟨b, get?_eq_some_iff.mpr hm, hb⟩
      · rintro ⟨b, hg, hb⟩
        exact ⟨b, get?_eq_some_iff.mp hg, hb⟩

theorem mem_memberNames : member ∈ memberNames h c id below ↔
      ∃ d ∈ (h.order? id).getD [] ++ below, DefinesMember c member d := by
  unfold memberNames
  rw [mem_sortedSet, mem_flatMap]
  simp only [mem_definedNames]

/-- What the index lists: for the names that are collected, the concrete definitions below the
class. -/
theorem dispatchTargets_filled (hk : h.Keyed) (c : Catalog) {e : ClassEntry}
    (he : h.entries.get? id = some e) (hac : e.isCyclic = false)
    (hbelow : h.subtree? id = some below) (member : String) :
    (h.filled c).dispatchTargets id member =
      if member ∈ memberNames h c id below then concreteTargets h c below member else [] := by
  have hover : (withMembers h c e).overrides =
      .ofList (((memberNames h c id below).filter fun n =>
        !(concreteTargets h c below n).isEmpty).map fun n => (n, concreteTargets h c below n)) := by
    rw [withMembers, hac]
    simp only [Bool.false_eq_true, if_false, hk id e he, hbelow, Option.getD_some, filter_map]
    rfl
  rw [dispatchTargets, get?_filled, he, Option.map_some, Option.bind_some, hover,
    OrderedMap.get?_ofList_map]
  by_cases hm : member ∈ memberNames h c id below
  · -- a member without concrete definitions is left out, which reads as an empty list
    by_cases hempty : concreteTargets h c below member = []
    · simp [hempty]
    · simp [hm, hempty]
  · simp [hm]

theorem dispatchTargets_of_build {reports : List Diagnostic} (hb : build c = .ok (h, reports))
    (hid : id ∈ h.entries.keys) (hac : h.isCyclic id = false) (hbelow : h.subtree? id = some below)
    (member : String) :
    h.dispatchTargets id member =
      if member ∈ memberNames h c id below then concreteTargets h c below member else [] := by
  have hk := keyed_bare c (.ofBases (allBases c))
  rw [eq_filled_of_build hb] at hid hac hbelow ⊢
  generalize bare c (.ofBases (allBases c)) = b at *
  rw [keys_filled] at hid
  rw [isCyclic_filled] at hac
  rw [subtree?_filled] at hbelow
  obtain ⟨e, he⟩ := mem_keys_iff.mp hid
  have hae : e.isCyclic = false := by simpa [isCyclic, he] using hac
  rw [dispatchTargets_filled hk c he hae hbelow]
  unfold memberNames concreteTargets
  rw [order?_filled, concrete?_filled]

/-- What the index lists is what a member of some class runs. -/
theorem exists_concrete?_of_mem_dispatchTargets {reports : List Diagnostic}
    (hb : build c = .ok (h, reports)) {t : DefId} (ht : t ∈ h.dispatchTargets id member) :
    ∃ d, h.concrete? c member d = some t := by
  have hid : id ∈ h.entries.keys := by
    by_contra hout
    simp [dispatchTargets, get?_eq_none_iff.mpr hout] at ht
  obtain ⟨e, he⟩ := mem_keys_iff.mp hid
  cases hc : h.isCyclic id with
  | true =>
    -- nothing is filled in for a class that leads to a cycle
    obtain ⟨decl, _, rfl⟩ := exists_decl_of_build hb he
    have hcyclic :
      (withMembers (bare c (.ofBases (allBases c))) c (bareEntry c (.ofBases (allBases c))
        (orderAll (.ofBases (allBases c))).orders id decl)).isCyclic := by
      simpa [isCyclic, he] using hc
    rw [withMembers_isCyclic] at hcyclic
    rw [dispatchTargets, he, Option.bind_some, withMembers, if_pos hcyclic] at ht
    cases ht
  | false =>
    obtain ⟨below, hbelow, _⟩ := (keyed_of_build hb).subtree hid
    rw [dispatchTargets_of_build hb hid hc hbelow] at ht
    split at ht
    · obtain ⟨d, _, hd⟩ := mem_filterMap.mp (mem_eraseDups.mp ht)
      exact ⟨d, hd⟩
    · cases ht

/-- The override index of a class is exact for a member if and only if the class, an ancestor or a
derived class defines the member in its body, or no class of the subtree runs a concrete definition
for it. What the index should list is what lookups from the classes of the subtree give, in its
order and each once. -/
theorem dispatchTargets_eq_iff {c : Catalog} {h : Hierarchy} {reports : List Diagnostic}
    (hb : build c = .ok (h, reports)) {id : DefId} (hid : id ∈ h.entries.keys)
    (hac : h.isCyclic id = false) (member : String) :
    ∃ below, h.subtree? id = some below ∧ below.head? = some id ∧ below.Nodup ∧
      (∀ d, d ∈ below ↔ h.Derives id d) ∧
      (h.dispatchTargets id member = (below.filterMap (h.concrete? c member)).eraseDups ↔
        (∃ d ∈ (h.order? id).getD [] ++ below, DefinesMember c member d) ∨
          ∀ d ∈ below, h.concrete? c member d = none) := by
  obtain ⟨below, hbelow, hhead, hnodup, hmem⟩ := (keyed_of_build hb).subtree hid
  refine ⟨below, hbelow, hhead, hnodup, hmem, ?_⟩
  rw [dispatchTargets_of_build hb hid hac hbelow, ← mem_memberNames]
  by_cases hm : member ∈ memberNames h c id below
  · simp [hm, concreteTargets]
  · -- nothing is listed, which is right when there is nothing to list
    have hnil : ∀ ts : List DefId, [] = ts.eraseDups ↔ ts = [] := by
      intro ts
      cases ts <;> simp [eraseDups_cons]
    simp [hm, hnil, filterMap_eq_nil_iff]

/-! ## A base beside -/

/-- A class, another that defines a member, and one that derives from both. -/
def besideCatalog : Catalog :=
  catalogOf [file "m.py" "m"
    [classItem "Base" [] [], classItem "Mixin" [] [functionItem "f" "run" false []],
     classItem "Job" ["Base", "Mixin"] []]]

/-- The hierarchy of a catalog; an empty one where it cannot be built. -/
def built (c : Catalog) : Hierarchy × List Diagnostic :=
  (build c).toOption.getD (⟨∅⟩, [])

/-- An object of the first class may be one of the third, on which the member runs the definition of
the second. The index of the first class does not list it. -/
theorem dispatchTargets_misses_inherited :
    ∃ h reports, build besideCatalog = .ok (h, reports) ∧
      "m.py::m.Base" ∈ h.entries.keys ∧ h.isCyclic "m.py::m.Base" = false ∧
      h.subtree? "m.py::m.Base" = some ["m.py::m.Base", "m.py::m.Job"] ∧
      (["m.py::m.Base", "m.py::m.Job"].filterMap (h.concrete? besideCatalog "run")).eraseDups =
        ["m.py::m.Mixin.run"] ∧
      h.dispatchTargets "m.py::m.Base" "run" = [] :=
  ⟨(built besideCatalog).1, (built besideCatalog).2, by decide +kernel⟩

/-- The index of the second class lists the definition, which it defines itself. -/
theorem dispatchTargets_mixin :
    ∃ h reports below, build besideCatalog = .ok (h, reports) ∧
      h.subtree? "m.py::m.Mixin" = some below ∧
      h.dispatchTargets "m.py::m.Mixin" "run" =
        (below.filterMap (h.concrete? besideCatalog "run")).eraseDups ∧
      h.dispatchTargets "m.py::m.Mixin" "run" = ["m.py::m.Mixin.run"] := by
  have hb : build besideCatalog = .ok ((built besideCatalog).1, (built besideCatalog).2) := by
    decide +kernel
  have hid : "m.py::m.Mixin" ∈ (built besideCatalog).1.entries.keys := by decide +kernel
  have hdef : DefinesMember besideCatalog "run" "m.py::m.Mixin" :=
    ⟨⟨"run", "m.py#Mixin", .declared "m.py::m.Mixin.run"⟩, by decide +kernel⟩
  obtain ⟨below, hbelow, _, _, hmem, hiff⟩ :=
    dispatchTargets_eq_iff hb hid (by decide +kernel) "run"
  have hself : "m.py::m.Mixin" ∈ below := (hmem _).mpr .refl
  refine ⟨_, _, below, hb, hbelow, hiff.mpr (.inl ⟨_, ?_, hdef⟩), by decide +kernel⟩
  exact mem_append_right _ hself

end Xref.Hierarchy

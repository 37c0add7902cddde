import Xref.Proofs.Digest.Linked
import Xref.Proofs.Digest.Reports
import Xref.Proofs.Hierarchy.Orders

/-!
# Hierarchies over linked tables

A catalog that is merged from linked digests is linked as well, even where ids of different files
coincide. So all that is read of it while a hierarchy is built is there: the definition and the body
of each class, the file of each scope, and a record for each class that is found as a base. Nothing
but the depth of types and the height of the hierarchy is then in the way.
-/

namespace Xref

open OrderedMap Xref.Graph Digest Catalog Xref.Small

namespace Catalog

/-- What the entries of a catalog refer to is there: the scope around a scope and its file, and for
a class its record, its definition and its body. -/
structure Linked (c : Catalog) : Prop extends c.Sound where
  scope : ∀ {id s}, c.scopes.get? id = some s → s.id = id ∧ s.path ∈ c.files.keys ∧
    ∀ parent, s.parent = some parent → parent ∈ c.scopes.keys
  record : ∀ {id decl}, c.classes.get? id = some decl → decl.id = id ∧ decl.body ∈ c.scopes.keys

theorem mem_keys_scopes_merge {digests : List Digest} {id : ScopeId} {d : Digest}
    (hd : d ∈ (filesOf digests).values) (hid : id ∈ d.scopes.keys) :
    id ∈ (merge digests).1.scopes.keys := by
  obtain ⟨e, he, rfl⟩ := List.mem_map.mp hid
  refine mem_keys_ofList.mpr (List.mem_map_of_mem ?_)
  exact List.mem_flatMap.mpr ⟨d, hd, he⟩

theorem linked_merge {digests : List Digest} (h : ∀ d ∈ digests, d.Linked) :
    (merge digests).1.Linked := by
  refine ⟨sound_merge fun d hd => (h d hd).sound, fun {id s} hs => ?_, fun {id decl} hdecl => ?_⟩
  · obtain ⟨d, hd, he⟩ := List.mem_flatMap.mp (mem_of_get?_ofList hs)
    obtain ⟨hid, hpath, hparent⟩ :=
      (h d (mem_of_mem_filesOf hd)).scope (OrderedMap.get?_eq_some_iff.mpr he)
    refine ⟨hid, ?_, fun parent heq => mem_keys_scopes_merge hd (hparent parent heq)⟩
    rw [hpath]
    exact mem_keys_iff.mpr ⟨d, get?_filesOf_of_mem hd⟩
  · obtain ⟨d, hd, he⟩ := List.mem_flatMap.mp (mem_of_get?_ofList hdecl)
    obtain ⟨hid, _, s, hs, _⟩ :=
      (h d (mem_of_mem_filesOf hd)).record (OrderedMap.get?_eq_some_iff.mpr he)
    exact ⟨hid, mem_keys_scopes_merge hd (mem_keys_iff.mpr ⟨s, hs⟩)⟩

end Catalog

namespace Hierarchy

/-! ## Complete hierarchies -/

/-- A hierarchy is of the classes of a catalog: it has an entry for each, with an order unless the
class leads to a cycle, and its bases, orders and subtrees are of such classes only. -/
structure Complete (h : Hierarchy) (c : Catalog) : Prop where
  listed : ∀ id, id ∈ h.entries.keys ↔ id ∈ c.classes.keys
  ordered : ∀ id ∈ c.classes.keys, h.isCyclic id = false → ∃ order, h.order? id = some order
  bases : ∀ id, ∀ base ∈ h.namedBases id, base ∈ c.classes.keys
  ancestors : ∀ id order, h.order? id = some order → ∀ a ∈ order, a ∈ c.classes.keys
  derived : ∀ id below, h.subtree? id = some below → ∀ d ∈ below, d ∈ c.classes.keys

theorem Grounded.mem_keys_of_reaches {bases : OrderedMap DefId Bases} (hg : Grounded bases)
    {id d : DefId} (hid : id ∈ bases.keys) (h : Reaches (resolvedBases bases) id d) :
    d ∈ bases.keys := by
  induction h with
  | refl => exact hid
  | tail _ hb _ => exact hg.mem_keys _ _ hb

section

variable {c : Catalog} {h : Hierarchy} {reports : List Diagnostic}

/-- A class with an order leads to no cycle. -/
theorem isCyclic_of_order? (hs : c.Sound) (hb : build c = .ok (h, reports)) {id : DefId}
    {order : List DefId} (ho : h.order? id = some order) :
    id ∈ c.classes.keys ∧ h.isCyclic id = false := by
  obtain ⟨ids, _, hids, hordered⟩ := (grounded_allBases hs).ordered_orderAll
  have hmem : id ∈ ids := by
    by_contra hid
    rw [order?_of_build hs hb, hordered.get?_of_not_mem id hid] at ho
    cases ho
  have hsound := (hids id).mp hmem
  have hclass := mem_keys_allBases.mp (Grounded.mem_sound.mp hsound).1
  exact ⟨hclass, (mem_sound_of_build hb hclass).mp hsound⟩

theorem complete_of_build (hs : c.Sound) (hb : build c = .ok (h, reports)) : h.Complete c := by
  have hg := grounded_allBases hs
  obtain ⟨warned, _, _, _, horders⟩ := ordersClasses_of_build hs hb
  refine ⟨fun id => mem_keys_of_build hb, fun id hid hfree => ?_, fun id base hbase => ?_,
    fun id order ho a ha => ?_, fun id below hbelow d hd => ?_⟩
  · obtain ⟨order, hlinear⟩ := horders id hid hfree
    exact ⟨order, hlinear.found⟩
  · rw [namedBases_of_build hb] at hbase
    exact mem_keys_allBases.mp (hg.mem_keys id base hbase)
  · obtain ⟨hid, hfree⟩ := isCyclic_of_order? hs hb ho
    obtain ⟨order', hlinear⟩ := horders id hid hfree
    cases ho.symm.trans hlinear.found
    have hreach := (hlinear.mem_iff a).mp ha
    rw [namedBases_of_build hb] at hreach
    exact mem_keys_allBases.mp (hg.mem_keys_of_reaches (mem_keys_allBases.mpr hid) hreach)
  · exact (mem_keys_of_build hb).mp ((keyed_of_build hb).mem_keys_of_subtree? hbelow hd)

end

/-- **Tables are linked, and a hierarchy over them fails only by depth or height.** The digest of
every file that is not malformed is whole, however its declarations nest and replace each other.
Digests merge into a linked catalog. A complete hierarchy is built of it exactly if no base is given
by a type that nests too deeply and not too many classes wait for each other. -/
theorem build_over_linked_iff {digests : List Digest}
    (hd : ∀ d ∈ digests, ∃ o version, ofOutline o version = .ok d) :
    (∀ d ∈ digests, d.isFailed = false → d.Whole) ∧ (merge digests).1.Linked ∧
      ((∃ h reports, build (merge digests).1 = .ok (h, reports) ∧
          h.Complete (merge digests).1) ↔
        hasDeepBase (merge digests).1 = false ∧
          (Ancestry.ofBases (allBases (merge digests).1)).isTooHigh = false) := by
  have hlinked : (merge digests).1.Linked := by
    refine linked_merge fun d hmem => ?_
    obtain ⟨o, version, ho⟩ := hd d hmem
    exact linked_ofOutline ho
  refine ⟨fun d hmem hok => ?_, hlinked,
    exists_build_iff fun _ _ => complete_of_build hlinked.toSound⟩
  obtain ⟨o, version, ho⟩ := hd d hmem
  exact whole_ofOutline ho hok

/-- A class with a class and a method inside, which is declared again with others of the same names,
and a class derived from it in another file. -/
def revisedFiles : List Outline :=
  [file "m.py" "m"
      [classItem "A" []
        [classItem "Part" [] [], functionItem "run" "run" false [callItem "c1" "Part"]],
        .classDecl (mark "A2") ⟨"A", [], []⟩
          [.classDecl (mark "Part2") ⟨"Part", [], []⟩ [],
            functionItem "run2" "run" false [callItem "c2" "Part"]]],
    file "n.py" "n" [importItem "i" "m" "A", classItem "D" ["A"] []]]

/-- What the later declaration of the class replaces leaves no trace in the tables, and a hierarchy
is built. -/
theorem build_over_revised :
    (∀ d ∈ digestsOf revisedFiles, d.Whole) ∧
      (catalogOf revisedFiles).classes.keys = ["m.py::m.A", "m.py::m.A.Part", "n.py::n.D"] ∧
      ∃ h reports, build (catalogOf revisedFiles) = .ok (h, reports) ∧
        h.Complete (catalogOf revisedFiles) := by
  obtain ⟨hwhole, _, hbuild⟩ := build_over_linked_iff
    fun d (hd : d ∈ digestsOf revisedFiles) => exists_outline_of_mem_digestsOf hd
  have hok : ∀ d ∈ digestsOf revisedFiles, d.isFailed = false := by decide +kernel
  refine ⟨fun d hd => hwhole d hd (hok d hd), by decide +kernel, hbuild.mpr ⟨?_, ?_⟩⟩
  · decide +kernel
  · decide +kernel

/-- The tables of a chain of seven hundred classes are whole, and yet no hierarchy is built of
them. -/
theorem build_fails_over_whole :
    ∃ d, ofOutline (classFile (tallHeads 700)) 1 = .ok d ∧ d.isFailed = false ∧ d.Whole ∧
      build (merge [d]).1 = .error .tooDeep := by
  have hheight : 700 < 900 := by decide
  have hplain := plain_tallHeads hheight
  have hnodup := nodup_tallHeads hheight
  obtain ⟨d, hd, _⟩ := exists_digest_classFile hplain hnodup
  have hok := (not_failed_of_check (check_classFile hplain hnodup) hd).1
  have hcatalog : tallCatalog 700 = (merge [d]).1 := by
    simp [tallCatalog, catalogOf, digestsOf, hd, Except.toOption]
  refine ⟨d, hd, hok, whole_ofOutline hd hok, ?_⟩
  rw [← hcatalog]
  exact build_tall hheight (by decide)

end Hierarchy

end Xref

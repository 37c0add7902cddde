import Xref.Proofs.Hierarchy.Orders

/-!
# Subtrees and orders

A subtree is walked down from a class, against the bases and past all classes that lead to a cycle;
an order is merged from those of the bases, from below. Both tell the same: that a class derives
from another. Passing over a class cuts off nothing, since all that derives from it leads to the
cycle as well.
-/

namespace Xref.Hierarchy

open Xref.Graph Catalog Xref.Small

/-- Every class has a subtree, which starts with it and lists no class twice. That of a class that
leads to a cycle is the class alone. For any two classes that do not, the one lists the other in its
subtree exactly if it is listed in the order of the other. -/
def SubtreesMirrorOrders (c : Catalog) (h : Hierarchy) : Prop :=
  ∀ a ∈ c.classes.keys, ∃ below, h.subtree a = .ok below ∧ below.head? = some a ∧ below.Nodup ∧
    (h.isCyclic a → below = [a]) ∧
    (h.isCyclic a = false → ∀ d ∈ c.classes.keys, h.isCyclic d = false →
      ∃ order, h.order? d = some order ∧ (d ∈ below ↔ a ∈ order))

section

variable {c : Catalog} {h : Hierarchy} {reports : List Diagnostic} {base a d : DefId}

theorem directlyDerives_iff :
    h.DirectlyDerives base d ↔ base ∈ h.namedBases d ∧ h.isCyclic d = false := by
  unfold DirectlyDerives namedBases isCyclic
  cases h.entries.get? d <;> simp

/-- The bases of a class that does not lead to a cycle do not either. -/
theorem isCyclic_of_namedBases (hs : c.Sound) (hb : build c = .ok (h, reports))
    (hbase : base ∈ h.namedBases d) (hfree : h.isCyclic d = false) : h.isCyclic base = false := by
  rw [namedBases_of_build hb] at hbase
  have hd := mem_keys_allBases.mp (Grounded.mem_keys_of_base hbase)
  have hsound :=
    (grounded_allBases hs).sound_closed d ((mem_sound_of_build hb hd).mpr hfree) base hbase
  exact (mem_sound_of_build hb (mem_keys_allBases.mp (Grounded.mem_sound.mp hsound).1)).mp hsound

/-- Deriving from a class is reaching it over the bases. -/
theorem derives_iff_reaches (hs : c.Sound) (hb : build c = .ok (h, reports))
    (hfree : h.isCyclic d = false) : h.Derives a d ↔ Reaches h.namedBases d a := by
  constructor
  · intro hderives
    clear hfree
    induction hderives with
    | refl => exact .refl
    | tail _ hlast ih => exact .head (directlyDerives_iff.mp hlast).1 ih
  · intro hreach
    induction hreach using Relation.ReflTransGen.head_induction_on with
    | refl => exact .refl
    | head hbase _ ih =>
      -- the walk does not pass over the base
      exact .tail (ih (isCyclic_of_namedBases hs hb hbase hfree)) (directlyDerives_iff.mpr ⟨hbase,
        hfree⟩)

theorem subtreesMirrorOrders_of_build (hs : c.Sound) (hb : build c = .ok (h, reports)) :
    SubtreesMirrorOrders c h := by
  intro a ha
  obtain ⟨below, hbelow, hhead, hnodup, hmem⟩ :=
    (keyed_of_build hb).subtree ((mem_keys_of_build hb).mpr ha)
  refine ⟨below, by rw [subtree, hbelow], hhead, hnodup, fun hcyclic => ?_, fun _ d hd hfree => ?_⟩
  · -- what derives from the class directly would lead to the cycle
    have hself : ∀ d ∈ below, d = a := by
      intro d hd
      obtain heq | ⟨b, hfirst, _⟩ := ((hmem d).mp hd).cases_head
      · exact heq.symm
      · obtain ⟨hbase, hfree⟩ := directlyDerives_iff.mp hfirst
        rw [isCyclic_of_namedBases hs hb hbase hfree] at hcyclic
        cases hcyclic
    obtain ⟨rest, rfl⟩ := List.head?_eq_some_iff.mp hhead
    cases rest with
    | nil => rfl
    | cons b rest => simp [hself b (by simp)] at hnodup
  · obtain ⟨warned, _, _, _, horders⟩ := ordersClasses_of_build hs hb
    obtain ⟨order, horder⟩ := horders d hd hfree
    refine ⟨order, horder.found, ?_⟩
    rw [hmem, horder.mem_iff, derives_iff_reaches hs hb hfree]

end

/-- **Subtrees and orders are dual** in every hierarchy that is built. -/
theorem subtree_dual_to_order {digests : List Digest}
    (hd : ∀ d ∈ digests, ∃ o version, Digest.ofOutline o version = .ok d) {h : Hierarchy}
    {reports : List Diagnostic} (hb : build (merge digests).1 = .ok (h, reports)) :
    SubtreesMirrorOrders (merge digests).1 h :=
  subtreesMirrorOrders_of_build (sound_merge_of_outlines hd) hb

/-- A fork of classes with one that names its bases in an order that does not fit, and a class that
is its own base, with one that derives from it and from the fork. -/
def forkedFile : Outline :=
  classFile [("Top", []), ("Left", ["Top"]), ("Twisted", ["Top", "Left"]), ("Self", ["Self"]),
    ("Under", ["Self", "Left"])]

theorem subtree_dual_to_order_forked :
    (∀ d ∈ digestsOf [forkedFile], ∃ o version, Digest.ofOutline o version = .ok d) ∧
      ∃ h reports, build (merge (digestsOf [forkedFile])).1 = .ok (h, reports) ∧
        SubtreesMirrorOrders (merge (digestsOf [forkedFile])).1 h := by
  have hd : ∀ d ∈ digestsOf [forkedFile], ∃ o version, Digest.ofOutline o version = .ok d :=
    fun _ => exists_outline_of_mem_digestsOf
  obtain ⟨h, reports, hb, _⟩ := (exists_build_iff (c := (merge (digestsOf [forkedFile])).1)
    fun _ _ _ => trivial).mpr (by decide +kernel)
  exact ⟨hd, h, reports, hb, subtree_dual_to_order hd hb⟩

end Xref.Hierarchy

import Xref.Catalog.Basic
import Xref.Proofs.Digest.Classes

/-!
# Merged catalogs

What holds of the definitions and classes of every digest holds of a catalog that is merged from
them. Its files are the last digests of each path.
-/

namespace Xref.Catalog

open List OrderedMap Digest

variable {id : DefId} {x : Definition} {digests : List Digest} {d : Digest}

/-- The definitions of filled tables are those that were entered, each under its id. -/
theorem mem_of_get?_foldl_add {ds : List Definition} {t : Tables}
    (h : (ds.foldl Tables.add t).definitions.get? id = some x) :
    t.definitions.get? id = some x ∨ x ∈ ds ∧ x.id = id := by
  induction ds generalizing t with
  | nil => exact .inl h
  | cons d ds ih =>
    rw [foldl_cons] at h
    rcases ih h with hadd | ⟨hmem, hid⟩
    · have hins : (t.definitions.insert d.id d).get? id = some x := hadd
      rw [get?_insert] at hins
      split at hins
      · next hid =>
        cases hins
        exact .inr ⟨mem_cons_self, hid.symm⟩
      · exact .inl hins
    · exact .inr ⟨mem_cons_of_mem _ hmem, hid⟩

theorem definitions_foldl_add (ds : List Definition) (t : Tables) :
    (ds.foldl Tables.add t).definitions = t.definitions.insertAll (ds.map fun d => (d.id, d)) := by
  induction ds generalizing t with
  | nil => rfl
  | cons d ds ih =>
    rw [foldl_cons, ih]
    rfl

/-- The definitions of some digests, in the order in which they are entered. -/
def ordered (digests : List Digest) : List Definition :=
  sortOn Definition.order ((filesOf digests).values.flatMap (·.definitions.values))

theorem mem_ordered_iff :
    x ∈ ordered digests ↔ ∃ d ∈ (filesOf digests).values, x ∈ d.definitions.values := by
  rw [ordered, mem_sortOn, mem_flatMap]

theorem definitions_merge (digests : List Digest) :
    (merge digests).1.definitions = .ofList ((ordered digests).map fun d => (d.id, d)) :=
  definitions_foldl_add ..

theorem mem_of_mem_filesOf (h : d ∈ (filesOf digests).values) : d ∈ digests := by
  obtain ⟨⟨path, _⟩, he, rfl⟩ := mem_map.mp h
  have hmem := mem_of_get?_ofList (get?_eq_some_iff.mpr he)
  obtain ⟨d, hd, heq⟩ := mem_map.mp hmem
  cases heq
  exact mem_sortOn.mp hd

/-- A definition of a merged catalog comes from one of the digests, and stands under its own id. -/
theorem exists_digest_of_get?_merge (h : (merge digests).1.definitions.get? id = some x) :
    x.id = id ∧ ∃ d ∈ (filesOf digests).values, ∃ id', d.definitions.get? id' = some x := by
  rcases mem_of_get?_foldl_add h with hempty | ⟨hmem, hid⟩
  · cases hempty
  · refine ⟨hid, ?_⟩
    obtain ⟨d, hd, hx⟩ := mem_flatMap.mp (mem_sortOn.mp hmem)
    obtain ⟨⟨id', _⟩, he, rfl⟩ := mem_map.mp hx
    exact ⟨d, hd, id', get?_eq_some_iff.mpr he⟩

theorem mem_keys_classes_merge (hd : d ∈ (filesOf digests).values) (hid : id ∈ d.classes.keys) :
    id ∈ (merge digests).1.classes.keys := by
  have hmem : id ∈ ((filesOf digests).values.flatMap (·.classes.entries)).map Prod.fst := by
    obtain ⟨e, he, rfl⟩ := mem_map.mp hid
    exact mem_map.mpr ⟨e, mem_flatMap.mpr ⟨d, hd, he⟩, rfl⟩
  exact mem_keys_ofList.mpr hmem

/-- Every definition of a catalog stands under its own id, every class has a record, and every
record a definition. -/
structure Sound (c : Catalog) : Prop where
  id_eq : ∀ {id : DefId} {x : Definition}, c.definitions.get? id = some x → x.id = id
  mem_classes : ∀ {id : DefId} {x : Definition}, c.definitions.get? id = some x →
    x.kind = .classBody → id ∈ c.classes.keys
  mem_definitions : ∀ {id : DefId}, id ∈ c.classes.keys → id ∈ c.definitions.keys

theorem Sound.mem_keys {c : Catalog} (hs : c.Sound) (hx : c.definitions.get? id = some x) :
    x.id ∈ c.definitions.keys :=
  mem_keys_iff.mpr ⟨x, by rw [hs.id_eq hx, hx]⟩

theorem sound_merge (h : ∀ d ∈ digests, d.Sound) : (merge digests).1.Sound := by
  constructor
  · intro id x hx
    exact (exists_digest_of_get?_merge hx).1
  · intro id x hx hk
    obtain ⟨rfl, d, hd, id', hget⟩ := exists_digest_of_get?_merge hx
    -- the record of another file may have taken the place of this one, but there is one
    have hds := h d (mem_of_mem_filesOf hd)
    rw [hds.id_eq hget]
    exact mem_keys_classes_merge hd (hds.mem_classes hget hk)
  · intro id hid
    obtain ⟨e, he, rfl⟩ := mem_map.mp (mem_keys_ofList.mp hid)
    obtain ⟨d, hd, he⟩ := mem_flatMap.mp he
    have hds := h d (mem_of_mem_filesOf hd)
    obtain ⟨x, hx⟩ := mem_keys_iff.mp (hds.mem_definitions (mem_map_of_mem he))
    rw [definitions_merge, mem_keys_ofList, ← hds.id_eq hx, map_map]
    refine mem_map.mpr ⟨x, mem_sortOn.mpr (mem_flatMap.mpr ⟨d, hd, ?_⟩), rfl⟩
    exact mem_map_of_mem (f := Prod.snd) (get?_eq_some_iff.mp hx)

/-- Digests of outlines merge into a sound catalog. -/
theorem sound_merge_of_outlines (h : ∀ d ∈ digests, ∃ o version, ofOutline o version = .ok d) :
    (merge digests).1.Sound := by
  refine sound_merge fun d hd => ?_
  obtain ⟨o, version, ho⟩ := h d hd
  exact sound_ofOutline ho

/-! ## The files of a catalog -/

theorem get?_filesOf (ds : List Digest) (path : String) :
    (filesOf ds).get? path = (ds.filter fun d => d.path = path).getLast? := by
  have hstable : (sortOn (byText Digest.path) ds).filter (fun d => d.path = path) =
      ds.filter fun d => d.path = path := by
    refine filter_sortOn fun a b ha hb => byText_eq_iff.mpr ?_
    simp only [decide_eq_true_eq] at ha hb
    exact ha.trans hb.symm
  have hpairs : ((sortOn (byText Digest.path) ds).map fun d => (d.path, d)).filter
      (fun e => e.1 = path) = (ds.filter fun d => d.path = path).map fun d => (d.path, d) := by
    rw [filter_map, ← hstable]
    rfl
  rw [filesOf, get?_ofList_eq_getLast?, hpairs, List.getLast?_map, Option.map_map]
  exact Option.map_id'

theorem pairwise_keys_filesOf (ds : List Digest) :
    (filesOf ds).keys.Pairwise fun a b => (textOrder a b).isLE := by
  refine List.Pairwise.sublist (keys_ofList_sublist _) ?_
  rw [map_map, pairwise_map]
  have hsorted : (sortOn (byText path) ds).Pairwise fun a b => (byText path a b).isLE :=
    pairwise_sortOn ds
  exact hsorted

theorem eq_of_get? {α : Type} {m n : OrderedMap String α}
    (hm : m.keys.Pairwise fun a b => (textOrder a b).isLE)
    (hn : n.keys.Pairwise fun a b => (textOrder a b).isLE)
    (h : ∀ k, m.get? k = n.get? k) : m = n := by
  have hperm : m.keys.Perm n.keys := by
    refine (perm_ext_iff_of_nodup m.distinct n.distinct).mpr fun k => ?_
    show k ∈ m.keys ↔ k ∈ n.keys
    rw [mem_keys_iff, mem_keys_iff, h]
  -- two ascending lists of the same keys are the same
  refine OrderedMap.ext_get? (hperm.eq_of_pairwise ?_ hm hn) h
  intro a b _ _ hab hba
  exact byText_eq_iff.mp (Std.OrientedCmp.isLE_antisymm hab hba)

variable {ds : List Digest}

theorem filesOf_congr {es : List Digest}
    (h : ∀ path, (ds.filter fun d => d.path = path).getLast? = (es.filter fun d =>
      d.path = path).getLast?) : filesOf ds = filesOf es := by
  refine eq_of_get? (pairwise_keys_filesOf ds) (pairwise_keys_filesOf es) fun path => ?_
  rw [get?_filesOf, get?_filesOf, h]

theorem path_of_get?_filesOf {path : String} (h : (filesOf ds).get? path = some d) :
    d.path = path := by
  rw [get?_filesOf] at h
  simpa using (mem_filter.mp (mem_of_getLast? h)).2

theorem map_path_values_filesOf (ds : List Digest) :
    (filesOf ds).values.map (·.path) = (filesOf ds).keys := by
  show ((filesOf ds).entries.map Prod.snd).map _ = _
  rw [map_map]
  refine map_congr_left fun e he => ?_
  exact path_of_get?_filesOf (get?_eq_some_iff.mpr he)

theorem pairwise_values_filesOf (ds : List Digest) :
    (filesOf ds).values.Pairwise fun d e => byText path d e = .lt := by
  have hle := pairwise_keys_filesOf ds
  have hne : (filesOf ds).keys.Nodup := (filesOf ds).distinct
  rw [← map_path_values_filesOf] at hle hne
  refine ((pairwise_map.mp hle).and (pairwise_map.mp hne)).imp ?_
  rintro d e ⟨hle, hne⟩
  exact Ordering.isLE_iff_eq_lt_or_eq_eq.mp hle |>.resolve_right fun heq =>
    hne (byText_eq_iff.mp heq)

theorem get?_filesOf_of_mem (h : d ∈ (filesOf ds).values) : (filesOf ds).get? d.path = some d := by
  obtain ⟨⟨path, _⟩, hentry, rfl⟩ := mem_map.mp h
  have hget := get?_eq_some_iff.mpr hentry
  rwa [path_of_get?_filesOf hget]

theorem getLast?_filter_values_filesOf (ds : List Digest) (path : String) :
    ((filesOf ds).values.filter fun d => d.path = path).getLast? = (filesOf ds).get? path := by
  have hmem : ∀ d, d ∈ (filesOf ds).values.filter (fun d => d.path = path) ↔
      (filesOf ds).get? path = some d := by
    intro d
    rw [mem_filter, values, mem_map, decide_eq_true_eq]
    constructor
    · rintro ⟨⟨⟨k, d'⟩, he, rfl⟩, hp⟩
      have hget := get?_eq_some_iff.mpr he
      rwa [← hp, path_of_get?_filesOf hget]
    · intro hget
      exact ⟨⟨(path, d), get?_eq_some_iff.mp hget, rfl⟩, path_of_get?_filesOf hget⟩
  cases hlast : ((filesOf ds).values.filter fun d => d.path = path).getLast? with
  | some d => exact ((hmem d).mp (mem_of_getLast? hlast)).symm
  | none =>
    rw [List.getLast?_eq_none_iff] at hlast
    cases hget : (filesOf ds).get? path with
    | none => rfl
    | some d =>
      have hd := (hmem d).mpr hget
      rw [hlast] at hd
      cases hd

theorem filter_filter_path (ds : List Digest) (path p : String) :
    (ds.filter fun d => d.path ≠ path).filter (fun d => d.path = p) =
      if p = path then [] else ds.filter fun d => d.path = p := by
  rw [filter_filter]
  split
  · next hp =>
    rw [filter_eq_nil_iff]
    intro d _
    simp [hp]
  · next hp =>
    refine filter_congr fun d _ => ?_
    by_cases hd : d.path = p <;> simp [hd, hp]

/-- Taking a file out of a catalog and adding others is taking it out of the digests and adding
them. -/
theorem filesOf_filter_values_append (ds es : List Digest) (path : String) :
    filesOf ((filesOf ds).values.filter (fun d => d.path ≠ path) ++ es) =
      filesOf (ds.filter (fun d => d.path ≠ path) ++ es) := by
  refine filesOf_congr fun p => ?_
  rw [filter_append, filter_append, List.getLast?_append, List.getLast?_append,
    filter_filter_path, filter_filter_path]
  congr 1
  split
  · rfl
  · rw [getLast?_filter_values_filesOf, get?_filesOf]

theorem filter_values_filesOf (ds : List Digest) (path : String) :
    (filesOf ds).values.filter (fun d => d.path ≠ path) =
      (filesOf (ds.filter fun d => d.path ≠ path)).values := by
  have hmap : (filesOf ds).restrict (fun k => k ≠ path) = filesOf (ds.filter fun d =>
    d.path ≠ path) := by
    refine eq_of_get? ?_ (pairwise_keys_filesOf _) fun p => ?_
    · exact (pairwise_keys_filesOf ds).sublist (filter_sublist.map Prod.fst)
    · rw [get?_restrict, get?_filesOf, get?_filesOf, filter_filter_path]
      by_cases hp : p = path <;> simp [hp]
  rw [← hmap]
  show ((filesOf ds).entries.map Prod.snd).filter _ = ((filesOf ds).entries.filter _).map Prod.snd
  rw [filter_map]
  congr 1
  refine filter_congr fun e he => ?_
  rw [Function.comp_apply, path_of_get?_filesOf (get?_eq_some_iff.mpr he)]

end Xref.Catalog

import Xref.Proofs.Catalog.ScopeChains
import Xref.Proofs.Sorted

/-!
# Exact indexes

A merged catalog finds definitions by qualified name, by plain name and module by module. Where no
two files have one path and no path holds a colon, a definition is told by its qualified name and
path, and all definitions are listed in that order. So each index is given by this list: the last
definition with a qualified name is the one that is found, those with a name are found in their
order, and each but the first of a qualified name is reported.
-/

namespace Xref

open List Text

/-- By qualified name and path. -/
def Definition.fileOrder : Definition → Definition → Ordering :=
  compareLex (byText (·.qualname)) (byText (·.path))

/-- Whether a file has a definition with a qualified name. -/
def Digest.defines (d : Digest) (qualname : String) : Bool :=
  d.definitions.values.any fun x => x.qualname = qualname

/-- The qualified name that a diagnostic tells to be declared in two files. -/
def Diagnostic.acrossFiles? : Diagnostic → Option String
  | duplicate qualname path previousPath => if path = previousPath then none else some qualname
  | _ => none

namespace Catalog

/-- Of the files that a test holds of, the one with the greatest path. -/
def IsLastFile (digests : List Digest) (p : Digest → Bool) (d : Digest) : Prop :=
  d ∈ digests ∧ p d ∧ ∀ e ∈ digests, p e → (textOrder e.path d.path).isLE

/-- The indexes of a catalog tell what the files define. -/
structure Exact (digests : List Digest) (c : Catalog) (reports : List Diagnostic) : Prop where
  find : ∀ q x, c.find? q = some x ↔
    ∃ d, IsLastFile digests (·.defines q) d ∧ x ∈ d.definitions.values ∧ x.qualname = q
  find_none : ∀ q, c.find? q = none ↔ ∀ d ∈ digests, d.defines q = false
  named : ∀ n x, x ∈ c.named n ↔ x.name = n ∧ ∃ d ∈ digests, x ∈ d.definitions.values
  named_sorted : ∀ n, (c.named n).Nodup ∧ (c.named n).Pairwise fun x y => x.fileOrder y = .lt
  duplicates : ∀ q, (reports.filterMap Diagnostic.acrossFiles?).count q =
    (digests.filter fun d => d.defines q).length - 1
  modules : ∀ m, m ∈ c.moduleScopes.keys ↔ ∃ d ∈ digests, d.isFailed = false ∧ d.moduleName = m
  moduleScopes : ∀ m scope, c.moduleScopes.get? m = some scope ↔
    ∃ d s, IsLastFile digests (fun d => !d.isFailed && d.moduleName = m) d ∧
      d.scopes.get? scope = some s ∧ s.kind = .fileBody
  packages : ∀ p, p ∈ c.packages ↔
    (∃ m ∈ c.moduleScopes.keys, ∃ rest, m = p ++ "." ++ rest) ∧ p ∉ c.moduleScopes.keys

/-! ## Tables -/

/-- The definition that stands under a qualified name is the last that was entered with it. -/
theorem bind_byQualname {ds es : List Definition} (hids : ((ds ++ es).map (·.id)).Nodup)
    (q : String) :
    ((ds.foldl Tables.add ⟨∅, ∅, ∅, []⟩).byQualname.get? q).bind
        ((ds ++ es).foldl Tables.add ⟨∅, ∅, ∅, []⟩).definitions.get? =
      (ds.filter fun x => x.qualname = q).getLast? := by
  rw [byQualname_foldl_add, definitions_foldl_add]
  show ((OrderedMap.ofList _).get? q).bind (OrderedMap.ofList _).get? = _
  rw [get?_ofList_map_pair]
  cases hlast : (ds.filter fun x => x.qualname = q).getLast? with
  | none => rfl
  | some x =>
    have hx : x ∈ ds := (mem_filter.mp (mem_of_getLast? hlast)).1
    refine (OrderedMap.get?_ofList_of_nodup (by rw [map_map]; exact hids)).mpr ?_
    exact mem_map.mpr ⟨x, mem_append_left es hx, rfl⟩

/-- A definition is reported where one of another file was entered with its qualified name. -/
theorem acrossFiles_add {ds : List Definition} {x : Definition}
    (hids : ((ds ++ [x]).map (·.id)).Nodup)
    (hpaths : ∀ y ∈ ds, y.qualname = x.qualname → y.path ≠ x.path) :
    (((ds ++ [x]).foldl Tables.add ⟨∅, ∅, ∅, []⟩).duplicates.filterMap Diagnostic.acrossFiles?) =
      (ds.foldl Tables.add ⟨∅, ∅, ∅, []⟩).duplicates.filterMap Diagnostic.acrossFiles? ++
        if ds.filter (fun y => y.qualname = x.qualname) = [] then [] else [x.qualname] := by
  have hprevious := bind_byQualname hids x.qualname
  rw [foldl_append, foldl_cons, foldl_nil] at hprevious ⊢
  unfold Tables.add at hprevious ⊢
  dsimp only at hprevious ⊢
  rw [filterMap_append, hprevious]
  congr 1
  cases hlast : (ds.filter fun y => y.qualname = x.qualname).getLast? with
  | none => rw [if_pos (List.getLast?_eq_none_iff.mp hlast), filterMap_nil]
  | some y =>
    obtain ⟨hy, hname⟩ := mem_filter.mp (mem_of_getLast? hlast)
    have hpath := hpaths y hy (of_decide_eq_true hname)
    dsimp only
    rw [if_neg hpath, if_neg (ne_nil_of_mem (mem_of_getLast? hlast))]
    simp [Diagnostic.acrossFiles?, Ne.symm hpath]

/-- Each definition is reported but the first with its qualified name. -/
theorem count_duplicates {ds : List Definition} (hids : (ds.map (·.id)).Nodup)
    (hpaths : ds.Pairwise fun x y => x.qualname = y.qualname → x.path ≠ y.path) (q : String) :
    ((ds.foldl Tables.add ⟨∅, ∅, ∅, []⟩).duplicates.filterMap Diagnostic.acrossFiles?).count q =
      (ds.filter fun x => x.qualname = q).length - 1 := by
  induction ds using List.reverseRecOn with
  | nil => rfl
  | append_singleton ds x ih =>
    obtain ⟨hbefore, _, hapart⟩ := pairwise_append.mp hpaths
    have hids' : (ds.map (·.id)).Nodup := hids.sublist ((sublist_append_left ds [x]).map _)
    rw [acrossFiles_add hids fun y hy => hapart y hy x mem_cons_self, count_append,
      ih hids' hbefore, filter_append, length_append]
    by_cases hq : x.qualname = q
    · subst hq
      by_cases hnone : ds.filter (fun y => y.qualname = x.qualname) = []
      · simp [hnone]
      · have hpos := length_pos_iff.mpr hnone
        simp only [if_neg hnone, count_singleton_self, filter_singleton, decide_true, cond_true,
          length_singleton]
        omega
    · have hcount :
        (if ds.filter (fun y => y.qualname = x.qualname) = [] then [] else [x.qualname]).count
        q = 0 := by
        split <;> simp [hq]
      rw [hcount]
      simp [hq]

/-- Digests of files with distinct paths, none of which holds a colon. -/
structure Distinct (digests : List Digest) : Prop where
  made : ∀ d ∈ digests, ∃ o version, Digest.ofOutline o version = .ok d
  nodup : (digests.map (·.path)).Nodup
  plain : ∀ d ∈ digests, ':' ∉ d.path.toList

namespace Distinct

variable {digests : List Digest} {d e : Digest} {x y : Definition} (h : Distinct digests)
include h

theorem linked (hd : d ∈ digests) : d.Linked := by
  obtain ⟨o, version, ho⟩ := h.made d hd
  exact Digest.linked_ofOutline ho

theorem eq_of_path (hd : d ∈ digests) (he : e ∈ digests) (hpath : d.path = e.path) : d = e :=
  inj_on_of_nodup_map h.nodup hd he hpath

theorem mem_files : d ∈ (filesOf digests).values ↔ d ∈ digests := by
  refine ⟨mem_of_mem_filesOf, fun hd => ?_⟩
  have hmem : d ∈ digests.filter fun e => e.path = d.path := by simpa using hd
  obtain ⟨e, he⟩ := Option.isSome_iff_exists.mp (List.getLast?_isSome.mpr (ne_nil_of_mem hmem))
  obtain ⟨hin, hpath⟩ := mem_filter.mp (mem_of_getLast? he)
  rw [← get?_filesOf, h.eq_of_path hin hd (by simpa using hpath)] at he
  exact OrderedMap.mem_values_of_get? he

/-! ## Definitions -/

theorem of_mem (hd : d ∈ digests) (hx : x ∈ d.definitions.values) :
    x.path = d.path ∧ x.id = Definition.idOf d.path x.qualname ∧
      d.definitions.get? x.id = some x := by
  obtain ⟨⟨id, _⟩, he, rfl⟩ := mem_map.mp hx
  have hget := OrderedMap.get?_eq_some_iff.mpr he
  obtain ⟨hid, hpath, hidOf⟩ := (h.linked hd).definition hget
  rw [hid]
  exact ⟨hpath, hpath ▸ hidOf, hget⟩

theorem mem_ordered : x ∈ ordered digests ↔ ∃ d ∈ digests, x ∈ d.definitions.values := by
  simp only [mem_ordered_iff, h.mem_files]

/-- A definition is told by its id, and so by its path and qualified name. -/
theorem eq_of_id (hx : x ∈ ordered digests) (hy : y ∈ ordered digests)
    (hid : x.id = y.id) : x = y := by
  obtain ⟨d, hd, hxd⟩ := h.mem_ordered.mp hx
  obtain ⟨e, he, hye⟩ := h.mem_ordered.mp hy
  obtain ⟨_, hidx, hgetx⟩ := h.of_mem hd hxd
  obtain ⟨_, hidy, hgety⟩ := h.of_mem he hye
  have hpath : d.path = e.path :=
    Definition.OfFile.path_eq ⟨_, hidx⟩ ⟨_, hid.trans hidy⟩ (h.plain d hd) (h.plain e he)
  rw [← h.eq_of_path hd he hpath, ← hid, hgetx] at hgety
  exact Option.some.inj hgety

theorem eq_of_fileOrder (hx : x ∈ ordered digests) (hy : y ∈ ordered digests)
    (heq : x.fileOrder y = .eq) : x = y := by
  obtain ⟨hname, hpath⟩ := Ordering.then_eq_eq.mp heq
  obtain ⟨d, hd, hxd⟩ := h.mem_ordered.mp hx
  obtain ⟨e, he, hye⟩ := h.mem_ordered.mp hy
  obtain ⟨hxp, hidx, _⟩ := h.of_mem hd hxd
  obtain ⟨hyp, hidy, _⟩ := h.of_mem he hye
  refine h.eq_of_id hx hy ?_
  rw [hidx, hidy, ← hxp, ← hyp, byText_eq_iff.mp hname, byText_eq_iff.mp hpath]

theorem nodup_ordered : (ordered digests).Nodup := by
  refine (sortOn_perm _ _).nodup_iff.mpr (nodup_flatMap.mpr ⟨fun d hd => ?_, ?_⟩)
  · refine .map_on (fun e he e' he' heq => ?_) d.definitions.distinct.of_map
    have hid := ((h.linked (h.mem_files.mp hd)).definition (OrderedMap.get?_eq_some_iff.mpr he)).1
    have hid' := ((h.linked (h.mem_files.mp hd)).definition (OrderedMap.get?_eq_some_iff.mpr he')).1
    exact Prod.ext (by rw [← hid, ← hid', heq]) heq
  · refine (pairwise_values_filesOf digests).imp_of_mem fun {d e} hd he hlt x hxd hxe => ?_
    have hpath : d.path = e.path :=
      (h.of_mem (h.mem_files.mp hd) hxd).1.symm.trans (h.of_mem (h.mem_files.mp he) hxe).1
    rw [byText_eq_iff.mpr hpath] at hlt
    cases hlt

theorem pairwise_ordered : (ordered digests).Pairwise fun x y => x.fileOrder y = .lt := by
  have hsorted : (ordered digests).Pairwise fun x y => (x.order y).isLE := pairwise_sortOn _
  refine (hsorted.and h.nodup_ordered).imp_of_mem ?_
  rintro x y hx hy ⟨hle, hne⟩
  have hthen : x.order y = (x.fileOrder y).then (compareLex (compareOn (·.location)) (byText (·.id))
    x y) := by
    simp [Definition.order, Definition.fileOrder, compareLex, Ordering.then_assoc]
  cases hcmp : x.fileOrder y with
  | lt => rfl
  | eq => exact absurd (h.eq_of_fileOrder hx hy hcmp) hne
  | gt =>
    rw [hthen, hcmp] at hle
    cases hle

theorem nodup_ids : ((ordered digests).map (·.id)).Nodup :=
  h.nodup_ordered.map_on fun _ hx _ hy => h.eq_of_id hx hy

theorem get?_definitions {id : DefId} :
    (merge digests).1.definitions.get? id = some x ↔ x ∈ ordered digests ∧ x.id = id := by
  rw [definitions_merge, OrderedMap.get?_ofList_of_nodup (by rw [map_map]; exact h.nodup_ids),
    mem_map]
  constructor
  · rintro ⟨y, hy, heq⟩
    cases heq
    exact ⟨hy, rfl⟩
  · rintro ⟨hx, rfl⟩
    exact ⟨x, hx, rfl⟩

theorem find?_eq (q : String) :
    (merge digests).1.find? q = ((ordered digests).filter fun x => x.qualname = q).getLast? := by
  have hids := h.nodup_ids
  rw [← append_nil (ordered digests)] at hids
  rw [← bind_byQualname hids q, append_nil]
  rfl

theorem named_eq (n : String) :
    (merge digests).1.named n = (ordered digests).filter fun x => x.name = n := by
  rw [named, byName_merge, filterMap_map]
  refine (filterMap_congr fun x hx => ?_).trans filterMap_some
  exact h.get?_definitions.mpr ⟨(mem_filter.mp hx).1, rfl⟩

/-- The definitions with a qualified name are listed by path. -/
theorem pairwise_path (q : String) :
    ((ordered digests).filter fun x => x.qualname = q).Pairwise fun x y =>
      byText Definition.path x y = .lt := by
  refine (h.pairwise_ordered.sublist filter_sublist).imp_of_mem fun {x y} hx hy hlt => ?_
  have hname : x.qualname = y.qualname :=
    (of_decide_eq_true (mem_filter.mp hx).2).trans (of_decide_eq_true (mem_filter.mp hy).2).symm
  have hthen : x.fileOrder y = (byText Definition.qualname x y).then (byText Definition.path x y) :=
    rfl
  rwa [hthen, byText_eq_iff.mpr hname, Ordering.eq_then] at hlt

/-- As many definitions have a qualified name as files define it. -/
theorem length_filter_ordered (q : String) :
    ((ordered digests).filter fun x => x.qualname = q).length = (digests.filter fun d =>
      d.defines q).length := by
  have hperm : (((ordered digests).filter fun x => x.qualname = q).map (·.path)).Perm
      ((digests.filter fun d => d.defines q).map (·.path)) := by
    refine (perm_ext_iff_of_nodup ?_ (h.nodup.sublist (filter_sublist.map _))).mpr fun path => ?_
    · refine pairwise_map.mpr ((h.pairwise_path q).imp fun {x y} hlt heq => ?_)
      rw [byText_eq_iff.mpr heq] at hlt
      cases hlt
    · simp only [mem_map, mem_filter, h.mem_ordered, Digest.defines, any_eq_true, decide_eq_true_eq]
      constructor
      · rintro ⟨x, ⟨⟨d, hd, hx⟩, hq⟩, rfl⟩
        exact ⟨d, ⟨hd, x, hx, hq⟩, (h.of_mem hd hx).1.symm⟩
      · rintro ⟨d, ⟨hd, x, hx, hq⟩, rfl⟩
        exact ⟨x, ⟨⟨d, hd, hx⟩, hq⟩, (h.of_mem hd hx).1⟩
  simpa using hperm.length_eq

end Distinct

/-- Where definitions are listed by path, each of the file that it is of, the last is that of the
last file. -/
theorem getLast?_iff_isLastFile {digests : List Digest} {xs : List Definition} {p : Digest → Bool}
    {R : Digest → Definition → Prop}
    (hsorted : xs.Pairwise fun x y => byText Definition.path x y = .lt)
    (hmem : ∀ x, x ∈ xs ↔ ∃ d ∈ digests, p d ∧ R d x)
    (hpath : ∀ d ∈ digests, ∀ x, R d x → x.path = d.path) (hof : ∀ d ∈ digests, p d → ∃ x, R d x)
    {x : Definition} : xs.getLast? = some x ↔ ∃ d, IsLastFile digests p d ∧ R d x := by
  rw [getLast?_eq_some_iff_of_pairwise hsorted]
  constructor
  · rintro ⟨hx, hlast⟩
    obtain ⟨d, hd, hp, hxd⟩ := (hmem x).mp hx
    refine ⟨d, ⟨hd, hp, fun e he hpe => ?_⟩, hxd⟩
    obtain ⟨y, hye⟩ := hof e he hpe
    rw [← hpath d hd x hxd, ← hpath e he y hye]
    exact hlast y ((hmem y).mpr ⟨e, he, hpe, hye⟩)
  · rintro ⟨d, ⟨hd, hp, hlast⟩, hxd⟩
    refine ⟨(hmem x).mpr ⟨d, hd, hp, hxd⟩, fun y hy => ?_⟩
    obtain ⟨e, he, hpe, hye⟩ := (hmem y).mp hy
    have hle := hlast e he hpe
    rwa [← hpath d hd x hxd, ← hpath e he y hye] at hle

end Catalog

/-! ## Modules -/

/-- The definition of a file itself. -/
def Digest.own? (d : Digest) : Option Definition :=
  d.definitions.get? (Definition.idOf d.path d.moduleName)

/-- A file that has not failed has one scope of its own, that of its definition. -/
theorem Digest.fileBody_ofOutline {d : Digest} {o : Outline} {version : Int}
    (ho : ofOutline o version = .ok d) (hd : d.isFailed = false) :
    ∃ x, d.own? = some x ∧ x.qualname = d.moduleName ∧
      ∀ scope, (∃ s, d.scopes.get? scope = some s ∧ s.kind = .fileBody) ↔ scope = x.scope := by
  obtain ⟨hcheck, mark, body, draft, hroot, hwalk, rfl⟩ := exists_walk_of_ofOutline ho hd
  refine ⟨_, (definitions_of_walk hcheck hroot hwalk).2, rfl, fun scope => ⟨?_, ?_⟩⟩
  · rintro ⟨s, hs, hkind⟩
    exact (nested_of_walk hcheck hroot hwalk).fileBody scope s.bare
      (congrArg (Option.map Scope.bare) hs) hkind
  · rintro rfl
    have hfresh := Outline.fresh_of_check hcheck hroot (o.context version)
    have hopen := Draft.opened?_walkAll hwalk hfresh.not_mem
    rw [FileContext.opened?_startDraft, if_pos rfl] at hopen
    obtain ⟨s, hs, hbare⟩ := Option.map_eq_some_iff.mp hopen
    exact ⟨s, hs, congrArg Scope.kind hbare⟩

namespace Catalog

/-- The definitions of the files themselves, by path. -/
def modulesOf (digests : List Digest) : List Definition :=
  (filesOf digests).values.filterMap Digest.own?

namespace Distinct

variable {digests : List Digest} {d : Digest} {x : Definition} (h : Distinct digests)
include h

theorem get?_module (hd : d ∈ digests) (hget : d.own? = some x) :
    d.isFailed = false ∧ x.qualname = d.moduleName ∧ x.path = d.path ∧
      ∀ scope, (∃ s, d.scopes.get? scope = some s ∧ s.kind = .fileBody) ↔ scope = x.scope := by
  obtain ⟨o, version, ho⟩ := h.made d hd
  have hfailed : d.isFailed = false := by
    obtain ⟨_, _, _, rfl⟩ | ⟨_, _, _, _, _, _, rfl⟩ := Digest.ofOutline_cases ho
    · cases hget
    · rfl
  obtain ⟨y, hy, hname, hscope⟩ := Digest.fileBody_ofOutline ho hfailed
  cases hget.symm.trans hy
  exact ⟨hfailed, hname, (h.of_mem hd (OrderedMap.mem_values_of_get? hy)).1, hscope⟩

theorem exists_module (hd : d ∈ digests) (hfailed : d.isFailed = false) : ∃ x, d.own? = some x := by
  obtain ⟨o, version, ho⟩ := h.made d hd
  obtain ⟨x, hx, _⟩ := Digest.fileBody_ofOutline ho hfailed
  exact ⟨x, hx⟩

theorem mem_modulesOf : x ∈ modulesOf digests ↔ ∃ d ∈ digests, d.own? = some x := by
  simp only [modulesOf, mem_filterMap, h.mem_files]

/-- Definitions of one file are found in the catalog as in the file. -/
theorem get?_merge_of_mem (hd : d ∈ digests) (q : String) :
    (merge digests).1.definitions.get? (Definition.idOf d.path q) = d.definitions.get?
      (Definition.idOf d.path q) := by
  refine Option.ext fun x => ?_
  rw [h.get?_definitions, h.mem_ordered]
  constructor
  · rintro ⟨⟨e, he, hx⟩, hid⟩
    obtain ⟨_, hidx, hget⟩ := h.of_mem he hx
    have hpath : e.path = d.path := Definition.OfFile.path_eq ⟨_, hidx⟩ ⟨_,
      hid⟩ (h.plain e he) (h.plain d hd)
    rw [← hid, ← h.eq_of_path he hd hpath, hget]
  · intro hget
    exact ⟨⟨d, hd, OrderedMap.mem_values_of_get? hget⟩, ((h.linked hd).definition hget).1⟩

theorem moduleScopes_eq :
    (merge digests).1.moduleScopes = .ofList ((modulesOf digests).map fun x =>
      (x.qualname, x.scope)) := by
  show moduleScopesOf (merge digests).1.definitions (filesOf digests).values = _
  rw [moduleScopesOf, modulesOf, map_filterMap]
  congr 1
  refine filterMap_congr fun d hd => ?_
  rw [h.get?_merge_of_mem (h.mem_files.mp hd)]
  refine Option.map_congr fun x hx => ?_
  rw [(h.get?_module (h.mem_files.mp hd) hx).2.1]

theorem pairwise_modulesOf :
    (modulesOf digests).Pairwise fun x y => byText Definition.path x y = .lt := by
  refine pairwise_filterMap.mpr ((pairwise_values_filesOf digests).imp_of_mem
    fun {d e} hd he hlt x hx y hy => ?_)
  show textOrder x.path y.path = .lt
  rw [(h.get?_module (h.mem_files.mp hd) hx).2.2.1, (h.get?_module (h.mem_files.mp he) hy).2.2.1]
  exact hlt

theorem find?_iff {q : String} : (merge digests).1.find? q = some x ↔
    ∃ d, IsLastFile digests (·.defines q) d ∧ x ∈ d.definitions.values ∧ x.qualname = q := by
  rw [h.find?_eq]
  refine getLast?_iff_isLastFile (R :=
    fun d x => x ∈ d.definitions.values ∧ x.qualname = q) (h.pairwise_path q)
    (fun x => ?_) ?_ fun d hd hp => ?_
  · rw [mem_filter, h.mem_ordered, decide_eq_true_eq]
    constructor
    · rintro ⟨⟨d, hd, hx⟩, hq⟩
      exact ⟨d, hd, any_eq_true.mpr ⟨x, hx, decide_eq_true hq⟩, hx, hq⟩
    · rintro ⟨d, hd, _, hx, hq⟩
      exact ⟨⟨d, hd, hx⟩, hq⟩
  · rintro d hd x ⟨hx, _⟩
    exact (h.of_mem hd hx).1
  · obtain ⟨x, hx, hq⟩ := any_eq_true.mp hp
    exact ⟨x, hx, of_decide_eq_true hq⟩

theorem get?_moduleScopes_iff {m : String} {scope : ScopeId} :
    (merge digests).1.moduleScopes.get? m = some scope ↔
    ∃ d s, IsLastFile digests (fun d => !d.isFailed && d.moduleName = m) d ∧
      d.scopes.get? scope = some s ∧ s.kind = .fileBody := by
  have hlast : ∀ x, ((modulesOf digests).filter fun x => x.qualname = m).getLast? = some x ↔
      ∃ d, IsLastFile digests (fun d => !d.isFailed && d.moduleName = m) d ∧ d.own? = some x := by
    intro x
    refine getLast?_iff_isLastFile (h.pairwise_modulesOf.sublist filter_sublist) (fun x => ?_)
      (fun d hd x hx => (h.get?_module hd hx).2.2.1) fun d hd hp => ?_
    · rw [mem_filter, h.mem_modulesOf, decide_eq_true_eq]
      constructor
      · rintro ⟨⟨d, hd, hx⟩, rfl⟩
        obtain ⟨hfailed, hname, _⟩ := h.get?_module hd hx
        exact ⟨d, hd, by simp [hfailed, hname], hx⟩
      · rintro ⟨d, hd, hp, hx⟩
        simp only [Bool.and_eq_true, decide_eq_true_eq] at hp
        exact ⟨⟨d, hd, hx⟩, (h.get?_module hd hx).2.1.trans hp.2⟩
    · simp only [Bool.and_eq_true, Bool.not_eq_true'] at hp
      exact h.exists_module hd hp.1
  rw [h.moduleScopes_eq, get?_ofList_map_pair, Option.map_eq_some_iff]
  constructor
  · rintro ⟨x, hx, rfl⟩
    obtain ⟨d, hd, hget⟩ := (hlast x).mp hx
    obtain ⟨s, hs⟩ := ((h.get?_module hd.1 hget).2.2.2 x.scope).mpr rfl
    exact ⟨d, s, hd, hs⟩
  · rintro ⟨d, s, hd, hs⟩
    have hp := hd.2.1
    simp only [Bool.and_eq_true, Bool.not_eq_true'] at hp
    obtain ⟨x, hget⟩ := h.exists_module hd.1 hp.1
    exact ⟨x, (hlast x).mpr ⟨d, hd, hget⟩,
      (((h.get?_module hd.1 hget).2.2.2 scope).mp ⟨s, hs⟩).symm⟩

theorem mem_keys_moduleScopes_iff {m : String} : m ∈ (merge digests).1.moduleScopes.keys ↔
    ∃ d ∈ digests, d.isFailed = false ∧ d.moduleName = m := by
  rw [h.moduleScopes_eq, OrderedMap.mem_keys_ofList, map_map, mem_map]
  constructor
  · rintro ⟨x, hx, rfl⟩
    obtain ⟨d, hd, hget⟩ := h.mem_modulesOf.mp hx
    obtain ⟨hfailed, hname, _⟩ := h.get?_module hd hget
    exact ⟨d, hd, hfailed, hname.symm⟩
  · rintro ⟨d, hd, hfailed, rfl⟩
    obtain ⟨x, hget⟩ := h.exists_module hd hfailed
    exact ⟨x, h.mem_modulesOf.mpr ⟨d, hd, hget⟩, (h.get?_module hd hget).2.1⟩

end Distinct

/-- The indexes of merged digests are exact where no two files have one path and no path holds a
colon. Names and paths are ordered by `Text.codePoint`, to which a character from U+10D800 to
U+10DFFF is always the carrier of a half of a surrogate pair, never itself. -/
theorem merge_exact {digests : List Digest} (h : Distinct digests) :
    Exact digests (merge digests).1 (merge digests).2 := by
  refine ⟨fun q x => h.find?_iff, fun q => ?_, fun n x => ?_, fun n => ?_, fun q => ?_,
    fun m => h.mem_keys_moduleScopes_iff, fun m scope => h.get?_moduleScopes_iff, fun p => ?_⟩
  · rw [h.find?_eq, List.getLast?_eq_none_iff, filter_eq_nil_iff]
    simp only [h.mem_ordered, Digest.defines, any_eq_false]
    constructor
    · exact fun hq d hd x hx => hq x ⟨d, hd, hx⟩
    · rintro hq x ⟨d, hd, hx⟩
      exact hq d hd x hx
  · rw [h.named_eq, mem_filter, decide_eq_true_eq, h.mem_ordered, and_comm]
  · rw [h.named_eq]
    exact ⟨h.nodup_ordered.sublist filter_sublist, h.pairwise_ordered.sublist filter_sublist⟩
  · rw [← h.length_filter_ordered]
    refine count_duplicates h.nodup_ids (h.pairwise_ordered.imp fun {x y} hlt hname hpath => ?_) q
    rw [Definition.fileOrder, compareLex, byText_eq_iff.mpr hname, byText_eq_iff.mpr hpath] at hlt
    cases hlt
  · rw [← contains_iff_mem]
    refine isPackage_iff.trans ?_
    simp only [Dotted.mem_enclosing]

/-- Three files with one module name and a function each, and one with an id twice, whose name is
above theirs. -/
def clashingFiles : List Outline :=
  (["c", "a", "b"].map fun path => Small.file path "p.m" [Small.functionItem "f" "f" false []]) ++
    [Small.file "d" "p" [Small.callItem "x" "f", Small.callItem "x" "f"]]

theorem merge_exact_of_clashing :
    (Small.catalogOf clashingFiles).find? "p" = none ∧
      ((Small.catalogOf clashingFiles).find? "p.m.f").map (·.path) = some "c" ∧
      ((Small.catalogOf clashingFiles).named "f").map (·.path) = ["a", "b", "c"] ∧
      (merge (Small.digestsOf clashingFiles)).2 =
        [.duplicate "p.m" "b" "a", .duplicate "p.m" "c" "b", .duplicate "p.m.f" "b" "a",
          .duplicate "p.m.f" "c" "b"] ∧
      (Small.catalogOf clashingFiles).moduleScopes.entries = [("p.m", "c#file")] ∧
      (Small.catalogOf clashingFiles).packages = ["p"] ∧
      Exact (Small.digestsOf clashingFiles) (Small.catalogOf clashingFiles)
        (merge (Small.digestsOf clashingFiles)).2 := by
  refine ⟨by decide +kernel, by decide +kernel, by decide +kernel, by decide +kernel,
    by decide +kernel, by decide +kernel, ?_⟩
  exact merge_exact ⟨fun _ => Small.exists_outline_of_mem_digestsOf, by decide +kernel,
    by decide +kernel⟩

end Catalog

end Xref

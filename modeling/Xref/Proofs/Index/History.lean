import Xref.Proofs.Index.FileSet

/-!
# Histories of changes

An index that was built and then changed, file by file, any number of times. Whatever was taken over
on the way, its catalog, hierarchy and references are those of the files that count in the end, and
so is every call site that the last change settled anew.
-/

namespace Xref.Index

open Catalog

/-! ## Histories -/

/-- The outline that counts for each path after a change. -/
def Edit.filesAfter (e : Edit) (files : String → Option Outline) (path : String) : Option Outline :=
  if path = e.path then e.added.getLast? else files path

/-- An index that was built and then changed, with the outline that counts for each path. -/
inductive Reached (policy : Policy) : (String → Option Outline) → Made → Prop
  | built {outlines : List Outline} {token : Token} {m : Made}
      (h : build outlines policy token = .ok m) :
      Reached policy (latest? outlines) m
  | changed {files : String → Option Outline} {m m' : Made} {e : Edit} {token : Token}
      (h : Reached policy files m) (ha : e.apply m.index token = .ok m') :
      Reached policy (e.filesAfter files) m'

/-! ## What a history keeps -/

/-- An index is that of some files: but for versions its files are the digests of the outlines that
count, and all but the call sites taken over is computed from them. -/
structure Tracks (policy : Policy) (files : String → Option Outline) (m : Made) : Prop where
  policy_eq : m.index.policy = policy
  /-- The catalog is merged from digests. -/
  merged : ∃ ds, m.index.catalog = (Catalog.merge ds).1
  /-- Each file is the digest of the outline that counts for its path. -/
  files_eq : ∀ path, (m.index.catalog.files.get? path).map Digest.unversioned =
    (files path).bind fun o => (Digest.ofOutline o 0).toOption
  hierarchy_eq : ∃ faults, Hierarchy.build m.index.catalog = .ok (m.index.hierarchy, faults)
  references_eq : m.index.pendingReferences.map m.index.view.reference = m.index.references.map .ok
  keys_sites : m.index.sites.keys =
    (OrderedMap.ofList (m.index.calls.map fun c => (c.site, ()))).keys
  keyed : m.index.KeyedSites
  /-- A site that was not taken over is what the last call with its id resolves to. -/
  resolved : ∀ id ∉ m.reused, m.index.sites.get? id =
    (lastCall? m.index.calls id).bind fun c => (m.index.resolver.resolve c).toOption.map Prod.fst

namespace Assembled

variable {digests : List Digest} {policy : Policy} {reuse : Hierarchy → Reuse} {m : Made}
  {settled : List Settled}

variable (h : Assembled digests policy reuse m settled)
include h

/-- A site that was not taken over was resolved. -/
theorem get?_sites_of_not_mem_reused (hk : (reuse m.index.hierarchy).Keyed) {id : SiteId}
    (hid : id ∉ m.reused) :
    m.index.sites.get? id = (lastCall? m.index.calls id).bind fun c =>
      (m.index.resolver.resolve c).toOption.map Prod.fst := by
  rw [h.get?_sites hk]
  cases hlast : lastCall? m.index.calls id with
  | none => rfl
  | some c =>
    have hsettled := get?_ofList_settled h.calls_eq (fun _ _ => id_of_settle hk) id
    rw [hlast, Option.bind_some] at hsettled
    rw [Option.bind_some, Option.bind_some]
    unfold settle at hsettled ⊢
    cases hreuse : reuse m.index.hierarchy c with
    | none => cases m.index.resolver.resolve c <;> rfl
    | some found =>
      rw [hreuse] at hsettled
      exact absurd ((h.mem_reused_iff id).mpr ⟨_, hsettled, rfl⟩) hid

/-- What is assembled from the digests of the files that count is an index of them. -/
theorem tracks (hk : (reuse m.index.hierarchy).Keyed) {files : String → Option Outline}
    (hfiles : ∀ path, ((Catalog.filesOf digests).get? path).map Digest.unversioned =
      (files path).bind fun o => (Digest.ofOutline o 0).toOption) : Tracks policy files m where
  policy_eq := h.policy_eq
  merged := ⟨digests, h.catalog_eq⟩
  files_eq path := by
    rw [h.catalog_eq]
    exact hfiles path
  hierarchy_eq := h.hierarchy_eq
  references_eq := h.references_eq
  keys_sites := h.keys_sites hk
  keyed _ _ hs := h.keyedSites hk hs
  resolved _ hid := h.get?_sites_of_not_mem_reused hk hid

end Assembled

theorem toOption_ofOutline_unversioned {o : Outline} {version : Int} {d : Digest}
    (h : Digest.ofOutline o version = .ok d) :
    (Digest.ofOutline o 0).toOption = some d.unversioned := by
  rw [Digest.ofOutline_unversioned o version, h]
  rfl

variable {policy : Policy} {token : Token} {m : Made}

/-- A fresh index is that of its files. -/
theorem tracks_build {outlines : List Outline} (h : build outlines policy token = .ok m) :
    Tracks policy (latest? outlines) m := by
  obtain ⟨_, digests, settled, hdigests, hm⟩ := exists_assembled_of_build h
  refine hm.tracks keyed_none fun path => ?_
  rw [Catalog.get?_filesOf]
  have hlast := getLast?_digests hdigests path
  cases hd : (digests.filter fun d => d.path = path).getLast? with
  | none =>
    rw [hd] at hlast
    have hnone : latest? outlines path = none := Option.map_eq_none_iff.mp hlast.symm
    rw [hnone]
    rfl
  | some d =>
    rw [hd] at hlast
    obtain ⟨o, ho, hod⟩ := Option.map_eq_some_iff.mp hlast.symm
    rw [ho]
    exact (toOption_ofOutline_unversioned hod).symm

/-- The files of a changed catalog: the new digest for the changed path, the old one for the
others. -/
theorem get?_filesOf_changed {ds new : List Digest} {changed : String}
    (hnew : ∀ d ∈ new, d.path = changed) (path : String) :
    (filesOf ((filesOf ds).values.filter (fun d => d.path ≠ changed) ++ new)).get? path =
      if path = changed then new.getLast? else (filesOf ds).get? path := by
  rw [get?_filesOf, List.filter_append, filter_filter_path]
  by_cases hp : path = changed
  · have hall : new.filter (fun d => d.path = path) = new :=
      List.filter_eq_self.mpr fun d hd => by simp [hnew d hd, hp]
    rw [if_pos hp, if_pos hp, hall, List.nil_append]
  · have hnone : new.filter (fun d => d.path = path) = [] :=
      List.filter_eq_nil_iff.mpr fun d hd => by simp [hnew d hd, Ne.symm hp]
    rw [if_neg hp, if_neg hp, hnone, List.append_nil, getLast?_filter_values_filesOf]

/-- A change of an index of some files gives an index of the files after the change. -/
theorem Tracks.apply {files : String → Option Outline} {m' : Made} {e : Edit}
    (h : Tracks policy files m) (ha : e.apply m.index token = .ok m') :
    Tracks policy (e.filesAfter files) m' := by
  obtain ⟨new, hnew, _, ha⟩ := exists_assemble_of_apply ha
  obtain ⟨_, settled, hm'⟩ := exists_assembled ha
  obtain ⟨ds, hds⟩ := h.merged
  have hcatalog : m.index.catalog.files = Catalog.filesOf ds := by rw [hds]; rfl
  rw [h.policy_eq, hcatalog] at hm'
  have hkeyed : (m.index.takenOver e m'.index.hierarchy).Keyed := fun c s ws ht =>
    h.keyed c.site s (get?_sites_of_reusable ht).1
  have hpaths : ∀ d ∈ new, d.path = e.path := by
    intro d hd
    obtain ⟨o, ho, hod⟩ := exists_of_mem_map_ok hnew hd
    rw [Digest.path_ofOutline hod, Edit.path_of_mem_added ho]
  refine hm'.tracks hkeyed fun path => ?_
  rw [get?_filesOf_changed hpaths, Edit.filesAfter]
  by_cases hp : path = e.path
  · -- the new digest is that of the outline that the change puts there
    have hlast : (new.getLast?).map Except.ok =
        (e.added.getLast?).map (Digest.ofOutline · (m.index.generation + 1)) := by
      rw [← List.getLast?_map, ← List.getLast?_map, hnew]
    rw [if_pos hp, if_pos hp]
    cases hd : new.getLast? with
    | none =>
      rw [hd] at hlast
      rw [Option.map_eq_none_iff.mp hlast.symm]
      rfl
    | some d =>
      rw [hd] at hlast
      obtain ⟨o, ho, hod⟩ := Option.map_eq_some_iff.mp hlast.symm
      rw [ho]
      exact (toOption_ofOutline_unversioned hod).symm
  · rw [if_neg hp, if_neg hp, ← hcatalog]
    exact h.files_eq path

/-- Every history ends with an index of the files that count. -/
theorem Reached.tracks {files : String → Option Outline} (h : Reached policy files m) :
    Tracks policy files m := by
  induction h with
  | built h => exact tracks_build h
  | changed _ ha ih => exact ih.apply ha

/-! ## Indexes of the same files -/

namespace Tracks

variable {policy : Policy} {files : String → Option Outline} {m m' : Made}

variable (h : Tracks policy files m)
include h

variable (h' : Tracks policy files m')
include h'

theorem catalog_unversioned : m.index.catalog.unversioned = m'.index.catalog.unversioned := by
  obtain ⟨ds, hds⟩ := h.merged
  obtain ⟨es, hes⟩ := h'.merged
  have hfiles := h.files_eq
  have hfiles' := h'.files_eq
  rw [hds] at hfiles
  rw [hes] at hfiles'
  have hmaps : Catalog.filesOf (ds.map Digest.unversioned) = Catalog.filesOf
    (es.map Digest.unversioned) := by
    refine Catalog.eq_of_get? (Catalog.pairwise_keys_filesOf _) (Catalog.pairwise_keys_filesOf _)
      fun path => ?_
    rw [Catalog.filesOf_unversioned, Catalog.filesOf_unversioned, OrderedMap.get?_mapValues,
      OrderedMap.get?_mapValues]
    exact (hfiles path).trans (hfiles' path).symm
  have hmerge := congrArg Prod.fst (merge_congr hmaps)
  rw [Catalog.merge_unversioned, Catalog.merge_unversioned] at hmerge
  rw [hds, hes]
  exact hmerge

theorem hierarchy_congr : m.index.hierarchy = m'.index.hierarchy := by
  obtain ⟨_, hb⟩ := h.hierarchy_eq
  obtain ⟨_, hb'⟩ := h'.hierarchy_eq
  rw [← Hierarchy.build_unversioned, h.catalog_unversioned h', Hierarchy.build_unversioned,
    hb'] at hb
  injection hb with hb
  injection hb with hb _
  exact hb.symm

theorem resolver_unversioned : m.index.resolver.unversioned = m'.index.resolver.unversioned := by
  simp only [Resolver.unversioned, resolver, h.catalog_unversioned h', h.hierarchy_congr h',
    h.policy_eq, h'.policy_eq]

theorem calls_congr : m.index.calls = m'.index.calls :=
  Catalog.flatMap_files_congr (h.catalog_unversioned h') _ fun _ => rfl

theorem references_congr : m.index.references = m'.index.references := by
  have hpending : m.index.pendingReferences = m'.index.pendingReferences :=
    Catalog.flatMap_files_congr (h.catalog_unversioned h') _ fun _ => rfl
  have hreference : m.index.view.reference = m'.index.view.reference :=
    Resolver.reference_congr (h.resolver_unversioned h')
  have hboth := h.references_eq
  rw [hpending, hreference, h'.references_eq] at hboth
  exact (List.map_injective_iff.mpr (fun a b hab => Except.ok.inj hab) hboth).symm

/-- Call sites that were taken over in neither index are the same. -/
theorem get?_sites_congr {id : SiteId} (hid : id ∉ m.reused) (hid' : id ∉ m'.reused) :
    m.index.sites.get? id = m'.index.sites.get? id := by
  rw [h.resolved id hid, h'.resolved id hid', h.calls_congr h',
    Resolver.resolve_congr (h.resolver_unversioned h')]

end Tracks

theorem not_mem_reused_of_build {outlines : List Outline} (h : build outlines policy token = .ok m)
    (id : SiteId) : id ∉ m.reused := by
  obtain ⟨_, _, settled, _, hm⟩ := exists_assembled_of_build h
  rw [hm.mem_reused_iff, get?_ofList_settled hm.calls_eq (fun _ _ => id_of_settle keyed_none)]
  rintro ⟨s, hs, hreused⟩
  obtain ⟨c, _, hs⟩ := Option.bind_eq_some_iff.mp hs
  obtain ⟨_, _, rfl⟩ := map_eq_ok (mem_toOption.mp hs)
  cases hreused

/-- An index reached by any history has, but for versions, the catalog of an index that is freshly
built of the files that count, and its hierarchy, its references and the ids of its call sites.
Every call site that the last change did not take over is that of the fresh index. -/
theorem reached_agrees_with_build {policy : Policy} {files : String → Option Outline} {m : Made}
    (h : Reached policy files m) {current : List Outline}
    (hfiles : ∀ path, latest? current path = files path) {token : Token} {fresh : Made}
    (hf : build current policy token = .ok fresh) :
    m.index.catalog.unversioned = fresh.index.catalog.unversioned ∧
      m.index.hierarchy = fresh.index.hierarchy ∧ m.index.references = fresh.index.references ∧
      m.index.sites.keys = fresh.index.sites.keys ∧
      ∀ id ∉ m.reused, m.index.sites.get? id = fresh.index.sites.get? id := by
  have hm := h.tracks
  have hfresh : Tracks policy files fresh :=
    (funext hfiles : latest? current = files) ▸ tracks_build hf
  refine ⟨hm.catalog_unversioned hfresh, hm.hierarchy_congr hfresh,
    hm.references_congr hfresh, ?_, ?_⟩
  · rw [hm.keys_sites, hfresh.keys_sites, hm.calls_congr hfresh]
  · intro id hid
    exact hm.get?_sites_congr hfresh hid (not_mem_reused_of_build hf id)

/-! ## A history -/

/-- A file that is removed again. -/
def passingFile : Outline :=
  Small.file "e.py" "e" [Small.functionItem "f" "f" false []]

/-- A malformed file without a path. -/
def namelessFile : Outline :=
  Small.file "" "n" []

/-- The changes of a history: a function comes to a file, another file goes, and a malformed one
comes. -/
def changes : List Edit :=
  [.update calledFile, .remove "e.py", .update namelessFile]

theorem latest?_of_changes (path : String) : latest? [namelessFile, calledFile, callingFile] path =
    changes.foldl (fun files e => e.filesAfter files)
      (latest? [callingFile, formerFile, passingFile]) path := by
  have hcalling : callingFile.knownPath = "a.py" := by decide
  have hcalled : calledFile.knownPath = "b.py" := by decide
  have hformer : formerFile.knownPath = "b.py" := by decide
  have hpassing : passingFile.knownPath = "e.py" := by decide
  have hnameless : namelessFile.knownPath = "<unknown>" := by decide
  simp only [changes, List.foldl, Edit.filesAfter, Edit.path, Edit.added, hnameless, hcalled,
    List.getLast?]
  by_cases ha : path = "a.py"
  · subst ha
    simp [latest?, hcalling, hcalled, hformer, hpassing, hnameless]
  by_cases hb : path = "b.py"
  · subst hb
    simp [latest?, hcalling, hcalled, hnameless]
  by_cases he : path = "e.py"
  · subst he
    simp [latest?, hcalling, hcalled, hnameless]
  by_cases hn : path = "<unknown>"
  · subst hn
    simp [latest?, hcalling, hcalled, hnameless]
  · simp [latest?, hcalling, hcalled, hformer, hpassing, hnameless, Ne.symm ha, Ne.symm hb,
      Ne.symm he, Ne.symm hn, hb, he, hn]

/-- After three changes, the last of which takes the call over, the index has the catalog, the
hierarchy, the references and the call sites' ids of a fresh one. -/
theorem reached_agrees_after_changes :
    ∃ m₀ m₁ m₂ m₃ fresh, build [callingFile, formerFile, passingFile] .standard none = .ok m₀ ∧
      (Edit.update calledFile).apply m₀.index none = .ok m₁ ∧ m₁.reused = [] ∧
      (Edit.remove "e.py").apply m₁.index none = .ok m₂ ∧
      (Edit.update namelessFile).apply m₂.index none = .ok m₃ ∧ m₃.reused = ["a.py#call"] ∧
      build [namelessFile, calledFile, callingFile] .standard none = .ok fresh ∧
      m₃.index.catalog.unversioned = fresh.index.catalog.unversioned ∧
      m₃.index.hierarchy = fresh.index.hierarchy ∧ m₃.index.references = fresh.index.references ∧
      m₃.index.sites.keys = fresh.index.sites.keys := by
  have hfresh : (build [namelessFile, calledFile, callingFile] .standard none).toOption.any
      (fun _ => true) := by
    decide +kernel
  have hhistory :
    (build [callingFile, formerFile, passingFile] .standard none).toOption.any (fun m₀ =>
      ((Edit.update calledFile).apply m₀.index none).toOption.any fun m₁ =>
        decide (m₁.reused = []) &&
        ((Edit.remove "e.py").apply m₁.index none).toOption.any fun m₂ =>
          ((Edit.update namelessFile).apply m₂.index none).toOption.any fun m₃ =>
            m₃.reused = ["a.py#call"]) := by
    decide +kernel
  obtain ⟨fresh, hf, _⟩ := exists_of_any hfresh
  obtain ⟨m₀, h₀, hhistory⟩ := exists_of_any hhistory
  obtain ⟨m₁, h₁, hhistory⟩ := exists_of_any hhistory
  obtain ⟨hreused₁, hhistory⟩ := Bool.and_eq_true_iff.mp hhistory
  obtain ⟨m₂, h₂, hhistory⟩ := exists_of_any hhistory
  obtain ⟨m₃, h₃, hreused₃⟩ := exists_of_any hhistory
  have hreached := Reached.changed (.changed (.changed (.built h₀) h₁) h₂) h₃
  obtain ⟨hcatalog, hhierarchy, hreferences, hkeys, _⟩ :=
    reached_agrees_with_build hreached latest?_of_changes hf
  exact ⟨m₀, m₁, m₂, m₃, fresh, h₀, h₁, of_decide_eq_true hreused₁, h₂, h₃,
    of_decide_eq_true hreused₃, hf, hcatalog, hhierarchy, hreferences, hkeys⟩

end Xref.Index

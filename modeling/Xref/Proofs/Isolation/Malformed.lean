import Xref.Proofs.Catalog.Apart
import Xref.Proofs.Index.FileSet
import Xref.Proofs.Relabelled.Resolution
import Xref.Proofs.Sorted
import Xref.Proofs.Unversioned

/-!
# Malformed files

The digest of a malformed file is empty but for its report. Beside other files it is listed and
reported, and nothing else changes, since what a name means depends on the list of files only
through the scopes that may use implicit members: its path tells that nothing is declared in it, and
no scope is of it.
-/

namespace Xref

open List Relabelling Digest OrderedMap Definition Catalog

/-- All labels are kept, the versions too. -/
def Relabelling.same : Relabelling :=
  { unversioned with version := (·.version) }

def Catalog.withFiles (c : Catalog) (files : OrderedMap String Digest) : Catalog :=
  { c with files }

theorem Catalog.withFiles_eq (c : Catalog) (files : OrderedMap String Digest) :
    c.withFiles files = same.catalogWith files c := by
  have hdefinitions : (c.definitions.mapValues fun _ => same.definition) = c.definitions :=
    OrderedMap.ext (List.map_id _)
  rw [catalogWith, hdefinitions]
  rfl

/-- The hierarchy is the same with other files listed. -/
theorem Hierarchy.build_withFiles {c : Catalog} {files : OrderedMap String Digest}
    (h : c.Unaffected files) : build (c.withFiles files) = build c := by
  rw [c.withFiles_eq, same.build_catalogWith c h]

namespace Resolver

def withFiles (r : Resolver) (files : OrderedMap String Digest) : Resolver :=
  ⟨r.catalog.withFiles files, r.hierarchy, r.policy⟩

theorem withFiles_eq (r : Resolver) (files : OrderedMap String Digest) :
    r.withFiles files = same.resolverWith files r := by
  rw [withFiles, r.catalog.withFiles_eq]
  rfl

variable {r : Resolver} {files : OrderedMap String Digest}

/-- References are resolved alike with other files listed. -/
theorem reference_withFiles (h : r.catalog.Unaffected files) :
    (r.withFiles files).view.reference = r.view.reference := by
  rw [withFiles_eq]
  exact same.reference_view r.view h

/-- So are calls. -/
theorem resolve_withFiles (h : r.catalog.Unaffected files) :
    (r.withFiles files).resolve = r.resolve := by
  funext c
  have houtcome : (same.resolverWith files r).outcome c = r.outcome c :=
    same.outcome_resolverWith r c h
  rw [withFiles_eq]
  unfold resolve
  rw [houtcome]
  simp only [bind_targetDefinitions_resolverWith, forM_note_map_definition,
    StateT.run_bind, StateT.run_pure, bind_assoc, pure_bind, List.flatMap_map]
  rfl

end Resolver

/-! ## Merging an empty digest -/

/-- A digest of which only the path and the diagnostics matter. -/
structure Digest.Blank (f : Digest) : Prop where
  definitions : f.definitions = ∅
  scopes : f.scopes = ∅
  classes : f.classes = ∅
  calls : f.calls = []
  references : f.references = []

theorem Digest.blank_failed (o : Outline) (defect : Defect) (item : Option String) :
    (failed o defect item).Blank :=
  ⟨rfl, rfl, rfl, rfl, rfl⟩

namespace Catalog

theorem files_merge (ds : List Digest) : (merge ds).1.files = filesOf ds := rfl

/-- Files are listed by path already. -/
theorem sortOn_values_filesOf (ds : List Digest) :
    sortOn (byText Digest.path) (filesOf ds).values = (filesOf ds).values :=
  sortOn_eq_of_perm (.refl _) (pairwise_values_filesOf ds)

/-- A file with a path of its own takes its place among the others. -/
theorem values_filesOf_insert {xs ys : List Digest} {f : Digest}
    (hf : ∀ d ∈ xs ++ ys, d.path ≠ f.path) :
    ∃ before after, (filesOf (xs ++ ys)).values = before ++ after ∧
      (filesOf (xs ++ f :: ys)).values = before ++ f :: after := by
  have hother : ∀ d, d ∈ xs ∨ d ∈ ys → (decide (d.path ≠ f.path)) := by simpa using hf
  have hfilter : (xs ++ f :: ys).filter (fun d => d.path ≠ f.path) = xs ++ ys := by
    rw [filter_append, filter_cons_of_neg (by simp),
      filter_eq_self.mpr fun d hd => hother d (.inl hd),
      filter_eq_self.mpr fun d hd => hother d (.inr hd)]
  have hself : (xs ++ f :: ys).filter (fun d => d.path = f.path) = [f] := by
    have hnone : ∀ zs : List Digest, (∀ d ∈ zs, d.path ≠ f.path) →
        zs.filter (fun d => d.path = f.path) = [] := by
      intro zs hzs
      exact filter_eq_nil_iff.mpr fun d hd => by simpa using hzs d hd
    rw [filter_append, filter_cons_of_pos (by simp),
      hnone xs fun d hd => hf d (mem_append_left _ hd),
      hnone ys fun d hd => hf d (mem_append_right _ hd)]
    rfl
  have hget : (filesOf (xs ++ f :: ys)).get? f.path = some f := by
    rw [get?_filesOf, hself]
    rfl
  obtain ⟨before, after, hsplit⟩ := append_of_mem (mem_values_of_get? hget)
  refine ⟨before, after, ?_, hsplit⟩
  -- no other file of the list has the path
  have hrest : ∀ d, d ∈ before ∨ d ∈ after → (decide (d.path ≠ f.path)) := by
    have hpaths : ((filesOf (xs ++ f :: ys)).values.map (·.path)).Nodup := by
      rw [map_path_values_filesOf]
      exact (filesOf (xs ++ f :: ys)).distinct
    rw [hsplit, map_append, map_cons, nodup_middle, nodup_cons] at hpaths
    intro d hd
    refine decide_eq_true fun heq => hpaths.1 ?_
    rw [← heq, ← map_append]
    exact mem_map_of_mem (mem_append.mpr hd)
  have hvalues := filter_values_filesOf (xs ++ f :: ys) f.path
  rw [hfilter, hsplit, filter_append, filter_cons_of_neg (by simp),
    filter_eq_self.mpr fun d hd => hrest d (.inl hd),
    filter_eq_self.mpr fun d hd => hrest d (.inr hd)] at hvalues
  exact hvalues.symm

/-- Digests among which another one can be told by its path. -/
structure Excludes (ds : List Digest) (f : Digest) : Prop where
  ids : ∀ d ∈ ds, d.Local
  paths : ∀ d ∈ ds, ':' ∉ d.path.toList ∧ d.path ≠ f.path
  plain : ':' ∉ f.path.toList

namespace Excludes

variable {xs ys : List Digest} {f : Digest}

variable (h : Excludes (xs ++ ys) f)
include h

/-- The file has no definition of its module. -/
theorem get?_definitions (qualname : String) :
    (merge (xs ++ ys)).1.definitions.get? (idOf f.path qualname) = none := by
  cases hx : (merge (xs ++ ys)).1.definitions.get? (idOf f.path qualname) with
  | none => rfl
  | some x =>
    obtain ⟨hid, d, hd, id, hget⟩ := exists_digest_of_get?_merge hx
    have hmem := mem_of_mem_filesOf hd
    obtain ⟨hxid, hidOf, _⟩ := (h.ids d hmem).definition hget
    have hfile : OfFile d.path (idOf f.path qualname) := ⟨x.qualname, by rw [← hid, hxid, hidOf]⟩
    exact absurd (hfile.path_eq ⟨qualname, rfl⟩ (h.paths d hmem).1 h.plain) (h.paths d hmem).2

/-- No scope is of the file. -/
theorem path_of_get?_scopes {id : ScopeId} {s : Scope}
    (hs : (merge (xs ++ ys)).1.scopes.get? id = some s) : s.path ≠ f.path := by
  obtain ⟨d, hd, he⟩ := mem_flatMap.mp (mem_of_get?_ofList hs)
  have hmem := mem_of_mem_filesOf hd
  rw [((h.ids d hmem).scope (get?_eq_some_iff.mpr he)).2.path_eq]
  exact (h.paths d hmem).2

theorem unaffected : (merge (xs ++ ys)).1.Unaffected (filesOf (xs ++ f :: ys)) := by
  intro id s hs
  have hpath := h.path_of_get?_scopes hs
  have hfilter : (xs ++ f :: ys).filter (fun d => d.path = s.path) =
      (xs ++ ys).filter fun d => d.path = s.path := by
    rw [filter_append, filter_append, filter_cons_of_neg (by simpa using hpath.symm)]
  show ((filesOf (xs ++ f :: ys)).get? s.path).map _ = ((filesOf (xs ++ ys)).get? s.path).map _
  rw [get?_filesOf, get?_filesOf, hfilter]

/-- An empty digest is listed among the files and changes nothing else. -/
theorem merge_insert (hf : f.Blank) : merge (xs ++ f :: ys) =
      ((merge (xs ++ ys)).1.withFiles (filesOf (xs ++ f :: ys)), (merge (xs ++ ys)).2) := by
  obtain ⟨before, after, hvalues, hvalues'⟩ :=
    values_filesOf_insert fun d hd => (h.paths d hd).2
  have hflat : ∀ {α : Type} (g : Digest → List α), g f = [] →
      (filesOf (xs ++ f :: ys)).values.flatMap g = (filesOf (xs ++ ys)).values.flatMap g := by
    intro α g hg
    rw [hvalues, hvalues', flatMap_append, flatMap_append, flatMap_cons, hg]
    rfl
  have hdefs := hflat (·.definitions.values) (by rw [hf.definitions]; rfl)
  have hscopes := hflat (·.scopes.entries) (by rw [hf.scopes]; rfl)
  have hclasses := hflat (·.classes.entries) (by rw [hf.classes]; rfl)
  have hmodules : moduleScopesOf (merge (xs ++ ys)).1.definitions (filesOf (xs ++ f :: ys)).values =
      moduleScopesOf (merge (xs ++ ys)).1.definitions (filesOf (xs ++ ys)).values := by
    rw [moduleScopesOf, moduleScopesOf, hvalues, hvalues', filterMap_append,
      filterMap_append, filterMap_cons, h.get?_definitions]
    rfl
  unfold merge at hmodules ⊢
  dsimp only at hmodules ⊢
  rw [hdefs, hscopes, hclasses, hmodules]
  rfl

end Excludes

end Catalog

namespace Index

/-! ## Assembling -/

theorem resolveFile_withFiles {r : Resolver} {files : OrderedMap String Digest}
    (h : r.catalog.Unaffected files) (reuse : Reuse) :
    resolveFile (r.withFiles files) reuse = resolveFile r reuse := by
  have hsettle : settle (r.withFiles files) reuse = settle r reuse := by
    funext c
    rw [settle, settle, Resolver.resolve_withFiles h]
  have hreference : (r.withFiles files).view.reference = r.view.reference :=
    Resolver.reference_withFiles h
  funext d
  rw [resolveFile, resolveFile, hsettle, hreference]

/-- The second index lists one file more, and its diagnostics are reported among the others. -/
structure ListsToo (f : Digest) (m m' : Made) : Prop where
  index_eq : ∃ files, m'.index = { m.index with catalog := m.index.catalog.withFiles files }
  files_eq : ∃ before after, m.index.catalog.files.values = before ++ after ∧
    m'.index.catalog.files.values = before ++ f :: after
  diagnostics_eq : ∃ before after, m.diagnostics = before ++ after ∧
    m'.diagnostics = before ++ f.diagnostics ++ after

theorem listsToo_made {catalog : Catalog} {files : OrderedMap String Digest} {f : Digest}
    {before after : List Digest} (hvalues : catalog.files.values = before ++ after)
    (hvalues' : files.values = before ++ f :: after) (duplicates : List Diagnostic)
    (built : Hierarchy × List Diagnostic) (policy : Policy) (generation : Nat)
    (rs ss : List FileResult) :
    ListsToo f (made (catalog, duplicates) built policy generation (rs ++ ss))
      (made (catalog.withFiles files, duplicates) built policy generation
        (rs ++ ⟨[], []⟩ :: ss)) := by
  have hflat : ∀ {α : Type} (g : FileResult → List α), g ⟨[], []⟩ = [] →
      (rs ++ ⟨[], []⟩ :: ss).flatMap g = (rs ++ ss).flatMap g := by
    intro α g hg
    rw [flatMap_append, flatMap_append, flatMap_cons, hg, nil_append]
  have hcalls := hflat (·.calls) rfl
  have hreferences := hflat (·.references) rfl
  have hreports : catalog.files.values.flatMap (·.diagnostics) =
      before.flatMap (·.diagnostics) ++ after.flatMap (·.diagnostics) := by
    rw [hvalues, flatMap_append]
  have hreports' : (catalog.withFiles files).files.values.flatMap (·.diagnostics) =
      before.flatMap (·.diagnostics) ++ (f.diagnostics ++ after.flatMap (·.diagnostics)) := by
    rw [show (catalog.withFiles files).files = files from rfl, hvalues', flatMap_append,
      flatMap_cons]
  unfold made
  rw [hcalls, hreferences]
  refine ⟨⟨files, rfl⟩, ⟨before, after, hvalues, hvalues'⟩, before.flatMap (·.diagnostics), ?_⟩
  simp only [hreports, hreports', append_assoc]
  exact ⟨_, rfl, rfl⟩

/-- With an empty digest among them, digests are assembled as without it, or not at all for the same
reason. -/
theorem assemble_insert {xs ys : List Digest} {f : Digest} (h : Excludes (xs ++ ys) f)
    (hf : f.Blank) (policy : Policy) (generation : Nat) (reuse : Hierarchy → Reuse) :
    (∃ e, assemble (xs ++ ys) policy generation none reuse = .error e ∧
      assemble (xs ++ f :: ys) policy generation none reuse = .error e) ∨
    ∃ m m', assemble (xs ++ ys) policy generation none reuse = .ok m ∧
      assemble (xs ++ f :: ys) policy generation none reuse = .ok m' ∧ ListsToo f m m' := by
  obtain ⟨before, after, hvalues, hvalues'⟩ :=
    values_filesOf_insert fun d hd => (h.paths d hd).2
  have hunaffected := h.unaffected
  have hfiles : (merge (xs ++ ys)).1.files.values = before ++ after := hvalues
  rw [assemble_none_eq, assemble_none_eq, h.merge_insert hf]
  generalize merge (xs ++ ys) = merged at hunaffected hfiles ⊢
  generalize filesOf (xs ++ f :: ys) = files at hunaffected hvalues' ⊢
  obtain ⟨catalog, duplicates⟩ := merged
  dsimp only at hunaffected hfiles ⊢
  rw [Hierarchy.build_withFiles hunaffected]
  cases Hierarchy.build catalog with
  | error e => exact .inl ⟨e, rfl, rfl⟩
  | ok built =>
    have hresolve : resolveFile ⟨catalog.withFiles files, built.1, policy⟩ (reuse built.1) =
        resolveFile ⟨catalog, built.1, policy⟩ (reuse built.1) :=
      resolveFile_withFiles (r := ⟨catalog, built.1, policy⟩) hunaffected (reuse built.1)
    have hblank : resolveFile ⟨catalog, built.1, policy⟩ (reuse built.1) f = .ok ⟨[], []⟩ := by
      rw [resolveFile, hf.calls, hf.references]
      rfl
    have hlisted : (catalog.withFiles files).files.values = before ++ f :: after := hvalues'
    simp only [bind, Except.bind, hfiles, hlisted, hresolve]
    rcases mapM_insert hblank before after with ⟨e, he, he'⟩ | ⟨rs, ss, hr, hr'⟩
    · rw [he, he']
      exact .inl ⟨e, rfl, rfl⟩
    · rw [hr, hr']
      exact .inr ⟨_, _, rfl, rfl,
        listsToo_made hfiles hvalues' duplicates built policy generation rs ss⟩

/-! ## Building -/

/-- The second index is the first with a malformed file listed and reported. -/
structure OnlyReports (o : Outline) (defect : Defect) (item : Option String)
    (m m' : Made) : Prop where
  definitions : m'.index.catalog.definitions = m.index.catalog.definitions
  scopes : m'.index.catalog.scopes = m.index.catalog.scopes
  classes : m'.index.catalog.classes = m.index.catalog.classes
  byQualname : m'.index.catalog.byQualname = m.index.catalog.byQualname
  byName : m'.index.catalog.byName = m.index.catalog.byName
  moduleScopes : m'.index.catalog.moduleScopes = m.index.catalog.moduleScopes
  packages : m'.index.catalog.packages = m.index.catalog.packages
  hierarchy : m'.index.hierarchy = m.index.hierarchy
  sites : m'.index.sites = m.index.sites
  warnings : m'.index.warnings = m.index.warnings
  references : m'.index.references = m.index.references
  graph : m'.index.graph = m.index.graph
  files : ∃ before after, m.index.catalog.files.values = before ++ after ∧
    m'.index.catalog.files.values = before ++ failed o defect item :: after
  data : ∃ before after others,
    m.index.toData = .obj (("format", .int formatVersion) :: ("files",
      .arr (before ++ after)) :: others) ∧
    m'.index.toData = .obj (("format", .int formatVersion) :: ("files", .arr (before ++
      .obj [("path", .str o.knownPath), ("module", .str o.moduleName), ("failed", .bool true)] ::
        after)) :: others)
  diagnostics : ∃ before after, m.diagnostics = before ++ after ∧
    m'.diagnostics = before ++ .malformed o.knownPath defect item :: after

theorem ListsToo.onlyReports {xs ys : List Digest} {o : Outline} {defect : Defect}
    {item : Option String} {m m' : Made} (h : ListsToo (failed o defect item) m m')
    (hm : m.index.catalog = (merge (xs ++ ys)).1)
    (hm' : m'.index.catalog = (merge (xs ++ failed o defect item :: ys)).1) :
    OnlyReports o defect item m m' := by
  obtain ⟨files, hindex⟩ := h.index_eq
  obtain ⟨before, after, hvalues, hvalues'⟩ := h.files_eq
  have hsorted : sortOn (byText Digest.path) m.index.catalog.files.values = before ++ after := by
    rw [← hvalues, hm, files_merge, sortOn_values_filesOf]
  have hsorted' : sortOn (byText Digest.path) m'.index.catalog.files.values =
      before ++ failed o defect item :: after := by
    rw [← hvalues', hm', files_merge, sortOn_values_filesOf]
  exact
    { definitions := by rw [hindex]; rfl
      scopes := by rw [hindex]; rfl
      classes := by rw [hindex]; rfl
      byQualname := by rw [hindex]; rfl
      byName := by rw [hindex]; rfl
      moduleScopes := by rw [hindex]; rfl
      packages := by rw [hindex]; rfl
      hierarchy := by rw [hindex]
      sites := by rw [hindex]
      warnings := by rw [hindex]
      references := by rw [hindex]
      graph := by rw [hindex]
      files := ⟨before, after, hvalues, hvalues'⟩
      data := by
        rw [toData, toData, hsorted, hsorted', map_append, map_append, map_cons, hindex]
        exact ⟨before.map fileRecord, after.map fileRecord, _, rfl, rfl⟩
      diagnostics := by
        obtain ⟨first, last, hreports, hreports'⟩ := h.diagnostics_eq
        exact ⟨first, last, hreports, by rw [hreports', append_assoc]; rfl⟩ }

/-- A malformed file among others with paths of their own, all free of the mark that ends a path in
an id, is listed as failed and reported once. All else is as without it; so is the fault, if none
can be built. -/
theorem build_isolates_malformed {xs ys : List Outline} {o : Outline} {defect : Defect}
    {item : Option String} (policy : Policy) (hne : xs ++ ys ≠ [])
    (ho : o.check = .error (.malformed defect item))
    (hcolon : ∀ p ∈ xs ++ o :: ys, ':' ∉ p.path.toList)
    (hpath : ∀ p ∈ xs ++ ys, p.knownPath ≠ o.knownPath) :
    (∃ m m', build (xs ++ ys) policy none = .ok m ∧ build (xs ++ o :: ys) policy none = .ok m' ∧
      OnlyReports o defect item m m') ∨
    ∃ e, build (xs ++ ys) policy none = .error e ∧
      build (xs ++ o :: ys) policy none = .error e := by
  have hdigest : ofOutline o 1 = .ok (failed o defect item) := by rw [ofOutline, ho]
  have hknown : ∀ p : Outline, ':' ∉ p.path.toList → ':' ∉ p.knownPath.toList := by
    intro p hp
    unfold Outline.knownPath
    split
    · decide
    · exact hp
  rw [build_eq_bind hne, build_eq_bind (by simp)]
  rcases mapM_insert (f := (ofOutline · 1)) hdigest xs ys with ⟨e, he, he'⟩ | ⟨ds, es, hd, hd'⟩
  · rw [he, he']
    exact .inr ⟨e, rfl, rfl⟩
  · simp only [hd, hd', bind, Except.bind]
    have hexcludes : Excludes (ds ++ es) (failed o defect item) := by
      have hfrom : ∀ d ∈ ds ++ es, ∃ p ∈ xs ++ ys, ofOutline p 1 = .ok d :=
        fun d hd' => exists_of_mem_map_ok (mapM_eq_ok_iff.mp hd) hd'
      refine ⟨fun d hmem => ?_, fun d hmem => ?_, hknown o (hcolon o (by simp))⟩
      · obtain ⟨p, _, hp⟩ := hfrom d hmem
        exact local_ofOutline hp
      · obtain ⟨p, hmem, hp⟩ := hfrom d hmem
        rw [path_ofOutline hp]
        refine ⟨hknown p (hcolon p ?_), hpath p hmem⟩
        rw [mem_append, mem_cons]
        exact (mem_append.mp hmem).imp_right .inr
    rcases assemble_insert hexcludes (blank_failed o defect item) policy 1 (fun _ _ => none) with
      ⟨e, he, he'⟩ | ⟨m, m', hm, hm', hlists⟩
    · exact .inr ⟨e, he, he'⟩
    · obtain ⟨_, _, hassembled⟩ := exists_assembled hm
      obtain ⟨_, _, hassembled'⟩ := exists_assembled hm'
      exact .inl ⟨m, m', hm, hm', hlists.onlyReports hassembled.catalog_eq hassembled'.catalog_eq⟩

def calleelessFile : Outline :=
  Small.file "ab.py" "b" [Small.callItem "call" ""]

/-- A file in the middle of the paths, that even bears the name of another's module. -/
theorem build_isolates_calleeless :
    calleelessFile.check = .error (.malformed .noCallee (some "call")) ∧
      ∃ m m', build ([callingFile] ++ [calledFile]) .standard none = .ok m ∧
        build ([callingFile] ++ calleelessFile :: [calledFile]) .standard none = .ok m' ∧
        OnlyReports calleelessFile .noCallee (some "call") m m' := by
  have hcheck : calleelessFile.check = .error (.malformed .noCallee (some "call")) := by
    decide +kernel
  have hcolon : ∀ p ∈ [callingFile] ++ calleelessFile :: [calledFile], ':' ∉ p.path.toList := by
    decide
  have hpath : ∀ p ∈ [callingFile] ++ [calledFile], p.knownPath ≠ calleelessFile.knownPath := by
    decide
  have hbuilt :
    (build ([callingFile] ++ [calledFile]) .standard none).toOption.any (fun _ => true) =
      true := by
    decide +kernel
  obtain ⟨m, hm, _⟩ := exists_of_any hbuilt
  refine ⟨hcheck, ?_⟩
  rcases build_isolates_malformed .standard (by simp) hcheck hcolon hpath with h | ⟨e, he, _⟩
  · exact h
  · rw [hm] at he
    cases he

end Index

end Xref

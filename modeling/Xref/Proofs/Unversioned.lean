import Xref.Proofs.Relabelled.Catalog
import Xref.Proofs.Relabelled.Digest
import Xref.Proofs.Relabelled.Resolution

/-!
# Without versions

The version of a definition tells which generation of the index read it. Nothing else depends on it:
digesting and merging commute with forgetting versions, and no hierarchy and no resolved call
changes.
-/

namespace Xref

open Relabelling Draft

def Definition.unversioned (x : Definition) : Definition :=
  { x with version := 0 }

def FileContext.unversioned (file : FileContext) : FileContext :=
  { file with version := 0 }

def Digest.unversioned (d : Digest) : Digest :=
  { d with definitions := d.definitions.mapValues fun _ => Definition.unversioned }

/-- Versions are forgotten and all other labels kept. -/
def Relabelling.unversioned : Relabelling where
  version _ := 0
  decorators := (·.decorators)
  isAsync := (·.isAsync)
  isSuspended := (·.isSuspended)
  suspended := id
  supersedes_eq _ _ := rfl

theorem Digest.unversioned_eq : Digest.unversioned = Relabelling.unversioned.digest := by
  funext d
  have hcalls : d.calls.map Relabelling.unversioned.call = d.calls := List.map_id d.calls
  rw [Relabelling.digest, hcalls]
  rfl

namespace Relabelling

variable (file : FileContext) (place : Place) (d : Draft)

theorem lambdaQualname_unversioned (mark : Mark) :
    file.unversioned.lambdaQualname place mark (unversioned.draft d) = file.lambdaQualname
      place mark d :=
  unversioned.lambdaQualname_draft file place mark d

theorem placeIn_unversioned (o : Opening) :
    (unversioned.draft d).placeIn file.unversioned place o = d.placeIn file place o := by
  cases o with
  | lambda mark params =>
    rw [placeIn, placeIn, lambdaQualname_unversioned]
    rfl
  | _ => rfl

/-- Going into a body commutes with forgetting versions. -/
theorem enter_unversioned (o : Opening) :
    (unversioned.draft d).enter file.unversioned place o = unversioned.draft
      (d.enter file place o) := by
  cases o with
  | classDecl mark head =>
    have hdecl := fun s => unversioned.draft_declare (d.openScope s) place.scope
      (file.classDefinition place mark head)
    -- the record of the class is entered beside
    let decl : ClassDecl := ⟨(file.classDefinition place mark head).id, head.bases,
      file.markId mark⟩
    let enter (e : Draft) : Draft := { e with classes := e.classes.insert decl.id decl }
    exact congrArg enter (hdecl _).symm
  | functionDecl mark head =>
    have hdecl := fun s => unversioned.draft_declare (d.openScope s) place.scope
      (file.functionDefinition place mark head)
    dsimp only [enter]
    rw [draft_bindParams]
    refine congrArg (bindParams · _ _ _) ?_
    cases head.receiver? place.ownerClass with
    | none => exact (hdecl _).symm
    | some received =>
      rw [draft_bind]
      exact congrArg (bind · _ _ _) (hdecl _).symm
  | lambda mark params =>
    let x := file.lambdaDefinition place mark params (file.lambdaQualname place mark d)
    have hdef := fun s => unversioned.draft_define (d.openScope s) x
    dsimp only [enter]
    rw [draft_bindParams, lambdaQualname_unversioned]
    refine congrArg (bindParams · _ _ _) ?_
    let enter (e : Draft) : Draft := { e with lambdas := e.lambdas.insert (mark.id.getD "") x.id }
    exact congrArg enter (hdef _).symm
  | block mark => rfl

/-- A step of the walk commutes with forgetting versions. -/
theorem walk_unversioned {i : Item} (hi : i.isLeaf) :
    walk file.unversioned place (unversioned.draft d) i = (walk file place d i).map
      unversioned.draft := by
  cases i with
  | classDecl | functionDecl | lambda | block => cases hi
  | call mark head =>
    refine congrArg Except.ok ?_
    simp only [addCall, draft, List.map_append]
    rfl
  | assign mark a => exact unversioned.addAssignment_draft d place mark a rfl
  | importDecl mark target =>
    exact congrArg Except.ok (unversioned.draft_addImport d file place target).symm
  | _ => rfl

theorem walkAll_unversioned (is : List Item) :
    walkAll file.unversioned place (unversioned.draft d) is =
      (walkAll file place d is).map unversioned.draft := by
  induction is using Item.induct generalizing place d with
  | nil => rfl
  | leaf i is hi ih =>
    rw [walkAll, walkAll, walk_unversioned file place d hi]
    cases walk file place d i with
    | error e => rfl
    | ok d' => exact ih place d'
  | opened o body is hbody ih =>
    have hitem : walk file.unversioned place (unversioned.draft d) (o.item body) =
        (walk file place d (o.item body)).map unversioned.draft := by
      rw [walk_item, walk_item, placeIn_unversioned, enter_unversioned, hbody]
      split
      · split <;> rfl
      · rfl
    rw [walkAll, walkAll, hitem]
    cases walk file place d (o.item body) with
    | error e => rfl
    | ok d' => exact ih place d'

end Relabelling

theorem Digest.draftOf_unversioned (o : Outline) (version : Int) :
    draftOf o 0 = (draftOf o version).map Relabelling.unversioned.draft := by
  unfold draftOf
  split
  · rw [← walkAll_unversioned, draft_define]
    rfl
  · rfl

/-- Digesting a file for any version gives the same but for the versions. -/
theorem Digest.ofOutline_unversioned (o : Outline) (version : Int) :
    ofOutline o 0 = (ofOutline o version).map unversioned := by
  unfold ofOutline
  split
  · rfl
  · rfl
  · rw [draftOf_unversioned o version, unversioned_eq]
    cases draftOf o version <;> rfl

namespace Catalog

def unversioned (c : Catalog) : Catalog :=
  { c with
    definitions := c.definitions.mapValues fun _ => Definition.unversioned
    files := c.files.mapValues fun _ => Digest.unversioned }

variable (c : Catalog)

theorem unversioned_eq : c.unversioned = Relabelling.unversioned.catalog c := by
  rw [unversioned, Digest.unversioned_eq]
  rfl

theorem values_files_unversioned :
    c.unversioned.files.values = c.files.values.map Digest.unversioned := by
  rw [unversioned_eq, Digest.unversioned_eq, values_files_catalog]

theorem values_definitions_unversioned :
    c.unversioned.definitions.values = c.definitions.values.map Definition.unversioned := by
  rw [unversioned, OrderedMap.values_mapValues, OrderedMap.values, List.map_map]
  rfl

/-- Catalogs that are the same but for versions list the same of their files, when it has no
version. -/
theorem flatMap_files_congr {c c' : Catalog} (h : c.unversioned = c'.unversioned)
    (f : Digest → List α) (hf : ∀ d : Digest, f d.unversioned = f d) :
    c.files.values.flatMap f = c'.files.values.flatMap f := by
  have hfiles := congrArg (fun c : Catalog => c.files.values.flatMap f) h
  simpa only [values_files_unversioned, List.flatMap_map, hf] using hfiles

theorem filesOf_unversioned (ds : List Digest) :
    filesOf (ds.map Digest.unversioned) = (filesOf ds).mapValues fun _ => Digest.unversioned := by
  rw [Digest.unversioned_eq, Relabelling.filesOf_map_digest]

theorem merge_unversioned (ds : List Digest) :
    merge (ds.map Digest.unversioned) = ((merge ds).1.unversioned, (merge ds).2) := by
  rw [Digest.unversioned_eq, unversioned_eq, merge_map_digest]

theorem qualnameOf_unversioned : c.unversioned.qualnameOf = c.qualnameOf := by
  rw [unversioned_eq]
  exact Relabelling.unversioned.qualnameOf_catalog c

end Catalog

theorem Hierarchy.build_unversioned (c : Catalog) : build c.unversioned = build c := by
  rw [c.unversioned_eq, build_catalog]

namespace Resolver

def unversioned (r : Resolver) : Resolver :=
  ⟨r.catalog.unversioned, r.hierarchy, r.policy⟩

theorem unversioned_eq (r : Resolver) : r.unversioned = Relabelling.unversioned.resolver r := by
  rw [unversioned, r.catalog.unversioned_eq]
  rfl

/-- A resolved call does not depend on versions. -/
theorem resolve_unversioned (r : Resolver) : r.unversioned.resolve = r.resolve := by
  funext c
  -- versions are no label of a call
  have houtcome : (Relabelling.unversioned.resolver r).outcome c = r.outcome c :=
    Relabelling.unversioned.outcome_resolver r c
  rw [unversioned_eq]
  unfold resolve
  rw [houtcome]
  simp only [bind_targetDefinitions_resolver, forM_note_map_definition,
    StateT.run_bind, StateT.run_pure, bind_assoc, pure_bind, List.flatMap_map]
  rfl

/-- Calls are resolved alike against catalogs that are the same but for versions. -/
theorem resolve_congr {r r' : Resolver} (h : r.unversioned = r'.unversioned) :
    r.resolve = r'.resolve := by
  rw [← resolve_unversioned, h, resolve_unversioned]

/-- So are references. -/
theorem reference_congr {r r' : Resolver} (h : r.unversioned = r'.unversioned) :
    r.view.reference = r'.view.reference := by
  have hreference : ∀ r : Resolver, r.unversioned.view.reference = r.view.reference := by
    intro r
    rw [unversioned_eq, reference_resolver]
  rw [← hreference, h, hreference]

end Resolver

end Xref

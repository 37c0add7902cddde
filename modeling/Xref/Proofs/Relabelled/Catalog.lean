import Xref.Catalog.Basic
import Xref.Proofs.Relabelled.Digest

/-!
# Catalogs with other labels

Merging digests commutes with a change of labels, and so does looking things up. What is looked up
depends on the list of files only through the scopes that may use implicit members.
-/

namespace Xref

open List OrderedMap Catalog

/-- The files listed beside those of a catalog change nothing for the scopes that it has. -/
def Catalog.Unaffected (c : Catalog) (files : OrderedMap String Digest) : Prop :=
  ∀ id s, c.scopes.get? id = some s →
    (files.get? s.path).map (·.implicitMembers) = (c.files.get? s.path).map (·.implicitMembers)

theorem Catalog.mem_chainFrom {c : Catalog} {bound : Nat} {id : Option ScopeId} {s : Scope}
    (h : s ∈ c.chainFrom bound id) : ∃ id, c.scopes.get? id = some s := by
  induction bound generalizing id with
  | zero => cases h
  | succ bound ih =>
    cases id with
    | none => cases h
    | some id =>
      rw [chainFrom] at h
      split at h
      · cases h
      · next first hfirst =>
        rcases mem_cons.mp h with rfl | h
        · exact ⟨id, hfirst⟩
        · exact ih h

namespace Relabelling

variable (g : Relabelling)

def catalog (c : Catalog) : Catalog :=
  { c with
    definitions := c.definitions.mapValues fun _ => g.definition
    files := c.files.mapValues fun _ => g.digest }

def tables (t : Tables) : Tables :=
  { t with definitions := t.definitions.mapValues fun _ => g.definition }

theorem values_files_catalog (c : Catalog) :
    (g.catalog c).files.values = c.files.values.map g.digest := by
  rw [catalog, values_mapValues, values, map_map]
  rfl

/-! ## Merging -/

theorem filesOf_map_digest (ds : List Digest) :
    filesOf (ds.map g.digest) = (filesOf ds).mapValues fun _ => g.digest := by
  have hsort : sortOn (byText Digest.path) (ds.map g.digest) =
      (sortOn (byText Digest.path) ds).map g.digest :=
    (map_sortOn (fun _ _ => rfl) ds).symm
  rw [filesOf, filesOf, hsort, mapValues_ofList, map_map, map_map]
  rfl

theorem add_tables (t : Tables) (x : Definition) :
    (g.tables t).add (g.definition x) = g.tables (t.add x) := by
  have hdefs : (g.tables t).definitions.insert (g.definition x).id (g.definition x) =
      (t.definitions.insert x.id x).mapValues fun _ => g.definition :=
    (mapValues_insert ..).symm
  unfold Tables.add
  rw [hdefs]
  -- what is reported as a duplicate depends on the path of the earlier definition only
  have hprev : ((g.tables t).byQualname.get? (g.definition x).qualname).bind
      ((t.definitions.insert x.id x).mapValues fun _ => g.definition).get? =
      ((t.byQualname.get? x.qualname).bind (t.definitions.insert x.id x).get?).map
        g.definition := by
    show (t.byQualname.get? x.qualname).bind _ = _
    cases t.byQualname.get? x.qualname with
    | none => rfl
    | some id => exact get?_mapValues ..
  dsimp only
  rw [hprev]
  cases (t.byQualname.get? x.qualname).bind (t.definitions.insert x.id x).get? <;> rfl

theorem foldl_add_tables (t : Tables) (xs : List Definition) :
    (xs.map g.definition).foldl Tables.add (g.tables t) = g.tables (xs.foldl Tables.add t) := by
  induction xs generalizing t with
  | nil => rfl
  | cons x xs ih => rw [map_cons, foldl_cons, foldl_cons, add_tables, ih]

theorem moduleScopesOf_map_digest (definitions : OrderedMap DefId Definition) (ds : List Digest) :
    moduleScopesOf (definitions.mapValues fun _ => g.definition) (ds.map g.digest) =
      moduleScopesOf definitions ds := by
  unfold moduleScopesOf
  rw [filterMap_map]
  congr 2
  funext d
  simp only [Function.comp, get?_mapValues, Option.map_map]
  rfl

theorem merge_map_digest (ds : List Digest) :
    merge (ds.map g.digest) = (g.catalog (merge ds).1, (merge ds).2) := by
  have hvalues : ((filesOf ds).mapValues fun _ => g.digest).values =
      (filesOf ds).values.map g.digest := by
    rw [values_mapValues, values, map_map]
    rfl
  have hdefs : (((filesOf ds).values.map g.digest).flatMap (·.definitions.values)) =
      ((filesOf ds).values.flatMap (·.definitions.values)).map g.definition := by
    rw [flatMap_map, map_flatMap]
    congr 1
    funext d
    rw [digest, values_mapValues, values, map_map]
    rfl
  have hsort : ∀ xs : List Definition, sortOn Definition.order (xs.map g.definition) =
      (sortOn Definition.order xs).map g.definition :=
    fun xs => (map_sortOn (fun _ _ => rfl) xs).symm
  have htables : ∀ xs : List Definition,
      (xs.map g.definition).foldl Tables.add ⟨∅, ∅, ∅, []⟩ =
        g.tables (xs.foldl Tables.add ⟨∅, ∅, ∅, []⟩) :=
    fun xs => g.foldl_add_tables ⟨∅, ∅, ∅, []⟩ xs
  unfold Catalog.merge
  dsimp only
  rw [filesOf_map_digest, hvalues, hdefs, hsort, htables]
  simp only [tables, moduleScopesOf_map_digest, flatMap_map, catalog]
  rfl

/-! ## Looking up -/

/-- The catalog with other labels, and with other files listed. -/
def catalogWith (files : OrderedMap String Digest) (c : Catalog) : Catalog :=
  { c with definitions := c.definitions.mapValues fun _ => g.definition, files }

variable (c : Catalog) {files : OrderedMap String Digest}

theorem unaffected : c.Unaffected (c.files.mapValues fun _ => g.digest) := by
  intro id s _
  rw [get?_mapValues, Option.map_map]
  rfl

theorem get?_catalog (id : DefId) :
    (g.catalogWith files c).definitions.get? id = (c.definitions.get? id).map g.definition :=
  get?_mapValues ..

theorem find?_catalog (qualname : String) :
    (g.catalogWith files c).find? qualname = (c.find? qualname).map g.definition := by
  unfold Catalog.find?
  show (c.byQualname.get? qualname).bind _ = _
  cases c.byQualname.get? qualname with
  | none => rfl
  | some id => exact g.get?_catalog c id

theorem named_catalog (name : String) :
    (g.catalogWith files c).named name = (c.named name).map g.definition := by
  unfold named
  rw [map_filterMap]
  congr 1
  funext id
  exact g.get?_catalog c id

theorem qualnameOf_catalog : (g.catalogWith files c).qualnameOf = c.qualnameOf := by
  funext id
  rw [qualnameOf, qualnameOf, get?_catalog, Option.map_map]
  rfl

theorem lookup?_catalog (h : c.Unaffected files) : (g.catalogWith files c).lookup? = c.lookup? := by
  have hchain : ∀ n id, (g.catalogWith files c).chainFrom n id = c.chainFrom n id := by
    intro n
    induction n with
    | zero => exact fun _ => rfl
    | succ n ih =>
      intro id
      cases id with
      | none => rfl
      | some id =>
        have hget : (g.catalogWith files c).scopes.get? id = c.scopes.get? id := rfl
        rw [chainFrom, chainFrom, hget]
        split
        · rfl
        · rw [ih]
  have hstar : (g.catalogWith files c).starBinding? = c.starBinding? := by
    funext name s
    unfold starBinding?
    simp only [find?_catalog, Option.map_map]
    rfl
  funext scope name
  have hscopes : (g.catalogWith files c).scopeChain scope = c.scopeChain scope := hchain _ _
  unfold lookup?
  rw [hscopes, hstar]
  cases hs : c.scopeChain scope with
  | nil => rfl
  | cons first outer =>
    have himplicit :
      (g.catalogWith files c).hasImplicitMembers first = c.hasImplicitMembers first := by
      have hmem : first ∈ c.scopeChain scope := hs ▸ mem_cons_self
      obtain ⟨id, hid⟩ := mem_chainFrom hmem
      exact congrArg (·.getD true) (h id first hid)
    dsimp only
    rw [himplicit]

end Relabelling

end Xref

import Mathlib.Data.List.Basic
import Xref.Catalog.Basic
import Xref.Proofs.Catalog.Merge
import Xref.Proofs.Digest.Local

/-!
# Catalogs that differ in one file

Two catalogs that have all files but one in common answer alike what does not depend on that file:
what is asked by an id of another file, and what is asked by a name that the file does not define.
-/

namespace Xref

open List OrderedMap

/-! ## Paths in ids -/

/-- A path without the marks that end a path in an id. -/
def PlainPath (path : String) : Prop :=
  ':' ∉ path.toList ∧ '#' ∉ path.toList

instance (path : String) : Decidable (PlainPath path) :=
  inferInstanceAs (Decidable (_ ∧ _))

theorem eq_of_append_cons {α : Type u} {a : α} {xs ys xs' ys' : List α} (hx : a ∉ xs) (hy : a ∉ ys)
    (h : xs ++ a :: xs' = ys ++ a :: ys') : xs = ys := by
  induction xs generalizing ys with
  | nil =>
    cases ys with
    | nil => rfl
    | cons y ys =>
      cases h
      exact absurd mem_cons_self hy
  | cons x xs ih =>
    cases ys with
    | nil =>
      cases h
      exact absurd mem_cons_self hx
    | cons y ys =>
      obtain ⟨rfl, hrest⟩ := List.cons.inj h
      rw [ih (fun hmem => hx (mem_cons_of_mem _ hmem))
        (fun hmem => hy (mem_cons_of_mem _ hmem)) hrest]

/-- The id of a definition tells the path of its file. -/
theorem Definition.OfFile.path_eq {path path' : String} {id : DefId} (h : OfFile path id)
    (h' : OfFile path' id) (hp : ':' ∉ path.toList) (hp' : ':' ∉ path'.toList) : path = path' := by
  obtain ⟨q, rfl⟩ := h
  obtain ⟨q', heq⟩ := h'
  have hlist :
    path.toList ++ ':' :: (':' :: q.toList) = path'.toList ++ ':' :: (':' :: q'.toList) := by
    simpa [Definition.idOf] using congrArg String.toList heq
  exact String.toList_injective (eq_of_append_cons hp hp' hlist)

/-- So does the id of a scope. -/
theorem Scope.OfFile.path_eq {path path' : String} {id : ScopeId} (h : OfFile path id)
    (h' : OfFile path' id) (hp : '#' ∉ path.toList) (hp' : '#' ∉ path'.toList) : path = path' := by
  obtain ⟨m, rfl⟩ := h
  obtain ⟨m', heq⟩ := h'
  have hlist : path.toList ++ '#' :: m.toList = path'.toList ++ '#' :: m'.toList := by
    simpa [Scope.idOf] using congrArg String.toList heq
  exact String.toList_injective (eq_of_append_cons hp hp' hlist)

instance : Std.TransOrd Location :=
  inferInstanceAs (Std.TransCmp (compareLex (compareOn Location.line) (compareOn Location.column)))

instance : Std.TransCmp Definition.order :=
  inferInstanceAs (Std.TransCmp (compareLex (byText Definition.qualname)
    (compareLex (byText Definition.path)
      (compareLex (compareOn Definition.location) (byText Definition.id)))))

namespace Catalog

/-! ## The tables of definitions -/

theorem byQualname_foldl_add (ds : List Definition) (t : Tables) :
    (ds.foldl Tables.add t).byQualname = t.byQualname.insertAll (ds.map fun d =>
      (d.qualname, d.id)) := by
  induction ds generalizing t with
  | nil => rfl
  | cons d ds ih =>
    rw [foldl_cons, ih]
    rfl

theorem byName_foldl_add (ds : List Definition) (t : Tables) (name : String) :
    ((ds.foldl Tables.add t).byName.get? name).getD [] =
      (t.byName.get? name).getD [] ++ (ds.filter fun d => d.name = name).map (·.id) := by
  induction ds generalizing t with
  | nil => simp
  | cons d ds ih =>
    rw [foldl_cons, ih]
    have hadd : ((t.add d).byName.get? name).getD [] =
        (t.byName.get? name).getD [] ++ if d.name = name then [d.id] else [] := by
      show ((t.byName.insert d.name _).get? name).getD [] = _
      rw [get?_insert]
      by_cases hn : d.name = name
      · rw [if_pos hn.symm, if_pos hn, ← hn]
        rfl
      · rw [if_neg (Ne.symm hn), if_neg hn, append_nil]
    rw [hadd, filter_cons]
    by_cases hn : d.name = name <;> simp [hn]

theorem byQualname_merge (digests : List Digest) :
    (merge digests).1.byQualname = .ofList ((ordered digests).map fun d => (d.qualname, d.id)) :=
  byQualname_foldl_add ..

theorem byName_merge (digests : List Digest) (name : String) :
    ((merge digests).1.byName.get? name).getD [] =
      ((ordered digests).filter fun d => d.name = name).map (·.id) :=
  byName_foldl_add ..

theorem get?_ofList_map_pair {κ α β : Type _} [DecidableEq κ] (key : β → κ) (value : β → α)
    (bs : List β) (k : κ) :
    (OrderedMap.ofList (bs.map fun b => (key b, value b))).get? k =
      ((bs.filter fun b => key b = k).getLast?).map value := by
  have hentries : (bs.map fun b => (key b, value b)).filter (fun e => e.1 = k) =
      (bs.filter fun b => key b = k).map fun b => (key b, value b) := filter_map ..
  rw [OrderedMap.get?_ofList_eq_getLast?, hentries, List.getLast?_map, Option.map_map]
  rfl

theorem get?_ofList_congr {κ α β : Type _} [DecidableEq κ] {key : β → κ} {value : β → α}
    {bs cs : List β} {k : κ} (h : bs.filter (fun b => key b = k) = cs.filter fun b => key b = k) :
    (ofList (bs.map fun b => (key b, value b))).get? k =
      (ofList (cs.map fun b => (key b, value b))).get? k := by
  rw [get?_ofList_map_pair, get?_ofList_map_pair, h]

/-! ## Bare names and packages -/

theorem mem_of_firstBinding? {map : Scope → OrderedMap String Binding} {name : String}
    {scopes : List Scope} {b : Binding} {o : Scope}
    (h : firstBinding? map name scopes = some (b, o)) :
    o ∈ scopes ∧ (map o).get? name = some b := by
  obtain ⟨s, hs, hb⟩ := exists_of_findSome?_eq_some h
  obtain ⟨b', hb', heq⟩ := Option.map_eq_some_iff.mp hb
  cases heq
  exact ⟨hs, hb'⟩

theorem mem_of_mem_visibleScopes {implicitMembers : Bool} {s : Scope} {scopes : List Scope}
    (h : s ∈ visibleScopes implicitMembers scopes) : s ∈ scopes := by
  cases scopes with
  | nil => exact h
  | cons first outer =>
    rcases mem_cons.mp h with rfl | h
    · exact mem_cons_self
    · exact mem_cons_of_mem _ (mem_filter.mp h).1

/-- A bare name is bound alike where the scopes around it are the same and import no module as a
whole. -/
theorem lookup?_congr {c c' : Catalog} {s : ScopeId} (hchain : c'.scopeChain s = c.scopeChain s)
    (hscopes : ∀ o ∈ c.scopeChain s, o.starImports = [] ∧
      c'.hasImplicitMembers o = c.hasImplicitMembers o) (name : String) :
    c'.lookup? s name = c.lookup? s name := by
  have hstar : ∀ a : Catalog, (c.scopeChain s).findSome? (a.starBinding? name) = none := by
    refine fun a => List.findSome?_eq_none_iff.mpr fun o ho => ?_
    rw [starBinding?, (hscopes o ho).1]
    rfl
  unfold lookup?
  rw [hchain]
  cases hc : c.scopeChain s with
  | nil => rfl
  | cons first outer =>
    rw [hc] at hscopes hstar
    dsimp only
    rw [(hscopes first mem_cons_self).2, hstar, hstar]

/-- From a scope that the catalog does not have no name is bound. -/
theorem lookup?_of_not_mem {c : Catalog} {s : ScopeId} (hs : c.scopes.get? s = none)
    (name : String) : c.lookup? s name = none := by
  have hchain : ∀ bound, c.chainFrom bound (some s) = [] := by
    intro bound
    cases bound with
    | zero => rfl
    | succ bound => rw [chainFrom, hs]
  rw [lookup?, scopeChain, hchain]

theorem mem_keys_moduleScopes {ds : List Digest} {q : String} : q ∈ (merge ds).1.moduleScopes.keys ↔
    ∃ d ∈ (filesOf ds).values, d.moduleName = q ∧
      ∃ x, (merge ds).1.definitions.get? (Definition.idOf d.path q) = some x := by
  show q ∈ (moduleScopesOf (merge ds).1.definitions (filesOf ds).values).keys ↔ _
  rw [moduleScopesOf, mem_keys_ofList]
  simp only [mem_map, mem_filterMap, Option.map_eq_some_iff]
  constructor
  · rintro ⟨_, ⟨d, hd, x, hx, rfl⟩, rfl⟩
    exact ⟨d, hd, rfl, x, hx⟩
  · rintro ⟨d, hd, rfl, x, hx⟩
    exact ⟨_, ⟨d, hd, x, hx, rfl⟩, rfl⟩

theorem isPackage_iff {ds : List Digest} {q : String} : (merge ds).1.isPackage q ↔
    (∃ m ∈ (merge ds).1.moduleScopes.keys, q ∈ Text.Dotted.enclosing m) ∧
      q ∉ (merge ds).1.moduleScopes.keys := by
  show (sortedSet (((merge ds).1.moduleScopes.keys.flatMap Text.Dotted.enclosing).filter fun p =>
    !(merge ds).1.moduleScopes.contains p)).contains q ↔ _
  rw [contains_iff_mem, mem_sortedSet, mem_filter, mem_flatMap, Bool.not_eq_true',
    ← contains_eq_true_iff, Bool.not_eq_true]

/-! ## Files in common -/

/-- Two lists of files are the same but for the file with a path. -/
def SameBut (path : String) (fs gs : List Digest) : Prop :=
  fs.filter (fun d => d.path ≠ path) = gs.filter fun d => d.path ≠ path

namespace SameBut

variable {path : String} {fs gs : List Digest}

variable (h : SameBut path fs gs)
include h

theorem symm : SameBut path gs fs :=
  Eq.symm h

theorem mem {d : Digest} (hd : d ∈ fs) (hp : d.path ≠ path) : d ∈ gs := by
  have hmem : d ∈ fs.filter fun d => d.path ≠ path := mem_filter.mpr ⟨hd, by simpa using hp⟩
  rw [show fs.filter _ = _ from h] at hmem
  exact (mem_filter.mp hmem).1

/-- What the files list is the same, as far as the changed file lists nothing of it. -/
theorem filter_flatMap {f : Digest → List α} {p : α → Bool}
    (hf : ∀ d ∈ fs, d.path = path → ∀ a ∈ f d, p a = false)
    (hg : ∀ d ∈ gs, d.path = path → ∀ a ∈ f d, p a = false) :
    (fs.flatMap f).filter p = (gs.flatMap f).filter p := by
  have hkept : ∀ ds : List Digest, (∀ d ∈ ds, d.path = path → ∀ a ∈ f d, p a = false) →
      (ds.flatMap f).filter p = ((ds.filter fun d => d.path ≠ path).flatMap f).filter p := by
    intro ds
    induction ds with
    | nil => exact fun _ => rfl
    | cons d ds ih =>
      intro hds
      have hrest := ih fun d' hd' => hds d' (mem_cons_of_mem _ hd')
      rw [flatMap_cons, filter_append, hrest]
      by_cases hp : d.path = path
      · rw [filter_cons_of_neg (by simpa using hp),
          filter_eq_nil_iff.mpr fun a ha => by simp [hds d mem_cons_self hp a ha],
          nil_append]
      · rw [filter_cons_of_pos (by simpa using hp), flatMap_cons, filter_append]
  rw [hkept fs hf, hkept gs hg, show fs.filter _ = _ from h]

end SameBut

/-- Two merges of digests that have all files but one in common; that one is among some changed
digests. All ids are of their files. -/
structure Beside (path : String) (changed ds es : List Digest) : Prop where
  plain : PlainPath path
  same : SameBut path (filesOf ds).values (filesOf es).values
  before : ∀ d ∈ (filesOf ds).values, d.Local ∧ PlainPath d.path ∧ (d.path = path → d ∈ changed)
  after : ∀ d ∈ (filesOf es).values, d.Local ∧ PlainPath d.path ∧ (d.path = path → d ∈ changed)

namespace Beside

variable {path : String} {changed ds es : List Digest}

theorem symm (h : Beside path changed ds es) : Beside path changed es ds :=
  ⟨h.plain, h.same.symm, h.after, h.before⟩

variable {d : Digest} {x : Definition} {q : String}

/-- The ids of a file apart from another are not ids of that. -/
theorem not_ofFile (h : Beside path changed ds es) (hd : d ∈ (filesOf ds).values)
    (hp : d.path ≠ path) {id : DefId} (hid : Definition.OfFile d.path id) :
    ¬ Definition.OfFile path id :=
  fun hid' => hp (hid.path_eq hid' (h.before d hd).2.1.1 h.plain.1)

theorem not_scope_ofFile (h : Beside path changed ds es) (hd : d ∈ (filesOf ds).values)
    (hp : d.path ≠ path) {id : ScopeId} (hid : Scope.OfFile d.path id) : ¬ Scope.OfFile path id :=
  fun hid' => hp (hid.path_eq hid' (h.before d hd).2.1.2 h.plain.2)

/-! ## Definitions -/

theorem idOf_of_mem_values (h : d.Local) (hx : x ∈ d.definitions.values) :
    x.id = Definition.idOf d.path x.qualname := by
  obtain ⟨⟨id, _⟩, he, rfl⟩ := mem_map.mp hx
  obtain ⟨hid, hidOf, _⟩ := h.definition (OrderedMap.get?_eq_some_iff.mpr he)
  exact hid.trans hidOf

section

variable (h : Beside path changed ds es) {id : DefId}
include h

/-- A definition that the changed file does not have, before or after, has no id of the file. -/
theorem not_ofFile_of_mem_ordered (hx : x ∈ ordered ds)
    (hn : ∀ d ∈ changed, x ∉ d.definitions.values) : ¬ Definition.OfFile path x.id := by
  obtain ⟨d, hd, hxd⟩ := mem_flatMap.mp (mem_sortOn.mp hx)
  have hp : d.path ≠ path := fun hp => hn d ((h.before d hd).2.2 hp) hxd
  exact h.not_ofFile hd hp ⟨x.qualname, idOf_of_mem_values (h.before d hd).1 hxd⟩

/-- The definitions in order are the same, as far as the changed file has none of them. -/
theorem filter_ordered {p : Definition → Bool}
    (hn : ∀ d ∈ changed, ∀ x ∈ d.definitions.values, x.id = Definition.idOf path x.qualname →
      p x = false) : (ordered es).filter p = (ordered ds).filter p := by
  rw [ordered, ordered, filter_sortOn_comm, filter_sortOn_comm, h.same.filter_flatMap]
  · intro d hd hp x hx
    exact hn d ((h.before d hd).2.2 hp) x hx (hp ▸ idOf_of_mem_values (h.before d hd).1 hx)
  · intro d hd hp x hx
    exact hn d ((h.after d hd).2.2 hp) x hx (hp ▸ idOf_of_mem_values (h.after d hd).1 hx)

theorem get?_definitions (hid : ¬ Definition.OfFile path id) :
    (merge es).1.definitions.get? id = (merge ds).1.definitions.get? id := by
  rw [definitions_merge, definitions_merge]
  refine get?_ofList_congr (h.filter_ordered fun d _ x _ hx => ?_)
  rw [decide_eq_false_iff_not]
  rintro rfl
  exact hid ⟨_, hx⟩

/-- A definition of the catalog is of the changed file, or all its ids are of another one. -/
theorem of_get?_definitions (hx : (merge ds).1.definitions.get? id = some x) :
    (∃ d ∈ changed, x ∈ d.definitions.values) ∧ Definition.OfFile path id ∨
      ¬ Definition.OfFile path id ∧ ∀ owner, x.ownerClass = some owner →
        ¬ Definition.OfFile path owner := by
  obtain ⟨rfl, d, hd, id', hget⟩ := exists_digest_of_get?_merge hx
  obtain ⟨hid, hidOf, howner⟩ := (h.before d hd).1.definition hget
  by_cases hp : d.path = path
  · refine .inl ⟨⟨d, (h.before d hd).2.2 hp, ?_⟩, ⟨x.qualname, ?_⟩⟩
    · exact mem_values_of_get? hget
    · rw [hid, hidOf, hp]
  · refine .inr ⟨h.not_ofFile hd hp ⟨x.qualname, hid.trans hidOf⟩, fun owner ho => ?_⟩
    exact h.not_ofFile hd hp (howner owner ho)

/-- A name that the changed file does not define, before or after, is found alike. -/
theorem find?_eq (hq : ∀ d ∈ changed, ∀ x ∈ d.definitions.values, x.qualname ≠ q) :
    (merge es).1.find? q = (merge ds).1.find? q ∧
      ∀ id, (merge ds).1.byQualname.get? q = some id → ¬ Definition.OfFile path id := by
  have hids : ∀ id, (merge ds).1.byQualname.get? q = some id → ¬ Definition.OfFile path id := by
    intro id hget
    rw [byQualname_merge] at hget
    obtain ⟨x, hx, heq⟩ := mem_map.mp (mem_of_get?_ofList hget)
    cases heq
    exact h.not_ofFile_of_mem_ordered hx fun d hd hxd => hq d hd x hxd rfl
  have hget : (merge es).1.byQualname.get? q = (merge ds).1.byQualname.get? q := by
    rw [byQualname_merge, byQualname_merge]
    refine get?_ofList_congr (h.filter_ordered fun d hd x hx _ => ?_)
    simpa using hq d hd x hx
  refine ⟨?_, hids⟩
  rw [find?, find?, hget]
  cases hid : (merge ds).1.byQualname.get? q with
  | none => rfl
  | some id => exact h.get?_definitions (hids id hid)

/-- The definitions with a name that the changed file gives to none are the same. -/
theorem named_eq {name : String} (hn : ∀ d ∈ changed, ∀ x ∈ d.definitions.values, x.name ≠ name) :
    (merge es).1.named name = (merge ds).1.named name := by
  have hfilter : (ordered es).filter (fun x => x.name = name) =
      (ordered ds).filter fun x => x.name = name :=
    h.filter_ordered fun d hd x hx _ => by simpa using hn d hd x hx
  rw [named, named, byName_merge, byName_merge, hfilter]
  refine filterMap_congr fun id hid => h.get?_definitions ?_
  obtain ⟨x, hx, rfl⟩ := mem_map.mp hid
  obtain ⟨hx, hxn⟩ := mem_filter.mp hx
  exact h.not_ofFile_of_mem_ordered hx fun d hd hxd => hn d hd x hxd (by simpa using hxn)

/-! ## Scopes and classes -/

/-- What the maps of all files hold under a key is the same, as far as the changed file does not
have the key. -/
theorem get?_flatMap {α : Type} (f : Digest → OrderedMap String α)
    {k : String} (hk : ∀ d : Digest, d.Local → d.path = path → k ∉ (f d).keys) :
    (ofList ((filesOf es).values.flatMap fun d => (f d).entries)).get? k =
      (ofList ((filesOf ds).values.flatMap fun d => (f d).entries)).get? k := by
  have hnone : ∀ d : Digest, d.Local → d.path = path → ∀ e ∈ (f d).entries,
    decide (e.1 = k) = false := by
    intro d hd hp e he
    rw [decide_eq_false_iff_not]
    rintro rfl
    exact hk d hd hp (mem_map_of_mem he)
  rw [get?_ofList_eq_getLast?, get?_ofList_eq_getLast?,
    h.same.filter_flatMap (fun d hd => hnone d (h.before d hd).1) fun d hd =>
      hnone d (h.after d hd).1]

theorem get?_scopes {id : ScopeId} (hid : ¬ Scope.OfFile path id) :
    (merge es).1.scopes.get? id = (merge ds).1.scopes.get? id := by
  refine h.get?_flatMap Digest.scopes fun d hd hp hmem => ?_
  obtain ⟨s, hs⟩ := mem_keys_iff.mp hmem
  exact hid (hp ▸ (hd.scope hs).1)

theorem get?_classes (hid : ¬ Definition.OfFile path id) :
    (merge es).1.classes.get? id = (merge ds).1.classes.get? id := by
  refine h.get?_flatMap Digest.classes fun d hd hp hmem => ?_
  obtain ⟨c, hc⟩ := mem_keys_iff.mp hmem
  exact hid (hp ▸ (hd.decl hc).1)

/-- A class of the catalog is of the changed file, or its body is of another one. -/
theorem of_get?_classes {c : ClassDecl} (hc : (merge ds).1.classes.get? id = some c) :
    (∃ d ∈ changed, id ∈ d.classes.keys) ∧ Definition.OfFile path id ∨
      ¬ Definition.OfFile path id ∧ ¬ Scope.OfFile path c.body := by
  obtain ⟨d, hd, hmem⟩ := mem_flatMap.mp (mem_of_get?_ofList hc)
  have hget : d.classes.get? id = some c := OrderedMap.get?_eq_some_iff.mpr hmem
  obtain ⟨hid, hbody⟩ := (h.before d hd).1.decl hget
  by_cases hp : d.path = path
  · exact .inl ⟨⟨d, (h.before d hd).2.2 hp, mem_keys_iff.mpr ⟨c, hget⟩⟩, hp ▸ hid⟩
  · exact .inr ⟨h.not_ofFile hd hp hid, h.not_scope_ofFile hd hp hbody⟩

/-- A scope of the catalog is of the changed file, or refers to nothing of it. -/
theorem of_get?_scopes {id : ScopeId} {s : Scope} (hs : (merge ds).1.scopes.get? id = some s) :
    path ∈ (filesOf ds).keys ∧ Scope.OfFile path id ∨ ¬ Scope.OfFile path id ∧
      s.Within (fun id => ¬ Definition.OfFile path id) fun id => ¬ Scope.OfFile path id := by
  obtain ⟨d, hd, hmem⟩ := mem_flatMap.mp (mem_of_get?_ofList hs)
  obtain ⟨hof, hwithin⟩ := (h.before d hd).1.scope (OrderedMap.get?_eq_some_iff.mpr hmem)
  by_cases hp : d.path = path
  · exact .inl ⟨hp ▸ mem_keys_iff.mpr ⟨d, get?_filesOf_of_mem hd⟩, hp ▸ hof⟩
  · exact .inr ⟨h.not_scope_ofFile hd hp hof,
      hwithin.mono (fun _ => h.not_ofFile hd hp) fun _ => h.not_scope_ofFile hd hp⟩

theorem within_of_get?_scopes {id : ScopeId} {s : Scope}
    (hs : (merge ds).1.scopes.get? id = some s) (hid : ¬ Scope.OfFile path id) :
    s.Within (fun id => ¬ Definition.OfFile path id) fun id => ¬ Scope.OfFile path id := by
  rcases h.of_get?_scopes hs with ⟨_, hof⟩ | ⟨_, hwithin⟩
  · exact absurd hof hid
  · exact hwithin

/-- A member of a class of another file is bound alike, to what refers to nothing of the changed
file. -/
theorem ownMember?_eq (hid : ¬ Definition.OfFile path id) (name : String) :
    (merge es).1.ownMember? id name = (merge ds).1.ownMember? id name ∧
      ∀ b, (merge ds).1.ownMember? id name = some b →
        b.value.Within (fun id => ¬ Definition.OfFile path id) fun id =>
          ¬ Scope.OfFile path id := by
  unfold ownMember?
  rw [h.get?_classes hid]
  cases hc : (merge ds).1.classes.get? id with
  | none => exact ⟨rfl, fun b hb => by cases hb⟩
  | some decl =>
    rcases h.of_get?_classes hc with ⟨_, hof⟩ | ⟨_, hbody⟩
    · exact absurd hof hid
    · simp only [Option.bind_eq_bind, Option.bind_some]
      rw [h.get?_scopes hbody]
      refine ⟨rfl, fun b hb => ?_⟩
      obtain ⟨s, hs, hb⟩ := Option.bind_eq_some_iff.mp hb
      exact (h.within_of_get?_scopes hs hbody).binding hb

/-! ## Bare names -/

/-- All scopes around a scope of another file refer to nothing of the changed file. -/
theorem within_of_mem_chainFrom {bound : Nat} {id : Option ScopeId}
    (hid : ∀ s ∈ id, ¬ Scope.OfFile path s) {s : Scope} (hs : s ∈ (merge ds).1.chainFrom bound id) :
    s.Within (fun id => ¬ Definition.OfFile path id) fun id => ¬ Scope.OfFile path id := by
  induction bound generalizing id with
  | zero => cases hs
  | succ bound ih =>
    cases id with
    | none => cases hs
    | some id =>
      rw [chainFrom] at hs
      split at hs
      · cases hs
      · next first hfirst =>
        have hwithin := h.within_of_get?_scopes hfirst (hid id rfl)
        rcases mem_cons.mp hs with rfl | hs
        · exact hwithin
        · exact ih (fun s hmem => hwithin.parent s hmem) hs

/-- What a name is bound to, seen from a scope of another file, refers to nothing of the changed
file but by names. -/
theorem within_of_lookup? {s : ScopeId} (hs : ¬ Scope.OfFile path s)
    {name : String} {b : Binding} {o : Scope} (hb : (merge ds).1.lookup? s name = some (b, o)) :
    (b.value.Within (fun id => ¬ Definition.OfFile path id) fun id => ¬ Scope.OfFile path id) ∧
      ∀ owner, o.owner = some owner → ¬ Definition.OfFile path owner := by
  have hchain : ∀ o ∈ (merge ds).1.scopeChain s,
      o.Within (fun id => ¬ Definition.OfFile path id) fun id => ¬ Scope.OfFile path id :=
    fun o ho => h.within_of_mem_chainFrom (fun s' hs' => Option.some.inj hs' ▸ hs) ho
  unfold lookup? at hb
  split at hb
  · cases hb
  · next first outer heq =>
    rw [heq] at hchain
    -- the name is declared in a scope, imported into one, or found through a whole module
    simp only [Option.orElse_eq_orElse, Option.orElse_eq_or, Option.or_eq_some_iff] at hb
    rcases hb with hfound | ⟨_, hfound | ⟨_, hstar⟩⟩
    · obtain ⟨ho, hget⟩ := mem_of_firstBinding? hfound
      have hwithin := hchain o (mem_of_mem_visibleScopes ho)
      exact ⟨hwithin.binding hget, hwithin.owner⟩
    · obtain ⟨ho, hget⟩ := mem_of_firstBinding? hfound
      exact ⟨(hchain o ho).imported hget, (hchain o ho).owner⟩
    · obtain ⟨s', hs', hb'⟩ := exists_of_findSome?_eq_some hstar
      obtain ⟨source, _, hb'⟩ := exists_of_findSome?_eq_some hb'
      obtain ⟨_, _, heq'⟩ := Option.map_eq_some_iff.mp hb'
      cases heq'
      exact ⟨by simp [BindingValue.Within], (hchain o hs').owner⟩

/-! ## Packages -/

theorem mem_moduleScopes_of_ne (hd : d ∈ (filesOf ds).values) (hp : d.path ≠ path)
    (hx : (merge ds).1.definitions.get? (Definition.idOf d.path d.moduleName) = some x) :
    d.moduleName ∈ (merge es).1.moduleScopes.keys := by
  refine mem_keys_moduleScopes.mpr ⟨d, h.same.mem hd hp, rfl, x, ?_⟩
  rw [h.get?_definitions (h.not_ofFile hd hp ⟨_, rfl⟩), hx]

/-- A module with a name that the changed file does not define is there in both catalogs. -/
theorem mem_moduleScopes (hq : ∀ d ∈ changed, ∀ x ∈ d.definitions.values, x.qualname ≠ q)
    (hmem : q ∈ (merge ds).1.moduleScopes.keys) : q ∈ (merge es).1.moduleScopes.keys := by
  obtain ⟨d, hd, rfl, x, hx⟩ := mem_keys_moduleScopes.mp hmem
  by_cases hp : d.path = path
  · -- the definition of the module is in the file, under the name
    obtain ⟨hid, f, hf, id, hget⟩ := exists_digest_of_get?_merge hx
    have hlocal := (h.before f hf).1.definition hget
    have hidOf : Definition.idOf path d.moduleName = Definition.idOf f.path x.qualname := by
      rw [← hp, ← hid, hlocal.1, hlocal.2.1]
    have hpf : path = f.path :=
      Definition.OfFile.path_eq ⟨_, rfl⟩ ⟨_, hidOf⟩ h.plain.1 (h.before f hf).2.1.1
    rw [← hpf] at hidOf
    refine absurd (Definition.qualname_eq_of_idOf hidOf).symm
      (hq f ((h.before f hf).2.2 hpf.symm) x ?_)
    exact mem_values_of_get? hget
  · exact h.mem_moduleScopes_of_ne hd hp hx

variable (hq : ∀ d ∈ changed, q ∉ Text.Dotted.enclosing d.moduleName ∧ ∀ x ∈ d.definitions.values,
  x.qualname ≠ q)
include hq

theorem isPackage_of_isPackage (hp : (merge ds).1.isPackage q) : (merge es).1.isPackage q := by
  obtain ⟨⟨m, hm, hmq⟩, hnot⟩ := isPackage_iff.mp hp
  refine isPackage_iff.mpr ⟨⟨m, ?_, hmq⟩, fun hmem => ?_⟩
  · obtain ⟨d, hd, rfl, x, hx⟩ := mem_keys_moduleScopes.mp hm
    exact h.mem_moduleScopes_of_ne hd (fun hp => (hq d ((h.before d hd).2.2 hp)).1 hmq) hx
  · exact hnot (h.symm.mem_moduleScopes (fun d hd => (hq d hd).2) hmem)

/-- A name that the changed file neither defines nor stands below is a package in both catalogs or
in none. -/
theorem isPackage_eq : (merge es).1.isPackage q = (merge ds).1.isPackage q :=
  Bool.eq_iff_iff.mpr ⟨h.symm.isPackage_of_isPackage hq, h.isPackage_of_isPackage hq⟩

end

end Beside

end Catalog

end Xref

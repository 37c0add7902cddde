import Xref.Proofs.Call.Targets
import Xref.Proofs.Catalog.Apart
import Xref.Proofs.Text.Dotted

/-!
# Forms of imports

A definition of a module is reached by the dotted name of the module, by another name for the
module, and by another name for the definition. The dotted name is read part by part, through
modules and through packages that have no module of their own; the other names stand for a qualified
name at once. All come to the same definition, as long as the ids of definitions tell their
qualified names apart.
-/

namespace Xref

open List OrderedMap Text Text.Dotted Definition View Xref.Small

/-! ## What an import records -/

/-- An import of a module, perhaps under another name. -/
def Import.ofModule (m : String) (rename : Option String) : Import :=
  ⟨m, none, rename, 0⟩

/-- An import of a member of a module, perhaps under another name. -/
def Import.ofMember (m x : String) (rename : Option String) : Import :=
  ⟨m, some x, rename, 0⟩

namespace FileContext

variable (file : FileContext)

/-- The local name that an import gives, and the qualified name for which it stands. An import of
all names gives none. -/
def alias? (i : Import) : Option (String × String) :=
  let base := file.absoluteModule i.source i.level
  let rename := i.localName.getD ""
  i.name.elim (some (if rename = "" then (head base, head base) else (rename, base))) fun name =>
    if name = "*" then none
    else some (if rename = "" then name else rename,
      if base = "" then name else base ++ "." ++ name)

theorem alias?_module (m : String) : file.alias? (.ofModule m none) = some (head m, head m) :=
  rfl

theorem alias?_renamed (m : String) {y : String} (hy : y ≠ "") :
    file.alias? (.ofModule m (some y)) = some (y, m) := by
  simp [alias?, Import.ofModule, absoluteModule, hy]

theorem alias?_member {m x z : String} (hm : m ≠ "") (hx : x ≠ "*") (hz : z ≠ "") :
    file.alias? (.ofMember m x (some z)) = some (z, m ++ "." ++ x) := by
  simp [alias?, Import.ofMember, absoluteModule, hm, hx, hz]

end FileContext

/-- An import records its local name in the scope where it stands. -/
theorem Draft.addImport_of_alias? (d : Draft) {file : FileContext} (place : Place) {i : Import}
    {name qualname : String} (h : file.alias? i = some (name, qualname)) :
    d.addImport file place i = d.modifyScope place.scope fun s => s.addImport name qualname := by
  unfold FileContext.alias? at h
  unfold addImport
  dsimp only at h ⊢
  cases hname : i.name with
  | none =>
    rw [hname, Option.elim_none, Option.some.injEq] at h
    split at h <;> cases h
    · next hempty => simp [hempty]
    · next hempty => simp [hempty]
  | some n =>
    rw [hname, Option.elim_some] at h
    by_cases hstar : n = "*"
    · rw [if_pos hstar] at h
      cases h
    · rw [if_neg hstar, Option.some.injEq] at h
      cases h
      simp

/-! ## Names that are imported -/

namespace Catalog

/-- The scopes whose bindings can be seen from a scope. -/
def visibleFrom (c : Catalog) (scope : ScopeId) : List Scope :=
  visibleScopes (((c.scopeChain scope).head?.map c.hasImplicitMembers).getD true)
    (c.scopeChain scope)

theorem lookup?_eq (c : Catalog) (scope : ScopeId) (name : String) :
    c.lookup? scope name = (firstBinding? (·.bindings) name (c.visibleFrom scope) <|>
      firstBinding? (·.imports) name (c.scopeChain scope) <|>
      (c.scopeChain scope).findSome? (c.starBinding? name)) := by
  unfold lookup? visibleFrom
  cases c.scopeChain scope <;> rfl

/-- From a scope a name is known as an import of a qualified name, and as nothing else. -/
structure KnownAs (c : Catalog) (scope : ScopeId) (name qualname : String) : Prop where
  unbound : ∀ s ∈ c.visibleFrom scope, s.bindings.get? name = none
  imported : ∃ s ∈ c.scopeChain scope, (s.imports.get? name).isSome
  only : ∀ s ∈ c.scopeChain scope, ∀ b ∈ s.imports.get? name, b.value = .imported qualname

variable {c : Catalog} {p : String}

theorem KnownAs.exists_lookup? {scope : ScopeId} {name qualname : String}
    (h : c.KnownAs scope name qualname) :
    ∃ b s, c.lookup? scope name = some (b, s) ∧ b.value = .imported qualname := by
  have hfree : firstBinding? (·.bindings) name (c.visibleFrom scope) = none := by
    refine List.findSome?_eq_none_iff.mpr fun s hs => ?_
    rw [h.unbound s hs]
    rfl
  obtain ⟨s, hs, hb⟩ := h.imported
  have hfound : (firstBinding? (·.imports) name (c.scopeChain scope)).isSome := by
    refine List.findSome?_isSome_iff.mpr ⟨s, hs, ?_⟩
    rwa [Option.isSome_map]
  obtain ⟨⟨b', s'⟩, hfirst⟩ := Option.isSome_iff_exists.mp hfound
  obtain ⟨hs', hb'⟩ := mem_of_firstBinding? hfirst
  refine ⟨b', s', ?_, h.only s' hs' b' hb'⟩
  rw [lookup?_eq, hfree, hfirst]
  rfl

/-! ## Modules and packages along a dotted name -/

/-- The definition that is found for a module, or for a name above it, has that name, and a name
above it that is a module is found. -/
structure KeepsNames (c : Catalog) (m : String) : Prop where
  qualname_eq : ∀ p ∈ m :: enclosing m, ∀ x, c.find? p = some x → x.qualname = p
  found : ∀ p ∈ enclosing m, p ∈ c.moduleScopes.keys → (c.find? p).isSome

section

variable {digests : List Digest} {x : Definition}

/-- The definition with the id of a name in a file has that name, if no path holds a colon. -/
theorem qualname_of_get?_idOf (hlocal : ∀ d ∈ digests, d.Local)
    (hplain : ∀ d ∈ digests, ':' ∉ d.path.toList) {d : Digest} (hd : d ∈ digests) {q : String}
    (hx : (merge digests).1.definitions.get? (idOf d.path q) = some x) : x.qualname = q := by
  obtain ⟨hid, e, he, id, hget⟩ := exists_digest_of_get?_merge hx
  have hmem := mem_of_mem_filesOf he
  obtain ⟨hid', hidOf, _⟩ := (hlocal e hmem).definition hget
  have hsame : idOf e.path x.qualname = idOf d.path q := by rw [← hidOf, ← hid', hid]
  have hpath : e.path = d.path := OfFile.path_eq ⟨_, rfl⟩ ⟨_, hsame⟩ (hplain e hmem) (hplain d hd)
  rw [hpath] at hsame
  exact qualname_eq_of_idOf hsame

/-- A qualified name that some file defines is found, and stands for the id of a definition with
that name. -/
theorem exists_find?_of_mem_ordered (hx : x ∈ ordered digests) :
    ((merge digests).1.find? x.qualname).isSome := by
  have hkey : x.qualname ∈ (merge digests).1.byQualname.keys := by
    rw [byQualname_merge, mem_keys_ofList, map_map]
    exact mem_map_of_mem (f := Definition.qualname) hx
  obtain ⟨id, hid⟩ := mem_keys_iff.mp hkey
  have hentry := hid
  rw [byQualname_merge] at hentry
  obtain ⟨y, hy, hpair⟩ := mem_map.mp (mem_of_get?_ofList hentry)
  have hdefined : id ∈ (merge digests).1.definitions.keys := by
    rw [definitions_merge, mem_keys_ofList, map_map, ← (Prod.mk.inj hpair).2]
    exact mem_map_of_mem (f := Definition.id) hy
  obtain ⟨z, hz⟩ := mem_keys_iff.mp hdefined
  rw [find?, hid, Option.bind_some, hz]
  rfl

theorem exists_idOf_of_find? (hlocal : ∀ d ∈ digests, d.Local)
    (hx : (merge digests).1.find? p = some x) :
    ∃ d ∈ digests, (merge digests).1.definitions.get? (idOf d.path p) = some x := by
  obtain ⟨id, hid, hget⟩ := Option.bind_eq_some_iff.mp hx
  rw [byQualname_merge] at hid
  obtain ⟨y, hy, hpair⟩ := mem_map.mp (mem_of_get?_ofList hid)
  obtain ⟨d, hd, hyd⟩ := mem_ordered_iff.mp hy
  have hmem := mem_of_mem_filesOf hd
  obtain ⟨hqualname, hidy⟩ := Prod.mk.inj hpair
  refine ⟨d, hmem, ?_⟩
  rwa [← hqualname, ← Beside.idOf_of_mem_values (hlocal d hmem) hyd, hidy]

/-- Where no path holds a colon, the names of all modules are kept. -/
theorem keepsNames_merge (hlocal : ∀ d ∈ digests, d.Local)
    (hplain : ∀ d ∈ digests, ':' ∉ d.path.toList) (m : String) :
    (merge digests).1.KeepsNames m where
  qualname_eq p _ x hx := by
    obtain ⟨d, hd, hget⟩ := exists_idOf_of_find? hlocal hx
    exact qualname_of_get?_idOf hlocal hplain hd hget
  found p _ hp := by
    obtain ⟨d, hd, rfl, x, hx⟩ := mem_keys_moduleScopes.mp hp
    have hqualname := qualname_of_get?_idOf hlocal hplain (mem_of_mem_filesOf hd) hx
    obtain ⟨_, e, he, id, hget⟩ := exists_digest_of_get?_merge hx
    have hfound := exists_find?_of_mem_ordered
      (mem_ordered_iff.mpr ⟨e, he, mem_values_of_get? hget⟩)
    rwa [hqualname] at hfound

end

/-- A dotted name is a module with that name, or a package without a module. -/
def IsUnit (c : Catalog) (p : String) : Prop :=
  (∃ x, c.find? p = some x ∧ x.kind = .fileBody ∧ x.qualname = p) ∨
    (c.find? p = none ∧ c.isPackage p)

/-- What is resolved is the definition that is found for a dotted name, or the package of that
name. -/
def Stands (c : Catalog) (p : String) (r : Resolved) : Prop :=
  (∃ x, c.find? p = some x ∧ r.meaning = .definition x.id none) ∨
    (c.find? p = none ∧ c.isPackage p ∧ r.meaning = .package p)

theorem Stands.meaning_of_find? {r : Resolved} {x : Definition} (h : c.Stands p r)
    (hx : c.find? p = some x) : r.meaning = .definition x.id none := by
  obtain ⟨y, hy, hmeaning⟩ | ⟨hnone, _⟩ := h
  · cases hx.symm.trans hy
    exact hmeaning
  · rw [hx] at hnone
    cases hnone

theorem IsUnit.isSome_or_isPackage (h : c.IsUnit p) : (c.find? p).isSome ∨ c.isPackage p := by
  obtain ⟨x, hx, _⟩ | ⟨_, hpackage⟩ := h
  · exact .inl (by rw [hx]; rfl)
  · exact .inr hpackage

/-- A module and the names above it are modules and packages. -/
theorem KeepsNames.isUnit {digests : List Digest} {m : String} (h : (merge digests).1.KeepsNames m)
    (hindexed : m ∈ (merge digests).1.moduleScopes.keys)
    (hfound : ((merge digests).1.find? m).isSome)
    (hkinds : ∀ q ∈ m :: enclosing m, ∀ x, (merge digests).1.find? q = some x → x.kind = .fileBody)
    (hp : p ∈ m :: enclosing m) : (merge digests).1.IsUnit p := by
  cases hfind : (merge digests).1.find? p with
  | some x => exact .inl ⟨x, hfind, hkinds p hp x hfind, h.qualname_eq p hp x hfind⟩
  | none =>
    refine .inr ⟨hfind, isPackage_iff.mpr ?_⟩
    obtain rfl | hp := mem_cons.mp hp
    · rw [hfind] at hfound
      cases hfound
    · refine ⟨⟨m, hindexed, hp⟩, fun hmodule => ?_⟩
      have hsome := h.found p hp hmodule
      rw [hfind] at hsome
      cases hsome

end Catalog

namespace View

open Catalog

variable {v : View} {p : String} {hops : Nat}

theorem always_qualnameAt (hp : (v.catalog.find? p).isSome ∨ v.catalog.isPackage p) :
    Always (v.qualnameAt (hops + 4) p) (v.catalog.Stands p) := by
  rw [qualnameAt]
  refine Always.after fun _ => ?_
  rw [if_neg (by unfold reserve; omega)]
  cases hfind : v.catalog.find? p with
  | some x => exact .pure (.inl ⟨x, hfind, rfl⟩)
  | none =>
    rw [hfind] at hp
    have hpackage := hp.resolve_left Bool.false_ne_true
    rw [if_pos hpackage]
    exact .pure (.inr ⟨hfind, hpackage, rfl⟩)

/-- A member of a module or package is what is found for its dotted name. -/
theorem always_memberAt (hs : v.catalog.Sound) (hunit : v.catalog.IsUnit p) {r : Resolved}
    (hr : v.catalog.Stands p r) {name : String}
    (hnext : (v.catalog.find? (p ++ "." ++ name)).isSome ∨ v.catalog.isPackage (p ++ "." ++ name)) :
    Always (v.memberAt (hops + 5) r name) (v.catalog.Stands (p ++ "." ++ name)) := by
  rw [memberAt]
  obtain ⟨x, hx, hmeaning⟩ | ⟨hnone, _, hmeaning⟩ := hr
  · obtain ⟨y, hy, hkind, hqualname⟩ | ⟨hnone, _⟩ := hunit
    · cases hx.symm.trans hy
      obtain ⟨id, _, hget⟩ := Option.bind_eq_some_iff.mp hx
      -- the member is looked for under the module's own name, which is the one that led to it
      have hself : v.catalog.definitions.get? x.id = some x := by rw [hs.id_eq hget, hget]
      simp only [hmeaning, hself, hkind, hqualname]
      exact always_qualnameAt hnext
    · rw [hx] at hnone
      cases hnone
  -- a package: what is neither found nor a package would lie outside the index
  · simp only [hmeaning]
    rw [if_neg]
    · exact always_qualnameAt hnext
    · rw [Bool.and_eq_true, Option.isNone_iff_eq_none, Bool.not_eq_true']
      rintro ⟨hmissing, hnot⟩
      rw [hmissing, hnot] at hnext
      simp at hnext

/-- The binding of an imported name denotes what is found for the qualified name. -/
theorem always_bindingAt {b : Binding} (hb : b.value = .imported p)
    (hp : (v.catalog.find? p).isSome ∨ v.catalog.isPackage p) :
    Always (v.bindingAt (hops + 5) b) (v.catalog.Stands p) := by
  rw [bindingAt, if_neg (by unfold reserve; omega)]
  simp only [hb]
  exact (always_qualnameAt hp).bind fun r hr => .pure hr

/-- Along the parts of a dotted name, all of which are modules or packages, one comes to what is
found for the whole. -/
theorem always_foldlM (hs : v.catalog.Sound) {names : List String} {first : List String}
    (hfirst : first ≠ []) (hunits : ∀ k, v.catalog.IsUnit (join (first ++ names.take k)))
    {r : Resolved} (hr : v.catalog.Stands (join first) r) :
    Always (names.foldlM (fun r member => v.memberAt (hops + 5) r member) r)
      (v.catalog.Stands (join (first ++ names))) := by
  induction names generalizing first r with
  | nil =>
    rw [append_nil]
    exact .pure hr
  | cons name names ih =>
    have hunit : v.catalog.IsUnit (join first) := by simpa using hunits 0
    have hnext : v.catalog.IsUnit (join first ++ "." ++ name) := by
      rw [← join_append_singleton hfirst]
      simpa using hunits 1
    rw [foldlM_cons]
    refine (always_memberAt hs hunit hr hnext.isSome_or_isPackage).bind fun r' hr' => ?_
    rw [← join_append_singleton hfirst] at hr'
    have hrest := ih (append_ne_nil_of_right_ne_nil _ (cons_ne_nil _ _))
      (fun k => by simpa using hunits (k + 1)) hr'
    simpa using hrest

/-- A dotted expression whose first part is known as an import denotes what its members lead to. -/
theorem always_name {scope : ScopeId} {name dotted : String} {rest : List String}
    {Q : Resolved → Prop} (hknown : v.catalog.KnownAs scope name p)
    (hp : (v.catalog.find? p).isSome ∨ v.catalog.isPackage p) (hparts : parts dotted = name :: rest)
    (hrest : ∀ r, v.catalog.Stands p r →
      Always (rest.foldlM (fun r member => v.memberAt (14 + 5) r member) r) Q) :
    Always (v.name scope dotted) Q := by
  obtain ⟨b, s, hlookup, hvalue⟩ := hknown.exists_lookup?
  have hhops : hops = 14 + 5 + 1 := rfl
  rw [View.name, hhops, View.nameAt, hparts]
  simp only [headD_cons, hlookup, tail_cons]
  refine (always_bindingAt hvalue hp).bind fun r hr => ?_
  refine (Always.pure (P := v.catalog.Stands p) ?_).bind hrest
  split <;> exact hr

/-- From a scope a dotted expression denotes a definition. -/
def Denotes (v : View) (scope : ScopeId) (dotted : String) (id : DefId) : Prop :=
  Always (v.name scope dotted) fun r => r.meaning = .definition id none

end View

/-! ## The forms agree -/

theorem Text.Dotted.join_take_mem (m : String) (k : Nat) :
    join ((parts m).take (k + 1)) ∈ m :: enclosing m := by
  by_cases hk : k + 1 < (parts m).length
  · refine mem_cons_of_mem _ (mem_map.mpr ⟨k, mem_range.mpr ?_, rfl⟩)
    omega
  · rw [take_of_length_le (by omega), join_parts]
    exact mem_cons_self

namespace View

open Catalog

variable {v : View} {scope : ScopeId} {m x : String} {found : Definition}

theorem always_memberAt_found (hs : v.catalog.Sound) (hunit : v.catalog.IsUnit m)
    (hfound : v.catalog.find? (m ++ "." ++ x) = some found) {hops : Nat} {r : Resolved}
    (hr : v.catalog.Stands m r) :
    Always (v.memberAt (hops + 5) r x) fun r => r.meaning = .definition found.id none := by
  intro trail
  have hnext : (v.catalog.find? (m ++ "." ++ x)).isSome ∨ v.catalog.isPackage (m ++ "." ++ x) :=
    .inl (by rw [hfound]; rfl)
  exact (always_memberAt hs hunit hr hnext trail).meaning_of_find? hfound

/-- The parts of a module lead to the module, and the last part of an expression to a definition in
it. -/
theorem denotes_dotted (hs : v.catalog.Sound) (hunits : ∀ p ∈ m :: enclosing m, v.catalog.IsUnit p)
    (hx : '.' ∉ x.toList) (hfound : v.catalog.find? (m ++ "." ++ x) = some found)
    (hknown : v.catalog.KnownAs scope (head m) (head m)) :
    v.Denotes scope (m ++ "." ++ x) found.id := by
  obtain ⟨first, rest, hparts⟩ : ∃ first rest, parts m = first :: rest := by
    refine exists_cons_of_length_pos ?_
    rw [length_parts]
    omega
  have hprefix : ∀ k, v.catalog.IsUnit (join ([first] ++ rest.take k)) := by
    intro k
    have hunit := hunits _ (join_take_mem m k)
    rwa [hparts, take_succ_cons] at hunit
  have hwhole : join ([first] ++ rest) = m := by rw [singleton_append, ← hparts, join_parts]
  have hhead : head m = first := by
    rw [Dotted.head, hparts]
    rfl
  have hdotted : parts (m ++ "." ++ x) = first :: (rest ++ [x]) := by
    rw [parts_append_dot, parts_of_undotted hx, hparts, cons_append]
  have hfirst : v.catalog.IsUnit first := hprefix 0
  rw [hhead] at hknown
  refine always_name hknown hfirst.isSome_or_isPackage hdotted fun r hr => ?_
  rw [foldlM_append]
  have hreach : Always (rest.foldlM (fun r member => v.memberAt (14 + 5) r member) r)
      (v.catalog.Stands (join ([first] ++ rest))) :=
    always_foldlM hs (cons_ne_nil first []) hprefix hr
  rw [hwhole] at hreach
  refine hreach.bind fun r' hr' => ?_
  rw [foldlM_cons]
  exact (always_memberAt_found hs (hunits m mem_cons_self) hfound hr').bind fun _ hr => .pure hr

theorem denotes_behind (hs : v.catalog.Sound) (hunit : v.catalog.IsUnit m) {y : String}
    (hy : '.' ∉ y.toList) (hx : '.' ∉ x.toList)
    (hfound : v.catalog.find? (m ++ "." ++ x) = some found) (hknown : v.catalog.KnownAs scope y m) :
    v.Denotes scope (y ++ "." ++ x) found.id := by
  have hdotted : parts (y ++ "." ++ x) = [y, x] := by
    rw [parts_append_dot, parts_of_undotted hy, parts_of_undotted hx]
    rfl
  refine always_name hknown hunit.isSome_or_isPackage hdotted fun r hr => ?_
  rw [foldlM_cons]
  exact (always_memberAt_found hs hunit hfound hr).bind fun _ hr => .pure hr

theorem denotes_renamed {q z : String} (hz : '.' ∉ z.toList)
    (hfound : v.catalog.find? q = some found) (hknown : v.catalog.KnownAs scope z q) :
    v.Denotes scope z found.id := by
  have hsome : (v.catalog.find? q).isSome ∨ v.catalog.isPackage q := .inl (by rw [hfound]; rfl)
  refine always_name hknown hsome (parts_of_undotted hz) fun r hr => ?_
  exact .pure (hr.meaning_of_find? hfound)

end View

/-- **All forms of imports reach the same definition.** An import records its local name where it
stands. A module is found under its dotted name, and each name above it is found as a module or not
at all. Where the names of these are kept, as they are for any files whose paths hold no colon, a
definition of the module is denoted by the dotted name after an import of the module, by its name
behind another name for the module, and by another name for itself, from every scope where the local
name is known as nothing else. -/
theorem import_forms_reach_definition {digests : List Digest} {c : Catalog} {m x : String}
    {module found : Definition}
    (hdigests : ∀ d ∈ digests, ∃ o version, Digest.ofOutline o version = .ok d)
    (hc : (Catalog.merge digests).1 = c) (hm : m ≠ "") (hindexed : m ∈ c.moduleScopes.keys)
    (hmodule : c.find? m = some module) (hkind : module.kind = .fileBody)
    (habove : ∀ p ∈ enclosing m, ∀ y, c.find? p = some y → y.kind = .fileBody) (hx : '.' ∉ x.toList)
    (hfound : c.find? (m ++ "." ++ x) = some found) :
    (∀ (d : Draft) (file : FileContext) (place : Place) (i : Import) (name qualname : String),
      file.alias? i = some (name, qualname) →
        d.addImport file place i = d.modifyScope place.scope fun s => s.addImport name qualname) ∧
    ((∀ d ∈ digests, ':' ∉ d.path.toList) → c.KeepsNames m) ∧
    (c.KeepsNames m →
      ∀ (file : FileContext) (h : Option Hierarchy) (scope : ScopeId) (name qualname : String),
      c.KnownAs scope name qualname →
      (file.alias? (.ofModule m none) = some (name, qualname) →
        Denotes ⟨c, h⟩ scope (m ++ "." ++ x) found.id) ∧
      (∀ y, y ≠ "" → '.' ∉ y.toList → file.alias? (.ofModule m (some y)) = some (name, qualname) →
        Denotes ⟨c, h⟩ scope (y ++ "." ++ x) found.id) ∧
      (∀ z, z ≠ "" → '.' ∉ z.toList → file.alias? (.ofMember m x (some z)) = some (name, qualname) →
        Denotes ⟨c, h⟩ scope z found.id)) := by
  have hlocal : ∀ d ∈ digests, d.Local := fun d hd => by
    obtain ⟨o, version, ho⟩ := hdigests d hd
    exact Digest.local_ofOutline ho
  have hsound : c.Sound := hc ▸ Catalog.sound_merge_of_outlines hdigests
  refine ⟨fun d file place i _ _ halias => d.addImport_of_alias? place halias,
    fun hplain => hc ▸ Catalog.keepsNames_merge hlocal hplain m, fun hkeeps => ?_⟩
  have hkinds : ∀ q ∈ m :: enclosing m, ∀ y, c.find? q = some y → y.kind = .fileBody := by
    refine forall_mem_cons.mpr ⟨fun y hy => ?_, habove⟩
    cases hmodule.symm.trans hy
    exact hkind
  have hunits : ∀ p ∈ m :: enclosing m, c.IsUnit p := by
    subst hc
    exact fun p hp => hkeeps.isUnit hindexed (by rw [hmodule]; rfl) hkinds hp
  intro file h scope name qualname hknown
  refine ⟨fun halias => ?_, fun y hy hdot halias => ?_, fun z hz hdot halias => ?_⟩
  · rw [file.alias?_module] at halias
    cases halias
    exact denotes_dotted hsound hunits hx hfound hknown
  · rw [file.alias?_renamed m hy] at halias
    cases halias
    exact denotes_behind hsound (hunits m mem_cons_self) hdot hx hfound hknown
  · have hstar : x ≠ "*" := by
      rintro rfl
      cases halias
    rw [file.alias?_member hm hstar hz] at halias
    cases halias
    exact denotes_renamed hdot hfound hknown

/-- A module below a package without a module of its own, which is below a module, and a file that
imports it in all forms. -/
def importFiles : List Outline :=
  [file "a.py" "a" [], file "c.py" "a.b.c" [functionItem "f" "f" false []],
    file "u.py" "u" [.importDecl (mark "i") (.ofModule "a.b.c" none),
      .importDecl (mark "j") (.ofModule "a.b.c" (some "q")),
      .importDecl (mark "k") (.ofMember "a.b.c" "f" (some "g"))]]

/-- What the walk over an importing file knows of it. -/
def importContext : FileContext :=
  ⟨"u.py", "u", false, 1⟩

def indexView (files : List Outline) : View :=
  ⟨catalogOf files, some (Hierarchy.built (catalogOf files)).1⟩

/-- The function is denoted in all forms. -/
theorem import_forms_reach_function :
    (indexView importFiles).catalog.isPackage "a.b" = true ∧
      (indexView importFiles).Denotes "u.py#file" "a.b.c.f" "c.py::a.b.c.f" ∧
      (indexView importFiles).Denotes "u.py#file" "q.f" "c.py::a.b.c.f" ∧
      (indexView importFiles).Denotes "u.py#file" "g" "c.py::a.b.c.f" := by
  have hindexed : "a.b.c" ∈ (catalogOf importFiles).moduleScopes.keys := by decide +kernel
  have hmodule : ((catalogOf importFiles).find? "a.b.c").any (fun x => x.kind = .fileBody) := by
    decide +kernel
  have habove : ∀ p ∈ enclosing "a.b.c",
      ∀ y ∈ (catalogOf importFiles).find? p, y.kind = .fileBody := by
    decide +kernel
  have hfound : ((catalogOf importFiles).find? ("a.b.c" ++ "." ++ "f")).any
      (fun x => x.id = "c.py::a.b.c.f") := by
    decide +kernel
  have hpaths : ∀ d ∈ digestsOf importFiles, ':' ∉ d.path.toList := by decide +kernel
  have hknown : ∀ p ∈ [("a", "a"), ("q", "a.b.c"), ("g", "a.b.c.f")],
      (catalogOf importFiles).KnownAs "u.py#file" p.1 p.2 := by
    have hunbound : ∀ p ∈ [("a", "a"), ("q", "a.b.c"), ("g", "a.b.c.f")],
        ∀ s ∈ (catalogOf importFiles).visibleFrom "u.py#file", s.bindings.get? p.1 = none := by
      decide +kernel
    have himported : ∀ p ∈ [("a", "a"), ("q", "a.b.c"), ("g", "a.b.c.f")],
        ∃ s ∈ (catalogOf importFiles).scopeChain "u.py#file", (s.imports.get? p.1).isSome := by
      decide +kernel
    have honly : ∀ p ∈ [("a", "a"), ("q", "a.b.c"), ("g", "a.b.c.f")],
        ∀ s ∈ (catalogOf importFiles).scopeChain "u.py#file",
          ∀ b ∈ s.imports.get? p.1, b.value = .imported p.2 := by
      decide +kernel
    exact fun p hp => ⟨hunbound p hp, himported p hp, honly p hp⟩
  obtain ⟨module, hmodule, hkind⟩ := (Option.any_eq_true _ _).mp hmodule
  obtain ⟨found, hfound, hid⟩ := (Option.any_eq_true _ _).mp hfound
  obtain ⟨_, hkeeps, hforms⟩ := import_forms_reach_definition
    (fun _ => exists_outline_of_mem_digestsOf) rfl (by decide) hindexed hmodule
      (of_decide_eq_true hkind)
    (fun p hp y hy => habove p hp y hy) (by decide) hfound
  rw [of_decide_eq_true hid] at hforms
  have hreach := hforms (hkeeps hpaths) importContext (indexView importFiles).hierarchy "u.py#file"
  refine ⟨by decide +kernel, (hreach "a" "a" (hknown ("a", "a") (by simp))).1 (by decide +kernel),
    ?_, ?_⟩
  · exact (hreach "q" "a.b.c" (hknown ("q", "a.b.c") (by simp))).2.1 "q" (by decide) (by decide)
      (by decide +kernel)
  · exact (hreach "g" "a.b.c.f" (hknown ("g", "a.b.c.f") (by simp))).2.2 "g" (by decide) (by decide)
      (by decide +kernel)

/-- A module below a name under which nothing is found, though a malformed file has that name: the
id of its module is that of another file's. -/
def hiddenFiles : List Outline :=
  [file "g.py" "y.z" [functionItem "f" "f" false []], file "p" "x::y" [],
    file "p::x" "y" [callItem "bad" ""],
    file "u.py" "u" [.importDecl (mark "i") (.ofModule "y.z" none)]]

/-- The function is found and its module is imported, but its dotted name denotes nothing of the
index. -/
theorem import_form_misses_hidden_package :
    "y.z" ∈ (indexView hiddenFiles).catalog.moduleScopes.keys ∧
      ((indexView hiddenFiles).catalog.find? "y.z").any (fun x => x.kind = .fileBody) = true ∧
      (indexView hiddenFiles).catalog.find? "y" = none ∧ enclosing "y.z" = ["y"] ∧
      ((indexView hiddenFiles).catalog.find? "y.z.f").isSome ∧
      (indexView hiddenFiles).catalog.KnownAs "u.py#file" "y" "y" ∧
      importContext.alias? (.ofModule "y.z" none) = some ("y", "y") ∧
      (((indexView hiddenFiles).name "u.py#file" "y.z.f").run []).1.meaning =
        .external "y.z.f" := by
  refine ⟨by decide +kernel, by decide +kernel, by decide +kernel, by decide +kernel,
    by decide +kernel,
    ⟨by decide +kernel, by decide +kernel, by decide +kernel⟩, by decide +kernel, by decide +kernel⟩

end Xref

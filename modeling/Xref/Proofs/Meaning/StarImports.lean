import Xref.Proofs.Catalog.ClassScopes

/-!
# Importing a name and importing all names

A name of a module can be imported by itself or among all names of the module. The first form is
read through the module: what the module defines, binds or imports under the name is reached. The
second only asks whether the module defines the name. So the two forms agree, for a name that the
first one leads to a definition, exactly if a definition has the name's qualified name.
-/

namespace Xref

open List Text Scope Catalog View Xref.Small

/-! ## What the two forms record -/

/-- An import of one name of a module, relative to some packages. -/
def Import.ofName (source : String) (level : Int) (x : String) : Import :=
  ⟨source, some x, none, level⟩

/-- An import of all names of a module, relative to some packages. -/
def Import.ofAll (source : String) (level : Int) : Import :=
  ⟨source, some "*", none, level⟩

namespace Draft

variable (d : Draft) {file : FileContext} (place : Place) {source m : String} {level : Int}

variable (hm : file.absoluteModule source level = m)
include hm

theorem addImport_ofName (hne : m ≠ "") {x : String} (hx : x ≠ "*") :
    d.addImport file place (.ofName source level x) =
      d.modifyScope place.scope fun s => s.addImport x (m ++ "." ++ x) := by
  apply addImport_of_alias?
  simp [FileContext.alias?, Import.ofName, hm, hne, hx]

theorem addImport_ofAll (hne : m ≠ "") :
    d.addImport file place (.ofAll source level) = d.modifyScope place.scope fun s =>
      s.addStarImport m := by
  rw [addImport]
  simp only [Import.ofAll, hm]
  rw [if_neg hne]

end Draft

/-! ## Changing the imports of a scope -/

/-- Nothing but the imports of a scope is changed. -/
structure Scope.ChangesImports (f : Scope → Scope) : Prop where
  id_eq : ∀ s, (f s).id = s.id
  kind_eq : ∀ s, (f s).kind = s.kind
  path_eq : ∀ s, (f s).path = s.path
  parent_eq : ∀ s, (f s).parent = s.parent
  owner_eq : ∀ s, (f s).owner = s.owner
  bindings_eq : ∀ s, (f s).bindings = s.bindings

namespace Scope

theorem changesImports_addImport (x q : String) : ChangesImports (·.addImport x q) := by
  constructor <;> intro s <;> rfl

theorem changesImports_addStarImport (m : String) : ChangesImports (·.addStarImport m) := by
  constructor <;> intro s <;> dsimp only [addStarImport] <;> split <;> rfl

theorem imports_addStarImport (s : Scope) (m : String) :
    (s.addStarImport m).imports = s.imports := by
  rw [addStarImport]
  split <;> rfl

theorem mem_starImports_addStarImport {s : Scope} {m n : String} :
    n ∈ (s.addStarImport m).starImports ↔ n ∈ s.starImports ∨ n = m := by
  rw [addStarImport]
  split
  · next hmem =>
    constructor
    · exact .inl
    · rintro (hn | rfl)
      · exact hn
      · exact contains_iff_mem.mp hmem
  · simp

end Scope

namespace Catalog

/-- The catalog with one of its scopes changed. -/
def changeScope (c : Catalog) (scope : ScopeId) (f : Scope → Scope) : Catalog :=
  { c with scopes := c.scopes.mapValues fun id s => if id = scope then f s else s }

section

variable {c : Catalog} {scope : ScopeId} {f : Scope → Scope}

theorem get?_changeScope (id : ScopeId) : (c.changeScope scope f).scopes.get? id =
    (c.scopes.get? id).map fun s => if id = scope then f s else s := by
  simp [changeScope]

theorem size_changeScope : (c.changeScope scope f).scopes.size = c.scopes.size := by
  simp [changeScope]

theorem find?_changeScope (q : String) : (c.changeScope scope f).find? q = c.find? q :=
  rfl

/-- The scopes around a scope are those from before, some of them changed. -/
theorem exists_of_mem_chainFrom (hf : ChangesImports f) {bound : Nat} {start : Option ScopeId}
    {o : Scope} (ho : o ∈ (c.changeScope scope f).chainFrom bound start) :
    ∃ s ∈ c.chainFrom bound start, o = s ∨ o = f s := by
  induction bound generalizing start with
  | zero => cases ho
  | succ bound ih =>
    cases start with
    | none => cases ho
    | some id =>
      rw [chainFrom, get?_changeScope] at ho
      rw [chainFrom]
      cases hs : c.scopes.get? id with
      | none =>
        rw [hs] at ho
        cases ho
      | some s =>
        have hparent : (if id = scope then f s else s).parent = s.parent := by
          split
          · exact hf.parent_eq s
          · rfl
        simp only [hs, Option.map_some, hparent] at ho
        rcases mem_cons.mp ho with rfl | ho
        · refine ⟨s, mem_cons_self, ?_⟩
          by_cases hid : id = scope
          · exact .inr (if_pos hid)
          · exact .inl (if_neg hid)
        · obtain ⟨s', hs', heq⟩ := ih ho
          exact ⟨s', mem_cons_of_mem _ hs', heq⟩

variable {s : Scope} (hs : c.scopes.get? scope = some s)
include hs

theorem get?_changeScope_self : (c.changeScope scope f).scopes.get? scope = some (f s) := by
  rw [get?_changeScope, hs, Option.map_some, if_pos rfl]

theorem scopeChain_changeScope (hf : ChangesImports f) : (c.changeScope scope f).scopeChain scope =
    f s :: (c.changeScope scope f).chainFrom (c.scopes.size - 1) s.parent := by
  rw [scopeChain_eq (get?_changeScope_self hs), size_changeScope, hf.parent_eq]

omit hs in
theorem exists_of_mem_scopeChain (hf : ChangesImports f) {o : Scope}
    (ho : o ∈ (c.changeScope scope f).scopeChain scope) :
    ∃ i ∈ c.scopeChain scope, o = i ∨ o = f i := by
  rw [scopeChain, size_changeScope] at ho
  exact exists_of_mem_chainFrom hf ho

/-- What no visible scope binds, none binds after a change of imports. -/
theorem unbound_changeScope (hf : ChangesImports f) {x : String}
    (hfree : ∀ o ∈ c.visibleFrom scope, o.bindings.get? x = none) :
    ∀ o ∈ (c.changeScope scope f).visibleFrom scope, o.bindings.get? x = none := by
  intro o ho
  have himplicit : (c.changeScope scope f).hasImplicitMembers (f s) = c.hasImplicitMembers s := by
    rw [hasImplicitMembers, hf.path_eq]
    rfl
  rw [mem_visibleFrom_iff (get?_changeScope_self hs), size_changeScope, hf.parent_eq,
    himplicit] at ho
  rcases ho with rfl | ⟨ho, hvisible⟩
  · rw [hf.bindings_eq]
    exact hfree s ((mem_visibleFrom_iff hs).mpr (.inl rfl))
  · obtain ⟨i, hi, rfl | rfl⟩ := exists_of_mem_chainFrom hf ho
    · exact hfree o ((mem_visibleFrom_iff hs).mpr (.inr ⟨hi, hvisible⟩))
    · rw [hf.kind_eq] at hvisible
      rw [hf.bindings_eq]
      exact hfree i ((mem_visibleFrom_iff hs).mpr (.inr ⟨hi, hvisible⟩))

end

/-! ## What the two forms bind -/

section

variable {c : Catalog} {scope : ScopeId} {x : String}

/-- A name is not known exactly if no visible scope binds it and no scope imports it. -/
theorem lookup?_eq_none_iff : c.lookup? scope x = none ↔
    (∀ o ∈ c.visibleFrom scope, o.bindings.get? x = none) ∧
      (∀ o ∈ c.scopeChain scope, o.imports.get? x = none) ∧
      ∀ o ∈ c.scopeChain scope, ¬c.ImportsAmongAll o x := by
  have hstar : (∀ o ∈ c.scopeChain scope, ¬c.ImportsAmongAll o x) ↔
      (c.scopeChain scope).findSome? (c.starBinding? x) = none := by
    simp only [List.findSome?_eq_none_iff, ← isSome_starBinding?_iff, Option.not_isSome_iff_eq_none]
  rw [lookup?_eq, hstar, ← firstBinding?_eq_none_iff, ← firstBinding?_eq_none_iff]
  cases firstBinding? (·.bindings) x (c.visibleFrom scope) <;>
    cases firstBinding? (·.imports) x (c.scopeChain scope) <;> simp

/-- A name that is defined in only one of the modules imported as a whole stands for its name
there. -/
theorem starBinding?_eq_some (hm : m ∈ s.starImports) (hfound : (c.find? (m ++ "." ++ x)).isSome)
    (honly : ∀ n ∈ s.starImports, (c.find? (n ++ "." ++ x)).isSome → n = m) :
    c.starBinding? x s = some (⟨x, s.id, .imported (m ++ "." ++ x)⟩, s) := by
  obtain ⟨r, hr⟩ := Option.isSome_iff_exists.mp (isSome_starBinding?_iff.mpr ⟨m, hm, hfound⟩)
  obtain ⟨hscope, n, hn, hfind, hbinding⟩ := mem_of_starBinding? hr
  rw [hr, ← honly n hn hfind]
  exact congrArg some (Prod.ext hbinding hscope)

/-- An import of all names of a module imports none by itself. -/
theorem unimported_addStarImport (himports : ∀ o ∈ c.scopeChain scope, o.imports.get? x = none) :
    ∀ o ∈ (c.changeScope scope (·.addStarImport m)).scopeChain scope, o.imports.get? x = none := by
  intro o ho
  obtain ⟨i, hi, rfl | rfl⟩ := exists_of_mem_scopeChain (changesImports_addStarImport m) ho
  · exact himports o hi
  · rw [imports_addStarImport]
    exact himports i hi

variable {s : Scope} {m : String} (hs : c.scopes.get? scope = some s)
  (hfree : c.lookup? scope x = none)
include hs hfree

/-- After an import of a name by itself it is known as its qualified name. -/
theorem lookup?_addImport (q : String) : (c.changeScope scope (·.addImport x q)).lookup? scope x =
    some (⟨x, s.id, .imported q⟩, s.addImport x q) := by
  have hf := changesImports_addImport x q
  have hunbound := unbound_changeScope hs hf (lookup?_eq_none_iff.mp hfree).1
  have hfirst :
    firstBinding? (·.imports) x ((c.changeScope scope (·.addImport x q)).scopeChain scope) =
      some (⟨x, s.id, .imported q⟩, s.addImport x q) := by
    rw [scopeChain_changeScope hs hf]
    simp [firstBinding?, addImport]
  rw [lookup?_eq, firstBinding?_eq_none_iff.mpr hunbound, hfirst]
  rfl

/-- After an import of all names of a module a name that is found in it is known as its qualified
name. -/
theorem lookup?_addStarImport_of_found (hfound : (c.find? (m ++ "." ++ x)).isSome) :
    (c.changeScope scope (·.addStarImport m)).lookup? scope x =
      some (⟨x, s.id, .imported (m ++ "." ++ x)⟩, s.addStarImport m) := by
  have hf := changesImports_addStarImport m
  obtain ⟨hbindings, himports, hstars⟩ := lookup?_eq_none_iff.mp hfree
  have hunbound := unbound_changeScope hs hf hbindings
  have hunimported := unimported_addStarImport (m := m) himports
  -- the modules imported before do not define the name
  have hself : s ∈ c.scopeChain scope := by
    rw [scopeChain_eq hs]
    exact mem_cons_self
  have honly : ∀ n ∈ (s.addStarImport m).starImports, (c.find? (n ++ "." ++ x)).isSome → n = m := by
    intro n hn hfind
    rcases mem_starImports_addStarImport.mp hn with hn | rfl
    · exact absurd ⟨n, hn, hfind⟩ (hstars s hself)
    · rfl
  have hbinding : (c.changeScope scope (·.addStarImport m)).starBinding? x (s.addStarImport m) =
      some (⟨x, s.id, .imported (m ++ "." ++ x)⟩, s.addStarImport m) := by
    rw [← hf.id_eq s]
    exact starBinding?_eq_some (mem_starImports_addStarImport.mpr (.inr rfl)) hfound honly
  rw [lookup?_eq, firstBinding?_eq_none_iff.mpr hunbound, firstBinding?_eq_none_iff.mpr hunimported,
    scopeChain_changeScope hs hf, List.findSome?_cons, hbinding]
  rfl

/-- A name that is not found in a module stays unknown after an import of all its names. -/
theorem lookup?_addStarImport_of_missing (hmissing : c.find? (m ++ "." ++ x) = none) :
    (c.changeScope scope (·.addStarImport m)).lookup? scope x = none := by
  have hf := changesImports_addStarImport m
  obtain ⟨hbindings, himports, hstars⟩ := lookup?_eq_none_iff.mp hfree
  refine lookup?_eq_none_iff.mpr
    ⟨unbound_changeScope hs hf hbindings, unimported_addStarImport himports, fun o ho => ?_⟩
  rintro ⟨n, hn, hfind⟩
  obtain ⟨i, hi, rfl | rfl⟩ := exists_of_mem_scopeChain hf ho
  · exact hstars o hi ⟨n, hn, hfind⟩
  · rcases mem_starImports_addStarImport.mp hn with hn | rfl
    · exact hstars i hi ⟨n, hn, hfind⟩
    · rw [find?_changeScope, hmissing] at hfind
      cases hfind

end

end Catalog

namespace View

variable {v : View} {scope : ScopeId} {x q : String}

/-- A name that is not known is left unresolved. -/
theorem name_of_unknown (hx : '.' ∉ x.toList) (h : v.catalog.lookup? scope x = none) :
    v.name scope x = (do mention (nameKey x); return .plain (.unresolved x)) := by
  rw [name, hops, reserve, nameAt, Dotted.parts_of_undotted hx]
  simp only [headD_cons, tail_cons, foldlM_nil, h, bind_pure]

/-- A name that is known as an import of a qualified name stands for the definition that is found
there. -/
theorem name_of_imported (hx : '.' ∉ x.toList) {b : Binding} {o : Scope} {y : Definition}
    (h : v.catalog.lookup? scope x = some (b, o)) (hb : b.value = .imported q)
    (hy : v.catalog.find? q = some y) :
    v.name scope x = (do
      mention q
      return { meaning := .definition y.id none, binding := some b, role := none
               viaClassScope := o.kind = .classBody && o.id ≠ scope }) := by
  have hqualname : v.qualnameAt 18 q = (do mention q; return .plain (.definition y.id none)) := by
    rw [qualnameAt, if_neg (by decide), hy]
  have hbinding : v.bindingAt 19 b =
      (do mention q; return { Resolved.plain (.definition y.id none) with binding := some b }) := by
    rw [bindingAt, if_neg (by decide)]
    simp only [hb, hqualname, bind_assoc, pure_bind]
  rw [name, hops, reserve, nameAt, Dotted.parts_of_undotted hx]
  simp only [headD_cons, tail_cons, foldlM_nil, h, hbinding, bind_assoc, pure_bind, bind_pure]
  congr 1
  funext _
  cases o.kind = .classBody && o.id ≠ scope <;> rfl

end View

/-! ## The two forms agree on what is defined -/

/-- A qualified name is found exactly if some file defines it. -/
theorem Catalog.isSome_find?_merge_iff {digests : List Digest} {q : String} :
    ((merge digests).1.find? q).isSome ↔
      ∃ d ∈ (merge digests).1.files.values, ∃ y ∈ d.definitions.values, y.qualname = q := by
  constructor
  · intro h
    obtain ⟨x, hx⟩ := Option.isSome_iff_exists.mp h
    obtain ⟨id, hid, _⟩ := Option.bind_eq_some_iff.mp hx
    rw [byQualname_merge] at hid
    obtain ⟨y, hy, hpair⟩ := mem_map.mp (OrderedMap.mem_of_get?_ofList hid)
    obtain ⟨d, hd, hyd⟩ := mem_ordered_iff.mp hy
    exact ⟨d, hd, y, hyd, (Prod.mk.inj hpair).1⟩
  · rintro ⟨d, hd, y, hy, rfl⟩
    exact exists_find?_of_mem_ordered (mem_ordered_iff.mpr ⟨d, hd, hy⟩)

/-- The index after one name of a module is imported into a scope. -/
def View.afterName (c : Catalog) (h : Option Hierarchy) (scope : ScopeId) (m x : String) : View :=
  ⟨c.changeScope scope (·.addImport x (m ++ "." ++ x)), h⟩

/-- The index after all names of a module are imported into a scope. -/
def View.afterAll (c : Catalog) (h : Option Hierarchy) (scope : ScopeId) (m : String) : View :=
  ⟨c.changeScope scope (·.addStarImport m), h⟩

/-- **Both forms of importing a name agree exactly on what the module defines.** An import records
one name or a whole module in the scope where it stands. Into a scope from which a name is not
known, the name is imported in either form. If a definition has the name's qualified name, as it
does if some file defines it, both forms resolve it alike, to that definition. If not, the import of
all names leaves it unresolved, and so misses whatever definition the other form leads to through
the bindings and imports of the module. -/
theorem star_import_agrees_iff {digests : List Digest} {c : Catalog} (hc : (merge digests).1 = c)
    {scope : ScopeId} {s : Scope} (hs : c.scopes.get? scope = some s) {m x : String} (hm : m ≠ "")
    (hx : '.' ∉ x.toList) (hstar : x ≠ "*") (hfree : c.lookup? scope x = none)
    (h h' : Option Hierarchy) :
    (∀ (d : Draft) (file : FileContext) (place : Place) (source : String) (level : Int),
      file.absoluteModule source level = m →
        d.addImport file place (.ofName source level x) =
          d.modifyScope place.scope (·.addImport x (m ++ "." ++ x)) ∧
        d.addImport file place (.ofAll source level) = d.modifyScope place.scope
          (·.addStarImport m)) ∧
    ((c.find? (m ++ "." ++ x)).isSome ↔
      ∃ d ∈ c.files.values, ∃ y ∈ d.definitions.values, y.qualname = m ++ "." ++ x) ∧
    (∀ y, c.find? (m ++ "." ++ x) = some y →
      (afterAll c h' scope m).name scope x = (afterName c h scope m x).name scope x ∧
      (afterName c h scope m x).Denotes scope x y.id) ∧
    ((∀ trail id maker,
      (((afterName c h scope m x).name scope x).run trail).1.meaning = .definition id maker →
        ∃ maker', (((afterAll c h' scope m).name scope x).run trail).1.meaning =
          .definition id maker') ↔
      (c.find? (m ++ "." ++ x)).isSome ∨ ∀ trail id maker,
        (((afterName c h scope m x).name scope x).run trail).1.meaning ≠ .definition id maker) := by
  have hname := lookup?_addImport hs hfree (m ++ "." ++ x)
  have hagree : ∀ y, c.find? (m ++ "." ++ x) = some y →
      (afterAll c h' scope m).name scope x = (afterName c h scope m x).name scope x ∧
      (afterName c h scope m x).Denotes scope x y.id := by
    intro y hy
    have hall := lookup?_addStarImport_of_found hs hfree (by rw [hy]; rfl)
    have hkinds : (s.addStarImport m).kind = (s.addImport x (m ++ "." ++ x)).kind :=
      (changesImports_addStarImport m).kind_eq s
    have hids : (s.addStarImport m).id = (s.addImport x (m ++ "." ++ x)).id :=
      (changesImports_addStarImport m).id_eq s
    rw [Denotes, name_of_imported (v := .afterAll c h' scope m) hx hall rfl hy,
      name_of_imported (v := .afterName c h scope m x) hx hname rfl hy, hkinds, hids]
    exact ⟨rfl, .after fun _ => .pure rfl⟩
  refine ⟨fun d file place source level habs =>
      ⟨d.addImport_ofName place habs hm hstar, d.addImport_ofAll place habs hm⟩,
    hc ▸ isSome_find?_merge_iff, hagree, ?_⟩
  cases hfind : c.find? (m ++ "." ++ x) with
  | some y =>
    have hsame := (hagree y hfind).1
    refine iff_of_true (fun trail id maker hid => ⟨maker, ?_⟩) (.inl rfl)
    rw [hsame]
    exact hid
  | none =>
    have hmissing : ∀ trail,
        (((afterAll c h' scope m).name scope x).run trail).1.meaning = .unresolved x := by
      intro trail
      rw [name_of_unknown hx (lookup?_addStarImport_of_missing hs hfree hfind)]
      rfl
    constructor
    · intro hreach
      refine .inr fun trail id maker hid => ?_
      obtain ⟨maker', hid'⟩ := hreach trail id maker hid
      rw [hmissing] at hid'
      cases hid'
    · rintro (hsome | hnever) trail id maker hid
      · cases hsome
      · exact absurd hid (hnever trail id maker)

/-- A module that defines `g` and binds `f` to a lambda and `k` to `g`, a module that imports `g`
from it, and a file with some items. -/
def exposingFiles (items : List Item) : List Outline :=
  [file "m.py" "m" [functionItem "g" "g" false [], .lambda (mark "fn") [] [],
      assignItem "a" "f" .lambda "fn", assignItem "b" "k" .name "g"],
    file "n.py" "n" [importItem "i" "m" "g"], file "u.py" "u" items]

/-- The function is reached in both forms. -/
theorem star_import_agrees_on_function :
    ∃ c y, (catalogOf (exposingFiles [])) = c ∧ c.lookup? "u.py#file" "g" = none ∧
      c.find? "m.g" = some y ∧ y.id = "m.py::m.g" ∧
      (afterAll c none "u.py#file" "m").name "u.py#file" "g" =
        (afterName c none "u.py#file" "m" "g").name "u.py#file" "g" ∧
      (afterName c none "u.py#file" "m" "g").Denotes "u.py#file" "g" y.id := by
  have hfree : (catalogOf (exposingFiles [])).lookup? "u.py#file" "g" = none := by decide +kernel
  have hscope : ((catalogOf (exposingFiles [])).scopes.get? "u.py#file").isSome := by decide +kernel
  have hfound : ((catalogOf (exposingFiles [])).find? "m.g").any (fun y => y.id = "m.py::m.g") := by
    decide +kernel
  obtain ⟨s, hs⟩ := Option.isSome_iff_exists.mp hscope
  obtain ⟨y, hy, hid⟩ := (Option.any_eq_true _ _).mp hfound
  have hagree :=
    star_import_agrees_iff rfl hs (m := "m") (by decide) (by decide) (by decide) hfree none none
  exact ⟨_, y, rfl, hfree, hy, of_decide_eq_true hid, hagree.2.2.1 y hy⟩

/-- What a file reads as a name after an import. -/
def readAfter (i : Import) (x : String) : Meaning :=
  (((indexView (exposingFiles [.importDecl (mark "i") i])).name "u.py#file" x).run []).1.meaning

/-- A name that is bound to a lambda or to another name, or imported, in the module is reached if it
is imported by itself, and missed if all names of the module are. -/
theorem star_import_misses_exposed :
    (∀ x ∈ ["f", "g", "k"], (catalogOf (exposingFiles [])).lookup? "u.py#file" x = none) ∧
      readAfter (.ofName "m" 0 "f") "f" = .definition "m.py::m.<lambda@1:0>" none ∧
      readAfter (.ofAll "m" 0) "f" = .unresolved "f" ∧
      readAfter (.ofName "m" 0 "k") "k" = .definition "m.py::m.g" none ∧
      readAfter (.ofAll "m" 0) "k" = .unresolved "k" ∧
      readAfter (.ofName "n" 0 "g") "g" = .definition "m.py::m.g" none ∧
      readAfter (.ofAll "n" 0) "g" = .unresolved "g" := by
  decide +kernel

end Xref

import Xref.Digest.Basic
import Xref.Text.Dotted

/-!
# Catalogs

The merged digests of all files, with the ways to find a definition: by id, by qualified name, by
plain name, and module by module. Merging does not depend on the order of the digests: they are
taken by path, and their definitions by qualified name, path and place. A bare name is looked for in
three rounds over the scopes from the innermost outwards: among the names bound in them, among those
imported into them, and among the modules imported as a whole.
-/

namespace Xref

open Text

/-- The merged digests of all files. `packages` lists the dotted names above modules that are no
modules themselves. -/
structure Catalog where
  definitions : OrderedMap DefId Definition
  scopes : OrderedMap ScopeId Scope
  classes : OrderedMap DefId ClassDecl
  files : OrderedMap String Digest
  byQualname : OrderedMap String DefId
  byName : OrderedMap String (List DefId)
  moduleScopes : OrderedMap String ScopeId
  packages : List String
  deriving DecidableEq, Repr

namespace Catalog

variable (c : Catalog)

def find? (qualname : String) : Option Definition :=
  (c.byQualname.get? qualname).bind c.definitions.get?

def named (name : String) : List Definition :=
  ((c.byName.get? name).getD []).filterMap c.definitions.get?

/-- Whether a dotted name stands above modules without being one. -/
def isPackage (qualname : String) : Bool :=
  c.packages.contains qualname

/-- The qualified name of a definition; of an id without one, the id. -/
def qualnameOf (id : DefId) : String :=
  ((c.definitions.get? id).map (·.qualname)).getD id

/-- The lookup tables over definitions, while they are filled. -/
structure Tables where
  definitions : OrderedMap DefId Definition
  byQualname : OrderedMap String DefId
  byName : OrderedMap String (List DefId)
  duplicates : List Diagnostic

/-- Enters a definition. Of two with one qualified name the later counts; if they are in different
files, that is reported. -/
def Tables.add (t : Tables) (definition : Definition) : Tables :=
  let definitions := t.definitions.insert definition.id definition
  let previous := (t.byQualname.get? definition.qualname).bind definitions.get?
  let duplicates := match previous with
    | some p =>
      if p.path = definition.path then []
      else [Diagnostic.duplicate definition.qualname definition.path p.path]
    | none => []
  { definitions
    byQualname := t.byQualname.insert definition.qualname definition.id
    byName := t.byName.insert definition.name
      ((t.byName.get? definition.name).getD [] ++ [definition.id])
    duplicates := t.duplicates ++ duplicates }

/-- The digests by path; of those with one path the last counts. -/
def filesOf (digests : List Digest) : OrderedMap String Digest :=
  .ofList ((sortOn (byText Digest.path) digests).map fun d => (d.path, d))

def moduleScopesOf (definitions : OrderedMap DefId Definition) (digests : List Digest) :
    OrderedMap String ScopeId :=
  .ofList (digests.filterMap fun d =>
    (definitions.get? (Definition.idOf d.path d.moduleName)).map fun m => (d.moduleName, m.scope))

/-- The catalog of some digests, and the qualified names declared in several files. -/
def merge (digests : List Digest) : Catalog × List Diagnostic :=
  let files := filesOf digests
  let ordered := sortOn Definition.order (files.values.flatMap (·.definitions.values))
  let tables := ordered.foldl Tables.add ⟨∅, ∅, ∅, []⟩
  let moduleScopes := moduleScopesOf tables.definitions files.values
  let packages := (moduleScopes.keys.flatMap Dotted.enclosing).filter fun p =>
    !moduleScopes.contains p
  let catalog :=
    { definitions := tables.definitions
      scopes := .ofList (files.values.flatMap (·.scopes.entries))
      classes := .ofList (files.values.flatMap (·.classes.entries))
      files
      byQualname := tables.byQualname
      byName := tables.byName
      moduleScopes
      packages := sortedSet packages }
  (catalog, tables.duplicates)

/-! ## Looking names up -/

/-- The scopes from one outwards; the first argument bounds their number. -/
def chainFrom (c : Catalog) : Nat → Option ScopeId → List Scope
  | 0, _ => []
  | _ + 1, none => []
  | bound + 1, some id =>
    match c.scopes.get? id with
    | none => []
    | some s => s :: c.chainFrom bound s.parent

/-- The scopes from one outwards, ending with the scope of a file. -/
def scopeChain (id : ScopeId) : List Scope :=
  c.chainFrom c.scopes.size (some id)

/-- Whether bare names in a scope may denote members of the classes around it. -/
def hasImplicitMembers (s : Scope) : Bool :=
  ((c.files.get? s.path).map (·.implicitMembers)).getD true

/-- The scopes of a chain whose bindings can be seen from its first: without implicit members, no
class but the first scope itself. -/
def visibleScopes (implicitMembers : Bool) : List Scope → List Scope
  | [] => []
  | s :: outer => s :: outer.filter fun o => o.kind ≠ .classBody || implicitMembers

/-- The first binding of a name among those that some scopes hold in one of their maps. -/
def firstBinding? (map : Scope → OrderedMap String Binding) (name : String) (scopes : List Scope) :
    Option (Binding × Scope) :=
  scopes.findSome? fun s => ((map s).get? name).map fun b => (b, s)

/-- The binding of a name that a module imported as a whole gives. -/
def starBinding? (name : String) (s : Scope) : Option (Binding × Scope) :=
  s.starImports.findSome? fun source =>
    let qualname := source ++ "." ++ name
    (c.find? qualname).map fun _ => (⟨name, s.id, .imported qualname⟩, s)

/-- The binding of a bare name seen from a scope, and the scope that has it. -/
def lookup? (scope : ScopeId) (name : String) : Option (Binding × Scope) :=
  match c.scopeChain scope with
  | [] => none
  | s :: outer =>
    let chain := s :: outer
    firstBinding? (·.bindings) name (visibleScopes (c.hasImplicitMembers s) chain) <|>
      firstBinding? (·.imports) name chain <|>
      chain.findSome? (c.starBinding? name)

/-- What a class binds a member name to in its own body. -/
def ownMember? (id : DefId) (name : String) : Option Binding := do
  let decl ← c.classes.get? id
  let scope ← c.scopes.get? decl.body
  scope.bindings.get? name

/-- The first of some classes that binds a member name, and the binding. -/
def memberAlong? (order : List DefId) (name : String) : Option (DefId × Binding) :=
  order.findSome? fun id => (c.ownMember? id name).map fun b => (id, b)

end Catalog

end Xref

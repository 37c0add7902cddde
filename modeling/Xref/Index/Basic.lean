import Xref.Call.Graph

/-!
# Indexes

An index holds the catalog of some files, the hierarchy of their classes, their resolved calls and
references, and the graph of the calls. It answers questions and is never changed: an update gives
a new index.
-/

namespace Xref

/-- An index. `generation` counts the changes since it was built. -/
structure Index where
  catalog : Catalog
  hierarchy : Hierarchy
  sites : OrderedMap SiteId Site
  warnings : OrderedMap SiteId (List Diagnostic)
  references : List Reference
  graph : CallGraph
  policy : Policy
  generation : Nat
  deriving DecidableEq, Repr

namespace Index

variable (x : Index)

def site (id : SiteId) : Except Fault Site :=
  match x.sites.get? id with
  | some s => .ok s
  | none => .error (.unknownSite id)

/-- All call sites by path and place. -/
def callSites : List Site :=
  sortOn Site.pathOrder x.sites.values

def warningsFor (id : SiteId) : List Diagnostic :=
  (x.warnings.get? id).getD []

/-- The call sites that may run a definition, by caller and place. -/
def callersOf (id : DefId) : List Site :=
  let ids := ((x.graph.edges.filter fun e => e.target = id).map (·.site)).eraseDups
  sortOn Site.callerOrder (ids.filterMap x.sites.get?)

/-- The order of the edges of one caller: by call site, then by the place among its targets. -/
def edgeOrder : CallEdge → CallEdge → Ordering :=
  let site (e : CallEdge) := x.sites.get? e.site
  compareLex
    (fun a b =>
      match site a, site b with
      | some s, some t => Site.callerOrder s t
      | _, _ => .eq)
    (compareOn fun e => ((site e).map fun s => s.targets.idxOf e.target).getD 0)

def calleesOf (id : DefId) : List CallEdge :=
  sortOn x.edgeOrder (x.graph.edgesFrom id)

/-- The callable definitions that calls from some roots do not reach, by qualified name and id. -/
def unreachable (roots : List DefId) : List DefId :=
  let reached := roots.flatMap fun r => r :: x.graph.reachableFrom r
  let left := x.catalog.definitions.values.filter fun d =>
    d.kind.isCallable && !reached.contains d.id
  (sortOn Definition.nameOrder left).map (·.id)

def referencesTo (id : DefId) : List Reference :=
  x.references.filter fun r => r.target = some id

/-- The view of names along the hierarchy. -/
def view : View :=
  ⟨x.catalog, some x.hierarchy⟩

/-- The view of names without the hierarchy. -/
def flatView : View :=
  ⟨x.catalog, none⟩

/-! ## Statistics -/

/-- How often each text occurs in a list, by text. -/
def tally (words : List String) : Json :=
  .obj ((sortedSet words).map fun w => (w, .int (words.count w)))

def stats : Json :=
  let definitions := x.catalog.definitions.values
  let files := x.catalog.files.values
  let sites := x.sites.values
  let withConfidence (c : Confidence) : String × Json :=
    (c.word, .int (sites.filter fun s => s.confidence = c).length)
  .obj
    [("files", .int files.length), ("failed_files", .int (files.filter (·.isFailed)).length),
     ("definitions", .int definitions.length),
     ("definitions_by_kind", tally (definitions.map fun d => d.kind.word)),
     ("classes", .int x.hierarchy.entries.size),
     ("cyclic_classes", .int (x.hierarchy.entries.values.filter (·.isCyclic)).length),
     ("call_sites", .int sites.length),
     ("call_sites_by_confidence",
       .obj [withConfidence .exact, withConfidence .ambiguous, withConfidence .unknown]),
     ("edges", .int x.graph.edges.length),
     ("edges_by_dispatch", tally (x.graph.edges.map fun e => e.dispatch.word)),
     ("unresolved", .int (sites.filter fun s => s.targets.isEmpty).length),
     ("generation", .int x.generation)]

end Index

end Xref

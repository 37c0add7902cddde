import Xref.Call.Site

/-!
# Call graphs

One node for each definition at either end of a call, one edge for each call site and target. Nodes
and edges stand in the order in which the sorted call sites bring them.
-/

namespace Xref

/-- A call from one definition to another. -/
structure CallEdge where
  source : DefId
  target : DefId
  site : SiteId
  dispatch : Dispatch
  confidence : Confidence
  order : Nat
  deriving DecidableEq, Repr

/-- A graph of calls; a node may lack a definition. -/
structure CallGraph where
  nodes : OrderedMap DefId (Option Definition)
  edges : List CallEdge
  deriving DecidableEq, Repr

namespace CallGraph

/-- The edges of a call site, one for each target. -/
def edgesOf (s : Site) : List CallEdge :=
  s.targets.eraseDups.map fun t => ⟨s.caller, t, s.id, s.dispatch, s.confidence, s.order⟩

def build (definitions : OrderedMap DefId Definition) (sites : List Site) : CallGraph :=
  let calling := (sortOn Site.callerOrder sites).filter fun s => !s.targets.isEmpty
  let ids := (calling.flatMap fun s => s.caller :: s.targets).eraseDups
  { nodes := .ofList (ids.map fun id => (id, definitions.get? id))
    edges := calling.flatMap edgesOf }

/-- The definitions that a definition calls. -/
def next (g : CallGraph) (id : DefId) : List DefId :=
  (g.edges.filter fun e => e.source = id).map (·.target)

/-- The definitions that can be reached from one by calls, without it itself. -/
def reachableFrom (g : CallGraph) (id : DefId) : List DefId :=
  (Graph.reachable g.next g.nodes.size id).drop 1

/-- Whether calls lead from one definition to another; from any id to itself they do. -/
def hasPath (g : CallGraph) (source target : DefId) : Bool :=
  source = target || (g.reachableFrom source).contains target

/-- The edges with the given source, by target and then by call site, each in order of arrival. -/
def edgesFrom (g : CallGraph) (source : DefId) : List CallEdge :=
  let out := g.edges.filter fun e => e.source = source
  (out.map (·.target)).eraseDups.flatMap fun t => out.filter fun e => e.target = t

/-- All edges, grouped by source in the order of the nodes. -/
def links (g : CallGraph) : List CallEdge :=
  g.nodes.keys.flatMap g.edgesFrom

end CallGraph

end Xref

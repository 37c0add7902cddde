import Xref.Call.Graph
import Xref.Json.Printer
import Xref.Json.Reader

/-!
# Node-link data

A call graph as a list of nodes and a list of links, and read back from them. The attributes of a
node or a link stand in one record with what tells its identity.
-/

namespace Xref.CallGraph

/-- Named values that describe a node or a link. -/
abbrev Attributes := List (String × Json)

def nodeAttributes (id : DefId) : Option Definition → Attributes
  | some d =>
    [("type", .str d.kind.word), ("name", .str d.name), ("qualname", .str d.qualname),
     ("path", .str d.path), ("line", .int d.location.line)]
  | none => [("type", .str "missing"), ("qualname", .str id)]

def nodeRecord (id : DefId) (d : Option Definition) : Json :=
  .obj (nodeAttributes id d ++ [("id", .str id)])

def edgeAttributes (e : CallEdge) : Attributes :=
  [("type", .str "CALLS"), ("site", .str e.site), ("dispatch", .str e.dispatch.word),
   ("confidence", .str e.confidence.word), ("order", .int e.order)]

/-- What tells an edge from the others: its call site tells it from those with the same ends. -/
def edgeIdentity (e : CallEdge) : Attributes :=
  [("source", .str e.source), ("target", .str e.target), ("key", .str e.site)]

def linkRecord (e : CallEdge) : Json :=
  .obj (edgeAttributes e ++ edgeIdentity e)

def parts (g : CallGraph) : List (String × Json) :=
  [("directed", .bool true), ("multigraph", .bool true), ("graph", .obj []),
   ("nodes", .arr (g.nodes.entries.map fun n => nodeRecord n.1 n.2)),
   ("links", .arr (g.links.map linkRecord))]

def toData (g : CallGraph) : Json :=
  .obj g.parts

/-- The text of the graph as it is saved, if it can be. -/
def written (g : CallGraph) : Except Json.WriteError String :=
  g.toData.write

/-- A directed graph read back: nodes, and edges by source, target and key, each with its
attributes. -/
structure Loaded where
  nodes : OrderedMap String Attributes
  edges : OrderedMap (String × String × String) Attributes
  deriving DecidableEq, Repr

def textField? (name : String) (fields : Attributes) : Option String :=
  match Json.field? name fields with
  | some (.str s) => some s
  | _ => none

/-- The fields other than those named. -/
def attributes (structural : List String) (fields : Attributes) : Attributes :=
  fields.filter fun f => !structural.contains f.1

def loadNode? : Json → Option (String × Attributes)
  | .obj fields => (textField? "id" fields).map fun id => (id, attributes ["id"] fields)
  | _ => none

def loadLink? : Json → Option ((String × String × String) × Attributes)
  | .obj fields => do
    let source ← textField? "source" fields
    let target ← textField? "target" fields
    let key ← textField? "key" fields
    return ((source, target, key), attributes ["source", "target", "key"] fields)
  | _ => none

def listField? (name : String) (data : Json) : Option (List Json) :=
  match data.get? name with
  | some (.arr items) => some items
  | _ => none

/-- Whether a property is claimed for the graph; one that is not mentioned is. -/
def claims (name : String) (data : Json) : Bool :=
  (data.get? name).getD (.bool true) = .bool true

/-- The nodes with the ends of some edges, which have no attributes where they are new. -/
def withEnds (nodes : OrderedMap String Attributes) (edges : List (String × String × String)) :
    OrderedMap String Attributes :=
  (edges.flatMap fun e => [e.1, e.2.1]).foldl
    (fun nodes id => if nodes.contains id then nodes else nodes.insert id []) nodes

/-- The graph that node-link data describes, if that is a directed one with keyed edges. -/
def ofData? (data : Json) : Option Loaded := do
  guard (claims "directed" data && claims "multigraph" data)
  let nodes ← (← listField? "nodes" data).mapM loadNode?
  let links ← (← listField? "links" data).mapM loadLink?
  return ⟨withEnds (.ofList nodes) (links.map Prod.fst), .ofList links⟩

/-- The graph that a saved text describes. -/
def ofText? (text : String) : Option Loaded :=
  (Json.parse? text).bind ofData?

end Xref.CallGraph

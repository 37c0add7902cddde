import Xref.Catalog.Basic
import Xref.Fault
import Xref.Graph.Explore

/-!
# Class hierarchies

Every class with its bases, its linear order of ancestors, and what its members may run. Classes are
listed by qualified name and id. A class that leads to a cycle of bases has no order.
-/

namespace Xref

/-- A class of the hierarchy. `overrides` lists, for a member, the concrete definitions that it may
run on an object of the class or of a class derived from it. -/
structure ClassEntry where
  id : DefId
  qualname : String
  scope : ScopeId
  bases : List String
  resolvedBases : List DefId
  externalBases : List String
  order : Option (List DefId)
  abstractMembers : List String
  overrides : OrderedMap String (List DefId)
  isCyclic : Bool
  deriving DecidableEq, Repr

/-- The classes of a catalog. -/
structure Hierarchy where
  entries : OrderedMap DefId ClassEntry
  deriving DecidableEq, Repr

namespace Hierarchy

def order? (h : Hierarchy) (id : DefId) : Option (List DefId) :=
  (h.entries.get? id).bind (·.order)

/-- Whether a class leads to a cycle of bases. -/
def isCyclic (h : Hierarchy) (id : DefId) : Bool :=
  ((h.entries.get? id).map (·.isCyclic)).getD false

/-- Whether a class or one of its ancestors has a base outside the index. -/
def hasExternalBase (h : Hierarchy) (id : DefId) : Bool :=
  ((h.order? id).getD [id]).any fun ancestor =>
    ((h.entries.get? ancestor).map fun e => !e.externalBases.isEmpty).getD false

/-- The classes that name a class among their bases and are free of cycles. -/
def children (h : Hierarchy) (id : DefId) : List DefId :=
  (h.entries.values.filter fun e => e.resolvedBases.contains id && !e.isCyclic).map (·.id)

/-- A class and all classes derived from it, breadth first; nothing for an unknown class. -/
def subtree? (h : Hierarchy) (id : DefId) : Option (List DefId) :=
  if h.entries.contains id then some (Graph.reachable h.children h.entries.size id) else none

/-- A class and all classes derived from it. -/
def subtree (h : Hierarchy) (id : DefId) : Except Fault (List DefId) :=
  match h.subtree? id with
  | some ids => .ok ids
  | none => .error (.unknownClass id)

/-- The classes derived from a class, without it itself. -/
def descendants (h : Hierarchy) (id : DefId) : Except Fault (List DefId) :=
  (h.subtree id).map List.tail

/-- The concrete definitions that a member may run on an object of a class. -/
def dispatchTargets (h : Hierarchy) (id : DefId) (member : String) : List DefId :=
  ((h.entries.get? id).bind fun e => e.overrides.get? member).getD []

def isAbstract (h : Hierarchy) (id : DefId) (member : String) : Bool :=
  ((h.entries.get? id).map fun e => e.abstractMembers.contains member).getD false

/-- The part of an order after a class; nothing if the class is not in it. -/
def after? (start : DefId) : List DefId → Option (List DefId)
  | [] => none
  | id :: ids => if id = start then some ids else after? start ids

/-- The class that gives a member of a class, and the binding, along the order of the class or the
part of it after `start`. -/
def lookup? (h : Hierarchy) (c : Catalog) (id : DefId) (member : String)
    (start : Option DefId) : Option (DefId × Binding) := do
  let order ← h.order? id
  let order ← match start with
    | none => some order
    | some start => after? start order
  c.memberAlong? order member

end Hierarchy

end Xref

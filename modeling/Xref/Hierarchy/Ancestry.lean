import Xref.Meaning.View

/-!
# Ancestry

The names after a class are resolved in the scope that declares it, without the orders of ancestors.
From them the ancestors of every class are found, and the cycles among them. A class that is its own
ancestor lies on a cycle; a class that is on one or has an ancestor on one leads to it.
-/

namespace Xref.Hierarchy

/-- What a class names as its bases: indexed classes, and names of others. -/
structure Bases where
  resolved : List DefId
  external : List String
  deriving DecidableEq, Repr

/-- The class that every class derives from without saying so. -/
def isImplicitRoot (base : String) : Bool :=
  base = "object" || base = "builtins.object"

/-- Adds a base as it is written, resolved from a scope. -/
def Bases.add (c : Catalog) (scope : ScopeId) (bases : Bases) (base : String) : Bases :=
  if isImplicitRoot base then bases
  else
    let (r, _) := (View.mk c none).name scope base |>.run []
    let indexed : Option Definition := match r.meaning with
      | .definition id _ => (c.definitions.get? id).filter fun d => d.kind = .classBody
      | _ => none
    match indexed, r.meaning with
    | some target, _ =>
      if bases.resolved.contains target.id then bases
      else { bases with resolved := bases.resolved ++ [target.id] }
    | none, .external qualname =>
      { bases with external := bases.external ++ [if qualname = "" then base else qualname] }
    | none, _ => { bases with external := bases.external ++ [base] }

/-- The bases of a declared class, resolved from the scope that declares it. -/
def basesOf (c : Catalog) (decl : ClassDecl) : Bases :=
  match c.definitions.get? decl.id with
  | some definition => decl.bases.foldl (Bases.add c definition.scope) ⟨[], []⟩
  | none => ⟨[], []⟩

/-- Whether resolving a base of some class meets a type that nests too deeply. -/
def hasDeepBase (c : Catalog) : Bool :=
  c.classes.values.any fun decl =>
    match c.definitions.get? decl.id with
    | some definition => decl.bases.any fun base =>
      !isImplicitRoot base &&
        (((View.mk c none).name definition.scope base).run []).2.contains .tooDeep
    | none => false

/-- The ids of all classes, by qualified name and id. -/
def classIds (c : Catalog) : List DefId :=
  sortOn (compareLex (byText c.qualnameOf) textOrder) c.classes.keys

/-- The bases of every class, in the order of the classes. -/
def allBases (c : Catalog) : OrderedMap DefId Bases :=
  .ofList ((classIds c).filterMap fun id => (c.classes.get? id).map fun d => (id, basesOf c d))

def resolvedBases (bases : OrderedMap DefId Bases) (id : DefId) : List DefId :=
  ((bases.get? id).map (·.resolved)).getD []

/-- The classes that can be reached from a class in at least one step. -/
def properAncestors (bases : OrderedMap DefId Bases) (id : DefId) : List DefId :=
  Graph.explore (resolvedBases bases) bases.size [] (resolvedBases bases id)

/-- The bases of all classes with what follows from them: the ancestors of each, and the classes
that are their own ancestors. -/
structure Ancestry where
  bases : OrderedMap DefId Bases
  above : OrderedMap DefId (List DefId)
  circular : List DefId

namespace Ancestry

variable (a : Ancestry)

/-- The ancestry that the bases of all classes give. -/
def ofBases (bases : OrderedMap DefId Bases) : Ancestry :=
  let above := bases.mapValues fun id _ => properAncestors bases id
  { bases
    above
    circular := (above.entries.filter fun e => e.2.contains e.1).map Prod.fst }

def ancestors (id : DefId) : List DefId :=
  (a.above.get? id).getD []

/-- Whether a class is on a cycle or has an ancestor that is. -/
def leadsToCycle (id : DefId) : Bool :=
  (id :: a.ancestors id).any a.circular.contains

/-- The classes that do not lead to a cycle. -/
def sound : List DefId :=
  a.bases.keys.filter fun id => !a.leadsToCycle id

/-- The classes on a cycle with a class: those that are ancestors of it and it of them. -/
def component (id : DefId) : List DefId :=
  (a.ancestors id).filter fun p => (a.ancestors p).contains id

/-- The components of some classes on cycles, each at the last of its classes. -/
def closing (a : Ancestry) : List DefId → List (List DefId)
  | [] => []
  | id :: later =>
    let members := a.component id
    if later.any fun d => members.contains d then a.closing later
    else members :: a.closing later

/-- The cycles of bases, each as the list of its classes, in the order in which a depth first walk
leaves them for good. -/
def cycles : List (List DefId) :=
  let left := Graph.postorder (resolvedBases a.bases) a.bases.size a.bases.keys
  a.closing (left.filter a.circular.contains)

/-- How many classes may wait for the orders of their bases at a time: each keeps two calls open. -/
def maxClimb : Nat := stackRoom 12 2

/-- Whether ordering the classes, each after its bases, leaves too many of them waiting at a
time. -/
def isTooHigh : Bool :=
  Graph.exceeds (resolvedBases a.bases) maxClimb a.sound

end Ancestry

end Xref.Hierarchy

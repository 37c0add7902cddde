import Xref.Hierarchy.Ancestry

/-!
# Building hierarchies

Classes that lead to a cycle of bases are set aside; the others are ordered from the bases up, and
then it is collected what each of their members may run.
-/

namespace Xref.Hierarchy

/-! ## Merging

The merge of several lists takes, again and again, the head of the first list that does not stand
later in any of them. It fails when there is none. -/

section

variable {α : Type u} [DecidableEq α]

/-- The first head that stands in no tail. -/
def candidate? (lists : List (List α)) : Option α :=
  lists.findSome? fun
    | [] => none
    | head :: _ => if lists.any fun l => l.tail.contains head then none else some head

/-- Merges lists; the first argument bounds the length of the result. -/
def mergeUpTo : Nat → List (List α) → Option (List α)
  | bound, lists =>
    match lists.filter fun l => !l.isEmpty with
    | [] => some []
    | l :: ls =>
      match bound with
      | 0 => none
      | bound + 1 =>
        match candidate? (l :: ls) with
        | none => none
        | some head =>
          (mergeUpTo bound ((l :: ls).map fun l => l.filter (· ≠ head))).map (head :: ·)

def merge? (lists : List (List α)) : Option (List α) :=
  mergeUpTo lists.flatten.length lists

end

/-! ## Orders -/

/-- Orders found so far, and the classes for which there was no consistent one. -/
structure Linearized where
  orders : OrderedMap DefId (List DefId)
  inconsistent : List DefId

/-- The order of a class whose bases are ordered: the merge of their orders and of the list of
bases. Where there is none, the ancestors follow depth first, from left to right. -/
def Linearized.add (bases : OrderedMap DefId Bases) (o : Linearized) (id : DefId) : Linearized :=
  let parents := resolvedBases bases id
  let above := parents.map fun p => (o.orders.get? p).getD []
  match merge? (above ++ [parents]) with
  | some merged => { o with orders := o.orders.insert id (id :: merged) }
  | none =>
    { orders := o.orders.insert id (id :: above.flatten.eraseDups)
      inconsistent := o.inconsistent ++ [id] }

/-- The orders of all classes that do not lead to a cycle. -/
def orderAll (a : Ancestry) : Linearized :=
  (Graph.postorder (resolvedBases a.bases) a.bases.size a.sound).foldl
    (Linearized.add a.bases) ⟨∅, []⟩

/-! ## Members -/

def definitionOf? (c : Catalog) (b : Binding) : Option Definition :=
  b.value.definition?.bind c.definitions.get?

/-- The names of the members that a class defines in its body. -/
def definedNames (c : Catalog) (id : DefId) : List String :=
  match (c.classes.get? id).bind fun d => c.scopes.get? d.body with
  | some scope =>
    (scope.bindings.entries.filter fun e => e.2.value.definition?.isSome).map Prod.fst
  | none => []

/-- The names of the members that a class, its ancestors and the classes of its subtree define. -/
def memberNames (h : Hierarchy) (c : Catalog) (id : DefId) (subtree : List DefId) : List String :=
  sortedSet (((h.order? id).getD [] ++ subtree).flatMap (definedNames c))

/-- The concrete definition that a member of a class runs. -/
def concrete? (h : Hierarchy) (c : Catalog) (member : String) (id : DefId) : Option DefId := do
  let (_, binding) ← h.lookup? c id member none
  let definition ← definitionOf? c binding
  if definition.isAbstract || !definition.kind.isCallable then none else some definition.id

/-- The concrete definitions that a member runs on the objects of some classes. -/
def concreteTargets (h : Hierarchy) (c : Catalog) (ids : List DefId) (member : String) :
    List DefId :=
  (ids.filterMap (h.concrete? c member)).eraseDups

/-- Whether the member that a class gives is abstract. -/
def givesAbstract (h : Hierarchy) (c : Catalog) (id : DefId) (member : String) : Bool :=
  match (h.lookup? c id member none).bind fun found => definitionOf? c found.2 with
  | some definition => definition.isAbstract
  | none => false

/-- The entry of a class with its members filled in. -/
def withMembers (h : Hierarchy) (c : Catalog) (e : ClassEntry) : ClassEntry :=
  if e.isCyclic then e
  else
    let subtree := (h.subtree? e.id).getD []
    let names := memberNames h c e.id subtree
    { e with
      abstractMembers := names.filter (givesAbstract h c e.id)
      overrides := .ofList ((names.map fun n => (n, concreteTargets h c subtree n)).filter fun t =>
        !t.2.isEmpty) }

/-! ## The whole hierarchy -/

/-- The entry of a class before its members are known. -/
def bareEntry (c : Catalog) (a : Ancestry) (orders : OrderedMap DefId (List DefId)) (id : DefId)
    (decl : ClassDecl) : ClassEntry :=
  { id
    qualname := c.qualnameOf id
    scope := decl.body
    bases := decl.bases
    resolvedBases := resolvedBases a.bases id
    externalBases := ((a.bases.get? id).map (·.external)).getD []
    order := orders.get? id
    abstractMembers := []
    overrides := ∅
    isCyclic := a.leadsToCycle id }

def cycleReport (c : Catalog) (members : List DefId) : Diagnostic :=
  .cyclicInheritance (sortOn textOrder (members.map c.qualnameOf))

/-- The hierarchy of a catalog over an ancestry, and what is wrong with it: cycles first, then
classes without a consistent order. -/
def ofAncestry (c : Catalog) (a : Ancestry) : Hierarchy × List Diagnostic :=
  let linearized := orderAll a
  let bare : Hierarchy := ⟨.ofList (a.bases.keys.filterMap fun id =>
    (c.classes.get? id).map fun decl => (id, bareEntry c a linearized.orders id decl))⟩
  let full : Hierarchy := ⟨bare.entries.mapValues fun _ e => withMembers bare c e⟩
  let reports := a.cycles.map (cycleReport c) ++
    linearized.inconsistent.map fun id => .inconsistentOrder (c.qualnameOf id)
  (full, reports)

/-- The hierarchy of a catalog and what is wrong with it, unless a base nests too deeply or classes
wait for too many others. -/
def build (c : Catalog) : Except Fault (Hierarchy × List Diagnostic) :=
  if hasDeepBase c then .error .tooDeep
  else
    let ancestry := Ancestry.ofBases (allBases c)
    if ancestry.isTooHigh then .error .tooDeep else .ok (ofAncestry c ancestry)

end Xref.Hierarchy

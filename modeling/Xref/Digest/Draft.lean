import Xref.Digest.Basic
import Xref.Fault
import Xref.Text.Dotted

/-!
# Drafts of digests

A draft is a digest in the making, with what the walk over an outline has to remember: the number of
calls of each caller, the callers that were suspended, the definitions of lambdas, and the names
whose assignments disagree.
-/

namespace Xref

open Text

/-- A digest in the making. -/
structure Draft where
  definitions : OrderedMap DefId Definition
  scopes : OrderedMap ScopeId Scope
  classes : OrderedMap DefId ClassDecl
  calls : List PendingCall
  references : List PendingReference
  diagnostics : List Diagnostic
  callCounts : OrderedMap DefId Nat
  suspended : List DefId
  lambdas : OrderedMap String DefId
  conflicts : List (ScopeId × String)
  deriving DecidableEq, Repr

/-- The last part of a decorator's name. -/
def decoratorTail (name : String) : String :=
  Dotted.last name

/-- Whether a declaration stands beside an earlier one of its name: the earlier is an overload, or
the later an accessor of the same property. -/
def supersedes (previousDecorators : List String) (name : String) (decorators : List String) :
    Bool :=
  (previousDecorators.any fun d => decoratorTail d = "overload") ||
    decorators.any fun d => [".setter", ".getter", ".deleter"].any fun suffix => d = name ++ suffix

namespace Draft

variable (d : Draft) (scope : ScopeId) (name : String)

def empty : Draft :=
  ⟨∅, ∅, ∅, [], [], [], ∅, [], ∅, []⟩

def openScope (s : Scope) : Draft :=
  { d with scopes := d.scopes.insert s.id s }

def modifyScope (id : ScopeId) (f : Scope → Scope) : Draft :=
  match d.scopes.get? id with
  | some s => { d with scopes := d.scopes.insert id (f s) }
  | none => d

def bindingIn? : Option Binding :=
  (d.scopes.get? scope).bind fun s => s.bindings.get? name

def bind (value : BindingValue) : Draft :=
  d.modifyScope scope fun s => s.bind name value

def define (definition : Definition) : Draft :=
  { d with definitions := d.definitions.insert definition.id definition }

/-- Drops the definitions below a qualified name, with their class records and calls. -/
def discardBelow (qualname : String) : Draft :=
  let removed :=
    (d.definitions.entries.filter fun e => Dotted.isBelow qualname e.2.qualname).map Prod.fst
  { d with
    definitions := d.definitions.restrict fun id => !removed.contains id
    classes := d.classes.restrict fun id => !removed.contains id
    calls := d.calls.filter fun c => !removed.contains c.caller }

/-- The declaration that a new one of the same name replaces, unless it stands beside it. -/
def replaced? (definition : Definition) : Option Definition :=
  match (d.bindingIn? scope definition.name).map Binding.value with
  | some (.declared id) =>
    (d.definitions.get? id).filter fun previous =>
      !supersedes previous.decorators definition.name definition.decorators
  | _ => none

/-- Declares a class or function in a scope. A declaration that it replaces is reported, and what
was declared inside that one is dropped. -/
def declare (definition : Definition) : Draft :=
  let d : Draft := match d.replaced? scope definition with
    | some previous =>
      let d := d.discardBelow previous.qualname
      { d with
        diagnostics := d.diagnostics ++
          [Diagnostic.duplicate definition.qualname definition.path definition.path] }
    | none => d
  (d.bind scope definition.name (.declared definition.id)).define definition

/-- Binds parameters whose types are read from a scope. -/
def bindParams (scope seenFrom : ScopeId) (params : List Param) : Draft :=
  params.foldl (fun d p => d.bind scope p.name (.parameter p.hint seenFrom)) d

/-- Binds a name to an assigned value. Once two assignments of a name differ, nothing is known of
its value. -/
def bindValue (hint source : Option String) (seenFrom : ScopeId) : Draft :=
  let differs : Bool := match (d.bindingIn? scope name).map Binding.value with
    | some (.assigned h s _) => decide ((h, s) ≠ (hint, source))
    | _ => false
  let d := if differs then { d with conflicts := (scope, name) :: d.conflicts } else d
  if d.conflicts.contains (scope, name) then d.bind scope name (.assigned none none seenFrom)
  else d.bind scope name (.assigned hint source seenFrom)

/-- The scopes from one outwards; the first argument bounds their number. -/
def scopesFrom (d : Draft) : Nat → Option ScopeId → List Scope
  | 0, _ => []
  | _ + 1, none => []
  | bound + 1, some id =>
    match d.scopes.get? id with
    | none => []
    | some s => s :: d.scopesFrom bound s.parent

/-- The innermost binding of a name, seen from a scope. -/
def visibleBinding? : Option Binding :=
  (d.scopesFrom d.scopes.size (some scope)).findSome? fun s => s.bindings.get? name

end Draft

end Xref

import Xref.Call.Resolve

/-!
# Call sites and references

A resolved call with its targets, and the names on which the resolution depends. A reference is a
name that is read without being called.
-/

namespace Xref

/-- A resolved call. `decorators` are those of its targets, `dependencies` the names consulted. -/
structure Site where
  id : SiteId
  caller : DefId
  path : String
  location : Location
  order : Nat
  callee : String
  receiver : Option String
  receiverKind : ReceiverKind
  argCount : Option Int
  targets : List DefId
  confidence : Confidence
  dispatch : Dispatch
  isSuspended : Bool
  decorators : List String
  dependencies : List String
  deriving DecidableEq, Repr

/-- By caller, place, program order and id. -/
def Site.callerOrder : Site → Site → Ordering :=
  compareLex (byText (·.caller))
    (compareLex (compareOn (·.location)) (compareLex (compareOn (·.order)) (byText (·.id))))

/-- By path, place, program order and id. -/
def Site.pathOrder : Site → Site → Ordering :=
  compareLex (byText (·.path))
    (compareLex (compareOn (·.location)) (compareLex (compareOn (·.order)) (byText (·.id))))

/-- A resolved reference. -/
structure Reference where
  path : String
  scope : ScopeId
  expression : String
  location : Location
  target : Option DefId
  confidence : Confidence
  deriving DecidableEq, Repr

namespace Resolver

def targetDefinitions (r : Resolver) (targets : List DefId) : Resolving (List Definition) :=
  targets.mapM r.definition

def warnings (call : PendingCall) (outcome : Outcome) : List Diagnostic :=
  match outcome.confidence, outcome.reason with
  | .unknown, some reason => [.unresolved call.callee call.path call.site reason]
  | _, _ => []

def resolve (r : Resolver) (c : PendingCall) : Except Fault (Site × List Diagnostic) := do
  let steps : Resolving (ReceiverKind × Outcome × List Definition) := do
    let (kind, outcome) ← r.outcome c
    let definitions ← r.targetDefinitions outcome.targets
    definitions.forM fun d => note d.qualname
    return (kind, outcome, definitions)
  let ((kind, outcome, definitions), trail) ← steps.run []
  let site : Site :=
    { id := c.site
      caller := c.caller
      path := c.path
      location := c.location
      order := c.order
      callee := c.callee
      receiver := c.receiver
      receiverKind := kind
      argCount := c.argCount
      targets := outcome.targets
      confidence := outcome.confidence
      dispatch := outcome.dispatch
      isSuspended := c.isSuspended
      decorators := (definitions.flatMap (·.decorators)).eraseDups
      dependencies := sortedSet trail }
  return (site, warnings c outcome)

end Resolver

/-- Resolves a reference: to a definition, or to the class of the object that it denotes. Of its
trail only types that nest too deeply matter. -/
def View.reference (v : View) (p : PendingReference) : Except Fault Reference := do
  let (r, trail) := (v.name p.scope p.expression).run []
  if trail.contains .tooDeep then throw .tooDeep
  let (target, confidence) : Option DefId × Confidence := match r.meaning with
    | .definition id _ => (some id, .exact)
    | .object _ (some holder) => (some holder, .exact)
    | .object type none => (some type, .ambiguous)
    | _ => (none, .unknown)
  return ⟨p.path, p.scope, p.expression, p.location, target, confidence⟩

end Xref

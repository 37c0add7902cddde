import Xref.Call.Outcome
import Xref.Meaning.View
import Xref.Policy

/-!
# Resolving calls

A call is classified by what stands before its last name, and resolved to the definitions that it
may run. Where nothing is known of the receiver, definitions are guessed by name and number of
arguments.
-/

namespace Xref

open Text

/-- What calls are resolved against. -/
structure Resolver where
  catalog : Catalog
  hierarchy : Hierarchy
  policy : Policy

/-- Resolving with a trail of the names consulted; a lost definition stops it. -/
abbrev Resolving := StateT (List String) (Except Fault)

namespace Resolver

variable (r : Resolver)

/-- The view of names along the hierarchy. -/
def view : View :=
  ⟨r.catalog, some r.hierarchy⟩

/-- Adds a name to the trail. -/
def note (name : String) : Resolving Unit :=
  modify (name :: ·)

/-- Adds the qualified name of a class to the trail. -/
def noteClass (id : DefId) : Resolving Unit :=
  note (r.catalog.qualnameOf id)

/-- Resolves a meaning and adds its trail. -/
def traced (t : Tracing α) : Resolving α := do
  let (value, trail) := t.run []
  match Mention.names trail with
  | .ok names =>
    modify (names ++ ·)
    return value
  | .error fault => throw fault

def definition (id : DefId) : Resolving Definition :=
  match r.catalog.definitions.get? id with
  | some d => return d
  | none => throw .lostDefinition

/-- The classes derived from a class and it itself, all added to the trail. -/
def notedSubtree (id : DefId) : Resolving (List DefId) := do
  let related ← r.hierarchy.subtree id
  related.forM r.noteClass
  return related

/-! ## Guesses -/

/-- The definitions that a call may mean by its name and number of arguments. -/
def candidates (call : PendingCall) (isMember : Bool) : List Definition :=
  let kind := if isMember then DefinitionKind.method else .function
  let fitting := (r.catalog.named call.callee).filter fun d =>
    d.kind = kind && !d.isAbstract && (!r.policy.matchArity || d.arity.accepts call.argCount)
  let sameFile := fitting.filter fun d => d.path = call.path
  if r.policy.preferSameModule && !sameFile.isEmpty then sameFile else fitting

def guessed (call : PendingCall) (isMember : Bool) : Outcome :=
  if r.policy.ignoredNames.contains call.callee || r.policy.commonNames.contains call.callee then
    .unknown none
  else
    let found := r.candidates call isMember
    if found.isEmpty then .unknown (some .noCandidate)
    else if r.policy.maxCandidates < found.length then
      .unknown (some (.tooManyCandidates found.length))
    else
      let targets := (sortOn Definition.nameOrder found).map (·.id)
      .ambiguous targets (if targets.length = 1 && !isMember then .static else .virtual)

def guess (call : PendingCall) (isMember : Bool) : Resolving Outcome := do
  note (nameKey call.callee)
  return r.guessed call isMember

/-! ## Objects and classes -/

/-- Calling a class: the class, and its initializer if there is a concrete one. -/
def construct (id : DefId) : Outcome :=
  let initializer := (r.view.findMember? id "__init__").bind fun found =>
    found.2.value.definition?.bind r.catalog.definitions.get?
  match initializer with
  | some d => if d.isAbstract then .exact [id] else .exact [id, d.id]
  | none => .exact [id]

/-- Calling the class that a class method runs on: any class of the subtree. -/
def constructAny (id : DefId) : Resolving Outcome := do
  let related ← r.notedSubtree id
  if related.length = 1 then return r.construct id
  else
    let targets := related.flatMap fun c => (r.construct c).targets
    return .ambiguous targets.eraseDups .virtual

/-- A member that the order of a class does not give. -/
def missing (id : DefId) (member : String) (report : Bool) : Outcome :=
  let targets := r.hierarchy.dispatchTargets id member
  if !targets.isEmpty then .ambiguous targets .virtual
  else if r.hierarchy.hasExternalBase id || !report then .unknown none
  else .unknown (some (.noMember (r.catalog.qualnameOf id) member))

def dispatchDefinition (id : DefId) (member : String) (d : Definition) : Outcome :=
  match d.kind with
  | .classBody => r.construct d.id
  | .boundValue => .ambiguous [d.id] .static
  | _ =>
    let targets := r.hierarchy.dispatchTargets id member
    if (targets.filter (· ≠ d.id)).isEmpty then
      if d.isAbstract then .unknown (some (.neverOverridden d.qualname)) else .exact [d.id]
    else ⟨targets, if d.isAbstract then .exact else .ambiguous, .virtual, none⟩

/-- Calling a member of an object of a class. What the member is bound to without being a definition
is called by `invoke`. -/
def dispatchWith (invoke : Resolved → Resolving Outcome) (id : DefId)
    (member : String) (report : Bool) : Resolving Outcome := do
  let _ ← r.notedSubtree id
  if r.hierarchy.isCyclic id then
    return .unknown (some (.inCycle (r.catalog.qualnameOf id)))
  else
    match r.hierarchy.lookup? r.catalog id member none with
    | none => return r.missing id member report
    | some (_, binding) =>
      match binding.value.definition? with
      | none => invoke (← traced (r.view.binding binding))
      | some target => return r.dispatchDefinition id member (← r.definition target)

def invokeDefinition (d : Definition) (role : Option ReceiverRole) : Resolving Outcome :=
  match d.kind with
  | .classBody => if role = some .cls then r.constructAny d.id else return r.construct d.id
  | .fileBody => return .unknown (some (.moduleNotCallable d.qualname))
  | .boundValue => return .ambiguous [d.id] .static
  | _ =>
    if d.isAbstract then return .unknown (some (.isAbstract d.qualname)) else return .exact [d.id]

/-- Calling an object, given the outcome of its call operator. -/
def orHolder (type : DefId) (holder : Option DefId) (outcome : Outcome) : Outcome :=
  if !outcome.targets.isEmpty then outcome
  else
    match holder with
    | some id => .ambiguous [id] .static
    | none => .unknown (some (.noCallOperator (r.catalog.qualnameOf type)))

/-- Calling what an expression denotes. Calling an object calls its call operator, which may be an
object again; the first argument bounds how often. `isHeld` tells that the value was held by a
name. -/
def invoke (r : Resolver) (call : PendingCall) : Nat → Bool → Resolved → Resolving Outcome
  | bound, isHeld, value =>
    match value.meaning with
    | .definition id _ => do r.invokeDefinition (← r.definition id) value.role
    | .object type holder =>
      match bound with
      | 0 => throw .endlessCall
      | bound + 1 => do
        let outcome ← r.dispatchWith (invoke r call bound true) type "__call__" false
        return r.orHolder type holder outcome
    | .external _ => return .unknown none
    | .package qualname => return .unknown (some (.packageNotCallable qualname))
    | .unresolved name =>
      if isHeld then return .unknown (some .unknownValue)
      else if value.binding.isNone && name = call.callee then r.guess call false
      else return .unknown (some .nameNotFound)

/-- How many call operators in a row are followed at most: each keeps two calls open. -/
def maxChain : Nat := stackRoom 20 2

/-- Chains of call operators longer than this come back to a class or are too long to follow. -/
def bound : Nat :=
  min (r.hierarchy.entries.size + 1) maxChain

def call (c : PendingCall) (isHeld : Bool) (value : Resolved) : Resolving Outcome :=
  r.invoke c r.bound isHeld value

def dispatch (c : PendingCall) (id : DefId) (member : String) : Resolving Outcome :=
  r.dispatchWith (r.call c true) id member true

def callBinding (c : PendingCall) (b : Binding) : Resolving Outcome := do
  let value ← traced (r.view.binding b)
  r.call c b.value.definition?.isNone value

/-! ## Forms of calls -/

def callOnClass (c : PendingCall) (id : DefId) : Resolving Outcome := do
  r.noteClass id
  if r.hierarchy.isCyclic id then
    return .unknown (some (.inCycle (r.catalog.qualnameOf id)))
  else
    match r.hierarchy.lookup? r.catalog id c.callee none with
    | none => return r.missing id c.callee true
    | some (_, binding) => r.callBinding c binding

/-- The bindings of a member after a class in the orders of some classes, one for each class that
gives it. -/
def bindingsAfter (owner : DefId) (member : String) (related : List DefId) :
    List (DefId × Binding) :=
  related.foldl (fun found id =>
    match r.hierarchy.lookup? r.catalog id member (some owner) with
    | some hit => if found.any fun f => f.1 = hit.1 then found else found ++ [hit]
    | none => found) []

/-- Calling a member of the parent: the next class that gives it, in the order of every class that
the object may have. -/
def callOnParent (c : PendingCall) (owner : DefId) : Resolving Outcome := do
  r.noteClass owner
  if r.hierarchy.isCyclic owner then
    return .unknown (some (.inCycle (r.catalog.qualnameOf owner)))
  else
    let related ← r.notedSubtree owner
    match r.bindingsAfter owner c.callee related with
    | [] =>
      if r.hierarchy.hasExternalBase owner then return .unknown none
      else return .unknown (some (.noBaseDefines (r.catalog.qualnameOf owner) c.callee))
    | [(_, binding)] => r.callBinding c binding
    | found =>
      let outcomes ← found.mapM fun f => r.callBinding c f.2
      match (outcomes.flatMap (·.targets)).eraseDups with
      | [] => return .unknown (some (.noConcreteAfter c.callee (r.catalog.qualnameOf owner)))
      | targets => return .ambiguous targets .virtual

/-- Calling a bare name. A member of a class around a method is called on the receiver. -/
def callName (c : PendingCall) : Resolving (ReceiverKind × Outcome) := do
  match r.catalog.lookup? c.scope c.callee with
  | none => return (.none, ← r.guess c false)
  | some (binding, scope) =>
    let inMethod :=
      ((r.catalog.definitions.get? c.caller).map fun d => decide (d.kind = .method)).getD false
    let owner :=
      if scope.kind = .classBody && scope.id ≠ c.scope && inMethod then scope.owner else none
    match owner with
    | some owner => return (.selfMember, ← r.dispatch c owner c.callee)
    | none =>
      let isHeld := binding.value.isHeld
      let value ← traced (r.view.binding binding)
      return (if isHeld then .invokedBinding else .none, ← r.call c isHeld value)

/-- Calling a member of what a dotted expression denotes. -/
def callMember (c : PendingCall) (receiver : String) : Resolving (ReceiverKind × Outcome) := do
  let resolved ← traced (r.view.name c.scope receiver)
  let kind : ReceiverKind :=
    if resolved.role.isSome && !Dotted.hasDot receiver then .selfMember else .instanceMember
  match resolved.meaning with
  | .definition id maker =>
    let d ← r.definition id
    match d.kind with
    | .fileBody =>
      let value ← traced (r.view.member resolved c.callee)
      return (.none, ← r.call c false value)
    | .classBody =>
      if resolved.role = some .cls then return (kind, ← r.dispatch c d.id c.callee)
      else return (.instanceMember, ← r.callOnClass c d.id)
    | .boundValue =>
      if maker.getD "" ≠ "" then return (.instanceMember, .unknown none)
      else return (.instanceMember, .unknown (some (.unknownType d.qualname)))
    | _ => return (.instanceMember, ← r.guess c true)
  | .package _ =>
    let value ← traced (r.view.member resolved c.callee)
    return (.none, ← r.call c false value)
  | .object type _ => return (kind, ← r.dispatch c type c.callee)
  | .external _ => return (.instanceMember, .unknown none)
  | .unresolved _ => return (.instanceMember, ← r.guess c true)

def outcome (c : PendingCall) : Resolving (ReceiverKind × Outcome) :=
  let isPlain := isName c.callee.toList
  match c.receiver with
  | none => if isPlain then r.callName c else return (.none, .unknown none)
  | some receiver =>
    if !isPlain then return (.instanceMember, .unknown none)
    else if receiver = "super()" then
      match (r.catalog.definitions.get? c.caller).bind (·.ownerClass) with
      | some owner => do return (.selfMember, ← r.callOnParent c owner)
      | none => return (.selfMember, .unknown (some .superOutsideMethod))
    else if Dotted.isPath receiver then r.callMember c receiver
    else do return (.instanceMember, ← r.guess c true)

end Resolver

end Xref

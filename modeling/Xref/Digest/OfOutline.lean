import Xref.Digest.Check
import Xref.Digest.Draft

/-!
# Digesting outlines

The walk over an outline in program order. A class body runs on behalf of the code around the class,
so calls in it belong to the enclosing function; the body of a function or lambda is its own caller.
The walk goes into a body as long as the stack has room, and stops at a lambda whose place no name
can hold.
-/

namespace Xref

open Number Text

/-- How many calls the stack holds for the walk over the items of a file. A block takes one of them,
any other item with a body two, and an item without a body none that stays. -/
def walkRoom : Nat := stackRoom 9 1

/-- What the walk knows of the file. -/
structure FileContext where
  path : String
  moduleName : String
  isPackage : Bool
  version : Int
  deriving DecidableEq, Repr

/-- Where the walk stands: the scope, the qualified name around it, the caller, the class whose body
it is directly in, and how many more calls the stack holds. -/
structure Place where
  scope : ScopeId
  scopeKind : ScopeKind
  qualname : String
  caller : DefId
  ownerClass : Option DefId
  room : Nat
  deriving DecidableEq, Repr

/-- What is left of the room after some more calls. -/
def Place.reserve (place : Place) (calls : Nat) : Except Fault Nat :=
  if calls ≤ place.room then .ok (place.room - calls) else .error .tooDeep

/-- Whether a text can hold the line and the column. -/
def Location.isWritable (l : Location) : Bool :=
  l.line.natAbs < digitLimit && l.column.natAbs < digitLimit

def Location.checkWritable (l : Location) : Except Fault Unit :=
  if l.isWritable then .ok () else .error .integerTooLong

namespace FileContext

variable (file : FileContext) (place : Place) (mark : Mark)

/-- The id of a scope or call site. -/
def markId : String :=
  Scope.idOf file.path (mark.id.getD "")

/-- The module that an import names, with the leading dots taken relative to this file. -/
def absoluteModule (source : String) (level : Int) : String :=
  if level = 0 then source
  else
    let parts := Dotted.parts file.moduleName
    let parts := if file.isPackage then parts else parts.dropLast
    let parts := if 1 < level then parts.take (parts.length - (level - 1).toNat) else parts
    Dotted.join ([Dotted.join parts, source].filter (· ≠ ""))

def newScope (kind : ScopeKind) (parent : Option ScopeId) (owner : Option DefId) : Scope :=
  ⟨file.markId mark, kind, file.path, parent, owner, ∅, ∅, []⟩

def fileDefinition : Definition where
  id := Definition.idOf file.path file.moduleName
  qualname := file.moduleName
  name := Dotted.last file.moduleName
  kind := .fileBody
  path := file.path
  scope := file.markId mark
  location := mark.location
  ownerClass := none
  isAbstract := false
  decorators := []
  params := []
  arity := .none
  isAsync := false
  version := file.version

def classDefinition (head : ClassHead) : Definition where
  id := Definition.idOf file.path (place.qualname ++ "." ++ head.name)
  qualname := place.qualname ++ "." ++ head.name
  name := head.name
  kind := .classBody
  path := file.path
  scope := place.scope
  location := mark.location
  ownerClass := place.ownerClass
  isAbstract := false
  decorators := head.decorators
  params := []
  arity := .none
  isAsync := false
  version := file.version

end FileContext

namespace FunctionHead

/-- Whether a decorator with the given last name is applied. -/
def hasDecorator (head : FunctionHead) (tail : String) : Bool :=
  head.decorators.any fun d => decoratorTail d = tail

/-- The receiver of a method: its first parameter, unless the method is static. -/
def receiver? (head : FunctionHead) (ownerClass : Option DefId) : Option (Param × DefId) :=
  match ownerClass, head.params with
  | some owner, p :: _ => if head.hasDecorator "staticmethod" then none else some (p, owner)
  | _, _ => none

def givenParams (head : FunctionHead) (ownerClass : Option DefId) : List Param :=
  if (head.receiver? ownerClass).isSome then head.params.drop 1 else head.params

/-- The part that the receiver plays. -/
def role (head : FunctionHead) : ReceiverRole :=
  if head.hasDecorator "classmethod" then .cls else .self

end FunctionHead

namespace FileContext

variable (file : FileContext) (place : Place) (mark : Mark)

def functionDefinition (head : FunctionHead) : Definition where
  id := Definition.idOf file.path (place.qualname ++ "." ++ head.name)
  qualname := place.qualname ++ "." ++ head.name
  name := head.name
  kind := if place.ownerClass.isSome then .method else .function
  path := file.path
  scope := place.scope
  location := mark.location
  ownerClass := place.ownerClass
  isAbstract := head.isAbstract || head.hasDecorator "abstractmethod"
  decorators := head.decorators
  params := head.params
  arity := Arity.ofParams (head.givenParams place.ownerClass)
  isAsync := head.isAsync
  version := file.version

/-- The qualified name of a lambda: its place, which is no longer than `digitLimit` allows, and its
id where that name is taken. -/
def lambdaQualname (d : Draft) : String :=
  let qualname := place.qualname ++ ".<lambda@" ++ toString mark.location.line ++ ":" ++
    toString mark.location.column ++ ">"
  if d.definitions.contains (Definition.idOf file.path qualname) then
    qualname ++ "#" ++ mark.id.getD ""
  else qualname

def lambdaDefinition (params : List Param) (qualname : String) : Definition where
  id := Definition.idOf file.path qualname
  qualname := qualname
  name := "<lambda>"
  kind := .lambda
  path := file.path
  scope := place.scope
  location := mark.location
  ownerClass := none
  isAbstract := false
  decorators := []
  params := params
  arity := Arity.ofParams params
  isAsync := false
  version := file.version

/-- The definition of a name that holds the value of a call. -/
def boundDefinition (name : String) : Definition where
  id := Definition.idOf file.path (place.qualname ++ "." ++ name)
  qualname := place.qualname ++ "." ++ name
  name := name
  kind := .boundValue
  path := file.path
  scope := place.scope
  location := mark.location
  ownerClass := place.ownerClass
  isAbstract := false
  decorators := []
  params := []
  arity := .any
  isAsync := false
  version := file.version

end FileContext

/-- The type that an assignment gives to its target, or the name it copies. A type written out
goes first; the callee of a call counts as a type. -/
def Assignment.clues (a : Assignment) : Option String × Option String :=
  if a.hint.getD "" ≠ "" then (a.hint, none)
  else
    match a.kind with
    | .call => (a.value, none)
    | .name => (none, a.value)
    | _ => (none, none)

/-- Whether the target becomes a definition of its own: at file and class level, the value of a
call without a type written out. -/
def Assignment.makesDefinition (a : Assignment) (kind : ScopeKind) : Bool :=
  a.kind = .call && a.hint.getD "" = "" && (kind = .fileBody || kind = .classBody)

namespace Draft

variable (d : Draft) (file : FileContext) (place : Place)

def addCall (mark : Mark) (head : CallHead) : Draft :=
  let order := (d.callCounts.get? place.caller).getD 0
  { d with
    callCounts := d.callCounts.insert place.caller (order + 1)
    calls := d.calls ++
      [{ site := file.markId mark, caller := place.caller, scope := place.scope, path := file.path
         location := mark.location, order := order, callee := head.callee
         receiver := head.receiver, argCount := head.argCount
         isSuspended := d.suspended.contains place.caller }] }

def addImport (i : Import) : Draft :=
  let base := file.absoluteModule i.source i.level
  match i.name with
  | some "*" =>
    if base = "" then d else d.modifyScope place.scope fun s => s.addStarImport base
  | none =>
    let rename := i.localName.getD ""
    if rename = "" then
      let head := Dotted.head base
      d.modifyScope place.scope fun s => s.addImport head head
    else d.modifyScope place.scope fun s => s.addImport rename base
  | some name =>
    let rename := i.localName.getD ""
    let localName := if rename = "" then name else rename
    let qualname := if base = "" then name else base ++ "." ++ name
    d.modifyScope place.scope fun s => s.addImport localName qualname

/-- Records an assignment to an attribute of the receiver, as a binding of the class. A member that
is a definition stays. -/
def assignMember (d : Draft) (place : Place) (a : Assignment) (head member : String) : Draft :=
  if Dotted.hasDot member then d
  else
    match (d.visibleBinding? place.scope head).map Binding.value with
    | some (.receiver .self owner) =>
      match d.classes.get? owner with
      | none => d
      | some decl =>
        match (d.bindingIn? decl.body member).bind fun b => b.value.definition? with
        | some _ => d
        | none =>
          let (hint, source) := a.clues
          d.bindValue decl.body member hint source place.scope
    | _ => d

def addAssignment (mark : Mark) (a : Assignment) : Except Fault Draft :=
  match Dotted.cut? a.target with
  | some (head, member) => .ok (d.assignMember place a head member)
  | none =>
    if a.isLoopTarget then .ok (d.bind place.scope a.target .loop)
    else if a.kind = .lambda then
      let id := a.value.getD ""
      match d.lambdas.get? id with
      | some definition => .ok (d.bind place.scope a.target (.literal definition))
      | none => .error (.unknownLambda id)
    else
      let (hint, source) := a.clues
      if a.makesDefinition place.scopeKind then
        let definition := file.boundDefinition place mark a.target
        .ok ((d.define definition).bind place.scope a.target
          (.built definition.id hint place.scope))
      else .ok (d.bindValue place.scope a.target hint source place.scope)

end Draft

mutual

def walk (file : FileContext) (place : Place) (d : Draft) : Item → Except Fault Draft
  | .classDecl mark head body => do
    let room ← place.reserve 2
    let definition := file.classDefinition place mark head
    let scope := file.newScope mark .classBody (some place.scope) (some definition.id)
    let d := (d.openScope scope).declare place.scope definition
    let d := { d with
      classes := d.classes.insert definition.id ⟨definition.id, head.bases, scope.id⟩ }
    walkAll file ⟨scope.id, .classBody, definition.qualname, place.caller,
      some definition.id, room⟩ d
      body
  | .functionDecl mark head body => do
    let room ← place.reserve 2
    let definition := file.functionDefinition place mark head
    let scope := file.newScope mark .function (some place.scope) (some definition.id)
    let d := (d.openScope scope).declare place.scope definition
    let d := match head.receiver? place.ownerClass with
      | some (p, owner) => d.bind scope.id p.name (.receiver head.role owner)
      | none => d
    let d := d.bindParams scope.id place.scope (head.givenParams place.ownerClass)
    walkAll file ⟨scope.id, .function, definition.qualname, definition.id, none, room⟩ d body
  | .lambda mark params body => do
    let room ← place.reserve 2
    mark.location.checkWritable
    let definition :=
      file.lambdaDefinition place mark params (file.lambdaQualname place mark d)
    let scope := file.newScope mark .function (some place.scope) (some definition.id)
    let d := (d.openScope scope).define definition
    let d := { d with lambdas := d.lambdas.insert (mark.id.getD "") definition.id }
    let d := d.bindParams scope.id place.scope params
    walkAll file ⟨scope.id, .function, definition.qualname, definition.id, none, room⟩ d body
  | .block mark body => do
    let room ← place.reserve 1
    let scope := file.newScope mark .block (some place.scope) none
    walkAll file ⟨scope.id, .block, place.qualname, place.caller, none,
      room⟩ (d.openScope scope) body
  | .call mark head => .ok (d.addCall file place mark head)
  | .assign mark a => d.addAssignment file place mark a
  | .importDecl _ target => .ok (d.addImport file place target)
  | .reference mark expression =>
    .ok { d with references := d.references ++
      [⟨file.path, place.scope, expression, mark.location⟩] }
  | .suspend _ => .ok { d with suspended := place.caller :: d.suspended }
  | .fileBody _ _ => .ok d
  | .foreign _ => .ok d

def walkAll (file : FileContext) (place : Place) (d : Draft) : List Item → Except Fault Draft
  | [] => .ok d
  | i :: is => do
    let d ← walk file place d i
    walkAll file place d is

end

namespace Digest

def failed (o : Outline) (defect : Defect) (item : Option String) : Digest where
  path := o.knownPath
  moduleName := o.moduleName
  implicitMembers := true
  definitions := ∅
  scopes := ∅
  classes := ∅
  calls := []
  references := []
  diagnostics := [.malformed o.knownPath defect item]
  isFailed := true

def ofDraft (o : Outline) (d : Draft) : Digest where
  path := o.path
  moduleName := o.moduleName
  implicitMembers := o.implicitMembers
  definitions := d.definitions
  scopes := d.scopes
  classes := d.classes
  calls := d.calls
  references := d.references
  diagnostics := d.diagnostics
  isFailed := false

def draftOf (o : Outline) (version : Int) : Except Fault Draft :=
  let file : FileContext := ⟨o.path, o.moduleName, o.isPackage, version⟩
  match o.root with
  | .fileBody mark body =>
    let definition := file.fileDefinition mark
    let scope := file.newScope mark .fileBody none (some definition.id)
    let d := (Draft.empty.openScope scope).define definition
    walkAll file ⟨scope.id, .fileBody, o.moduleName, definition.id, none, walkRoom⟩ d body
  | _ => .ok Draft.empty

/-- The digest of an outline. A malformed one is reported in its own digest. -/
def ofOutline (o : Outline) (version : Int) : Except Fault Digest :=
  match o.check with
  | .error (.malformed defect item) => .ok (failed o defect item)
  | .error (.stopped fault) => .error fault
  | .ok () => (draftOf o version).map (ofDraft o)

end Digest

end Xref

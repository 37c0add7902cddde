import Xref.Proofs.Digest.Walk

/-!
# Ledgers

A ledger is what the later steps of a walk can tell of a draft, but for types, receivers and
imports, which have no part in what is declared and called: the definitions, class records, calls
and references, the number of calls of each caller, the callers that were suspended, and what the
names in each scope are declared as. The walk over an outline can be followed on ledgers alone,
where it always comes to an end.
-/

namespace Xref

open Text

/-! ## Ledgers and their changes -/

def lambdaName (qualname : String) (mark : Mark) : String :=
  qualname ++ ".<lambda@" ++ toString mark.location.line ++ ":" ++
    toString mark.location.column ++ ">"

/-- What the later steps of a walk can tell of a draft. -/
structure Ledger where
  definitions : DefId → Option Definition
  classes : DefId → Option ClassDecl
  calls : List PendingCall
  references : List PendingReference
  counts : DefId → Nat
  suspended : DefId → Bool
  declared : ScopeId → String → Option DefId

def BindingValue.declared? : BindingValue → Option DefId
  | declared id => some id
  | _ => none

def Draft.ledger (d : Draft) : Ledger where
  definitions := d.definitions.get?
  classes := d.classes.get?
  calls := d.calls
  references := d.references
  counts caller := (d.callCounts.get? caller).getD 0
  suspended caller := d.suspended.contains caller
  declared scope name := (d.bindingIn? scope name).bind fun b => b.value.declared?

namespace Ledger

section

variable (l : Ledger) (file : FileContext) (place : Place) (mark : Mark) (scope : ScopeId)

def openScope : Ledger :=
  { l with declared := fun s name => if s = scope then none else l.declared s name }

/-- Binds names to what is no declaration. -/
def unbind (names : List String) : Ledger :=
  { l with declared := fun s name => if s = scope ∧ name ∈ names then none else l.declared s name }

theorem unbind_nil : l.unbind scope [] = l := by
  simp [unbind]

theorem unbind_unbind (names names' : List String) :
    (l.unbind scope names).unbind scope names' = l.unbind scope (names ++ names') := by
  have hdeclared : ((l.unbind scope names).unbind scope names').declared =
      (l.unbind scope (names ++ names')).declared := by
    funext s name
    simp only [unbind, List.mem_append]
    grind
  exact congrArg (fun declared => { l with declared }) hdeclared

theorem unbind_of_none {l : Ledger} {scope : ScopeId} {name : String}
    (h : l.declared scope name = none) : l.unbind scope [name] = l := by
  have hdeclared : (l.unbind scope [name]).declared = l.declared := by
    funext s n
    simp only [unbind, List.mem_singleton]
    grind
  exact congrArg (fun declared => { l with declared }) hdeclared

def bind (name : String) (id : DefId) : Ledger :=
  { l with declared := fun s n => if s = scope ∧ n = name then some id else l.declared s n }

def define (x : Definition) : Ledger :=
  { l with definitions := fun id => if id = x.id then some x else l.definitions id }

/-- Whether there is a definition with an id below a qualified name. -/
def drops (qualname : String) (id : DefId) : Bool :=
  (l.definitions id).any fun x => Dotted.isBelow qualname x.qualname

/-- Drops the definitions below a qualified name, with their class records and calls. -/
def discardBelow (qualname : String) : Ledger :=
  { l with
    definitions := fun id => if l.drops qualname id then none else l.definitions id
    classes := fun id => if l.drops qualname id then none else l.classes id
    calls := l.calls.filter fun c => !l.drops qualname c.caller }

/-- The declaration that a new one of the same name replaces, unless it stands beside it. -/
def replaced? (x : Definition) : Option Definition :=
  (l.declared scope x.name).bind fun id =>
    (l.definitions id).filter fun previous => !supersedes previous.decorators x.name x.decorators

/-- Drops what was declared inside the declaration that a new one replaces. -/
def makeRoom (x : Definition) : Ledger :=
  match l.replaced? scope x with
  | some previous => l.discardBelow previous.qualname
  | none => l

def declare (x : Definition) : Ledger :=
  ((l.makeRoom scope x).bind scope x.name x.id).define x

def record (decl : ClassDecl) : Ledger :=
  { l with classes := fun id => if id = decl.id then some decl else l.classes id }

def callRecord (head : CallHead) : PendingCall where
  site := file.markId mark
  caller := place.caller
  scope := place.scope
  path := file.path
  location := mark.location
  order := l.counts place.caller
  callee := head.callee
  receiver := head.receiver
  argCount := head.argCount
  isSuspended := l.suspended place.caller

def addCall (head : CallHead) : Ledger :=
  { l with
    counts := fun caller => if caller = place.caller then l.counts caller + 1 else l.counts caller
    calls := l.calls ++ [l.callRecord file place mark head] }

def addReference (r : PendingReference) : Ledger :=
  { l with references := l.references ++ [r] }

def suspend (caller : DefId) : Ledger :=
  { l with suspended := fun c => decide (c = caller) || l.suspended c }

/-- The definition of a lambda: named by its place, and by its id too where that name is taken. -/
def lambdaDefinition (params : List Param) : Definition :=
  let name := lambdaName place.qualname mark
  file.lambdaDefinition place mark params
    (if (l.definitions (Definition.idOf file.path name)).isSome then name ++ "#" ++ mark.id.getD ""
      else name)

/-! ## The walk -/

/-- Where the walk stands in the body of an item. -/
def placeIn : Opening → Place
  | .classDecl mark head =>
    let x := file.classDefinition place mark head
    ⟨file.markId mark, .classBody, x.qualname, place.caller, some x.id, place.room - 2⟩
  | .functionDecl mark head =>
    let x := file.functionDefinition place mark head
    ⟨file.markId mark, .function, x.qualname, x.id, none, place.room - 2⟩
  | .lambda mark params =>
    let x := l.lambdaDefinition file place mark params
    ⟨file.markId mark, .function, x.qualname, x.id, none, place.room - 2⟩
  | .block mark => ⟨file.markId mark, .block, place.qualname, place.caller, none, place.room - 1⟩

/-- The names that the body of an item has before it is walked. -/
def paramNames : Opening → List String
  | .functionDecl _ head =>
    (head.receiver? place.ownerClass).toList.map (·.1.name) ++
      (head.givenParams place.ownerClass).map (·.name)
  | .lambda _ params => params.map (·.name)
  | _ => []

/-- The ledger with which the walk goes into the body of an item. -/
def enter (o : Opening) : Ledger :=
  let scope := file.markId o.mark
  let l' := match o with
    | .classDecl mark head =>
      let x := file.classDefinition place mark head
      ((l.openScope scope).declare place.scope x).record ⟨x.id, head.bases, scope⟩
    | .functionDecl mark head =>
      (l.openScope scope).declare place.scope (file.functionDefinition place mark head)
    | .lambda mark params => (l.openScope scope).define (l.lambdaDefinition file place mark params)
    | .block _ => l.openScope scope
  l'.unbind scope (paramNames place o)

/-- Takes an item without a body. An attribute of the receiver is never a declaration, and none
becomes one. -/
def step : Item → Ledger
  | .call mark head => l.addCall file place mark head
  | .assign mark a =>
    if (Dotted.cut? a.target).isSome then l
    else if !a.isLoopTarget && a.makesDefinition place.scopeKind then
      (l.define (file.boundDefinition place mark a.target)).unbind place.scope [a.target]
    else l.unbind place.scope [a.target]
  | .reference mark expression =>
    l.addReference ⟨file.path, place.scope, expression, mark.location⟩
  | .suspend _ => l.suspend place.caller
  | _ => l

end

mutual

def walk (file : FileContext) (place : Place) (l : Ledger) : Item → Ledger
  | .classDecl mark head body =>
    walkAll file (l.placeIn file place (.classDecl mark head))
      (l.enter file place (.classDecl mark head)) body
  | .functionDecl mark head body =>
    walkAll file (l.placeIn file place (.functionDecl mark head))
      (l.enter file place (.functionDecl mark head)) body
  | .lambda mark params body =>
    walkAll file (l.placeIn file place (.lambda mark params))
      (l.enter file place (.lambda mark params)) body
  | .block mark body =>
    walkAll file (l.placeIn file place (.block mark)) (l.enter file place (.block mark)) body
  | i => l.step file place i

def walkAll (file : FileContext) (place : Place) (l : Ledger) : List Item → Ledger
  | [] => l
  | i :: is => walkAll file place (walk file place l i) is

end

variable (file : FileContext) (place : Place) (l : Ledger)

theorem walk_leaf {i : Item} (hi : i.isLeaf) : l.walk file place i = l.step file place i := by
  cases i with
  | classDecl | functionDecl | lambda | block => cases hi
  | _ => rw [walk] <;> simp

theorem walk_item (o : Opening) (body : List Item) : l.walk file place (o.item body) =
      (l.enter file place o).walkAll file (l.placeIn file place o) body := by
  cases o <;> rw [Opening.item, walk]

theorem walkAll_nil : l.walkAll file place [] = l := by
  rw [walkAll]

theorem walkAll_cons (i : Item) (is : List Item) :
    l.walkAll file place (i :: is) = (l.walk file place i).walkAll file place is := by
  rw [walkAll]

theorem walkAll_singleton (i : Item) : l.walkAll file place [i] = l.walk file place i := by
  rw [walkAll_cons, walkAll_nil]

theorem walkAll_append (is js : List Item) :
    l.walkAll file place (is ++ js) = (l.walkAll file place is).walkAll file place js := by
  induction is generalizing l with
  | nil => rw [List.nil_append, walkAll_nil]
  | cons i is ih => rw [List.cons_append, walkAll_cons, walkAll_cons, ih]

end Ledger

end Xref

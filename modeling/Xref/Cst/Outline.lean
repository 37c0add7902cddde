import Xref.Cst.Signature
import Xref.Fault
import Xref.Script.Statement

/-!
# From syntax trees to outlines

`step` says what a node adds to the outline, given how the nodes below it are read; `visit` ties the
knot. Items are numbered in the order in which they are made: an item is numbered after what is
evaluated before it and before what stands inside it.
-/

namespace Xref.Cst

/-- Reading with a count of the items made so far. -/
abbrev Reading := StateT Nat (Except Fault)

/-- The items that a node adds; the second argument names the decorators before it. -/
abbrev Visit := Cst → List String → Reading (List Item)

/-- A mark with the next id and the place of a node. -/
def freshMark (n : Cst) : Reading Mark := do
  let count ← get
  set (count + 1)
  return ⟨some ("n" ++ toString (count + 1)), n.location⟩

/-- The items of several nodes in order. -/
def visitAll (visit : Visit) : List Cst → Reading (List Item)
  | [] => return []
  | n :: ns => do
    let here ← visit n []
    let rest ← visitAll visit ns
    return here ++ rest

/-- The items of a node that may be absent. -/
def visit? (visit : Visit) : Option Cst → Reading (List Item)
  | none => return []
  | some n => visit n []

/-- A suspension point at a node, if it is asynchronous. -/
def suspension (n : Cst) : Reading (List Item) := do
  if n.isAsync then
    return [.suspend (← freshMark n)]
  else return []

/-! ## Classes and functions -/

section

variable (source : ByteArray) (visit : Visit) (n : Cst)

/-- What a class is derived from, without type arguments. -/
def baseNode (n : Cst) : Cst :=
  if n.kind = "subscript" then (n.field? "value").getD n else n

/-- The named bases of a class, and the items of those that are no names. -/
def readBases (source : ByteArray) (visit : Visit) : List Cst → Reading (List String × List Item)
  | [] => return ([], [])
  | n :: ns => do
    let base := baseNode n
    match ← properName? source base with
    | some name =>
      let (names, items) ← readBases source visit ns
      return (name :: names, items)
    | none =>
      let here ← if base.kind = "keyword_argument" then pure [] else visit base []
      let (names, items) ← readBases source visit ns
      return (names, here ++ items)

/-- The items of a class: those of its unnamed bases, then the class. -/
def classItems (decorators : List String) : Reading (List Item) :=
  match n.field? "name" with
  | none => return []
  | some nameNode => do
    let bases := ((n.field? "superclasses").map namedChildren).getD []
    let (names, before) ← readBases source visit bases
    let mark ← freshMark n
    let name ← text source nameNode
    let body ← visitAll visit (((n.field? "body").map namedChildren).getD [])
    return before ++ [.classDecl mark ⟨name, names, decorators⟩ body]

/-- The items of a function: those of its default values, then the function. -/
def functionItems (decorators : List String) : Reading (List Item) :=
  match n.field? "name" with
  | none => return []
  | some nameNode => do
    let paramsNode := n.field? "parameters"
    let before ← visitAll visit (defaults paramsNode)
    let mark ← freshMark n
    let name ← text source nameNode
    let params ← params source paramsNode
    let block := n.field? "body"
    let isAbstract ← match block with
      | some b => raisesNotImplemented source b
      | none => pure false
    let body ← visitAll visit ((block.map namedChildren).getD [])
    return before ++ [.functionDecl mark ⟨name, params, decorators, isAbstract, n.isAsync⟩ body]

/-- The items of a lambda's default values, its mark, and the lambda. -/
def lambdaItems : Reading (List Item × Mark × Item) := do
  let paramsNode := n.field? "parameters"
  let before ← visitAll visit (defaults paramsNode)
  let mark ← freshMark n
  let params ← params source paramsNode
  let body ← visit? visit (n.field? "body")
  return (before, mark, .lambda mark params body)

/-! ## Assignments and loops -/

/-- A chain of assignments `a = b = value`: its targets, the first type given, and the value. -/
structure Chain where
  targets : List Cst
  hint : Option Cst
  value : Option Cst

mutual

/-- The chain that starts at a node. -/
def chain : Cst → Chain
  | node info children =>
    if info.kind = "assignment" then
      let rest := chainOfRight children
      ⟨(fieldIn? "left" children).toList ++ rest.targets, fieldIn? "type" children <|> rest.hint,
        rest.value⟩
    else ⟨[], none, some (node info children)⟩

/-- The chain that starts at the first of some nodes that fills the field `right`. -/
def chainOfRight : List Cst → Chain
  | [] => ⟨[], none, none⟩
  | c :: cs => if c.info.field = some "right" then chain c else chainOfRight cs

end

/-- The form of an assigned value: a call of a named thing, a name, or something else. -/
def valueOf : Except Fault (ValueKind × Option String) :=
  if n.kind = "call" then
    match n.field? "function" with
    | some function => do
      match ← properName? source function with
      | some name => return (.call, some name)
      | none => return (.other, none)
    | none => .ok (.other, none)
  else if isNameKind n.kind then do
    match ← properName? source n with
    | some name => return (.name, some name)
    | none => return (.other, none)
  else .ok (.other, none)

/-- One assignment for each of some names, all at one place. -/
def assignAll (place : Cst) (names : List String) (make : String → Assignment) :
    Reading (List Item) :=
  names.mapM fun name => do
    return .assign (← freshMark place) (make name)

/-- An assignment of something unknown. -/
def plainAssignment (isLoopTarget : Bool) (name : String) : Assignment :=
  ⟨name, .other, none, none, isLoopTarget⟩

/-- The assignments to the targets of a chain. Only a single name takes over form and type. -/
def chainTargets (source : ByteArray) (kind : ValueKind) (value hint : Option String) :
    List Cst → Reading (List Item)
  | [] => return []
  | target :: targets => do
    let names ← targetNames source target
    let here ← assignAll target names fun name =>
      if names.length = 1 && isNameKind target.kind then ⟨name, kind, value, hint, false⟩
      else plainAssignment false name
    let rest ← chainTargets source kind value hint targets
    return here ++ rest

/-- The items of an assigned value, its form, and what stands for it. -/
def valueItems (source : ByteArray) (visit : Visit) :
    Option Cst → Reading (List Item × ValueKind × Option String)
  | none => return ([], .other, none)
  | some v =>
    if v.kind = "lambda" then do
      let (before, mark, item) ← lambdaItems source visit v
      return (before ++ [item], .lambda, mark.id)
    else do
      let (kind, value) ← valueOf source v
      return (← visit v [], kind, value)

def writtenType (source : ByteArray) : Option Cst → Except Fault (Option String)
  | some type => (text source type).map some
  | none => .ok none

/-- The items of a chain of assignments: those of the value, then the assignments. -/
def assignmentItems : Reading (List Item) := do
  let c := chain n
  let hint ← writtenType source c.hint
  let (before, kind, value) ← valueItems source visit c.value
  let assignments ← chainTargets source kind value hint c.targets
  return before ++ assignments

/-- The names without dots that a loop binds. -/
def loopTargets (source : ByteArray) : Option Cst → Reading (List Item)
  | none => return []
  | some target => do
    let names ← targetNames source target
    let plain := names.filter fun name => !name.toList.contains '.'
    assignAll target plain (plainAssignment true)

/-- The items of a loop: the iterated value, a suspension, the targets, and the bodies. -/
def loopItems : Reading (List Item) := do
  let right ← visit? visit (n.field? "right")
  let pause ← suspension n
  let targets ← loopTargets source (n.field? "left")
  let body ← visit? visit (n.field? "body")
  let alternative ← visit? visit (n.field? "alternative")
  return right ++ pause ++ targets ++ body ++ alternative

/-! ## Context managers and comprehensions -/

/-- The assignments to the names after `as`. -/
def contextTargets (source : ByteArray) : List Cst → Reading (List Item)
  | [] => return []
  | target :: targets => do
    let names ← targetNames source target
    let here ← assignAll target names (plainAssignment false)
    let rest ← contextTargets source targets
    return here ++ rest

def contextItems : Reading (List Item) :=
  let value := (n.field? "value").getD n
  if value.kind = "as_pattern" then
    match value.namedChildren with
    | [] => return []
    | expression :: targets => do
      let here ← visit expression []
      let names ← contextTargets source targets
      return here ++ names
  else visit value []

def contextItemsAll (source : ByteArray) (visit : Visit) : List Cst → Reading (List Item)
  | [] => return []
  | n :: ns => do
    let here ← contextItems source visit n
    let rest ← contextItemsAll source visit ns
    return here ++ rest

/-- The items of a `with` statement: its managers, a suspension, and the body. -/
def withItems : Reading (List Item) := do
  let clauses := n.namedChildren.filter fun c => c.kind = "with_clause"
  let managers ← contextItemsAll source visit (clauses.flatMap namedChildren)
  let pause ← suspension n
  let body ← visitAll visit (((n.field? "body").map namedChildren).getD [])
  return managers ++ pause ++ body

def clauseItems (source : ByteArray) (visit : Visit) : List Cst → Reading (List Item)
  | [] => return []
  | clause :: clauses => do
    let right ← visit? visit (clause.field? "right")
    let pause ← suspension clause
    let targets ← loopTargets source (clause.field? "left")
    let rest ← clauseItems source visit clauses
    return right ++ pause ++ targets ++ rest

/-- A comprehension: a block with its clauses first. -/
def comprehensionItems : Reading (List Item) := do
  let mark ← freshMark n
  let isClause (c : Cst) : Bool := c.kind = "for_in_clause"
  let clauses ← clauseItems source visit (n.namedChildren.filter isClause)
  let rest ← visitAll visit (n.namedChildren.filter fun c => !isClause c)
  return [.block mark (clauses ++ rest)]

/-! ## Calls -/

/-- The items of an argument: a plain name is a reference. -/
def argumentItems : Reading (List Item) := do
  let value := if n.kind = "keyword_argument" then n.field? "value" else some n
  match value with
  | none => return []
  | some v =>
    let name ← if isNameKind v.kind then properName? source v else pure none
    match name with
    | some expression => return [.reference (← freshMark v) expression]
    | none => visit v []

def argumentItemsAll (source : ByteArray) (visit : Visit) : List Cst → Reading (List Item)
  | [] => return []
  | n :: ns => do
    let here ← argumentItems source visit n
    let rest ← argumentItemsAll source visit ns
    return here ++ rest

def memberName : Except Fault String :=
  match n.field? "attribute" with
  | some member => text source member
  | none => .ok "<expr>"

/-- What stands before the last name of an attribute: its items unless it is a name, and its
name. -/
def receiverOf : Reading (List Item × String) :=
  match n.field? "object" with
  | none => return ([], "<expr>")
  | some target => do
    match ← dottedName? source target with
    | some receiver => return ([], receiver)
    | none =>
      if ← isBareSuper source target then return ([], "super()")
      else return (← visit target [], "<expr>")

/-- What is called: the items of the expression before it, its last name, and its receiver. -/
def calleeOf : Reading (List Item × String × Option String) :=
  match n.field? "function" with
  | none => return ([], "<expr>", none)
  | some function =>
    if function.kind = "identifier" then do
      return ([], ← text source function, none)
    else if function.kind = "attribute" then do
      let callee ← memberName source function
      let (before, receiver) ← receiverOf source visit function
      return (before, callee, some receiver)
    else do
      return (← visit function [], "<expr>", none)

/-- Kinds of arguments that are unpacked. -/
def isSplatKind (kind : String) : Bool :=
  kind = "list_splat" || kind = "dictionary_splat"

/-- The items of the arguments of a call, and their number unless some are unpacked. -/
def readArguments (source : ByteArray) (visit : Visit) :
    Option Cst → Reading (List Item × Option Int)
  | none => return ([], some 0)
  | some n =>
    if n.kind = "generator_expression" then do
      return (← visit n [], some 1)
    else do
      let arguments := n.namedChildren.filter fun c => c.kind ≠ "comment"
      let items ← argumentItemsAll source visit arguments
      let count : Option Int :=
        if arguments.any fun c => isSplatKind c.kind then none else some arguments.length
      return (items, count)

/-- The items of a call: those of what is called, of the arguments, then the call. -/
def callItems : Reading (List Item) := do
  let (before, callee, receiver) ← calleeOf source visit n
  let (arguments, count) ← readArguments source visit (n.field? "arguments")
  let mark ← freshMark n
  return before ++ arguments ++ [.call mark ⟨callee, receiver, count⟩]

/-! ## Imports -/

/-- The imports of a statement, read from its text. -/
def importItems : Reading (List Item) := do
  let written ← text source n
  if written.toList.contains '\x00' then throw .nullCharacter
  match Script.imports written.toList with
  | .ok imports => imports.mapM fun i => do return .importDecl (← freshMark n) i
  | .error .malformed => return []
  | .error .overflow => throw .overflow
  | .error .tooHigh => throw .tooHigh

/-! ## The whole tree -/

def isImportKind (kind : String) : Bool :=
  kind = "import_statement" || kind = "import_from_statement" || kind = "future_import_statement"

def isComprehensionKind (kind : String) : Bool :=
  kind = "list_comprehension" || kind = "set_comprehension" ||
    kind = "dictionary_comprehension" || kind = "generator_expression"

/-- What a node adds to the outline, given how the nodes below it are read. -/
def step (decorators : List String) : Reading (List Item) :=
  if n.kind = "decorated_definition" then do
    let found ← (n.children.filter fun c => c.kind = "decorator").mapM fun c =>
      (decoratorName source c : Reading String)
    match n.field? "definition" with
    | some definition => visit definition found
    | none => return []
  else if n.kind = "class_definition" then classItems source visit n decorators
  else if n.kind = "function_definition" then functionItems source visit n decorators
  else if isImportKind n.kind then importItems source n
  else if n.kind = "assignment" then assignmentItems source visit n
  else if n.kind = "augmented_assignment" then visit? visit (n.field? "right")
  else if n.kind = "for_statement" then loopItems source visit n
  else if n.kind = "with_statement" then withItems source visit n
  else if n.kind = "lambda" then do
    let (before, _, item) ← lambdaItems source visit n
    return before ++ [item]
  else if n.kind = "call" then callItems source visit n
  else if n.kind = "await" then do
    let mark ← freshMark n
    let rest ← visitAll visit n.namedChildren
    return .suspend mark :: rest
  else if isComprehensionKind n.kind then comprehensionItems source visit n
  else visitAll visit n.namedChildren

end

/-- The items of a tree whose height the first argument bounds. -/
def visit (source : ByteArray) : Nat → Visit
  | 0 => fun _ _ => return []
  | bound + 1 => step source (visit source bound)

/-- How many calls the stack holds for reading the nodes of a file. Around what is in the body of an
item, reading has at least as many calls open as a walk over the items. -/
def readRoom : Nat := stackRoom 9 1

/-- The outline of a source file. Members are reached through a receiver only. -/
def outline (path moduleName : String) (isPackage : Bool) (source : ByteArray) (tree : Cst) :
    Except Fault Outline := do
  let read : Reading Item := do
    let mark ← freshMark tree
    let body ← visitAll (visit source tree.height) tree.children
    if readRoom < Item.callsAll body then throw .tooDeep
    return .fileBody mark body
  let (root, _) ← read.run 0
  return ⟨path, moduleName, root, isPackage, false⟩

end Xref.Cst

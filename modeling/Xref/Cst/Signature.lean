import Xref.Cst.Basic
import Xref.Outline.Param
import Xref.Text.Characters

/-!
# Names and signatures in syntax trees

Dotted names, the names that an assignment target binds, the bare parent call, parameter lists,
default values, decorators, and bodies that only refuse to run.
-/

namespace Xref.Cst

open Text

/-- Kinds of nodes that are names or attributes of names. -/
def isNameKind (kind : String) : Bool :=
  kind = "identifier" || kind = "attribute"

/-- Kinds of nodes that bind the names of their children. -/
def isPatternKind (kind : String) : Bool :=
  ["pattern_list", "tuple_pattern", "list_pattern", "list_splat_pattern", "as_pattern_target",
    "parenthesized_expression", "tuple", "list"].contains kind

mutual

/-- The dotted name that a node spells out; nothing for a node of any other form. -/
def dottedName? (source : ByteArray) : Cst → Except Fault (Option String)
  | node info children =>
    if info.kind = "identifier" then (text source (node info children)).map some
    else if info.kind = "attribute" then
      match fieldIn? "attribute" children with
      | none => .ok none
      | some member => do
        match ← ownerName? source children with
        | none => return none
        | some owner => return some (owner ++ "." ++ (← text source member))
    else .ok none

/-- The dotted name of the first of some nodes that fills the field `object`. -/
def ownerName? (source : ByteArray) : List Cst → Except Fault (Option String)
  | [] => .ok none
  | c :: cs => if c.info.field = some "object" then dottedName? source c else ownerName? source cs

end

/-- The dotted name of a node unless it is empty. -/
def properName? (source : ByteArray) (n : Cst) : Except Fault (Option String) := do
  match ← dottedName? source n with
  | some name => return if name = "" then none else some name
  | none => return none

mutual

def targetNames (source : ByteArray) : Cst → Except Fault (List String)
  | node info children =>
    if isNameKind info.kind then do
      return (← properName? source (node info children)).toList
    else if isPatternKind info.kind then targetNamesAll source children
    else .ok []

/-- The names that the named ones of some targets bind. -/
def targetNamesAll (source : ByteArray) : List Cst → Except Fault (List String)
  | [] => .ok []
  | c :: cs => do
    let here ← if c.info.isNamed then targetNames source c else .ok []
    let rest ← targetNamesAll source cs
    return here ++ rest

end

/-- Whether a node is a call of the name `super` with at most two arguments. -/
def isBareSuper (source : ByteArray) (n : Cst) : Except Fault Bool :=
  if n.kind = "call" then
    match n.field? "function" with
    | none => .ok false
    | some function =>
      if function.kind = "identifier" then do
        let name ← text source function
        return name = "super" && (match n.field? "arguments" with
          | none => true
          | some arguments => arguments.namedChildren.length ≤ 2)
      else .ok false
  else .ok false

def hasDefaultKind (kind : String) : Bool :=
  kind = "default_parameter" || kind = "typed_default_parameter"

def paramTarget (n : Cst) : Cst :=
  if hasDefaultKind n.kind then (n.field? "name").getD n
  else if n.kind = "typed_parameter" then n.namedChildren.headD n
  else n

def paramHint (source : ByteArray) (n : Cst) : Except Fault (Option String) :=
  if n.kind = "typed_parameter" || n.kind = "typed_default_parameter" then
    match n.field? "type" with
    | some type => (text source type).map some
    | none => .ok none
  else .ok none

/-- The name of a parameter, without the stars before it. -/
def splatName? (source : ByteArray) (n : Cst) : Except Fault (Option String) :=
  if n.kind = "identifier" then (text source n).map some
  else
    match n.namedChildren.find? fun c => c.kind = "identifier" with
    | some c => (text source c).map some
    | none => .ok none

/-- How a parameter with the given target takes arguments, if it is one. -/
def paramKind? (keywordOnly : Bool) (target : Cst) : Option ParamKind :=
  if target.kind = "list_splat_pattern" then some .varPositional
  else if target.kind = "dictionary_splat_pattern" then some .varKeyword
  else if target.kind = "identifier" then some (if keywordOnly then .keywordOnly else .positional)
  else none

/-- The parameters of a list. What follows a star, alone or before a name, is given by keyword. -/
def readParams (source : ByteArray) : Bool → List Cst → Except Fault (List Param)
  | _, [] => .ok []
  | keywordOnly, n :: ns => do
    let hint ← paramHint source n
    if n.kind = "keyword_separator" then readParams source true ns
    else if n.kind = "positional_separator" then readParams source keywordOnly ns
    else
      let target := paramTarget n
      match paramKind? keywordOnly target with
      | none => readParams source keywordOnly ns
      | some kind =>
        let name ← splatName? source target
        let rest ← readParams source (keywordOnly || kind = .varPositional) ns
        match name with
        | some name =>
          if name = "" then return rest
          else return ⟨name, hint, hasDefaultKind n.kind, kind⟩ :: rest
        | none => return rest

def params (source : ByteArray) : Option Cst → Except Fault (List Param)
  | none => .ok []
  | some n => readParams source false n.namedChildren

def defaults : Option Cst → List Cst
  | none => []
  | some n => (n.namedChildren.filter fun c => hasDefaultKind c.kind).filterMap (·.field? "value")

/-- The name of a decorator; of a decorator factory, the name of the factory. What has no dotted
name is kept as written. -/
def decoratorName (source : ByteArray) (n : Cst) : Except Fault String := do
  let expression := n.namedChildren.head?.bind fun e =>
    if e.kind = "call" then e.field? "function" else some e
  let name ← match expression with
    | some e => properName? source e
    | none => .ok none
  match name with
  | some name => return name
  | none =>
    let written ← text source n
    return String.ofList (strip (written.toList.dropWhile (· = '@')))

/-- Whether a body does nothing but raise `NotImplementedError`, a leading text and comments
apart. -/
def raisesNotImplemented (source : ByteArray) (body : Cst) : Except Fault Bool :=
  let statements := body.namedChildren.filter fun c => c.kind ≠ "comment"
  let isText (n : Cst) : Bool :=
    n.kind = "expression_statement" && (n.namedChildren.head?.any fun c => c.kind = "string")
  let statements :=
    match statements with
    | first :: rest => if isText first then rest else statements
    | [] => []
  match statements with
  | [statement] =>
    if statement.kind = "raise_statement" then
      match statement.namedChildren with
      | [] => .ok false
      | raised :: _ => do
        let thrown :=
          if raised.kind = "call" then (raised.field? "function").getD raised else raised
        return (← text source thrown) = "NotImplementedError"
    else .ok false
  | _ => .ok false

end Xref.Cst

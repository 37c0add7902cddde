import Xref.Definition
import Xref.OrderedMap

/-!
# Scopes

A scope holds the names bound in it, with the text and scope of their types and values, the names
imported into it, and the modules all of whose names were imported.
-/

namespace Xref

/-- The part that the first parameter of a method plays. -/
inductive ReceiverRole
  | self
  | cls
  deriving DecidableEq, Repr

def ReceiverRole.word : ReceiverRole → String
  | self => "self"
  | cls => "cls"

/-- What a binding binds its name to. -/
inductive BindingValue
  /-- A declared class or function. -/
  | declared (id : DefId)
  /-- A function literal. -/
  | literal (id : DefId)
  /-- The value of a call, which is a definition of its own; `maker` is what was called. -/
  | built (id : DefId) (maker : Option String) (seenFrom : ScopeId)
  /-- An assigned value with the type it was given, or the name it was copied from. -/
  | assigned (hint source : Option String) (seenFrom : ScopeId)
  /-- A parameter with its type. -/
  | parameter (hint : Option String) (seenFrom : ScopeId)
  /-- The variable of a loop. -/
  | loop
  /-- The receiver of a method of a class. -/
  | receiver (role : ReceiverRole) (owner : DefId)
  /-- An imported qualified name. -/
  | imported (qualname : String)
  deriving DecidableEq, Repr

/-- The definition that a binding stands for directly. -/
def BindingValue.definition? : BindingValue → Option DefId
  | declared id | literal id | built id _ _ => some id
  | _ => none

/-- Whether calling the name calls a value that it holds. -/
def BindingValue.isHeld : BindingValue → Bool
  | declared _ | imported _ => false
  | _ => true

/-- A name bound in a scope. -/
structure Binding where
  name : String
  scope : ScopeId
  value : BindingValue
  deriving DecidableEq, Repr

/-- What opens a scope. -/
inductive ScopeKind
  | fileBody
  | classBody
  | function
  | block
  deriving DecidableEq, Repr

def ScopeKind.word : ScopeKind → String
  | fileBody => "module"
  | classBody => "class"
  | function => "function"
  | block => "block"

/-- A scope. `owner` is the declaration that opens it. -/
structure Scope where
  id : ScopeId
  kind : ScopeKind
  path : String
  parent : Option ScopeId
  owner : Option DefId
  bindings : OrderedMap String Binding
  imports : OrderedMap String Binding
  starImports : List String
  deriving DecidableEq, Repr

namespace Scope

/-- The id of a scope or call site in a file. -/
def idOf (path mark : String) : String :=
  path ++ "#" ++ mark

def bind (s : Scope) (name : String) (value : BindingValue) : Scope :=
  { s with bindings := s.bindings.insert name ⟨name, s.id, value⟩ }

def addImport (s : Scope) (name qualname : String) : Scope :=
  { s with imports := s.imports.insert name ⟨name, s.id, .imported qualname⟩ }

/-- The scope with all names of a module imported; a repeated module is kept once. -/
def addStarImport (s : Scope) (source : String) : Scope :=
  if s.starImports.contains source then s else { s with starImports := s.starImports ++ [source] }

end Scope

end Xref

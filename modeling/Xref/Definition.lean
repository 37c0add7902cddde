import Xref.Outline.Basic

/-!
# Definitions

A definition is something that can be called or that encloses calls. Its id joins the path of its
file and its qualified name.
-/

namespace Xref

abbrev DefId := String

abbrev ScopeId := String

abbrev SiteId := String

/-- What a definition is. -/
inductive DefinitionKind
  | fileBody
  | function
  | method
  | classBody
  | boundValue
  | lambda
  deriving DecidableEq, Repr

def DefinitionKind.word : DefinitionKind → String
  | fileBody => "module"
  | function => "function"
  | method => "method"
  | classBody => "class"
  | boundValue => "variable-bound-callable"
  | lambda => "anonymous-function-literal"

/-- Kinds whose definitions run when they are called. -/
def DefinitionKind.isCallable : DefinitionKind → Bool
  | function | method | boundValue | lambda => true
  | fileBody | classBody => false

/-- A named declaration. `scope` is the scope that declares it, `version` the generation of the
index that read it. -/
structure Definition where
  id : DefId
  qualname : String
  name : String
  kind : DefinitionKind
  path : String
  scope : ScopeId
  location : Location
  ownerClass : Option DefId
  isAbstract : Bool
  decorators : List String
  params : List Param
  arity : Arity
  isAsync : Bool
  version : Int
  deriving DecidableEq, Repr

namespace Definition

def idOf (path qualname : String) : DefId :=
  path ++ "::" ++ qualname

/-- By qualified name, path, place and id. -/
def order : Definition → Definition → Ordering :=
  compareLex (byText (·.qualname))
    (compareLex (byText (·.path))
      (compareLex (compareOn (·.location)) (byText (·.id))))

/-- By qualified name and id. -/
def nameOrder : Definition → Definition → Ordering :=
  compareLex (byText (·.qualname)) (byText (·.id))

end Definition

end Xref

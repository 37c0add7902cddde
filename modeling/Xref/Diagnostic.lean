import Xref.Json.Basic
import Xref.OrderedMap

/-!
# Diagnostics

What an index reports without stopping: files that cannot be digested, classes without an order,
repeated declarations, and calls that lead nowhere.
-/

namespace Xref

open Text

/-- What is wrong with an outline. -/
inductive Defect
  | noPath
  | noModule
  | rootNotModule
  | unexpectedItem (value : Json)
  | badId
  | unnamedDeclaration
  | noCallee
  | noImportTarget
  | invalidAssignment
  | unknownLambda (value : Option String)
  deriving DecidableEq, Repr

def Defect.message : Defect → String
  | noPath => "scope tree has no path"
  | noModule => "scope tree has no module name"
  | rootNotModule => "root node is not a module"
  | unexpectedItem value => "unexpected node " ++ value.literal
  | badId => "missing or duplicate node id"
  | unnamedDeclaration => "declaration without a name"
  | noCallee => "call without a callee"
  | noImportTarget => "import without a target"
  | invalidAssignment => "invalid assignment"
  | unknownLambda value =>
    "assignment references unknown lambda node " ++ (Json.text? value).literal

/-- Why a call leads nowhere. -/
inductive Reason
  | moduleNotCallable (qualname : String)
  | packageNotCallable (qualname : String)
  | isAbstract (qualname : String)
  | neverOverridden (qualname : String)
  | noCallOperator (qualname : String)
  | unknownType (qualname : String)
  | unknownValue
  | nameNotFound
  | inCycle (qualname : String)
  | noMember (qualname member : String)
  | superOutsideMethod
  | noBaseDefines (qualname member : String)
  | noConcreteAfter (member qualname : String)
  | noCandidate
  | tooManyCandidates (count : Nat)
  deriving DecidableEq, Repr

def Reason.message : Reason → String
  | moduleNotCallable q => "module " ++ q ++ " is not callable"
  | packageNotCallable q => "package " ++ q ++ " is not callable"
  | isAbstract q => q ++ " is abstract"
  | neverOverridden q => q ++ " is abstract and never overridden"
  | noCallOperator q => q ++ " defines no __call__"
  | unknownType q => q ++ " holds a value of unknown type"
  | unknownValue => "binding holds a value of unknown type"
  | nameNotFound => "name not found"
  | inCycle q => q ++ " is part of an inheritance cycle"
  | noMember q m => q ++ " has no member " ++ quoted m
  | superOutsideMethod => "super() outside a method"
  | noBaseDefines q m => "no base of " ++ q ++ " defines " ++ quoted m
  | noConcreteAfter m q => "no concrete " ++ quoted m ++ " after " ++ q
  | noCandidate => "no definition with a matching name"
  | tooManyCandidates n => toString n ++ " candidates exceed the heuristic limit"

/-- A report that does not stop the index. -/
inductive Diagnostic
  | malformed (path : String) (defect : Defect) (item : Option String)
  | cyclicInheritance (qualnames : List String)
  | duplicate (qualname path previousPath : String)
  | unresolved (name path site : String) (reason : Reason)
  | inconsistentOrder (qualname : String)
  deriving DecidableEq, Repr

namespace Diagnostic

def kind : Diagnostic → String
  | malformed .. => "MalformedInputError"
  | cyclicInheritance _ => "CyclicInheritanceError"
  | duplicate .. => "DuplicateDefinitionWarning"
  | unresolved .. => "UnresolvedSymbolWarning"
  | inconsistentOrder _ => "InconsistentLinearizationWarning"

def site? : Diagnostic → Option String
  | unresolved _ _ site _ => some site
  | _ => none

/-- Whether a diagnostic is about a call with more candidates than the limit. -/
def isOverLimit : Diagnostic → Bool
  | unresolved _ _ _ (.tooManyCandidates _) => true
  | _ => false

def message : Diagnostic → String
  | malformed path defect item =>
    let place := match item with
      | some id => if id = "" then path else path ++ "#" ++ id
      | none => path
    "Malformed scope tree " ++ place ++ ": " ++ defect.message
  | cyclicInheritance qualnames => "Cyclic inheritance between " ++ ", ".intercalate qualnames
  | duplicate qualname path previousPath =>
    qualname ++ " declared again in " ++ path ++ " (previous declaration in " ++ previousPath ++
      "); keeping the latest"
  | unresolved name path _ reason =>
    "Could not resolve " ++ quoted name ++ " in " ++ path ++ ": " ++ reason.message
  | inconsistentOrder qualname =>
    "No consistent linearization for " ++ qualname ++ "; using depth-first order"

/-- How many diagnostics there are of each kind. -/
def summary (ds : List Diagnostic) : List (String × Nat) :=
  (sortedSet (ds.map kind)).map fun k => (k, (ds.map kind).count k)

end Diagnostic

end Xref

import Xref.Outline.Param

/-!
# Outlines

What a language front end tells about one source file: a tree of declarations, calls, assignments,
imports, references and suspension points, in program order. An outline comes from outside and may
be malformed: marks may lack an id, names may be empty, and an item may be no item at all.
-/

namespace Xref

/-- A place in a source file. -/
structure Location where
  line : Int
  column : Int
  deriving DecidableEq, Repr

namespace Location

/-- The place of what has none. -/
def unknown : Location := ⟨0, 0⟩

instance : Inhabited Location := ⟨unknown⟩

/-- Locations are ordered by line, then by column. -/
instance : Ord Location := ⟨compareLex (compareOn (·.line)) (compareOn (·.column))⟩

end Location

/-- The identity and place of an item. -/
structure Mark where
  id : Option String
  location : Location
  deriving DecidableEq, Repr

/-- The head of a class declaration. -/
structure ClassHead where
  name : String
  bases : List String
  decorators : List String
  deriving DecidableEq, Repr

/-- The head of a function declaration. -/
structure FunctionHead where
  name : String
  params : List Param
  decorators : List String
  isAbstract : Bool
  isAsync : Bool
  deriving DecidableEq, Repr

/-- A call: the last name of what is called, the expression before it, and the number of arguments
unless some are unpacked. -/
structure CallHead where
  callee : String
  receiver : Option String
  argCount : Option Int
  deriving DecidableEq, Repr

/-- The form of an assigned value. -/
inductive ValueKind
  | call
  | name
  | lambda
  | other
  | unrecognised (word : String)
  deriving DecidableEq, Repr

namespace ValueKind

def word : ValueKind → String
  | call => "call"
  | name => "name"
  | lambda => "lambda"
  | other => "other"
  | unrecognised w => w

def ofWord (w : String) : ValueKind :=
  if w = "call" then call
  else if w = "name" then name
  else if w = "lambda" then lambda
  else if w = "other" then other
  else unrecognised w

/-- Whether the word denotes a form. -/
def isRecognised : ValueKind → Bool
  | unrecognised _ => false
  | _ => true

end ValueKind

/-- An assignment. The value is a callee, a name or the id of a lambda, along the form. -/
structure Assignment where
  target : String
  kind : ValueKind
  value : Option String
  hint : Option String
  isLoopTarget : Bool
  deriving DecidableEq, Repr

/-- An import of one name. Without a name the module itself is imported; `*` stands for all names of
the module; `level` counts the leading dots. -/
structure Import where
  source : String
  name : Option String
  localName : Option String
  level : Int
  deriving DecidableEq, Repr

/-- An item of an outline. -/
inductive Item
  | fileBody (mark : Mark) (body : List Item)
  | classDecl (mark : Mark) (head : ClassHead) (body : List Item)
  | functionDecl (mark : Mark) (head : FunctionHead) (body : List Item)
  | lambda (mark : Mark) (params : List Param) (body : List Item)
  | block (mark : Mark) (body : List Item)
  | call (mark : Mark) (head : CallHead)
  | assign (mark : Mark) (assignment : Assignment)
  | importDecl (mark : Mark) (target : Import)
  | reference (mark : Mark) (expression : String)
  | suspend (mark : Mark)
  | foreign (value : Json)
  deriving Repr

namespace Item

instance : Inhabited Item := ⟨foreign .null⟩

/-- The mark of an item; what is no item has none. -/
def mark? : Item → Option Mark
  | fileBody m _ | classDecl m _ _ | functionDecl m _ _ | lambda m _ _ | block m _ | call m _
  | assign m _ | importDecl m _ | reference m _ | suspend m => some m
  | foreign _ => none

/-- The items directly inside. -/
def body : Item → List Item
  | fileBody _ b | classDecl _ _ b | functionDecl _ _ b | lambda _ _ b | block _ b => b
  | _ => []

mutual

/-- The item and all below it, in program order. -/
def preorder : Item → List Item
  | fileBody m b => fileBody m b :: preorderAll b
  | classDecl m h b => classDecl m h b :: preorderAll b
  | functionDecl m h b => functionDecl m h b :: preorderAll b
  | lambda m ps b => lambda m ps b :: preorderAll b
  | block m b => block m b :: preorderAll b
  | call m h => [call m h]
  | assign m a => [assign m a]
  | importDecl m i => [importDecl m i]
  | reference m e => [reference m e]
  | suspend m => [suspend m]
  | foreign v => [foreign v]

/-- The items of a body and all below them, in program order. -/
def preorderAll : List Item → List Item
  | [] => []
  | i :: is => preorder i ++ preorderAll is

end

mutual

/-- The levels on which the item and those below it stand, in program order. -/
def levels (level : Nat) : Item → List Nat
  | fileBody _ b | classDecl _ _ b | functionDecl _ _ b | lambda _ _ b | block _ b =>
    level :: levelsAll (level + 1) b
  | _ => [level]

/-- The levels of the items of a body and those below them, in program order. -/
def levelsAll (level : Nat) : List Item → List Nat
  | [] => []
  | i :: is => levels level i ++ levelsAll level is

end

mutual

/-- How many calls a walk over the item has open at once. -/
def calls : Item → Nat
  | classDecl _ _ b | functionDecl _ _ b | lambda _ _ b => 2 + callsAll b
  | block _ b => 1 + callsAll b
  | _ => 0

/-- How many calls a walk over some items has open at once. -/
def callsAll : List Item → Nat
  | [] => 0
  | i :: is => max (calls i) (callsAll is)

end

end Item

/-- The outline of one source file. With `implicitMembers` a bare name inside a method may denote a
member of the class. -/
structure Outline where
  path : String
  moduleName : String
  root : Item
  isPackage : Bool
  implicitMembers : Bool
  deriving Repr

end Xref

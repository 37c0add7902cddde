import Xref.Json.Basic

/-!
# Parameters and arity

How many arguments a parameter list takes: every plain parameter may be given once, those without a
default must be, and a variadic one lifts the upper bound.
-/

namespace Xref

/-- How a parameter takes its arguments. -/
inductive ParamKind
  | positional
  | keywordOnly
  | varPositional
  | varKeyword
  deriving DecidableEq, Repr

namespace ParamKind

def word : ParamKind → String
  | positional => "positional"
  | keywordOnly => "keyword_only"
  | varPositional => "var_positional"
  | varKeyword => "var_keyword"

/-- A value that is no word for a kind. -/
structure Invalid where
  value : Json
  deriving DecidableEq, Repr

def Invalid.message (e : Invalid) : String :=
  e.value.literal ++ " is not a valid ParamKind"

def ofData (value : Json) : Except Invalid ParamKind :=
  match [positional, keywordOnly, varPositional, varKeyword].find? fun k => value = .str k.word with
  | some k => .ok k
  | none => .error ⟨value⟩

/-- A parameter that takes any number of arguments. -/
def isVariadic : ParamKind → Bool
  | varPositional | varKeyword => true
  | positional | keywordOnly => false

end ParamKind

/-- A parameter of a function. -/
structure Param where
  name : String
  hint : Option String
  hasDefault : Bool
  kind : ParamKind
  deriving DecidableEq, Repr

/-- Bounds on a number of arguments; without an upper bound every larger number is accepted. -/
structure Arity where
  min : Nat
  max : Option Nat
  deriving DecidableEq, Repr

namespace Arity

def ofParams (params : List Param) : Arity :=
  let plain := params.filter fun p => !p.kind.isVariadic
  { min := (plain.filter fun p => !p.hasDefault).length
    max := if params.any fun p => p.kind.isVariadic then none else some plain.length }

/-- Takes no arguments. -/
def none : Arity := ⟨0, some 0⟩

/-- Takes any number of arguments. -/
def any : Arity := ⟨0, .none⟩

/-- Whether a number of arguments is within the bounds; an unknown number is. -/
def accepts (a : Arity) : Option Int → Bool
  | .none => true
  | some n => (a.min : Int) ≤ n && (match a.max with
    | .none => true
    | some m => n ≤ (m : Int))

end Arity

end Xref

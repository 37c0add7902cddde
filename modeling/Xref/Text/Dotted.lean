import Xref.Splitting
import Xref.Text.Characters

/-!
# Dotted names

A dotted name is read as the list of its parts; a text without a dot has one part, itself.
Joining the parts gives the text back.
-/

namespace Xref.Text

namespace Dotted

variable (name : String)

def parts : List String :=
  (splitAt '.' name.toList).map String.ofList

/-- The dotted name with the given parts. -/
def join : List String → String
  | [] => ""
  | [part] => part
  | part :: next :: rest => part ++ "." ++ join (next :: rest)

/-- The part before the first dot. -/
def head : String :=
  (parts name).headD ""

/-- The part after the last dot. -/
def last : String :=
  (parts name).getLastD ""

/-- All that stands before the last dot; empty if there is no dot. -/
def init : String :=
  join (parts name).dropLast

/-- The name cut at its first dot, if it has one. -/
def cut? : Option (String × String) :=
  match parts name with
  | head :: next :: rest => some (head, join (next :: rest))
  | _ => none

def hasDot : Bool :=
  name.toList.contains '.'

/-- The dotted names that stand before the dots of a name, shortest first. -/
def enclosing : List String :=
  let ps := parts name
  (List.range (ps.length - 1)).map fun n => join (ps.take (n + 1))

/-- Whether `name` lies below `outer`: `outer`, a dot, and anything more. -/
def isBelow (outer name : String) : Bool :=
  (outer ++ ".").toList.isPrefixOf name.toList

/-- Plain names with single dots between them. -/
def isPath : Bool :=
  (splitAt '.' name.toList).all isName

end Dotted

end Xref.Text

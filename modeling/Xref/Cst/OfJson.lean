import Xref.Cst.Basic
import Xref.Json.Basic

/-!
# Syntax trees as data

A node is written as a list: its kind, its field, whether it is named, the bytes and the place it
starts at, and its children.
-/

namespace Xref.Cst

/-- A text, or nothing for any other value. -/
def textOf? : Json → Option String
  | .str s => some s
  | _ => none

/-- A number; other values count as zero. -/
def numberOf : Json → Int
  | .int n => n
  | _ => 0

/-- A mark that is set by `true` or by a number other than zero. -/
def markOf : Json → Bool
  | .bool b => b
  | .int n => n != 0
  | _ => false

/-- What the fields of a node say of it. -/
def infoOf : List Json → NodeInfo
  | [kind, field, named, start, stop, row, column] =>
    ⟨(textOf? kind).getD "", textOf? field, markOf named, numberOf start, numberOf stop,
      numberOf row, numberOf column⟩
  | _ => ⟨"", none, false, 0, 0, 0, 0⟩

mutual

/-- The tree that a value describes. -/
def ofJson : Json → Cst
  | .arr items => .node (infoOf (items.take 7)) (childrenOf items)
  | _ => default

/-- The children that the last item of a node lists. -/
def childrenOf : List Json → List Cst
  | [] => []
  | [.arr children] => ofJsonAll children
  | _ :: items => childrenOf items

/-- The trees that some values describe. -/
def ofJsonAll : List Json → List Cst
  | [] => []
  | v :: vs => ofJson v :: ofJsonAll vs

end

end Xref.Cst

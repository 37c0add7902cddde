import Xref.Script.Reading

/-!
# Phrases

What is kept of an expression that was read: how high its tree is, and whether values can be put
where it stands.
-/

namespace Xref.Script

/-- An expression that was read. -/
structure Phrase where
  /-- The height of its tree. -/
  height : Nat
  /-- It names a single place: a name, a member or an item. -/
  isPlace : Bool
  /-- Values can be put into it: a place, or a list of such. -/
  isTarget : Bool
  /-- It can be deleted. -/
  isErasable : Bool
  /-- It has a star before it. -/
  isStarred : Bool
  deriving DecidableEq, Repr

namespace Phrase

def greatest (heights : List Nat) : Nat :=
  heights.foldl max 0

/-- An expression with parts of some heights that only has a value. -/
def value (parts : List Nat) : Phrase :=
  ⟨greatest parts + 1, false, false, false, false⟩

def place (parts : List Nat) : Phrase :=
  ⟨greatest parts + 1, true, true, true, false⟩

def list (items : List Phrase) : Phrase where
  height := greatest (items.map height) + 1
  isPlace := false
  isTarget := items.all isTarget
  isErasable := items.all isErasable
  isStarred := false

/-- An expression with a star before it. -/
def starred (p : Phrase) : Phrase :=
  ⟨p.height + 1, false, p.isTarget && !p.isStarred, false, true⟩

/-- What some expressions with commas between them are: the expression itself if there is one and no
comma. -/
def ofList (items : List Phrase) (comma : Bool) : Phrase :=
  match items, comma with
  | [p], false => p
  | _, _ => list items

end Phrase

def startsExpression : Token → Bool
  | .word w => Reading.isName w || ["None", "True", "False", "not", "lambda", "await"].contains w
  | .number _ => true
  | .quote _ => true
  | .mark m => ["(", "[", "\x7b", "-", "+", "~", "...", "*"].contains m
  | _ => false

namespace Reading

/-- Whether no expression follows. -/
def atListEnd : Reading Bool := do
  return !(← ahead).head?.any startsExpression

def nextIsWord (w : String) : Reading Bool :=
  nextIs (.word w)

/-- Takes a word if it is the next token, and says whether it was. -/
def acceptsWord (w : String) : Reading Bool :=
  accepts (.word w)

/-- Takes a mark if it is the next token, and says whether it was. -/
def acceptsMark (m : String) : Reading Bool :=
  accepts (.mark m)

def expectWord (w : String) : Reading Unit :=
  expect (.word w)

def expectMark (m : String) : Reading Unit :=
  expect (.mark m)

/-- Operands with operators between them, each operator for all that is to its left. -/
def leftChain (operators : List String) (operand : Reading Phrase) : Reading Phrase := do
  let first ← operand
  repeated (fun left => do
    if ← acceptsOf (operators.map .mark) then
      let right ← operand
      return some (.value [left.height, right.height])
    else return none) first

/-- Operands with operators between them, one operation for all. -/
def flatChain (operator : Reading Bool) (first others : Reading Phrase) : Reading Phrase := do
  let a ← first
  let heights ← repeated (fun heights => do
    if ← operator then
      let b ← others
      return some (b.height :: heights)
    else return none) [a.height]
  return if heights.length = 1 then a else .value heights

end Reading

end Xref.Script

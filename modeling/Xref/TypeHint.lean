import Xref.Fault

/-!
# Type hints

A written type is reduced to the one class that it names, if it names one: quotes and blanks around
it are dropped, of a union the member that is not `None` counts, and of a generic type its origin.
-/

namespace Xref.TypeHint

open Text

/-- How a character changes the depth of brackets. -/
def weight (c : Char) : Int :=
  if c = '[' || c = '(' then 1 else if c = ']' || c = ')' then -1 else 0

/-- The parts of a text between the separators that stand outside brackets, as they are written. -/
def cutAt (isSeparator : Char → Bool) : Int → List Char → List (List Char)
  | _, [] => [[]]
  | depth, c :: cs =>
    let depth := depth + weight c
    if isSeparator c && depth = 0 then [] :: cutAt isSeparator depth cs
    else
      match cutAt isSeparator depth cs with
      | [] => [[c]]
      | part :: parts => (c :: part) :: parts

/-- The parts of a text between the separators outside brackets, without the empty ones and the
blanks around them. -/
def splitTopLevel (isSeparator : Char → Bool) (cs : List Char) : List (List Char) :=
  ((cutAt isSeparator 0 cs).map strip).filter fun part => !part.isEmpty

/-- The names of the type without values. -/
def isNone (cs : List Char) : Bool :=
  cs = "None".toList || cs = "NoneType".toList

/-- The members of a list of types that are not `None`. -/
def membersOf (separator : Char) (cs : List Char) : List (List Char) :=
  (splitTopLevel (· == separator) cs).filter fun part => !isNone part

/-- The rest of a text after a word that it starts with. -/
def after? (word : String) (cs : List Char) : Option (List Char) :=
  let w := word.toList
  if w.isPrefixOf cs then some (cs.drop w.length) else none

/-- The arguments of a type that starts with a word and a bracket; they stand on one line. -/
def argumentsOf? (word : String) (cs : List Char) : Option (List Char) := do
  let rest ← after? (word ++ "[") cs
  if rest.getLast? = some ']' && !rest.dropLast.contains '\n' then some rest.dropLast else none

/-- The arguments of `Optional` or `Union`. -/
def unionArguments? (cs : List Char) : Option (List Char) :=
  let bare := (after? "typing." cs).getD cs
  argumentsOf? "Optional" bare <|> argumentsOf? "Union" bare

/-- The text of a hint without the quotes around it. -/
def unquote (cs : List Char) : List Char :=
  strip (stripQuotes (strip cs))

/-- The origin of a type that is no union. -/
def origin? (cs : List Char) : Option (List Char) :=
  let name := cs.takeWhile (· ≠ '[')
  if isLooseDotted name then some name else none

/-- The name of the class that a hint names. The first argument bounds the nesting. -/
def read : Nat → List Char → Option (List Char)
  | 0, _ => none
  | bound + 1, cs =>
    match membersOf '|' (unquote cs) with
    | [member] =>
      match unionArguments? member with
      | some arguments =>
        match membersOf ',' arguments with
        | [inner] => read bound inner
        | _ => none
      | none => origin? member
    | _ => none

/-- How deeply the unions of a hint that can be read may nest: each is read by one more call. -/
def maxNesting : Nat := stackRoom 20 1

/-- Whether the unions of a hint nest beyond a bound. -/
def nestsBeyond : Nat → List Char → Bool
  | bound, cs =>
    match membersOf '|' (unquote cs) with
    | [member] =>
      match (unionArguments? member).map (membersOf ','), bound with
      | some [_], 0 => true
      | some [inner], bound + 1 => nestsBeyond bound inner
      | _, _ => false
    | _ => false

/-- Whether the unions of a hint nest too deeply for reading it. -/
def isTooDeep (hint : String) : Bool :=
  nestsBeyond maxNesting hint.toList

def className? (hint : String) : Option String :=
  (read (hint.toList.length + 1) hint.toList).map String.ofList

/-- What asking for the class that a hint names gives. -/
def answer (hint : String) : Except Fault (Option String) :=
  if isTooDeep hint then .error .tooDeep else .ok (className? hint)

end Xref.TypeHint

import Xref.Json.Basic
import Xref.Number.Integer

/-!
# JSON text

Values are written in ASCII: other characters appear as escapes of four hexadecimal digits, those
beyond the first plane as a pair of them, and a carried half of a pair as itself. `Layout.spread`
puts every item on a line of its own, `Layout.line` the whole value on one line. Integers that are
too long to be read are not written either.
-/

namespace Xref.Json

open Number Text

/-- One character inside a JSON string. -/
def escape (c : Char) : List Char :=
  let n := codePoint c
  if c = '\x22' then ['\\', '\x22']
  else if c = '\\' then ['\\', '\\']
  else if c = '\n' then ['\\', 'n']
  else if c = '\r' then ['\\', 'r']
  else if c = '\t' then ['\\', 't']
  else if n = 8 then ['\\', 'b']
  else if n = 12 then ['\\', 'f']
  else if 32 ≤ n && n < 127 then [c]
  else if n < 0x10000 then '\\' :: 'u' :: hex 4 n
  else
    let m := n - 0x10000
    '\\' :: 'u' :: hex 4 (0xD800 + m / 0x400) ++ '\\' :: 'u' :: hex 4 (0xDC00 + m % 0x400)

def stringText (s : String) : List Char :=
  '\x22' :: s.toList.flatMap escape ++ ['\x22']

def intText : Int → List Char
  | .ofNat n => Nat.toDigits 10 n
  | .negSucc n => '-' :: Nat.toDigits 10 (n + 1)

/-- A number with a fraction or exponent, or one of the values without a size. -/
def realText : Binary64 → List Char
  | .finite negative m e => Binary64.finiteText negative m e
  | .infinite negative => Binary64.signText negative ++ "Infinity".toList
  | .undefined => "NaN".toList

/-- How the items of arrays and objects are set apart. -/
inductive Layout
  | line
  | spread (depth : Nat)
  deriving Repr, DecidableEq

namespace Layout

/-- The layout of what stands inside an array or object. -/
def inner : Layout → Layout
  | line => line
  | spread depth => spread (depth + 1)

/-- What stands before the first item, or after the last one when taken from the outer layout. -/
def opening : Layout → List Char
  | line => []
  | spread depth => '\n' :: List.replicate (2 * depth) ' '

/-- What stands between two items. -/
def between : Layout → List Char
  | line => [',', ' ']
  | spread depth => ',' :: '\n' :: List.replicate (2 * depth) ' '

end Layout

mutual

/-- The text of a value, its fields in the order in which they are listed. -/
def renderChars (layout : Layout) : Json → List Char
  | null => "null".toList
  | bool true => "true".toList
  | bool false => "false".toList
  | int n => intText n
  | real x => realText x
  | str s => stringText s
  | arr [] => ['[', ']']
  | arr (v :: vs) =>
    '[' :: layout.inner.opening ++ renderChars layout.inner v ++ renderItems layout.inner vs ++
      layout.opening ++ [']']
  | obj [] => ['\x7b', '\x7d']
  | obj ((k, v) :: fs) =>
    '\x7b' :: layout.inner.opening ++ stringText k ++ ':' :: ' ' :: renderChars layout.inner v ++
      renderFields layout.inner fs ++ layout.opening ++ ['\x7d']

/-- The items after the first. -/
def renderItems (layout : Layout) : List Json → List Char
  | [] => []
  | v :: vs => layout.between ++ renderChars layout v ++ renderItems layout vs

/-- The fields after the first. -/
def renderFields (layout : Layout) : List (String × Json) → List Char
  | [] => []
  | (k, v) :: fs =>
    layout.between ++ stringText k ++ ':' :: ' ' :: renderChars layout v ++ renderFields layout fs

end

/-- The value on one line, fields sorted by name. -/
def compact (v : Json) : String :=
  String.ofList (renderChars .line v.sorted)

/-- The value over many lines, fields sorted by name. -/
def pretty (v : Json) : String :=
  String.ofList (renderChars (.spread 0) v.sorted)

mutual

/-- The integers of a value, in the order in which they stand. -/
def integers : Json → List Int
  | int n => [n]
  | arr items => integersOfItems items
  | obj fields => integersOfFields fields
  | null | bool _ | real _ | str _ => []

def integersOfItems : List Json → List Int
  | [] => []
  | v :: vs => integers v ++ integersOfItems vs

def integersOfFields : List (String × Json) → List Int
  | [] => []
  | (_, v) :: fs => integers v ++ integersOfFields fs

end

/-- Why a value is not written. -/
inductive WriteError
  | integerTooLong
  deriving Repr, DecidableEq

def WriteError.message : WriteError → String
  | integerTooLong => unwritableMessage

/-- The value over many lines, unless an integer has more digits than are read. -/
def write (v : Json) : Except WriteError String :=
  if v.integers.all fun n => n.natAbs < digitLimit then .ok v.pretty else .error .integerTooLong

end Xref.Json

import Xref.Text.Quoted

/-!
# Integers in text

An integer is written with an optional sign and decimal digits of any script, single underscores
between them and blanks around the whole. At most `maxDigits` digits are read; a longer run is
refused for its length, whatever follows it.
-/

namespace Xref.Number

open Text

/-- Why a text is not read as an integer. -/
inductive IntegerError
  | notAnInteger (text : String)
  | tooLong (digits : Nat)
  deriving Repr, DecidableEq

/-- How much of a refused text a message shows, its quotes included. -/
def IntegerError.shownLength : Nat := 200

def IntegerError.message : IntegerError → String
  | notAnInteger text =>
    "invalid literal for int() with base 10: " ++
      String.ofList ((quoted text).toList.take shownLength)
  | tooLong digits =>
    "Exceeds the limit (4300 digits) for integer string conversion: value has " ++
      toString digits ++ " digits; use sys.set_int_max_str_digits() to increase the limit"

/-- The longest integer that is read. -/
def maxDigits : Nat := 4300

/-- The least number with more digits than are read or written. -/
def digitLimit : Nat :=
  Nat.pow 10 maxDigits

/-- What is said of an integer with more digits than are written. -/
def unwritableMessage : String :=
  "Exceeds the limit (4300 digits) for integer string conversion; " ++
    "use sys.set_int_max_str_digits() to increase the limit"

/-- A blank that may stand around an integer. The four separators before the space are none. -/
def isMargin (c : Char) : Bool :=
  isBlank c && !(0x1C ≤ c.toNat && c.toNat ≤ 0x1F)

/-- The values of the digits that a text starts with and the rest after them, where single
underscores may stand between digits; nothing if an underscore stands elsewhere or there is no
digit. -/
def leadingDigits? : List Char → Option (List Nat × List Char)
  | [] => none
  | [c] => (digitValue? c).map fun d => ([d], [])
  | c :: '_' :: cs => do
    let d ← digitValue? c
    let (ds, rest) ← leadingDigits? cs
    return (d :: ds, rest)
  | c :: next :: cs => do
    let d ← digitValue? c
    if (digitValue? next).isSome then
      let (ds, rest) ← leadingDigits? (next :: cs)
      return (d :: ds, rest)
    else return ([d], next :: cs)

/-- The number with the given decimal digits, most significant first. -/
def ofDigits (ds : List Nat) : Nat :=
  ds.foldl (fun n d => 10 * n + d) 0

/-- The sign and what follows it. -/
def takeSign : List Char → Bool × List Char
  | '-' :: cs => (true, cs)
  | '+' :: cs => (false, cs)
  | cs => (false, cs)

def readInteger (text : String) : Except IntegerError Int :=
  let (negative, body) := takeSign (stripWhile isMargin text.toList)
  match leadingDigits? body with
  | none => .error (.notAnInteger text)
  | some (ds, rest) =>
    if maxDigits < ds.length then .error (.tooLong ds.length)
    else if rest ≠ [] then .error (.notAnInteger text)
    else .ok (if negative then -(ofDigits ds : Int) else ofDigits ds)

end Xref.Number

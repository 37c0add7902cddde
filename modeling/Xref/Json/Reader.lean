import Xref.Json.Basic
import Xref.Number.Integer

/-!
# Reading JSON

The grammar is the usual one with three more numbers, `NaN`, `Infinity` and `-Infinity`. Strings
hold no control characters; a field given twice keeps its first place and its last value. Half of a
surrogate pair is kept in the character that carries it. Arrays and objects nest up to a given
depth, and integers have a greatest length; of several faults the first in the text counts.
-/

namespace Xref.Json

open Number Text

/-- Why a text is not read. -/
inductive ReadError
  | malformed
  | tooDeep
  | integer (error : IntegerError)
  deriving Repr, DecidableEq

def ReadError.message : ReadError → String
  | malformed => "the text is not JSON"
  | tooDeep => "the text nests too deeply"
  | integer e => e.message

/-- What a reader without faults of its own finds. -/
def orMalformed : Option (α × List Char) → Except ReadError (α × List Char)
  | some found => .ok found
  | none => .error .malformed

/-- The blanks allowed between tokens. -/
def isGap (c : Char) : Bool :=
  c == ' ' || c == '\t' || c == '\n' || c == '\r'

/-- The text after its leading blanks. -/
def skipGaps (cs : List Char) : List Char :=
  cs.dropWhile isGap

def hexValue? (c : Char) : Option Nat :=
  let n := c.toNat
  if 48 ≤ n && n ≤ 57 then some (n - 48)
  else if 97 ≤ n && n ≤ 102 then some (n - 87)
  else if 65 ≤ n && n ≤ 70 then some (n - 55)
  else none

def unit? (a b c d : Char) : Option Nat := do
  return ((← hexValue? a) * 16 + (← hexValue? b)) * 256 + (← hexValue? c) * 16 + (← hexValue? d)

/-- The character that a backslash and a letter stand for. -/
def shortEscape? (c : Char) : Option Char :=
  if c = '\x22' || c = '\\' || c = '/' then some c
  else if c = 'b' then some '\x08'
  else if c = 'f' then some '\x0c'
  else if c = 'n' then some '\n'
  else if c = 'r' then some '\r'
  else if c = 't' then some '\t'
  else none

/-- A piece of a string: a character, or half of a pair of surrogates. -/
inductive Piece
  | char (c : Char)
  | half (unit : Nat)
  deriving Repr, DecidableEq

/-- The piece that an escaped unit stands for. -/
def Piece.ofUnit (n : Nat) : Piece :=
  if isHalf n then half n else char (Char.ofNat n)

/-- The characters of the pieces, each pair of halves joined and other halves carried. -/
def joinHalves : List Piece → List Char
  | [] => []
  | .char c :: ps => c :: joinHalves ps
  | .half high :: .half low :: ps =>
    if high < 0xDC00 && 0xDC00 ≤ low then
      Char.ofNat (0x10000 + (high - 0xD800) * 0x400 + (low - 0xDC00)) :: joinHalves ps
    else carrier high :: joinHalves (.half low :: ps)
  | .half unit :: ps => carrier unit :: joinHalves ps

/-- The pieces of a string after its opening quote, and what follows its closing one. -/
def readPieces : List Char → Option (List Piece × List Char)
  | [] => none
  | '\x22' :: cs => some ([], cs)
  | '\\' :: 'u' :: a :: b :: c :: d :: cs => do
    let n ← unit? a b c d
    let (ps, rest) ← readPieces cs
    return (.ofUnit n :: ps, rest)
  | '\\' :: c :: cs => do
    let e ← shortEscape? c
    let (ps, rest) ← readPieces cs
    return (.char e :: ps, rest)
  | c :: cs =>
    if c.toNat < 32 || c = '\\' then none
    else do
      let (ps, rest) ← readPieces cs
      return (.char c :: ps, rest)

/-- A string after its opening quote, and what follows its closing one. -/
def readString (cs : List Char) : Option (List Char × List Char) :=
  (readPieces cs).map fun (ps, rest) => (joinHalves ps, rest)

/-- The leading decimal digits and the rest. -/
def spanDigits (cs : List Char) : List Char × List Char :=
  (cs.takeWhile Char.isDigit, cs.dropWhile Char.isDigit)

/-- The number that decimal digits denote. -/
def digitsValue (ds : List Char) : Nat :=
  ds.foldl (fun n d => 10 * n + (d.toNat - 48)) 0

/-- The digits of an integer: a zero alone, or digits that do not start with one. -/
def spanInteger : List Char → Option (List Char × List Char)
  | '0' :: cs => some (['0'], cs)
  | cs =>
    match spanDigits cs with
    | ([], _) => none
    | (ds, rest) => some (ds, rest)

/-- The digits after a point, if there are any. -/
def spanFraction : List Char → List Char × List Char
  | '.' :: cs =>
    match spanDigits cs with
    | ([], _) => ([], '.' :: cs)
    | (ds, rest) => (ds, rest)
  | cs => ([], cs)

/-- The digits of an exponent and its sign, if there are any. -/
def spanExponent (cs : List Char) : Option (Int × List Char) :=
  match cs with
  | c :: rest =>
    if c = 'e' || c = 'E' then
      let (negative, body) :=
        match rest with
        | '-' :: r => (true, r)
        | '+' :: r => (false, r)
        | r => (false, r)
      match spanDigits body with
      | ([], _) => none
      | (ds, r) => some (if negative then -(digitsValue ds : Int) else digitsValue ds, r)
    else none
  | [] => none

/-- A number without its sign, and the rest. -/
def readNumber (negative : Bool) (cs : List Char) : Except ReadError (Json × List Char) :=
  match spanInteger cs with
  | none => .error .malformed
  | some (whole, rest) =>
    let (fraction, rest) := spanFraction rest
    match fraction, spanExponent rest with
    | [], none =>
      if maxDigits < whole.length then .error (.integer (.tooLong whole.length))
      else
        let n := digitsValue whole
        .ok (int (if negative then -(n : Int) else n), rest)
    | _, e =>
      let mantissa := digitsValue (whole ++ fraction)
      let (e, rest) := e.getD (0, rest)
      .ok (real (Binary64.ofDecimal negative mantissa (e - fraction.length)), rest)

/-- The rest of a text after a word, if it starts with it. -/
def afterWord? (word : String) (cs : List Char) : Option (List Char) :=
  let w := word.toList
  if w.isPrefixOf cs then some (cs.drop w.length) else none

/-- A value that is neither array nor object, and the rest. -/
def readScalar (cs : List Char) : Except ReadError (Json × List Char) :=
  let word (text : String) (value : Json) : Except ReadError (Json × List Char) :=
    orMalformed ((afterWord? text cs).map fun rest => (value, rest))
  match cs with
  | '\x22' :: r => orMalformed ((readString r).map fun (s, rest) => (str (String.ofList s), rest))
  | 'n' :: _ => word "null" null
  | 't' :: _ => word "true" (bool true)
  | 'f' :: _ => word "false" (bool false)
  | 'N' :: _ => word "NaN" (real .undefined)
  | 'I' :: _ => word "Infinity" (real (.infinite false))
  | '-' :: 'I' :: _ => word "-Infinity" (real (.infinite true))
  | '-' :: r => readNumber true r
  | _ => readNumber false cs

mutual

/-- A value and the rest; the first argument bounds the count of values to come, the second the
depth of arrays and objects. -/
def readValue : Nat → Nat → List Char → Except ReadError (Json × List Char)
  | 0, _, _ => .error .malformed
  | fuel + 1, room, cs =>
    match cs, room with
    | '[' :: _, 0 | '\x7b' :: _, 0 => .error .tooDeep
    | '[' :: r, room + 1 =>
      match skipGaps r with
      | ']' :: rest => .ok (arr [], rest)
      | r => do
        let (vs, rest) ← readItems fuel room r
        return (arr vs, rest)
    | '\x7b' :: r, room + 1 =>
      match skipGaps r with
      | '\x7d' :: rest => .ok (obj [], rest)
      | r => do
        let (fs, rest) ← readFields fuel room [] r
        return (obj fs, rest)
    | _, _ => readScalar cs

/-- The items of an array that has some, up to and with its closing bracket. -/
def readItems : Nat → Nat → List Char → Except ReadError (List Json × List Char)
  | 0, _, _ => .error .malformed
  | fuel + 1, room, cs => do
    let (v, r) ← readValue fuel room cs
    match skipGaps r with
    | ']' :: rest => return ([v], rest)
    | ',' :: r =>
      let (vs, rest) ← readItems fuel room (skipGaps r)
      return (v :: vs, rest)
    | _ => throw .malformed

/-- The fields of an object that has some, up to and with its closing brace, after those read. -/
def readFields :
    Nat → Nat → List (String × Json) → List Char →
      Except ReadError (List (String × Json) × List Char)
  | 0, _, _, _ => .error .malformed
  | fuel + 1, room, done, cs => do
    match cs with
    | '\x22' :: r =>
      let (name, r) ← orMalformed (readString r)
      match skipGaps r with
      | ':' :: r =>
        let (v, r) ← readValue fuel room (skipGaps r)
        let done := setField (String.ofList name) v done
        match skipGaps r with
        | '\x7d' :: rest => return (done, rest)
        | ',' :: r => readFields fuel room done (skipGaps r)
        | _ => throw .malformed
      | _ => throw .malformed
    | _ => throw .malformed

end

/-- The value that a text holds, if it is JSON of at most the given depth and nothing more. -/
def parse (maxDepth : Nat) (text : String) : Except ReadError Json := do
  let cs := text.toList
  let (v, rest) ← readValue (cs.length + 1) maxDepth (skipGaps cs)
  match skipGaps rest with
  | [] => return v
  | _ => throw .malformed

/-- The value that a text holds, if it is JSON of any depth. -/
def parse? (text : String) : Option Json :=
  (parse text.length text).toOption

end Xref.Json

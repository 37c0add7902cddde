/-!
# Written numbers

A number is a decimal with an optional fraction, exponent and imaginary unit, or a whole number to
the base 2, 8 or 16. Single underscores may stand between digits. A number ends where no letter
follows, except for the words that can stand right behind it.
-/

namespace Xref.Script.Number

/-- The greatest count of digits of a whole number to the base 10. -/
def maxDigits : Nat := 4300

def isNamePart (c : Char) : Bool :=
  c.isAlphanum || c == '_' || 128 ≤ c.toNat

/-- The words that can follow a number without a blank. -/
def followers : List String := ["and", "else", "for", "if", "in", "is", "not", "or"]

/-- Whether a number can end before a text. -/
def canEnd (cs : List Char) : Bool :=
  match cs with
  | [] => true
  | c :: _ => !isNamePart c || followers.any fun w => w.toList.isPrefixOf cs

/-- What is left after digits with single underscores between them, and how many digits there were.
An underscore without a digit behind it is refused. -/
def digits? (isDigit : Char → Bool) : Nat → List Char → Option (Nat × List Char)
  | n, '_' :: c :: cs => if isDigit c then digits? isDigit (n + 1) cs else none
  | n, c :: cs =>
    if c = '_' then none
    else if isDigit c then digits? isDigit (n + 1) cs
    else some (n, c :: cs)
  | n, [] => some (n, [])

/-- A whole number to another base, after the letter that names the base. -/
def based? (isDigit : Char → Bool) (cs : List Char) : Option (List Char) := do
  let (n, rest) ← digits? isDigit 0 cs
  if n = 0 || rest.head?.any Char.isDigit || !canEnd rest then none else some rest

/-- What can follow the digits of a decimal: an imaginary unit. -/
def imaginary? : List Char → Option (Bool × List Char)
  | c :: cs =>
    if c = 'j' || c = 'J' then if canEnd cs then some (true, cs) else none
    else if canEnd (c :: cs) then some (false, c :: cs) else none
  | [] => some (false, [])

/-- The digits of an exponent after its sign. -/
def exponentDigits? (cs : List Char) : Option (Bool × List Char) :=
  if cs.head?.any Char.isDigit then do
    let (_, rest) ← digits? Char.isDigit 0 cs
    imaginary? rest
  else none

/-- What can follow the digits of a decimal: an exponent, and an imaginary unit. -/
def exponent? : List Char → Option (Bool × List Char)
  | c :: cs =>
    if c = 'e' || c = 'E' then
      match cs with
      | '+' :: ds => exponentDigits? ds
      | '-' :: ds => exponentDigits? ds
      | ds => if ds.head?.any Char.isDigit then exponentDigits? ds else imaginary? (c :: cs)
    else imaginary? (c :: cs)
  | [] => imaginary? []

/-- What follows the point of a decimal. -/
def fraction? (cs : List Char) : Option (Bool × List Char) :=
  if cs.head?.any Char.isDigit then do
    let (_, rest) ← digits? Char.isDigit 0 cs
    exponent? rest
  else exponent? cs

/-- Whether the digits of a decimal are followed by an exponent or an imaginary unit. -/
def hasTail (cs : List Char) : Bool :=
  cs.head?.any fun c => c == 'e' || c == 'E' || c == 'j' || c == 'J'

/-- A decimal, from its first digit on. A whole number may not start with a zero unless it is
zero. -/
def decimal? (cs : List Char) : Option (Bool × List Char) := do
  let (n, rest) ← digits? Char.isDigit 0 cs
  match rest with
  | '.' :: ds => fraction? ds
  | _ =>
    if hasTail rest then exponent? rest
    else
      let digits := (cs.take (cs.length - rest.length)).filter Char.isDigit
      if digits.head? = some '0' then
        if digits.all (· = '0') && canEnd rest then some (false, rest) else none
      else if n ≤ maxDigits && canEnd rest then some (false, rest)
      else none

/-- A digit to the base 8. -/
def isOctal (c : Char) : Bool := '0' ≤ c && c ≤ '7'

/-- A digit to the base 2. -/
def isBinary (c : Char) : Bool := c == '0' || c == '1'

/-- A digit to the base 16. -/
def isHex (c : Char) : Bool :=
  c.isDigit || ('a' ≤ c && c ≤ 'f') || ('A' ≤ c && c ≤ 'F')

/-- A number at the start of a text that begins with a digit, or with a point and a digit: whether
it is imaginary, and what follows it. -/
def read? : List Char → Option (Bool × List Char)
  | '.' :: cs => fraction? cs
  | '0' :: c :: cs =>
    if c = 'x' || c = 'X' then (based? isHex cs).map (false, ·)
    else if c = 'o' || c = 'O' then (based? isOctal cs).map (false, ·)
    else if c = 'b' || c = 'B' then (based? isBinary cs).map (false, ·)
    else decimal? ('0' :: c :: cs)
  | cs => decimal? cs

end Xref.Script.Number

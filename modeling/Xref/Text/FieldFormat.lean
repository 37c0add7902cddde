import Xref.Text.Characters
import Xref.Text.Surrogate

/-!
# Formats of fields

A format says how a text is laid out in a field: an alignment with the character to fill up with,
the width, and how much of the text is kept. Numbers share the notation, so that a format can also
hold what only they have; for a text that is an error.
-/

namespace Xref.Text

/-- Why a format is none, or is none for a text. -/
inductive FieldFormatError
  | manyDigits
  | noPrecision
  | bothSeparators
  | separator (mark code : Char)
  | malformed (format : List Char)
  | unknownCode (code : Char)
  | sign
  | space
  | zeroCoercion
  | alternateForm
  | innerAlignment
  deriving DecidableEq, Repr

/-- A letter of a format, or its code if it cannot be shown. -/
def FieldFormatError.shown (c : Char) : String :=
  if 32 < c.toNat && c.toNat < 128 then c.toString
  else "\\x" ++ String.ofList (Nat.toDigits 16 (codePoint c))

def FieldFormatError.message : FieldFormatError → String
  | manyDigits => "Too many decimal digits in format string"
  | noPrecision => "Format specifier missing precision"
  | bothSeparators => "Cannot specify both ',' and '_'."
  | separator mark code => "Cannot specify '" ++ mark.toString ++ "' with '" ++ shown code ++ "'."
  | malformed format =>
    "Invalid format specifier '" ++ String.ofList format ++ "' for object of type 'str'"
  | unknownCode code => "Unknown format code '" ++ shown code ++ "' for object of type 'str'"
  | sign => "Sign not allowed in string format specifier"
  | space => "Space not allowed in string format specifier"
  | zeroCoercion => "Negative zero coercion (z) not allowed in string format specifier"
  | alternateForm => "Alternate form (#) not allowed in string format specifier"
  | innerAlignment => "'=' alignment not allowed in string format specifier"

/-- A format. -/
structure FieldFormat where
  fill : Char
  align : Option Char
  sign : Option Char
  coercesZero : Bool
  isAlternate : Bool
  width : Nat
  separator : Option Char
  precision : Option Nat
  code : Char
  deriving DecidableEq, Repr

namespace FieldFormat

def isAlign (c : Char) : Bool :=
  c = '<' || c = '>' || c = '=' || c = '^'

/-- The fill, the alignment, and the rest. -/
def takeAlign : List Char → Option Char × Option Char × List Char
  | c :: d :: cs =>
    if isAlign d then (some c, some d, cs)
    else if isAlign c then (none, some c, d :: cs)
    else (none, none, c :: d :: cs)
  | [c] => if isAlign c then (none, some c, []) else (none, none, [c])
  | [] => (none, none, [])

/-- The first character, if it is one of some, and the rest. -/
def takeOne (p : Char → Bool) : List Char → Option Char × List Char
  | [] => (none, [])
  | c :: cs => if p c then (some c, cs) else (none, c :: cs)

/-- The greatest number that a format can give. -/
def maxNumber : Nat := 9223372036854775807

/-- The number at the start and the rest; decimal digits of any script count. -/
def takeNumber (cs : List Char) : Except FieldFormatError (Option Nat × List Char) :=
  let digits := (cs.map digitValue?).takeWhile Option.isSome |>.map (Option.getD · 0)
  let number := digits.foldl (fun n d => 10 * n + d) 0
  if maxNumber < number then .error .manyDigits
  else .ok (if digits.isEmpty then none else some number, cs.drop digits.length)

/-- The separator of groups of digits and the rest. -/
def takeSeparator : List Char → Except FieldFormatError (Option Char × List Char)
  | ',' :: '_' :: _ | '_' :: ',' :: _ => .error .bothSeparators
  | ',' :: cs => .ok (some ',', cs)
  | '_' :: cs => .ok (some '_', cs)
  | cs => .ok (none, cs)

/-- The number after a point and the rest. -/
def takePrecision : List Char → Except FieldFormatError (Option Nat × List Char)
  | '.' :: cs => do
    let (precision, rest) ← takeNumber cs
    if precision.isNone then throw .noPrecision
    return (precision, rest)
  | cs => .ok (none, cs)

def checkSeparator (separator : Option Char) (code : Char) : Except FieldFormatError Unit :=
  match separator with
  | none => .ok ()
  | some mark =>
    if "deEfFgG%\x00".contains code || (mark = '_' && "boxX".contains code) then .ok ()
    else .error (.separator mark code)

def read (format : List Char) : Except FieldFormatError FieldFormat := do
  let (fill, align, rest) := takeAlign format
  let (sign, rest) := takeOne (" +-".contains ·) rest
  let (zeroCoercion, rest) := takeOne (· = 'z') rest
  let (alternate, rest) := takeOne (· = '#') rest
  let (zero, rest) := if fill.isNone then takeOne (· = '0') rest else (none, rest)
  let (width, rest) ← takeNumber rest
  let (separator, rest) ← takeSeparator rest
  let (precision, rest) ← takePrecision rest
  let code ← match rest with
    | [] => pure 's'
    | [c] => pure c
    | _ => throw (.malformed format)
  checkSeparator separator code
  return {
    fill := (fill <|> zero).getD ' '
    align
    sign
    coercesZero := zeroCoercion.isSome
    isAlternate := alternate.isSome
    width := width.getD 0
    separator
    precision
    code }

/-- Checks that a format has nothing that only numbers have. -/
def check (f : FieldFormat) : Except FieldFormatError Unit := do
  if f.code ≠ 's' then throw (.unknownCode f.code)
  match f.sign with
  | some ' ' => throw .space
  | some _ => throw .sign
  | none => pure ()
  if f.coercesZero then throw .zeroCoercion
  if f.isAlternate then throw .alternateForm
  if f.align = some '=' then throw .innerAlignment

/-- The widest field that is filled up. -/
def maxWidth : Nat := 10000

def lay (f : FieldFormat) (text : List Char) : List Char :=
  let kept := match f.precision with
    | some n => text.take n
    | none => text
  let missing := min f.width maxWidth - kept.length
  let before := match f.align with
    | some '>' => missing
    | some '^' => missing / 2
    | _ => 0
  List.replicate before f.fill ++ kept ++ List.replicate (missing - before) f.fill

/-- A text laid out along a written format. -/
def apply (format text : List Char) : Except FieldFormatError (List Char) := do
  let f ← read format
  f.check
  return f.lay text

end FieldFormat

end Xref.Text

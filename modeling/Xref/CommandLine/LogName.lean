import Xref.Text.FieldFormat
import Xref.Text.Quoted

/-!
# Names of log files

The name of a log file is a template: a field in braces stands for a value, and a doubled brace for
the brace. The only value is `time`, the moment at which the log is opened. A field can go on to
attributes and items of the value, convert it, and give a format, which may hold fields again.
-/

namespace Xref.CommandLine

open Text

/-- A field of a template. -/
structure LogField where
  name : List Char
  conversion : Option Char
  format : List Char
  deriving DecidableEq, Repr

/-- A piece of a template. -/
inductive LogPiece
  | literal (text : List Char)
  | field (f : LogField)
  deriving DecidableEq, Repr

/-- Why a template gives no name. -/
inductive LogNameError
  | singleOpening
  | singleClosing
  | unfinishedName
  | openingInName
  | noConversion
  | noFormatMark
  | unfinishedFormat
  | positional
  | manyDigits
  | emptyAttribute
  | unfinishedItem
  | strayAfterItem
  | tooNested
  | unknownConversion (letter : Char)
  | tooFine
  | format (e : FieldFormatError)
  | unknownValue (name : String)
  | noAttribute (name : String)
  | noItems
  deriving DecidableEq, Repr

/-- The code of a character in hexadecimal without leading zeros. -/
def LogNameError.shortHex (c : Char) : String :=
  String.ofList (Nat.toDigits 16 (codePoint c))

def LogNameError.message : LogNameError → String
  | singleOpening => "Single '\x7b' encountered in format string"
  | singleClosing => "Single '\x7d' encountered in format string"
  | unfinishedName => "expected '\x7d' before end of string"
  | openingInName => "unexpected '\x7b' in field name"
  | noConversion => "end of string while looking for conversion specifier"
  | noFormatMark => "expected ':' after conversion specifier"
  | unfinishedFormat => "unmatched '\x7b' in format spec"
  | positional => "Format string contains positional fields"
  | manyDigits => "Too many decimal digits in format string"
  | emptyAttribute => "Empty attribute in format string"
  | unfinishedItem => "Missing ']' in format string"
  | strayAfterItem => "Only '.' or '[' may follow ']' in format field specifier"
  | tooNested => "Max string recursion exceeded"
  | unknownConversion c =>
    "Unknown conversion specifier " ++
      (if 32 < c.toNat && c.toNat < 127 then toString c else "\\x" ++ shortHex c)
  | tooFine =>
    "Invalid time format: the provided format string contains more than six successive 'S' " ++
      "characters. This may be due to an attempt to use nanosecond precision, which is not " ++
      "supported."
  | format e => e.message
  | unknownValue name => name
  | noAttribute name => "the time has no attribute " ++ quoted name
  | noItems => "the time has no items"

namespace LogName

/-! ## Pieces -/

/-- What ends the name of a field. -/
inductive NameEnd
  | brace
  | mark
  | colon
  deriving DecidableEq, Repr

/-- The name of a field, what ends it, and the rest. Inside brackets nothing but the closing one
counts. -/
def scanName : Bool → List Char → Except LogNameError (List Char × NameEnd × List Char)
  | _, [] => .error .unfinishedName
  | true, c :: cs => do
    let (name, stop, rest) ← scanName (c ≠ ']') cs
    return (c :: name, stop, rest)
  | false, c :: cs =>
    if c = '\x7d' then .ok ([], .brace, cs)
    else if c = '!' then .ok ([], .mark, cs)
    else if c = ':' then .ok ([], .colon, cs)
    else if c = '\x7b' then .error .openingInName
    else do
      let (name, stop, rest) ← scanName (c = '[') cs
      return (c :: name, stop, rest)

/-- The format of a field and what follows its closing brace; the first argument counts the braces
that are open inside it. -/
def scanFormat : Nat → List Char → Except LogNameError (List Char × List Char)
  | _, [] => .error .unfinishedFormat
  | depth, c :: cs =>
    if c = '\x7d' && depth = 0 then .ok ([], cs)
    else do
      let depth := if c = '\x7b' then depth + 1 else if c = '\x7d' then depth - 1 else depth
      let (format, rest) ← scanFormat depth cs
      return (c :: format, rest)

/-- A field after its opening brace, and the rest. -/
def scanField (cs : List Char) : Except LogNameError (LogField × List Char) := do
  let (name, stop, rest) ← scanName false cs
  match stop, rest with
  | .brace, _ => return (⟨name, none, []⟩, rest)
  | .colon, _ =>
    let (format, rest) ← scanFormat 0 rest
    return (⟨name, none, format⟩, rest)
  | .mark, [] => throw .noConversion
  | .mark, [_] => throw .unfinishedFormat
  | .mark, c :: d :: rest =>
    if d = '\x7d' then return (⟨name, some c, []⟩, rest)
    else if d = ':' then
      let (format, rest) ← scanFormat 0 rest
      return (⟨name, some c, format⟩, rest)
    else throw .noFormatMark

/-- The next piece of a text that is not empty, and the rest. -/
def scanPiece : List Char → Except LogNameError (LogPiece × List Char)
  | '\x7b' :: '\x7b' :: cs => .ok (.literal ['\x7b'], cs)
  | '\x7d' :: '\x7d' :: cs => .ok (.literal ['\x7d'], cs)
  | ['\x7b'] => .error .singleOpening
  | '\x7d' :: _ => .error .singleClosing
  | '\x7b' :: cs => do
    let (f, rest) ← scanField cs
    return (.field f, rest)
  | cs =>
    let isBrace (c : Char) : Bool := c = '\x7b' || c = '\x7d'
    .ok (.literal (cs.takeWhile fun c => !isBrace c), cs.dropWhile fun c => !isBrace c)

/-- The pieces of a template; the first argument bounds their count. -/
def scan : Nat → List Char → Except LogNameError (List LogPiece)
  | 0, _ => .ok []
  | _, [] => .ok []
  | fuel + 1, cs => do
    let (piece, rest) ← scanPiece cs
    return piece :: (← scan fuel rest)

def pieces (template : List Char) : Except LogNameError (List LogPiece) :=
  scan (template.length + 1) template

/-! ## Values -/

/-- The greatest index that a field can give. -/
def maxIndex : Nat := 9223372036854775807

/-- Whether a text is an index: decimal digits of any script. -/
def isIndex (cs : List Char) : Except LogNameError Bool :=
  let ds := (cs.map digitValue?).takeWhile Option.isSome |>.map (Option.getD · 0)
  if maxIndex < ds.foldl (fun n d => 10 * n + d) 0 then .error .manyDigits
  else .ok (!cs.isEmpty && ds.length = cs.length)

def timeAttributes : List String :=
  ["datetime", "__class__", "__delattr__", "__dict__", "__dir__", "__doc__", "__eq__", "__format__",
   "__ge__", "__getattribute__", "__getstate__", "__gt__", "__hash__", "__init__",
   "__init_subclass__", "__le__", "__lt__", "__module__", "__ne__", "__new__", "__reduce__",
   "__reduce_ex__", "__repr__", "__setattr__", "__sizeof__", "__str__", "__subclasshook__",
   "__weakref__"]

/-- Follows the first attribute or item of the time, if there is one. -/
def follow : List Char → Except LogNameError Unit
  | [] => .ok ()
  | '.' :: cs =>
    let name := cs.takeWhile fun c => c ≠ '.' && c ≠ '['
    if name.isEmpty then .error .emptyAttribute
    else if timeAttributes.contains (String.ofList name) then .ok ()
    else .error (.noAttribute (String.ofList name))
  | '[' :: cs =>
    let name := cs.takeWhile (· ≠ ']')
    if name.length = cs.length then .error .unfinishedItem
    else do
      let _ ← isIndex name
      if name.isEmpty then throw .emptyAttribute
      throw .noItems
  | _ => .error .strayAfterItem

/-- Checks that the name of a field leads to a value. -/
def checkName (name : List Char) : Except LogNameError Unit := do
  let first := name.takeWhile fun c => c ≠ '.' && c ≠ '['
  if first.isEmpty || (← isIndex first) then throw .positional
  if first ≠ "time".toList then throw (.unknownValue (String.ofList first))
  follow (name.drop first.length)

def checkConversion : Option Char → Except LogNameError Unit
  | none => .ok ()
  | some c => if c = 'r' || c = 's' || c = 'a' then .ok () else .error (.unknownConversion c)

/-- Whether a format asks for more than six places of a second. -/
def isTooFine : List Char → Bool
  | [] => false
  | c :: cs => (List.replicate 7 'S').isPrefixOf (c :: cs) || isTooFine cs

/-- What a time is shown as along a format. The format itself stands for the digits, which the time
gives. A format of the older notation, with percent signs, is always in order. -/
def shownTime (format : List Char) : Except LogNameError (List Char) :=
  if format.isEmpty then .ok "YYYY-MM-DD_HH-mm-ss_SSSSSS".toList
  else if !format.contains '%' && isTooFine format then .error .tooFine
  else .ok format

/-- What a time is shown as after a conversion; only the length counts. -/
def shownObject : List Char :=
  List.replicate 61 'o'

/-- The text of a piece, given how the fields inside a format are filled. -/
def fillPiece (inner : List Char → Except LogNameError (List Char)) :
    LogPiece → Except LogNameError (List Char)
  | .literal text => .ok text
  | .field f => do
    checkName f.name
    checkConversion f.conversion
    let format ← if f.format.contains '\x7b' then inner f.format else pure f.format
    if f.conversion.isNone then shownTime format
    else if format.isEmpty then return shownObject
    else (FieldFormat.apply format shownObject).mapError .format

/-- The text of a template, piece by piece; the second argument bounds the count of pieces. -/
def fillAll (inner : List Char → Except LogNameError (List Char)) :
    Nat → List Char → Except LogNameError (List Char)
  | 0, _ => .ok []
  | _, [] => .ok []
  | fuel + 1, cs => do
    let (piece, rest) ← scanPiece cs
    let text ← fillPiece inner piece
    return text ++ (← fillAll inner fuel rest)

/-- The text of a template; the first argument counts the levels of fields that may nest. -/
def fill : Nat → List Char → Except LogNameError (List Char)
  | 0, _ => .error .tooNested
  | levels + 1, template => fillAll (fill levels) (template.length + 1) template

/-- The path that a template names. All its pieces have to be in order before the first is
filled. -/
def path (template : String) : Except LogNameError String := do
  let _ ← pieces template.toList
  return String.ofList (← fill 2 template.toList)

end LogName

end Xref.CommandLine

import Xref.Script.Scanner

/-!
# Quoted texts

A backslash in a quoted text starts an escape, and some escapes need digits or a name. A format text
holds fields in braces: an expression, a conversion and a format, which is a format text again.
-/

namespace Xref.Script

/-! ## Escapes -/

/-- A character that the name of a character can hold. -/
def isCharacterName (c : Char) : Bool :=
  c.isAlphanum || c == ' ' || c == '-'

def hexValue (c : Char) : Nat :=
  if c.isDigit then c.toNat - 48 else c.toLower.toNat - 87

/-- Whether a text starts with a number of hexadecimal digits whose value is at most the given
one. -/
def startsWithHex (count greatest : Nat) (cs : List Char) : Bool :=
  let digits := cs.take count
  digits.length = count && digits.all Number.isHex &&
    digits.foldl (fun n c => 16 * n + hexValue c) 0 ≤ greatest

/-- Whether what follows a backslash is a well-formed escape of text. -/
def isTextEscape : List Char → Bool
  | 'x' :: cs => startsWithHex 2 0xFF cs
  | 'u' :: cs => startsWithHex 4 0xFFFF cs
  | 'U' :: cs => startsWithHex 8 0x10FFFF cs
  | 'N' :: '\x7b' :: cs =>
    let name := cs.takeWhile (· ≠ '\x7d')
    !name.isEmpty && name.length < cs.length && name.all isCharacterName
  | 'N' :: _ => false
  | _ => true

/-- Whether what follows a backslash is a well-formed escape of bytes. -/
def isBytesEscape : List Char → Bool
  | 'x' :: cs => startsWithHex 2 0xFF cs
  | _ => true

/-- Whether all escapes of a text are well-formed. -/
def escapesHold (isEscape : List Char → Bool) : List Char → Bool
  | [] => true
  | '\\' :: c :: cs => isEscape (c :: cs) && escapesHold isEscape cs
  | _ :: cs => escapesHold isEscape cs

/-! ## Fields -/

/-- A field of a format text: its expression, and the fields of its format. -/
inductive Field
  | mk (expression : List Char) (hasFormat : Bool) (inner : List Field)

/-- What a literal part of a format text ends with. -/
inductive LiteralEnd
  | brace
  | doubled
  | textEnd
  deriving DecidableEq, Repr

/-- Puts characters before the first part of what was read. -/
def after (before : List Char) (part : Option (List Char × α)) : Option (List Char × α) :=
  part.map fun (text, rest) => (before ++ text, rest)

/-- The literal part at the start of a format text, what ends it, and what follows: from a single
brace on, or after a doubled one. Braces are doubled only outside of formats, and not special in the
name of a character. -/
def literal? (isRaw isOuter : Bool) : Bool → List Char → Option (List Char × LiteralEnd × List Char)
  | _, [] => some ([], .textEnd, [])
  | true, c :: cs => after [c] (literal? isRaw isOuter (c ≠ '\x7d') cs)
  | false, '\\' :: c :: cs =>
    if isRaw || c = '\x7b' || c = '\x7d' then after ['\\'] (literal? isRaw isOuter false (c :: cs))
    else after ['\\', c] (literal? isRaw isOuter (c = 'N' && cs.head? = some '\x7b') cs)
  | false, c :: cs =>
    if c = '\x7b' || c = '\x7d' then
      if !isOuter then some ([], .brace, c :: cs)
      else if cs.head? = some c then some ([c], .doubled, cs.drop 1)
      else if c = '\x7d' then none
      else some ([], .brace, c :: cs)
    else after [c] (literal? isRaw isOuter false cs)

/-- Whether a character of an expression stands in a quoted text. -/
inductive Quoting
  | outside
  | short (quote : Char)
  | long (quote : Char)
  deriving DecidableEq, Repr

/-- The expression at the start of a field, up to the first mark outside of brackets and quoted
texts that cannot belong to it, and what follows from that mark on. There are no backslashes and no
comments in it. The first characters that are skipped belong to it. -/
def fieldExpression? (skip : Nat) (quoting : Quoting) (brackets : List Char) :
    List Char → Option (List Char × List Char)
  | [] => none
  | c :: cs =>
    if c = '\\' then none
    else match skip, quoting with
      | skip + 1, _ => after [c] (fieldExpression? skip quoting brackets cs)
      | 0, .short q =>
        after [c] (fieldExpression? 0 (if c = q then .outside else .short q) brackets cs)
      | 0, .long q =>
        if [q, q, q].isPrefixOf (c :: cs) then after [c] (fieldExpression? 2 .outside brackets cs)
        else after [c] (fieldExpression? 0 (.long q) brackets cs)
      | 0, .outside =>
        if isQuote c then
          if [c, c].isPrefixOf cs then after [c] (fieldExpression? 2 (.long c) brackets cs)
          else after [c] (fieldExpression? 0 (.short c) brackets cs)
        else if c = '(' || c = '[' || c = '\x7b' then
          if brackets.length < maxBrackets then
            after [c] (fieldExpression? 0 .outside (c :: brackets) cs)
          else none
        else if c = '#' then none
        else if brackets.isEmpty && ['!', '=', '>', '<'].contains c then
          if cs.head? = some '=' then after [c] (fieldExpression? 1 .outside brackets cs)
          else if c = '>' || c = '<' then after [c] (fieldExpression? 0 .outside brackets cs)
          else some ([], c :: cs)
        else if brackets.isEmpty && (c = ':' || c = '\x7d') then some ([], c :: cs)
        else if c = ')' || c = ']' || c = '\x7d' then
          match brackets with
          | b :: bs =>
            if Layout.closing b = c then after [c] (fieldExpression? 0 .outside bs cs) else none
          | [] => none
        else after [c] (fieldExpression? 0 .outside brackets cs)

/-- Whether a character is skipped before an expression. -/
def isGap (c : Char) : Bool :=
  c == ' ' || c == '\t' || c == '\n' || c == '\x0c'

/-- What follows the mark for showing an expression as it is written. -/
def afterShown : List Char → List Char
  | '=' :: cs => cs.dropWhile fun c => isGap c || c == '\r' || c == '\x0b'
  | cs => cs

/-- What follows a conversion, if there is one. -/
def afterConversion? : List Char → Option (List Char)
  | '!' :: c :: cs => if c = 's' || c = 'r' || c = 'a' then some cs else none
  | '!' :: _ => none
  | cs => some cs

def maxFieldNesting : Nat := 2

/-- The fields of a format text and what follows it: nothing, or the brace that ends a format. -/
def fields? (isRaw : Bool) : Nat → Nat → List Char → Option (List Field × List Char)
  | 0, _, _ => none
  | fuel + 1, nesting, cs => do
    let (text, ending, rest) ← literal? isRaw (nesting = 0) false cs
    if !isRaw && !escapesHold isTextEscape text then none
    else match ending, rest with
      | .doubled, _ => fields? isRaw fuel nesting rest
      | .brace, '\x7b' :: rest => do
        if maxFieldNesting ≤ nesting then none
        let (expression, rest) ← fieldExpression? 0 .outside [] rest
        if expression.all isGap then none
        let rest ← afterConversion? (afterShown rest)
        let (inner, rest) ← match rest with
          | ':' :: rest => (fields? isRaw fuel (nesting + 1) rest).map fun (fs, r) => (some fs, r)
          | _ => some (none, rest)
        match rest with
        | '\x7d' :: rest =>
          let (fields, rest) ← fields? isRaw fuel nesting rest
          return (⟨expression, inner.isSome, inner.getD []⟩ :: fields, rest)
        | _ => none
      | _, _ => some ([], rest)

/-- The fields of a quoted text, which are none unless it is a format text. A text that is not
well-formed has no fields at all. -/
def Quote.fields? (q : Quote) : Option (List Field) :=
  if q.isFormat then (Script.fields? q.isRaw (q.body.length + 1) 0 q.body).map Prod.fst
  else if q.isBytes then
    if q.body.all (·.toNat < 128) && (q.isRaw || escapesHold isBytesEscape q.body) then some []
    else none
  else if q.isRaw || escapesHold isTextEscape q.body then some []
  else none

end Xref.Script

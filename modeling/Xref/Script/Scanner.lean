import Xref.Script.Number
import Xref.Script.Reading
import Xref.Text.Characters

/-!
# Scanning

A script is cut into tokens from its start to its end. A line break ends a line unless it stands in
brackets or after a backslash. The blanks before the first token of a line are its margin: a greater
one than before opens a block, and a smaller one closes the blocks down to an equal one.
-/

namespace Xref.Script

open Text
open Script.Number (isNamePart)

/-! ## Margins -/

/-- The width of a margin, counted with tabs to every eighth column and with tabs as single blanks.
The width at the first backslash of a margin, if there is one, counts for the lines that it
joins. -/
structure Margin where
  column : Nat
  plainColumn : Nat
  joined : Nat
  deriving DecidableEq, Repr

namespace Margin

/-- The margin of an empty text. -/
def zero : Margin := ⟨0, 0, 0⟩

/-- The margin at the start of a line, and what follows it. The text must not end after a joined
line break. -/
def read? : Margin → List Char → Option (Margin × List Char)
  | m, ' ' :: cs => read? ⟨m.column + 1, m.plainColumn + 1, m.joined⟩ cs
  | m, '\t' :: cs => read? ⟨(m.column / 8 + 1) * 8, m.plainColumn + 1, m.joined⟩ cs
  | m, '\x0c' :: cs => read? ⟨0, 0, m.joined⟩ cs
  | m, '\\' :: '\n' :: c :: cs =>
    read? { m with joined := if m.joined = 0 then m.column else m.joined } (c :: cs)
  | _, '\\' :: _ => none
  | m, cs => some (m, cs)

def widths (m : Margin) : Nat × Nat :=
  if m.joined = 0 then (m.column, m.plainColumn) else (m.joined, m.joined)

end Margin

/-- How many blocks may be open. -/
def maxBlocks : Nat := 99

/-- How many brackets may be open. -/
def maxBrackets : Nat := 200

/-- What is open: the widths of the margins of the blocks and the brackets, the innermost first. -/
structure Layout where
  blocks : List (Nat × Nat)
  brackets : List Char
  deriving DecidableEq, Repr

namespace Layout

/-- Nothing is open. -/
def empty : Layout := ⟨[], []⟩

/-- The widths of the margin of the innermost block. -/
def margin (l : Layout) : Nat × Nat :=
  l.blocks.headD (0, 0)

/-- Opens and closes blocks for a line with a margin. The two counts of the width have to agree on
what is greater. -/
def indent? (l : Layout) (widths : Nat × Nat) : Option (List Token × Layout) :=
  if widths.1 = l.margin.1 then
    if widths.2 = l.margin.2 then some ([], l) else none
  else if l.margin.1 < widths.1 then
    if l.blocks.length < maxBlocks && l.margin.2 < widths.2 then
      some ([.indent], { l with blocks := widths :: l.blocks })
    else none
  else
    let outer := { l with blocks := l.blocks.dropWhile fun b => widths.1 < b.1 }
    if outer.margin = widths then
      some (List.replicate (l.blocks.length - outer.blocks.length) .dedent, outer)
    else none

/-- The bracket that closes another. -/
def closing : Char → Char
  | '(' => ')'
  | '[' => ']'
  | _ => '\x7d'

/-- Opens or closes the bracket that a mark is, if it is one. -/
def bracket? (l : Layout) (mark : String) : Option Layout :=
  match mark.toList with
  | [c] =>
    if c = '(' || c = '[' || c = '\x7b' then
      if l.brackets.length < maxBrackets then some { l with brackets := c :: l.brackets } else none
    else if c = ')' || c = ']' || c = '\x7d' then
      match l.brackets with
      | b :: bs => if closing b = c then some { l with brackets := bs } else none
      | [] => none
    else some l
  | _ => some l

end Layout

/-! ## Single tokens -/

/-- The marks, the longer ones first. -/
def marks : List String :=
  ["**=", "//=", ">>=", "<<=", "...", "!=", "%=", "&=", "**", "*=", "+=", "-=", "->", "//",
    "/=", ":=",
   "<<", "<=", "==", ">=", ">>", "@=", "^=", "|=", "%", "&", "(", ")", "*", "+", ",", "-", ".", "/",
   ":", ";", "<", "=", ">", "@", "[", "]", "^", "\x7b", "|", "\x7d", "~"]

/-- The longest mark at the start of a text. -/
def mark? (cs : List Char) : Option String :=
  if ['<', '>'].isPrefixOf cs then none else marks.find? fun m => m.toList.isPrefixOf cs

def isIdentifier : List Char → Bool
  | [] => false
  | c :: cs => startsIdentifier c && cs.all continuesIdentifier

/-- What stands before a quote in one line, and what follows the quote. -/
def shortBody? (quote : Char) : List Char → Option (List Char × List Char)
  | [] => none
  | '\\' :: c :: cs => (shortBody? quote cs).map fun (body, rest) => ('\\' :: c :: body, rest)
  | c :: cs =>
    if c = quote then some ([], cs)
    else if c = '\n' then none
    else (shortBody? quote cs).map fun (body, rest) => (c :: body, rest)

/-- What stands before three quotes, and what follows them. -/
def longBody? (quote : Char) : List Char → Option (List Char × List Char)
  | [] => none
  | '\\' :: c :: cs => (longBody? quote cs).map fun (body, rest) => ('\\' :: c :: body, rest)
  | c :: cs =>
    if c = quote && [quote, quote].isPrefixOf cs then some ([], cs.drop 2)
    else (longBody? quote cs).map fun (body, rest) => (c :: body, rest)

/-- The body of a quoted text from its first quote on, and what follows the text. -/
def body? : List Char → Option (List Char × List Char)
  | [] => none
  | quote :: cs =>
    if [quote, quote].isPrefixOf cs then longBody? quote (cs.drop 2) else shortBody? quote cs

def isQuote (c : Char) : Bool := c == '\x27' || c == '\x22'

/-- The kind of quoted text that some letters before a quote announce; its body is empty. -/
def quoteKind? (letters : List Char) : Option Quote :=
  match String.ofList (letters.map Char.toLower) with
  | "" => some ⟨false, false, false, []⟩
  | "u" => some ⟨false, false, false, []⟩
  | "b" => some ⟨true, false, false, []⟩
  | "r" => some ⟨false, true, false, []⟩
  | "f" => some ⟨false, false, true, []⟩
  | "br" | "rb" => some ⟨true, true, false, []⟩
  | "fr" | "rf" => some ⟨false, true, true, []⟩
  | _ => none

/-- A word or a quoted text at the start of a text. -/
def word? (cs : List Char) : Option (Token × List Char) :=
  let letters := cs.takeWhile isNamePart
  let rest := cs.dropWhile isNamePart
  match if rest.head?.any isQuote then quoteKind? letters else none with
  | some kind => (body? rest).map fun (body, rest) => (.quote { kind with body := body }, rest)
  | none =>
    if isIdentifier letters then some (.word (String.ofList letters), rest) else none

/-- Whether a number starts with a character, followed by a text. -/
def startsNumber (c : Char) (cs : List Char) : Bool :=
  c.isDigit || (c == '.' && cs.head?.any Char.isDigit)

/-- The token at the start of a text with a first character, and what follows the token. -/
def token? (c : Char) (cs : List Char) : Option (Token × List Char) :=
  if startsNumber c cs then
    (Number.read? (c :: cs)).map fun (isImaginary, rest) => (.number isImaginary, rest)
  else if isNamePart c || isQuote c then word? (c :: cs)
  else (mark? (c :: cs)).map fun m => (.mark m, (c :: cs).drop m.length)

/-! ## Texts -/

def Layout.after? (l : Layout) : Token → Option Layout
  | .mark m => l.bracket? m
  | _ => some l

/-- The tokens of a text, line by line. `atStart` holds at the start of a line outside of brackets.
The fuel is the length of the text. -/
def scan : Nat → Bool → Layout → List Char → List Token
  | 0, _, _, _ => [.bad]
  | fuel + 1, true, l, cs =>
    match Margin.zero.read? cs with
    | none => [.bad]
    | some (_, '\n' :: rest) => scan fuel true l rest
    | some (_, '#' :: rest) => scan fuel true l ((rest.dropWhile (· ≠ '\n')).drop 1)
    | some (m, rest) =>
      match l.indent? m.widths, rest with
      | none, _ => [.bad]
      | some (blocks, _), [] => blocks
      | some (blocks, l), c :: cs => blocks ++ scan fuel false l (c :: cs)
  | _ + 1, false, _, [] => [.bad]
  | fuel + 1, false, l, c :: cs =>
    if c = ' ' || c = '\t' || c = '\x0c' then scan fuel false l cs
    else if c = '#' then scan fuel false l (cs.dropWhile (· ≠ '\n'))
    else if c = '\n' then
      if l.brackets.isEmpty then .lineEnd :: scan fuel true l cs else scan fuel false l cs
    else if c = '\\' then
      match cs with
      | '\n' :: d :: rest => scan fuel false l (d :: rest)
      | _ => [.bad]
    else
      match token? c cs with
      | none => [.bad]
      | some (t, rest) =>
        match l.after? t with
        | none => [.bad]
        | some l => t :: scan fuel false l rest

/-- The text with every line break written as a single line feed. -/
def unifyBreaks : List Char → List Char
  | [] => []
  | '\r' :: '\n' :: cs => '\n' :: unifyBreaks cs
  | '\r' :: cs => '\n' :: unifyBreaks cs
  | c :: cs => c :: unifyBreaks cs

/-- The text with single line breaks and one at its end. A break of two characters at the end does
not stand for it. -/
def endWithBreak (text : List Char) : List Char :=
  let cs := unifyBreaks text
  let endsInPair := ['\r', '\n'].isSuffixOf text
  if cs.getLast? = some '\n' && !endsInPair then cs else cs ++ ['\n']

/-- The tokens of a text whose lines all end with a line feed. -/
def Token.ofLines (cs : List Char) : List Token :=
  scan (2 * cs.length + 2) true .empty cs

def Token.ofText (text : List Char) : List Token :=
  Token.ofLines (endWithBreak text)

end Xref.Script

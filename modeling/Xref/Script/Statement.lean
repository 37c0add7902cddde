import Xref.Script.ImportStatement
import Xref.Script.Pattern

/-!
# Statements

A statement is a line of simple statements, or a compound one with blocks of its own. What is kept
of a statement is the height of its tree, and what it imports outside of its blocks.
-/

namespace Xref.Script

open Phrase Expression

/-- A statement that was read. -/
structure Statement where
  height : Nat
  imports : List Import

namespace Statement

open Reading

/-- A statement with parts of some heights that imports nothing. -/
def plain (parts : List Nat) : Statement :=
  ⟨greatest parts + 1, []⟩

/-- The height of a list of expressions, or of what a generator gives out. -/
def valueHeight (level : Nat) : Reading Nat := do
  if ← nextIsWord "yield" then return (← yielded read level).height
  else return (← starExpressions read level).height

/-! ## Simple statements -/

/-- The marks of assignments that change a value. -/
def changes : List String :=
  ["+=", "-=", "*=", "@=", "/=", "%=", "&=", "|=", "^=", "<<=", ">>=", "**=", "//="]

/-- The values of an assignment after its first mark: each is a target if another one follows. -/
def assigned (level : Nat) (first : Nat) : Reading (List Nat) := do
  let (heights, _) ← repeated (fun (heights, more) => do
    if more then
      if ← nextIsWord "yield" then
        return some ((← yielded read level).height :: heights, false)
      let p ← starExpressions read level
      let more ← acceptsMark "="
      require (!more || p.isTarget)
      return some (p.height :: heights, more)
    else return none) ([first], true)
  return heights

/-- A statement that starts with an expression: an assignment, or just the expression. -/
def ofExpression (level : Nat) : Reading Statement := do
  let p ← starExpressions read (level + 1)
  if ← acceptsMark "=" then
    require p.isTarget
    return plain (← assigned (level + 3) p.height)
  else if ← acceptsOf (changes.map .mark) then
    require p.isPlace
    return plain [p.height, ← valueHeight (level + 3)]
  else if ← acceptsMark ":" then
    require p.isPlace
    let h ← read .expression (level + 2)
    if ← acceptsMark "=" then
      return plain [p.height, h.height, ← valueHeight (level + 4)]
    else return plain [p.height, h.height]
  else return plain [p.height]

/-- Whether a simple statement ends here. -/
def atEnd : Reading Bool :=
  nextIsOf [.mark ";", .lineEnd]

def deleted (level : Nat) : Reading Statement := do
  let item := do
    let p ← Expression.read .primary (level + 2)
    require p.isErasable
    return p
  let (items, _) ← commaList atEnd item item
  require (← atEnd)
  return plain (items.map Phrase.height)

def names : Reading Statement := do
  let _ ← commaList (pure false) name name
  return plain []

def raised (level : Nat) : Reading Statement := do
  if ← atEnd then return plain []
  let p ← read .expression (level + 1)
  if ← acceptsWord "from" then
    let source ← read .expression (level + 2)
    return plain [p.height, source.height]
  else return plain [p.height]

/-- What is asserted, and what is said otherwise. -/
def asserted (level : Nat) : Reading Statement := do
  let p ← read .expression (level + 1)
  if ← acceptsMark "," then
    let message ← read .expression (level + 2)
    return plain [p.height, message.height]
  else return plain [p.height]

/-- An import, which reaches to the end of its statement. -/
def imported : Reading Statement := do
  let tokens ← ahead
  let isInside := fun t => t ≠ .mark ";" && t ≠ .lineEnd
  match ImportStatement.read? (tokens.takeWhile isInside) with
  | some imports =>
    skip (tokens.takeWhile isInside).length
    return ⟨3, imports⟩
  | none => mismatch

def simple (level : Nat) : Reading Statement := do
  match ← ahead with
  | .word w :: _ =>
    match w with
    | "import" | "from" => imported
    | "pass" | "break" | "continue" => do
      skip 1
      return plain []
    | "return" => do
      skip 1
      if ← atEnd then return plain []
      else return plain [(← starExpressions read (level + 2)).height]
    | "raise" => do
      skip 1
      raised (level + 1)
    | "del" => do
      skip 1
      deleted (level + 1)
    | "yield" => return plain [(← yielded read (level + 2)).height]
    | "assert" => do
      skip 1
      asserted (level + 1)
    | "global" | "nonlocal" => do
      skip 1
      names
    | _ => ofExpression level
  | _ => ofExpression level

/-- A line of simple statements, with semicolons between them. -/
def line (level : Nat) : Reading Statement := do
  let first ← simple (level + 1)
  let (all, _) ← repeated (fun (all, more) => do
    if more then
      if ← nextIs .lineEnd then return none
      let s ← simple (level + 3)
      return some (s :: all, ← acceptsMark ";")
    else return none) ([first], ← acceptsMark ";")
  expect .lineEnd
  return ⟨greatest (all.map height), (all.reverse.map imports).flatten⟩

/-! ## Compound statements -/

/-- The parts of statements that nest. -/
inductive Part
  | block
  /-- What follows the block of a condition: other conditions, or nothing. -/
  | otherwise
  deriving DecidableEq, Repr

/-- Reads a part at a level and gives its height. -/
abbrev ReadPart := Part → Nat → Reading Nat

variable (rec : ReadPart) (level : Nat)

def afterColon : Reading Nat := do
  expectMark ":"
  rec .block level

/-- The block after a word, if the word is there. -/
def afterWord (rec : ReadPart) (w : String) (level : Nat) : Reading Nat := do
  if ← acceptsWord w then afterColon rec (level + 1) else return 0

/-- A condition, its block, and what is done otherwise. -/
def conditional : Reading Nat := do
  let condition ← named read (level + 1)
  let body ← afterColon rec (level + 1)
  let other ← rec .otherwise (level + 1)
  return greatest [condition.height, body, other] + 1

/-- What follows the block of a condition. -/
def otherwise : Reading Nat := do
  if ← acceptsWord "elif" then conditional rec level
  else afterWord rec "else" level

/-- A loop as long as a condition holds. -/
def whileLoop : Reading Nat := do
  let condition ← named read (level + 1)
  let body ← afterColon rec (level + 1)
  let other ← afterWord rec "else" (level + 1)
  return greatest [condition.height, body, other] + 1

def forLoop : Reading Nat := do
  let t ← targets read (level + 1)
  expectWord "in"
  let p ← starExpressions read (level + 1)
  let body ← afterColon rec (level + 1)
  let other ← afterWord rec "else" (level + 1)
  return greatest [t.height, p.height, body, other] + 1

/-- The height of a context, possibly with a target. -/
def context (level : Nat) : Reading Nat := do
  let p ← read .expression (level + 1)
  if ← acceptsWord "as" then
    let t ← target read (level + 1)
    require (← nextIsOf ([",", ")", ":"].map .mark))
    return max p.height t.height + 1
  else return p.height + 1

def bracketedContexts (level : Nat) : Reading Nat := do
  expectMark "("
  let (items, _) ← commaList (nextIs (.mark ")")) (context (level + 1)) (context (level + 2))
  expectMark ")"
  require (← nextIs (.mark ":"))
  return greatest items

def withBlock : Reading Nat := do
  let h ← match ← attempt (bracketedContexts (level + 1)) with
    | some h => pure h
    | none => do
      let (items, _) ← commaList (pure false) (context (level + 2)) (context (level + 3))
      pure (greatest items)
  let body ← afterColon rec (level + 1)
  return max h body + 1

/-- A handler after its first word; all handlers of a block have a star or none has. -/
def handler (hasStar : Bool) : Reading Nat := do
  let star ← acceptsMark "*"
  require (star = hasStar)
  if !star && (← nextIs (.mark ":")) then
    return (← afterColon rec (level + 1)) + 1
  else
    let p ← read .expression (level + 1)
    if ← acceptsWord "as" then
      let _ ← name
    return max p.height (← afterColon rec (level + 1)) + 1

/-- A block with handlers for what it raises, or with an end that is always reached. -/
def tryBlock : Reading Nat := do
  let body ← afterColon rec (level + 1)
  if ← nextIsWord "except" then
    let hasStar := (← ahead)[1]? = some (.mark "*")
    let handlers ← repeated (fun handlers => do
      if ← acceptsWord "except" then
        return some ((← handler rec (level + 2) hasStar) :: handlers)
      else return none) []
    let other ← afterWord rec "else" (level + 1)
    let last ← afterWord rec "finally" (level + 1)
    return greatest (body :: other :: last :: handlers) + 1
  else
    require (← nextIsWord "finally")
    let last ← afterWord rec "finally" (level + 1)
    return max body last + 1

/-- A function, after its first word. -/
def function : Reading Nat := do
  let _ ← name
  expectMark "("
  let ps ← parameters read level true (.mark ")")
  expectMark ")"
  let result ← if ← acceptsMark "->" then
      pure (← read .expression (level + 2)).height
    else pure 0
  let body ← afterColon rec (level + 1)
  return greatest [ps, result, body] + 1

/-- A class, after its first word. -/
def classBlock : Reading Nat := do
  let _ ← name
  let h ← if ← acceptsMark "(" then
      arguments read false (level + 2)
    else pure 0
  let body ← afterColon rec (level + 1)
  return max h body + 1

def definition : Reading Nat := do
  if ← acceptsWord "class" then classBlock rec (level + 1)
  else
    let _ ← acceptsWord "async"
    expectWord "def"
    function rec (level + 1)

/-- Decorators and the definition that they are for. -/
def decorated : Reading Nat := do
  let h ← repeated (fun h => do
    if ← acceptsMark "@" then
      let p ← named read (level + 4)
      expect .lineEnd
      return some (max h p.height)
    else return none) 0
  return max (h + 1) (← definition rec level)

/-- What is matched, with the start of the block of its cases. -/
def subject (level : Nat) : Reading Nat := do
  let (items, comma) ← commaList (nextIs (.mark ":"))
    (starNamed read (level + 1))
    (starNamed read (level + 3))
  require (comma || 1 < items.length || !items.any isStarred)
  expectMark ":"
  expect .lineEnd
  expect .indent
  return (ofList items comma).height

def caseBlock : Reading Nat := do
  expectWord "case"
  let pattern ← Pattern.top
  let guard ← if ← acceptsWord "if" then
      pure (← named read (level + 2)).height
    else pure 0
  let body ← afterColon rec (level + 1)
  return greatest [pattern, guard, body] + 1

/-- The cases of a match, up to the end of their block. -/
def cases : Reading Nat := do
  let heights ← repeated (fun heights => do
    if heights.isEmpty || !(← nextIs .dedent) then
      return some ((← caseBlock rec level) :: heights)
    else return none) []
  expect .dedent
  return greatest heights

/-- A statement that starts with a word that may be a name: a match if what follows is one. -/
def matchOr (other : Reading Statement) : Reading Statement := do
  let header := do
    expectWord "match"
    subject (level + 1)
  match ← attempt header with
  | some h => return plain [h, ← cases rec (level + 2)]
  | none => other

/-- A statement; the level is that of the list of statements which it is part of. -/
def statement : Reading Statement := do
  let compound (r : Reading Nat) : Reading Statement := do
    return ⟨← r, []⟩
  match ← ahead with
  | .mark "@" :: _ => compound (decorated rec (level + 4))
  | .word w :: _ =>
    let after (r : Reading Nat) : Reading Statement := do
      skip 1
      compound r
    match w with
    | "if" => after (conditional rec (level + 4))
    | "while" => after (whileLoop rec (level + 4))
    | "for" => after (forLoop rec (level + 4))
    | "with" => after (withBlock rec (level + 4))
    | "try" => after (tryBlock rec (level + 4))
    | "def" => after (function rec (level + 5))
    | "class" => after (classBlock rec (level + 5))
    | "async" => after do
      if ← acceptsWord "def" then function rec (level + 5)
      else if ← acceptsWord "for" then forLoop rec (level + 4)
      else
        expectWord "with"
        withBlock rec (level + 4)
    | "match" => matchOr rec (level + 4) (line (level + 3))
    | _ => line (level + 3)
  | _ => line (level + 3)

/-- Statements up to the end of their block or of the text. -/
def statements : Reading Statement := do
  let all ← repeated (fun all => do
    if (← ahead).isEmpty || (← nextIs .dedent) then return none
    else return some ((← statement rec level) :: all)) []
  return ⟨greatest (all.map height), (all.reverse.map imports).flatten⟩

/-- A block: the rest of a line, or statements with a greater margin. -/
def block : Reading Nat := do
  if ← accepts .lineEnd then
    expect .indent
    let s ← statements rec (level + 1)
    expect .dedent
    return s.height
  else return (← line (level + 1)).height

/-! ## The recursion -/

def step (rec : ReadPart) : ReadPart
  | .block => block rec
  | .otherwise => otherwise rec

/-- Reads a part. Each one within another starts at a higher level, so that the fuel lasts for the
height of the stack. -/
def readWith : Nat → ReadPart
  | 0, _, _ => halt .overflow
  | fuel + 1, part, level =>
    if maxLevel < level then halt .overflow else step (readWith fuel) part level

def readAll : Reading Statement := do
  let s ← statements (readWith (maxLevel + 1)) 2
  require (← ahead).isEmpty
  return s

end Statement

/-! ## Scripts

Of a whole script only what it imports outside of blocks is of interest, but nothing is imported by
a text that is no script. -/

/-- Why a text gives no imports. -/
inductive Refusal
  /-- It is no script. -/
  | malformed
  /-- It nests too deeply to be read. -/
  | overflow
  /-- The tree of the script is too high to be kept. -/
  | tooHigh
  deriving DecidableEq, Repr

/-- How high the tree of a script may be. -/
def maxHeight : Nat := 2970

/-- What a script imports outside of its blocks. -/
def imports (text : List Char) : Except Refusal (List Import) :=
  match Statement.readAll (Token.ofText text) with
  | .error .mismatch => .error .malformed
  | .error .overflow => .error .overflow
  | .ok (s, _) => if s.height < maxHeight then .ok s.imports else .error .tooHigh

end Xref.Script

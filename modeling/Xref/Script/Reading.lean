/-!
# Reading tokens

A script is a sequence of tokens. A reading takes tokens from the front of a list, and leaves the
last of them. It stops where the tokens do not match, or where the constructs of the script nest too
deeply to be read. Every construct takes a number of levels of a stack whose height is bounded.
-/

namespace Xref.Script

/-- A quoted text: its letters before the quote say what it is, and `body` stands between the
quotes. -/
structure Quote where
  isBytes : Bool
  isRaw : Bool
  isFormat : Bool
  body : List Char
  deriving DecidableEq, Repr

/-- A token. -/
inductive Token
  | word (text : String)
  | number (isImaginary : Bool)
  | quote (q : Quote)
  | mark (text : String)
  | lineEnd
  | indent
  | dedent
  /-- From here on the text cannot be cut into tokens. -/
  | bad
  deriving DecidableEq, Repr

/-- Words that cannot be names. -/
def keywords : List String :=
  ["False", "None", "True", "and", "as", "assert", "async", "await", "break", "class", "continue",
   "def", "del", "elif", "else", "except", "finally", "for", "from", "global", "if", "import", "in",
   "is", "lambda", "nonlocal", "not", "or", "pass", "raise", "return", "try", "while", "with",
   "yield"]

/-- Why a reading stops. -/
inductive Stop
  | mismatch
  | overflow
  deriving DecidableEq, Repr

/-- How many levels the stack has. -/
def maxLevel : Nat := 6000

/-- What a reading of some tokens can leave: the last of them. -/
abbrev Rest (tokens : List Token) := { rest : List Token // rest <:+ tokens }

def Reading (α : Type) := (tokens : List Token) → Except Stop (α × Rest tokens)

namespace Reading

@[always_inline]
instance : Monad Reading where
  pure a := fun tokens => .ok (a, ⟨tokens, List.suffix_rfl⟩)
  bind r f := fun tokens =>
    match r tokens with
    | .error stop => .error stop
    | .ok (a, rest) =>
      match f a rest.val with
      | .error stop => .error stop
      | .ok (b, last) => .ok (b, ⟨last.val, last.property.trans rest.property⟩)

/-- The tokens that have not been taken. -/
def ahead : Reading (List Token) := fun tokens =>
  .ok (tokens, ⟨tokens, List.suffix_rfl⟩)

/-- Takes some tokens, whatever they are. -/
def skip (count : Nat) : Reading Unit := fun tokens =>
  .ok ((), ⟨tokens.drop count, List.drop_suffix count tokens⟩)

def halt (stop : Stop) : Reading α := fun _ =>
  .error stop

/-- The tokens do not match. -/
def mismatch : Reading α :=
  halt .mismatch

/-- Matches only if a condition holds. -/
def require (condition : Bool) : Reading Unit :=
  if condition then pure () else mismatch

def nextIs (t : Token) : Reading Bool := do
  return (← ahead).head? = some t

def nextIsOf (ts : List Token) : Reading Bool := do
  return (← ahead).head?.any ts.contains

/-- Takes the next token if it is the given one, and says whether it was. -/
def accepts (t : Token) : Reading Bool := do
  match ← ahead with
  | head :: _ =>
    if head = t then
      skip 1
      return true
    else return false
  | [] => return false

/-- Takes the next token if it is one of some, and says whether it was. -/
def acceptsOf (ts : List Token) : Reading Bool := do
  match ← ahead with
  | head :: _ =>
    if ts.contains head then
      skip 1
      return true
    else return false
  | [] => return false

def expect (t : Token) : Reading Unit := do
  require (← accepts t)

def isName (word : String) : Bool :=
  !keywords.contains word

def name : Reading String := do
  match ← ahead with
  | .word w :: _ =>
    require (isName w)
    skip 1
    return w
  | _ => mismatch

/-- Whether a name and then the given token come next. -/
def nameBefore (t : Token) : Reading Bool := do
  match ← ahead with
  | .word w :: next :: _ => return isName w && next = t
  | _ => return false

/-- What a reading gives; if it does not match, no token is taken. -/
def attempt (r : Reading α) : Reading (Option α) := fun tokens =>
  match r tokens with
  | .ok (a, rest) => .ok (some a, rest)
  | .error .mismatch => .ok (none, ⟨tokens, List.suffix_rfl⟩)
  | .error .overflow => .error .overflow

/-- Repeats a step from a value as long as it gives a new one, at most as often as there are
tokens. -/
def iterate (step : α → Reading (Option α)) : List Token → α → Reading α
  | [], a => pure a
  | _ :: fuel, a => do
    match ← step a with
    | some b => iterate step fuel b
    | none => return a

/-- Repeats a step from a value as long as it takes tokens and gives a new value. -/
def repeated (step : α → Reading (Option α)) (a : α) : Reading α := do
  iterate step (← ahead) a

/-- The results of a reading and of its repetitions after commas. A last comma is allowed before a
token that `ends` accepts. -/
def commaList (ends : Reading Bool) (first others : Reading α) : Reading (List α × Bool) := do
  let a ← first
  let (items, comma) ← repeated (fun (items, comma) => do
    if comma then
      if ← ends then return none
      let b ← others
      return some (b :: items, ← accepts (.mark ","))
    else return none) ([a], ← accepts (.mark ","))
  return (items.reverse, comma)

end Reading

end Xref.Script

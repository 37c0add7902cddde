import Xref.Script.Expression

/-!
# Patterns

The patterns of a case. They nest only in brackets, so that they never exceed the stack; what is
kept of one is the height of its tree.
-/

namespace Xref.Script.Pattern

open Reading

abbrev ReadPattern := Reading Nat

/-- A name that a value is bound to: any but the one that stands for nothing. -/
def binder : Reading Unit := do
  let w ← name
  require (w ≠ "_")
  require (!(← nextIsOf ([".", "(", "="].map .mark)))

/-- A number, which says whether it is imaginary. -/
def number : Reading Bool := do
  match ← ahead with
  | .number isImaginary :: _ =>
    skip 1
    return isImaginary
  | _ => mismatch

/-- The height of a number with a sign, or of a sum of a real and an imaginary one. -/
def signedNumber : Reading Nat := do
  let sign ← acceptsMark "-"
  let isImaginary ← number
  let h := if sign then 2 else 1
  if ← acceptsOf (["+", "-"].map .mark) then
    require !isImaginary
    require (← number)
    return h + 1
  else return h

/-- The height of a name with members behind it. -/
def dotted : Reading Nat := do
  let _ ← name
  repeated (fun h => do
    if ← acceptsMark "." then
      let _ ← name
      return some (h + 1)
    else return none) 1

/-- The height of a literal, if the next token starts one. -/
def literal? : Reading (Option Nat) := do
  match ← ahead with
  | .number _ :: _ => return some (← signedNumber)
  | .mark "-" :: _ => return some (← signedNumber)
  | .quote _ :: _ => return some (← Expression.quotes Expression.read).height
  | .word w :: _ =>
    if ["None", "True", "False"].contains w then
      skip 1
      return some 1
    else return none
  | _ => return none

/-- The parts before a closing mark, each followed by a comma or by the mark. -/
def partsBefore (closing : String) (part : Reading Nat) : Reading Nat := do
  let (h, _) ← repeated (fun (h, comma) => do
    if comma then
      if ← nextIs (.mark closing) then return none
      let p ← part
      return some (max h p, ← acceptsMark ",")
    else return none) (0, true)
  expectMark closing
  return h

/-- A pattern for the rest of a sequence. -/
def star : Reading Nat := do
  expectMark "*"
  if !(← acceptsWord "_") then binder
  return 1

variable (pattern : ReadPattern)

/-- A part of a sequence. -/
def starOr : Reading Nat := do
  if ← nextIs (.mark "*") then star else pattern

/-- What stands in round brackets, after the first: a pattern, or a sequence. -/
def round : Reading Nat := do
  if ← acceptsMark ")" then return 1
  let isStar ← nextIs (.mark "*")
  let first ← starOr pattern
  if ← acceptsMark "," then
    return max first (← partsBefore ")" (starOr pattern)) + 1
  require !isStar
  expectMark ")"
  return first

/-- An entry of a pattern for a dictionary: a literal or dotted key with a pattern. -/
def entry : Reading Nat := do
  let key ← match ← literal? with
    | some h => pure h
    | none =>
      let h ← dotted
      require (1 < h)
      pure h
  expectMark ":"
  return max key (← pattern)

/-- What stands in braces, after the first. The rest of the entries can be bound at the end. -/
def braces : Reading Nat := do
  let (h, _, _) ← repeated (fun (h, comma, isLast) => do
    if comma then
      if ← nextIs (.mark "\x7d") then return none
      require !isLast
      if ← acceptsMark "**" then
        binder
        return some (h, ← acceptsMark ",", true)
      let p ← entry pattern
      return some (max h p, ← acceptsMark ",", false)
    else return none) (0, true, false)
  expectMark "\x7d"
  return h + 1

/-- The patterns for the members of an object, after the opening bracket; named ones come last. -/
def members : Reading Nat := do
  let (h, _, _) ← repeated (fun (h, comma, hasNames) => do
    if comma then
      if ← nextIs (.mark ")") then return none
      if ← nameBefore (.mark "=") then
        let _ ← name
        expectMark "="
        return some (max h (← pattern), ← acceptsMark ",", true)
      require !hasNames
      return some (max h (← pattern), ← acceptsMark ",", false)
    else return none) (0, true, false)
  expectMark ")"
  return h

/-- A pattern that starts with a name: one for all values, one that binds, a value, or an object. -/
def ofName : Reading Nat := do
  if ← acceptsWord "_" then return 1
  let h ← dotted
  if ← acceptsMark "(" then return max h (← members pattern) + 1
  require (!(← nextIsOf ([".", "="].map .mark)))
  return if h = 1 then 1 else h + 1

/-- A pattern that needs no brackets around it. -/
def closed : Reading Nat := do
  match ← literal? with
  | some h => return h + 1
  | none =>
    if ← acceptsMark "(" then round pattern
    else if ← acceptsMark "[" then return (← partsBefore "]" (starOr pattern)) + 1
    else if ← acceptsMark "\x7b" then braces pattern
    else ofName pattern

def alternatives : Reading Nat := do
  let first ← closed pattern
  let heights ← repeated (fun heights => do
    if ← acceptsMark "|" then return some ((← closed pattern) :: heights)
    else return none) [first]
  return if heights.length = 1 then first else Phrase.greatest heights + 1

/-- A pattern, possibly bound to a name. -/
def step : ReadPattern := do
  let h ← alternatives pattern
  if ← acceptsWord "as" then
    binder
    return h + 1
  else return h

/-- Reads a pattern. The fuel bounds how deeply patterns nest. -/
def readWith : Nat → ReadPattern
  | 0 => halt .overflow
  | fuel + 1 => step (readWith fuel)

def read : ReadPattern :=
  readWith maxLevel

/-- The height of what stands after the first word of a case: a pattern, or a sequence without
brackets. -/
def top : Reading Nat := do
  let isStar ← nextIs (.mark "*")
  let first ← starOr read
  if ← acceptsMark "," then
    let (h, _) ← repeated (fun (h, comma) => do
      if comma then
        if ← nextIsOf [.mark ":", .word "if"] then return none
        let p ← starOr read
        return some (max h p, ← acceptsMark ",")
      else return none) (first, true)
    return h + 1
  require !isStar
  return first

end Xref.Script.Pattern

import Xref.Script.Phrase
import Xref.Script.Quote

/-!
# Expressions

Expressions are read by recursive descent. The categories that lead back to themselves are read
through a parameter, so that every function here is about one construct; `Expression.read` closes
the recursion. The second argument of a function is the level of the stack at which its construct
starts.
-/

namespace Xref.Script

open Phrase

/-- The categories of expressions that nest. -/
inductive Category
  | expression
  | inversion
  | factor
  | primary
  deriving DecidableEq, Repr

/-- Reads an expression of a category at a level. -/
abbrev ReadCategory := Category → Nat → Reading Phrase

namespace Expression

open Reading

variable (rec : ReadCategory) (level : Nat)

/-! ## Operators -/

/-- The operators between factors, those that bind closest first. -/
def operators : List (List String) :=
  [["*", "/", "//", "%", "@"], ["+", "-"], ["<<", ">>"], ["&"], ["^"], ["|"]]

/-- Factors with operators between them. -/
def arithmetic : Reading Phrase :=
  operators.foldl (fun operand ops => leftChain ops operand) (rec .factor (level + 12))

/-- Takes an operator that compares, and says whether there was one. -/
def acceptsComparison : Reading Bool := do
  if ← acceptsOf (["==", "!=", "<=", "<", ">=", ">"].map .mark) then return true
  match ← ahead with
  | .word "in" :: _ =>
    skip 1
    return true
  | .word "not" :: .word "in" :: _ =>
    skip 2
    return true
  | .word "is" :: .word "not" :: _ =>
    skip 2
    return true
  | .word "is" :: _ =>
    skip 1
    return true
  | _ => return false

def comparison : Reading Phrase :=
  flatChain acceptsComparison (arithmetic rec (level + 1)) (arithmetic rec (level + 4))

/-- A negation or a comparison. -/
def inversion : Reading Phrase := do
  if ← acceptsWord "not" then
    let p ← rec .inversion (level + 1)
    return .value [p.height]
  else comparison rec (level + 1)

/-- What holds together with something else. -/
def conjunction : Reading Phrase :=
  flatChain (acceptsWord "and") (rec .inversion (level + 1)) (rec .inversion (level + 3))

/-- One of several that hold. -/
def disjunction : Reading Phrase :=
  flatChain (acceptsWord "or") (conjunction rec (level + 1)) (conjunction rec (level + 3))

/-! ## Lists of expressions -/

/-- Whether a name is bound in the midst of an expression here. -/
def atBinding : Reading Bool :=
  nameBefore (.mark ":=")

/-- An expression, possibly bound to a name. -/
def named : Reading Phrase := do
  if ← atBinding then
    let _ ← name
    expectMark ":="
    let p ← rec .expression (level + 2)
    return .value [p.height]
  else rec .expression (level + 1)

/-- An expression, possibly bound to a name, or several in one after a star. -/
def starNamed : Reading Phrase := do
  if ← acceptsMark "*" then return (← arithmetic rec (level + 1)).starred
  else named rec (level + 1)

/-- An expression, or several in one after a star. -/
def starExpression : Reading Phrase := do
  if ← acceptsMark "*" then return (← arithmetic rec (level + 1)).starred
  else rec .expression (level + 1)

def starExpressions : Reading Phrase := do
  let (items, comma) ←
    commaList atListEnd (starExpression rec (level + 1)) (starExpression rec (level + 3))
  return .ofList items comma

/-- What a generator gives out. -/
def yielded : Reading Phrase := do
  expectWord "yield"
  if ← acceptsWord "from" then
    let p ← rec .expression (level + 1)
    return .value [p.height]
  else if ← atListEnd then return .value []
  else
    let p ← starExpressions rec (level + 1)
    return .value [p.height]

/-! ## Parameters -/

/-- What parameters came before. -/
structure Parameters where
  /-- The heights of all hints and defaults. -/
  heights : List Nat := []
  hasDefault : Bool := false
  hasSlash : Bool := false
  hasStar : Bool := false
  /-- A star stood alone, and no parameter has followed it. -/
  isOpen : Bool := false
  /-- No parameter may follow. -/
  isClosed : Bool := false
  /-- The last parameter was followed by a comma, or there is none. -/
  canFollow : Bool := true

/-- A hint after a colon, if hints are allowed and there is one; `stars` allows a star before it. -/
def hint (hints stars : Bool) : Reading Nat := do
  if hints then
    if ← acceptsMark ":" then
      let p ← if stars then starExpression rec level else rec .expression (level + 1)
      return p.height + 1
    else return 1
  else return 1

def plainParameter (hints : Bool) (ps : Parameters) : Reading Parameters := do
  let _ ← name
  let h ← hint rec (level + 7) hints false
  if ← acceptsMark "=" then
    let d ← rec .expression (level + 7)
    return { ps with
      heights := d.height :: h :: ps.heights, hasDefault := true, isOpen := false }
  else
    require (ps.hasStar || !ps.hasDefault)
    return { ps with heights := h :: ps.heights, isOpen := false }

/-- What follows a star among parameters: a parameter for all others, or nothing. -/
def starParameter (hints : Bool) (ps : Parameters) : Reading Parameters := do
  require (!ps.hasStar)
  if ← nextIs (.mark ",") then return { ps with hasStar := true, isOpen := true }
  else
    let _ ← name
    let h ← hint rec (level + 5) hints true
    return { ps with heights := h :: ps.heights, hasStar := true }

def lastParameter (hints : Bool) (ps : Parameters) : Reading Parameters := do
  require (!ps.isOpen)
  let _ ← name
  let h ← hint rec (level + 5) hints false
  return { ps with heights := h :: ps.heights, isClosed := true }

/-- A parameter, or a mark that stands for one. -/
def parameter (hints : Bool) (ps : Parameters) : Reading Parameters := do
  require (ps.canFollow && !ps.isClosed)
  if ← acceptsMark "/" then
    require (!ps.hasSlash && !ps.hasStar && !ps.heights.isEmpty)
    return { ps with hasSlash := true }
  else if ← acceptsMark "*" then starParameter rec level hints ps
  else if ← acceptsMark "**" then lastParameter rec level hints ps
  else plainParameter rec level hints ps

/-- The height of the parameters before a token that ends them. -/
def parameters (hints : Bool) (ending : Token) : Reading Nat := do
  let ps ← repeated (fun ps => do
    if ← nextIs ending then return none
    let ps ← parameter rec level hints ps
    return some { ps with canFollow := ← acceptsMark "," }) {}
  require (!ps.isOpen)
  return greatest ps.heights + 1

/-- A function without a name, after its first word. -/
def lambda : Reading Phrase := do
  let ps ← parameters rec (level + 1) false (.mark ":")
  expectMark ":"
  let body ← rec .expression (level + 2)
  return .value [ps, body.height]

/-- An expression: a choice by a condition, or a function without a name. -/
def expression : Reading Phrase := do
  if ← acceptsWord "lambda" then lambda rec level
  else
    let p ← disjunction rec (level + 1)
    if ← acceptsWord "if" then
      let condition ← disjunction rec (level + 1)
      expectWord "else"
      let other ← rec .expression (level + 1)
      return .value [p.height, condition.height, other.height]
    else return p

/-! ## Brackets -/

def itemsBefore (closing : String) (first : List Phrase) (others : Reading Phrase) :
    Reading (List Phrase) := do
  let (items, _) ← repeated (fun (items, comma) => do
    if comma then
      if ← nextIs (.mark closing) then return none
      let p ← others
      return some (p :: items, ← acceptsMark ",")
    else return none) (first, ← acceptsMark ",")
  expectMark closing
  return items.reverse

def atComprehension : Reading Bool := do
  match ← ahead with
  | .word "for" :: _ => return true
  | .word "async" :: .word "for" :: _ => return true
  | _ => return false

/-- A target of an assignment that stands before its value: a primary expression that values can be
put into, with or without a star. -/
def target : Reading Phrase := do
  let star ← acceptsMark "*"
  let p ← rec .primary (level + 2)
  require p.isTarget
  return if star then p.starred else p

/-- Targets with commas between them. -/
def targets : Reading Phrase := do
  let (items, comma) ← commaList atListEnd (target rec (level + 1)) (target rec (level + 3))
  return .ofList items comma

/-- The height of the clauses of a comprehension. -/
def clauses : Reading Nat := do
  let heights ← repeated (fun heights => do
    if ← atComprehension then
      let _ ← acceptsWord "async"
      expectWord "for"
      let t ← targets rec (level + 3)
      expectWord "in"
      let source ← disjunction rec (level + 3)
      let conditions ← repeated (fun conditions => do
        if ← acceptsWord "if" then
          let c ← disjunction rec (level + 5)
          return some (c.height :: conditions)
        else return none) []
      return some ((greatest (t.height :: source.height :: conditions) + 1) :: heights)
    else return none) []
  return greatest heights

/-- What stands in round brackets, after the first. -/
def round : Reading Phrase := do
  if ← acceptsMark ")" then return .list []
  if ← nextIsWord "yield" then
    let p ← yielded rec (level + 4)
    expectMark ")"
    return p
  let first ← starNamed rec (level + 4)
  if ← atComprehension then
    require (!first.isStarred)
    let h ← clauses rec (level + 3)
    expectMark ")"
    return .value [first.height, h]
  if ← nextIs (.mark ",") then
    return .list (← itemsBefore ")" [first] (starNamed rec (level + 6)))
  expectMark ")"
  require (!first.isStarred)
  return first

/-- What stands in square brackets that make a list, after the first. -/
def square : Reading Phrase := do
  if ← acceptsMark "]" then return .list []
  let first ← starNamed rec (level + 5)
  if ← atComprehension then
    require (!first.isStarred)
    let h ← clauses rec (level + 3)
    expectMark "]"
    return .value [first.height, h]
  return .list (← itemsBefore "]" [first] (starNamed rec (level + 6)))

/-- An entry of a dictionary: a key with a value, or several entries in one after two stars. -/
def entry : Reading Phrase := do
  if ← acceptsMark "**" then arithmetic rec (level + 1)
  else
    let key ← rec .expression (level + 2)
    expectMark ":"
    let p ← rec .expression (level + 2)
    return .list [key, p]

/-- The entries of a dictionary before its end, after the first one. -/
def entries (first : Phrase) : Reading Phrase := do
  let items ← itemsBefore "\x7d" [first] (entry rec (level + 6))
  return .value (items.map height)

/-- What stands in braces, after the first. -/
def braces : Reading Phrase := do
  if ← acceptsMark "\x7d" then return .value []
  if ← nextIs (.mark "**") then
    entries rec level (← entry rec (level + 5))
  else
    let isBound ← atBinding
    let first ← starNamed rec (level + 5)
    let isKey ← if isBound || first.isStarred then pure false else acceptsMark ":"
    let second ← if isKey then rec .expression (level + 7) else pure first
    let height := max first.height second.height
    if ← atComprehension then
      require (!first.isStarred)
      let h ← clauses rec (level + 3)
      expectMark "\x7d"
      return .value [height, h]
    if isKey then entries rec level { second with height }
    else
      let items ← itemsBefore "\x7d" [first] (starNamed rec (level + 6))
      return .value (items.map Phrase.height)

/-! ## Quoted texts -/

/-- The height of the fields of a format text. Their expressions are read from their own text, in
brackets. -/
def fieldsHeight (rec : ReadCategory) : List Field → Reading Nat
  | [] => pure 1
  | ⟨text, hasFormat, inner⟩ :: fields => do
    let tokens := Token.ofLines ('(' :: text ++ [')', '\n'])
    let p ← match starExpressions rec 2 tokens with
      | .ok (p, _) => pure p
      | .error stop => halt stop
    let format ← fieldsHeight rec inner
    let h ← fieldsHeight rec fields
    return max h (max p.height (if hasFormat then format + 1 else 0) + 1)

/-- Quoted texts, which are joined. -/
def quotes (rec : ReadCategory) : Reading Phrase := do
  let qs ← repeated (fun qs => do
    match ← ahead with
    | .quote q :: _ =>
      skip 1
      return some (q :: qs)
    | _ => return none) []
  require (qs.all Quote.isBytes || qs.all fun q => !q.isBytes)
  let heights ← qs.reverse.mapM fun q => do
    match q.fields? with
    | some fields => fieldsHeight rec fields
    | none => mismatch
  return .value (if qs.any Quote.isFormat then heights else [])

/-! ## Primary expressions -/

/-- An expression that is no operation. -/
def atom : Reading Phrase := do
  if maxLevel < level then halt .overflow
  match ← ahead with
  | .word w :: _ =>
    if ["None", "True", "False"].contains w then
      skip 1
      return .value []
    else
      let _ ← name
      return .place []
  | .number _ :: _ =>
    skip 1
    return .value []
  | .quote _ :: _ => quotes rec
  | .mark "..." :: _ =>
    skip 1
    return .value []
  | .mark "(" :: _ =>
    skip 1
    round rec level
  | .mark "[" :: _ =>
    skip 1
    square rec level
  | .mark "\x7b" :: _ =>
    skip 1
    braces rec level
  | _ => mismatch

/-- What kind of arguments may follow those of a call that came before. -/
inductive ArgumentPhase
  | positional
  | keyword
  | doubleStar
  deriving DecidableEq, Repr

/-- An argument of a call. The level of one with a name or a star is given beside that of a plain
one. -/
def argument (rec : ReadCategory) (level markedLevel : Nat) (phase : ArgumentPhase) :
    Reading (Phrase × ArgumentPhase) := do
  if ← acceptsMark "*" then
    require (phase ≠ .doubleStar)
    return ((← rec .expression (markedLevel + 1)).starred, phase)
  else if ← acceptsMark "**" then
    return ((← rec .expression (markedLevel + 1)).starred, .doubleStar)
  else if ← nameBefore (.mark "=") then
    let _ ← name
    expectMark "="
    let p ← rec .expression (markedLevel + 1)
    return (.value [p.height], if phase = .positional then .keyword else phase)
  else
    require (phase = .positional)
    return (← named rec level, phase)

/-- The height of the arguments of a call and of their closing bracket. A comprehension can be the
only argument of a call that `comprehends`. -/
def arguments (rec : ReadCategory) (comprehends : Bool) (level : Nat) : Reading Nat := do
  if ← acceptsMark ")" then return 0
  let (first, phase) ← argument rec (level + 1) (level + 4) .positional
  if comprehends && phase = .positional && !first.isStarred && (← atComprehension) then
    let h ← clauses rec (level + 1)
    expectMark ")"
    return (value [first.height, h]).height
  let (heights, _, _) ← repeated (fun (heights, phase, comma) => do
    if comma then
      if ← nextIs (.mark ")") then return none
      let (p, phase) ← argument rec (level + 5) (level + 5) phase
      return some (p.height :: heights, phase, ← acceptsMark ",")
    else return none) ([first.height], phase, ← acceptsMark ",")
  expectMark ")"
  return greatest heights

/-- A bound of a slice, if there is one. -/
def bound : Reading Nat := do
  if ← nextIsOf ([":", ",", "]"].map .mark) then return 0
  else return (← rec .expression level).height

/-- What a slice is after its first colon. -/
def afterColon (rec : ReadCategory) (level lower : Nat) : Reading Phrase := do
  let upper ← bound rec (level + 1)
  let step ← if ← acceptsMark ":" then bound rec (level + 2) else pure 0
  return .value [lower, upper, step]

/-- An item of a subscript: a slice, or an expression. -/
def slice : Reading Phrase := do
  if ← acceptsMark "*" then return (← rec .expression (level + 2)).starred
  else if ← acceptsMark ":" then afterColon rec level 0
  else
    let isBound ← atBinding
    let p ← named rec level
    if isBound then return p
    else if ← acceptsMark ":" then afterColon rec level p.height
    else return p

/-- The height of a subscript and its closing bracket. -/
def subscript : Reading Nat := do
  let first ← slice rec (level + 1)
  if ← nextIs (.mark ",") then
    return (list (← itemsBefore "]" [first] (slice rec (level + 4)))).height
  expectMark "]"
  return if first.isStarred then first.height + 1 else first.height

/-- An expression with members, calls and items behind it. -/
def primary : Reading Phrase := do
  let first ← atom rec (level + 2)
  repeated (fun p => do
    if ← acceptsMark "." then
      let _ ← name
      return some (.place [p.height])
    else if ← acceptsMark "(" then
      let h ← arguments rec true (level + 2)
      return some (.value [p.height, h])
    else if ← acceptsMark "[" then
      let h ← subscript rec (level + 2)
      return some (.place [p.height, h])
    else return none) first

/-- A factor: a signed one, or a power. -/
def factor : Reading Phrase := do
  if ← acceptsOf (["+", "-", "~"].map .mark) then
    let p ← rec .factor (level + 1)
    return .value [p.height]
  else
    let isAwaited ← acceptsWord "await"
    let p ← rec .primary (level + 3)
    let p := if isAwaited then .value [p.height] else p
    if ← acceptsMark "**" then
      let exponent ← rec .factor (level + 2)
      return .value [p.height, exponent.height]
    else return p

/-! ## The recursion -/

def step (rec : ReadCategory) : ReadCategory
  | .expression => expression rec
  | .inversion => inversion rec
  | .factor => factor rec
  | .primary => primary rec

/-- Reads an expression of a category. Each one within another starts at a higher level, so that the
fuel lasts for the height of the stack. -/
def readWith : Nat → ReadCategory
  | 0, _, _ => halt .overflow
  | fuel + 1, category, level =>
    if maxLevel < level then halt .overflow else step (readWith fuel) category level

def read : ReadCategory :=
  readWith (maxLevel + 1)

end Expression

end Xref.Script

import Xref.Outline.Basic
import Xref.Script.Reading
import Xref.Text.Dotted
import Xref.Text.NormalForm

/-!
# Import statements

Two statements import names: `import a.b as c, d` and `from ..a import b as c, d`, the names of the
second possibly in brackets. Each statement is read by cutting its tokens at the separators.
-/

namespace Xref.Script.ImportStatement

open Text

/-- The name that a single token stands for, in its normal form. A keyword is one as it is
written. -/
def soleName? : List Token → Option String
  | [.word s] => if keywords.contains s then none else some (normalForm s)
  | _ => none

def dottedName? (tokens : List Token) : Option String :=
  ((splitAt (.mark ".") tokens).mapM soleName?).map Dotted.join

/-- What stands before and after the word `as`, if that word is there. -/
def renamed? (read : List Token → Option String) (tokens : List Token) :
    Option (String × Option String) :=
  match splitAt (.word "as") tokens with
  | [name] => (read name).map fun n => (n, none)
  | [name, localName] => do
    let n ← read name
    let l ← soleName? localName
    return (n, some l)
  | _ => none

/-- The parts between commas, a last empty one left out. -/
def commaList (tokens : List Token) : List (List Token) :=
  let parts := splitAt (.mark ",") tokens
  if 2 ≤ parts.length && parts.getLast? = some [] then parts.dropLast else parts

/-- The names after the word `import` of a `from` statement: all, some in brackets, or some. -/
def importedNames? : List Token → Option (List (String × Option String))
  | [.mark "*"] => some [("*", none)]
  | .mark "(" :: tokens =>
    if tokens.getLast? = some (.mark ")") then
      (commaList tokens.dropLast).mapM (renamed? soleName?)
    else none
  | tokens => (splitAt (.mark ",") tokens).mapM (renamed? soleName?)

/-- The level and module of a `from` statement: at least one of dots and a dotted name. -/
def origin? (tokens : List Token) : Option (Nat × String) :=
  let level := (tokens.takeWhile (· = .mark ".")).length
  match tokens.drop level with
  | [] => if level = 0 then none else some (level, "")
  | rest => (dottedName? rest).map fun name => (level, name)

/-- The tokens with three dots for each mark that is three dots at once. -/
def singleDots (tokens : List Token) : List Token :=
  tokens.flatMap fun t => if t = .mark "..." then List.replicate 3 (.mark ".") else [t]

/-- The imports of one statement. -/
def read? : List Token → Option (List Import)
  | .word "import" :: tokens => do
    let names ← (splitAt (.mark ",") tokens).mapM (renamed? dottedName?)
    return names.map fun n => ⟨n.1, none, n.2, 0⟩
  | .word "from" :: tokens =>
    match splitAt (.word "import") tokens with
    | [origin, names] => do
      let (level, source) ← origin? (singleDots origin)
      let names ← importedNames? names
      return names.map fun n => ⟨source, some n.1, n.2, level⟩
    | _ => none
  | _ => none

end Xref.Script.ImportStatement

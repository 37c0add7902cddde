import Xref.Diagnostic
import Xref.Number.Integer

/-!
# Faults

What stops an operation on an index.
-/

namespace Xref

/-- How many calls the stack of the host holds. It is the one limit on recursion; all others follow
from it. -/
def stackLimit : Nat := 1000

/-- How many levels deep a recursion may go that begins with some calls open and opens some at each
level. -/
def stackRoom (opened perLevel : Nat) : Nat :=
  (stackLimit - opened) / perLevel

/-- Why an operation stops. -/
inductive Fault
  /-- An assignment names a lambda that no walked item declares. -/
  | unknownLambda (id : String)
  /-- A binding or class refers to a definition that a redeclaration discarded. -/
  | lostDefinition
  /-- A class outside the hierarchy was asked for. -/
  | unknownClass (id : String)
  /-- Calling a value leads back to calling it, without end, or through too many others. -/
  | endlessCall
  /-- A written type, the items of a file or a value that stands for one nest too deeply, or too
  many classes wait for their bases. -/
  | tooDeep
  /-- The place of a lambda, or a value that stands for an item, has too long an integer for a
  text. -/
  | integerTooLong
  | noFiles
  | lastFile
  | cancelled (done total : Nat)
  | unknownFile (path : String)
  | unknownSite (id : String)
  deriving DecidableEq, Repr

def Fault.message : Fault → String
  | unknownLambda id => id
  | lostDefinition => "definition was discarded"
  | unknownClass id => "class is not in the hierarchy: " ++ id
  | endlessCall => "calling the value never ends"
  | tooDeep => "types, items or classes nest too deeply"
  | integerTooLong => Number.unwritableMessage
  | noFiles => "build_index needs at least one file"
  | lastFile => "Cannot remove the last indexed file"
  | cancelled done total =>
    "Build cancelled after " ++ toString done ++ " of " ++ toString total ++ " files"
  | unknownFile path => "File is not indexed: " ++ path
  | unknownSite id => "Unknown call site: " ++ id

end Xref

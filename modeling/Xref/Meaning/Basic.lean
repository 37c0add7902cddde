import Xref.Catalog.Basic
import Xref.Fault

/-!
# Meanings

What an expression denotes, as far as the catalog tells: a definition, an object of a known class,
something outside the index, a package, or nothing known. Finding a meaning leaves a trail of the
names that were consulted.
-/

namespace Xref

/-- What an expression denotes. -/
inductive Meaning
  /-- A definition; for a value made outside the index, also the name of its maker. -/
  | definition (id : DefId) (maker : Option String)
  /-- An object of a class, and the definition that holds it. -/
  | object (type : DefId) (holder : Option DefId)
  /-- Something outside the index. -/
  | external (qualname : String)
  /-- A package without a module of its own. -/
  | package (qualname : String)
  /-- Nothing known. -/
  | unresolved (name : String)
  deriving DecidableEq, Repr

/-- A meaning, the binding that gave it, the receiver's part if it is a receiver, and whether it
came from a class around the scope. -/
structure Resolved where
  meaning : Meaning
  binding : Option Binding
  role : Option ReceiverRole
  viaClassScope : Bool
  deriving DecidableEq, Repr

/-- A meaning without more. -/
def Resolved.plain (meaning : Meaning) : Resolved :=
  ⟨meaning, none, none, false⟩

def Resolved.bound (binding : Binding) (meaning : Meaning) : Resolved :=
  ⟨meaning, some binding, none, false⟩

/-- An entry of a trail: a name, a class that has no definition any more, or a written type that
nests too deeply. -/
inductive Mention
  | key (text : String)
  | lost (id : DefId)
  | tooDeep
  deriving DecidableEq, Repr

/-- Computing with a trail, latest entry first. -/
abbrev Tracing := StateM (List Mention)

def mention (name : String) : Tracing Unit :=
  if name = "" then pure () else modify (.key name :: ·)

/-- The key under which the search for a bare name is recorded. -/
def nameKey (name : String) : String :=
  "name:" ++ name

namespace Mention

/-- The name that an entry records. -/
def text? : Mention → Option String
  | key text => some text
  | lost _ => none
  | tooDeep => none

/-- The fault that an entry is, where trails are kept. -/
def fault? : Mention → Option Fault
  | key _ => none
  | lost _ => some .lostDefinition
  | tooDeep => some .tooDeep

/-- The names of a trail, latest first, or the first fault on it. -/
def names (trail : List Mention) : Except Fault (List String) :=
  match (trail.filterMap fault?).getLast? with
  | some fault => .error fault
  | none => .ok (trail.filterMap text?)

end Mention

end Xref

import Xref.Fault
import Xref.Outline.Basic

/-!
# Checking outlines

An outline is well formed when it has a path, a module name and a module at its root, and when its
items, in program order, have distinct ids and what their kind demands. The check stops without a
finding at an item that nests too deeply, and at a value that no message can show.
-/

namespace Xref

open Number

namespace Json

mutual

/-- What stops a message from showing a value, with so many levels left for what is inside it. -/
def literalFault? (room : Nat) : Json → Option Fault
  | int n => if n.natAbs < digitLimit then none else some .integerTooLong
  | arr items => if room = 0 then some .tooDeep else literalFaultOfItems? (room - 1) items
  | obj fields => if room = 0 then some .tooDeep else literalFaultOfFields? (room - 1) fields
  | null | bool _ | real _ | str _ => none

def literalFaultOfItems? (room : Nat) : List Json → Option Fault
  | [] => none
  | v :: vs => literalFault? room v <|> literalFaultOfItems? room vs

def literalFaultOfFields? (room : Nat) : List (String × Json) → Option Fault
  | [] => none
  | (_, v) :: fs => literalFault? room v <|> literalFaultOfFields? room fs

end

end Json

namespace Outline

/-- How many levels below the root the check follows the items of a file, and the values that stand
for items: each level takes one call. -/
def maxNesting : Nat := stackRoom 8 1

/-- Why the check does not pass an outline. -/
inductive Refusal
  /-- There is a defect, in an item where that is known. -/
  | malformed (defect : Defect) (item : Option String)
  /-- The check itself stops. -/
  | stopped (fault : Fault)
  deriving DecidableEq, Repr

/-- What the check remembers: the ids of the items, and those of the lambdas among them. -/
structure Seen where
  ids : List String
  lambdas : List String
  deriving DecidableEq, Repr

/-- What an item with a valid id still lacks. -/
def defect? (lambdas : List String) : Item → Option Defect
  | .classDecl _ head _ => if head.name = "" then some .unnamedDeclaration else none
  | .functionDecl _ head _ => if head.name = "" then some .unnamedDeclaration else none
  | .call _ head => if head.callee = "" then some .noCallee else none
  | .importDecl _ target =>
    if target.level < 0 || (target.source = "" && target.name.getD "" = "") then
      some .noImportTarget
    else none
  | .assign _ a =>
    if a.target = "" || !a.kind.isRecognised then some .invalidAssignment
    else if a.kind = .lambda && !(a.value.any lambdas.contains) then some (.unknownLambda a.value)
    else none
  | _ => none

def checkItem (seen : Seen) (i : Item) : Except Refusal Seen :=
  match i with
  | .foreign value =>
    match value.literalFault? maxNesting with
    | some fault => .error (.stopped fault)
    | none => .error (.malformed (.unexpectedItem value) none)
  | _ =>
    match i.mark?.bind (·.id) with
    | none => .error (.malformed .badId none)
    | some id =>
      if id = "" || seen.ids.contains id then .error (.malformed .badId (some id))
      else
        match defect? seen.lambdas i with
        | some defect => .error (.malformed defect (some id))
        | none =>
          let lambdas := match i with
            | .lambda .. => id :: seen.lambdas
            | _ => seen.lambdas
          .ok ⟨id :: seen.ids, lambdas⟩

def checkItems (seen : Seen) : List Item → Except Refusal Seen
  | [] => .ok seen
  | i :: is => do
    let seen ← checkItem seen i
    checkItems seen is

/-- The items that the check comes to: those before the first that nests too deeply. -/
def reached (o : Outline) : List Item :=
  o.root.preorder.take ((o.root.levels 0).takeWhile (· ≤ maxNesting)).length

/-- Whether no item nests too deeply. -/
def isShallow (o : Outline) : Bool :=
  (o.root.levels 0).all (· ≤ maxNesting)

def check (o : Outline) : Except Refusal Unit :=
  if o.path = "" then .error (.malformed .noPath none)
  else if o.moduleName = "" then .error (.malformed .noModule none)
  else
    match o.root with
    | .fileBody .. => do
      let _ ← checkItems ⟨[], []⟩ o.reached
      if o.isShallow then return () else throw (.stopped .tooDeep)
    | _ => .error (.malformed .rootNotModule none)

/-- The path of an outline, or what stands for a missing one. -/
def knownPath (o : Outline) : String :=
  if o.path = "" then "<unknown>" else o.path

end Outline

end Xref

import Xref.Number.Binary64
import Xref.Sorting
import Xref.Text.Quoted

/-!
# JSON values

Integers have any size and are told apart from numbers with a fraction or an exponent. An object
lists its fields in the order of their first appearance.
-/

namespace Xref

open Number Text

/-- A JSON value. -/
inductive Json
  | null
  | bool (b : Bool)
  | int (n : Int)
  | real (x : Binary64)
  | str (s : String)
  | arr (items : List Json)
  | obj (fields : List (String × Json))
  deriving Repr

namespace Json

mutual

/-- Equality of values, decided along their structure. -/
def decEq : (a b : Json) → Decidable (a = b)
  | null, null => isTrue rfl
  | bool a, bool b =>
    if h : a = b then isTrue (h ▸ rfl) else isFalse fun e => h (by injection e)
  | int a, int b =>
    if h : a = b then isTrue (h ▸ rfl) else isFalse fun e => h (by injection e)
  | real a, real b =>
    if h : a = b then isTrue (h ▸ rfl) else isFalse fun e => h (by injection e)
  | str a, str b =>
    if h : a = b then isTrue (h ▸ rfl) else isFalse fun e => h (by injection e)
  | arr a, arr b =>
    match decEqItems a b with
    | isTrue h => isTrue (h ▸ rfl)
    | isFalse h => isFalse fun e => h (by injection e)
  | obj a, obj b =>
    match decEqFields a b with
    | isTrue h => isTrue (h ▸ rfl)
    | isFalse h => isFalse fun e => h (by injection e)
  | null, bool _ | null, int _ | null, real _ | null, str _ | null, arr _ | null, obj _
  | bool _, null | bool _, int _ | bool _, real _ | bool _, str _ | bool _, arr _ | bool _, obj _
  | int _, null | int _, bool _ | int _, real _ | int _, str _ | int _, arr _ | int _, obj _
  | real _, null | real _, bool _ | real _, int _ | real _, str _ | real _, arr _ | real _, obj _
  | str _, null | str _, bool _ | str _, int _ | str _, real _ | str _, arr _ | str _, obj _
  | arr _, null | arr _, bool _ | arr _, int _ | arr _, real _ | arr _, str _ | arr _, obj _
  | obj _, null | obj _, bool _ | obj _, int _ | obj _, real _ | obj _, str _ | obj _, arr _ =>
    isFalse fun e => nomatch e

def decEqItems : (a b : List Json) → Decidable (a = b)
  | [], [] => isTrue rfl
  | [], _ :: _ => isFalse fun e => nomatch e
  | _ :: _, [] => isFalse fun e => nomatch e
  | x :: xs, y :: ys =>
    match decEq x y, decEqItems xs ys with
    | isTrue h, isTrue hs => isTrue (h ▸ hs ▸ rfl)
    | isFalse h, _ => isFalse fun e => h (by injection e)
    | _, isFalse h => isFalse fun e => h (by injection e)

def decEqFields : (a b : List (String × Json)) → Decidable (a = b)
  | [], [] => isTrue rfl
  | [], _ :: _ => isFalse fun e => nomatch e
  | _ :: _, [] => isFalse fun e => nomatch e
  | (k, x) :: xs, (l, y) :: ys =>
    if hk : k = l then
      match decEq x y, decEqFields xs ys with
      | isTrue h, isTrue hs => isTrue (hk ▸ h ▸ hs ▸ rfl)
      | isFalse h, _ => isFalse fun e => h (by injection e with e; injection e)
      | _, isFalse h => isFalse fun e => h (by injection e)
    else isFalse fun e => hk (by injection e with e; injection e)

end

instance : DecidableEq Json := decEq

instance : Inhabited Json := ⟨null⟩

def field? (name : String) (fields : List (String × Json)) : Option Json :=
  (fields.find? fun f => f.1 == name).map Prod.snd

/-- The field of an object; other values have none. -/
def get? (name : String) : Json → Option Json
  | obj fields => field? name fields
  | _ => none

/-- Gives a field its value: in its place if it is there, else at the end. -/
def setField (name : String) (value : Json) : List (String × Json) → List (String × Json)
  | [] => [(name, value)]
  | f :: fields => if f.1 = name then (name, value) :: fields else f :: setField name value fields

def texts (ss : List String) : Json :=
  arr (ss.map str)

def text? : Option String → Json
  | none => null
  | some s => str s

def int? : Option Int → Json
  | none => null
  | some n => int n

mutual

/-- The value with the fields of every object in the order of their names. -/
def sorted : Json → Json
  | arr items => arr (sortedItems items)
  | obj fields => obj (sortOn (byText Prod.fst) (sortedFields fields))
  | v => v

/-- The values, each with sorted fields. -/
def sortedItems : List Json → List Json
  | [] => []
  | v :: vs => sorted v :: sortedItems vs

def sortedFields : List (String × Json) → List (String × Json)
  | [] => []
  | (k, v) :: fs => (k, sorted v) :: sortedFields fs

end

/-! ## Values in messages -/

/-- A number with a fraction or exponent as a message shows it. -/
def realLiteral : Binary64 → String
  | .finite negative m e => String.ofList (Binary64.finiteText negative m e)
  | .infinite negative => String.ofList (Binary64.signText negative) ++ "inf"
  | .undefined => "nan"

mutual

/-- A value as a message shows it. -/
def literal : Json → String
  | null => "None"
  | bool true => "True"
  | bool false => "False"
  | int n => toString n
  | real x => realLiteral x
  | str s => quoted s
  | arr [] => "[]"
  | arr (v :: vs) => "[" ++ literal v ++ literalItems vs ++ "]"
  | obj [] => "\x7b\x7d"
  | obj ((k, v) :: fs) =>
    "\x7b" ++ quoted k ++ ": " ++ literal v ++ literalFields fs ++ "\x7d"

/-- The items after the first. -/
def literalItems : List Json → String
  | [] => ""
  | v :: vs => ", " ++ literal v ++ literalItems vs

/-- The fields after the first. -/
def literalFields : List (String × Json) → String
  | [] => ""
  | (k, v) :: fs => ", " ++ quoted k ++ ": " ++ literal v ++ literalFields fs

end

end Json

end Xref

import Xref.Splitting
import Xref.Text.Surrogate

/-!
# Paths

A path is the list of its parts between slashes. Empty parts and `.` say nothing, and `..` takes
back the part before it. Names and whole paths have a greatest length in bytes.
-/

namespace Xref.Files

/-- A place in a tree of folders, from its root down. -/
abbrev Path := List String

namespace Path

/-- The parts of a written path that say something. -/
def parts (text : String) : List String :=
  ((splitAt '/' text.toList).map String.ofList).filter fun p => p ≠ "" && p ≠ "."

/-- Whether a written path starts at the root. -/
def isAbsolute (text : String) : Bool :=
  text.toList.head? = some '/'

def follow (place : Path) (part : String) : Path :=
  if part = ".." then place.dropLast else place ++ [part]

/-- The place that a written path names, seen from a folder. -/
def seenFrom (folder : Path) (text : String) : Path :=
  (parts text).foldl follow (if isAbsolute text then [] else folder)

/-- The place that a written path names from the root. -/
def ofText (text : String) : Path :=
  seenFrom [] text

/-- The written form of a path below another. -/
def toText (p : Path) : String :=
  "/".intercalate p

/-- The count of bytes of a written path. A byte that is no text by itself is carried as the upper
half of a pair. -/
def byteLength (text : String) : Nat :=
  text.toList.foldl (fun n c => n + if Text.isCarrier c then 1 else c.utf8Size) 0

/-- The greatest count of bytes of a name. -/
def maxName : Nat := 255

/-- The greatest count of bytes of a path. -/
def maxPath : Nat := 4095

/-- Whether a character can stand in a written path: all but the halves that carry no byte. -/
def isEncodable (c : Char) : Bool :=
  !Text.isCarrier c || (0xDC80 ≤ Text.codePoint c && Text.codePoint c ≤ 0xDCFF)

/-- What is left of a path below a folder. -/
def below? : Path → Path → Option Path
  | [], rest => some rest
  | _ :: _, [] => none
  | f :: folder, p :: path => if f = p then below? folder path else none

/-- The folders above a path and the path itself, without the root. -/
def stages (p : Path) : List Path :=
  (List.range p.length).map fun n => p.take (n + 1)

theorem below?_append (folder rest : Path) : below? folder (folder ++ rest) = some rest := by
  induction folder with
  | nil => rfl
  | cons f folder ih => simp [below?, ih]

end Path

end Xref.Files

import Xref.Files.Path
import Xref.Sorting
import Xref.Text.Dotted

/-!
# Source files and their modules

The source files of a tree of folders are found by their extension, outside of folders that hold
none of one's own. The module of a file is named by the folders from the root down to it. A file
`__init__` stands for its folder.
-/

namespace Xref.Files

open Text

/-! ## Source files -/

/-- Folders in which no sources are looked for. -/
def ignoredFolders : List String :=
  [".venv", "venv", "__pycache__", ".git", ".hg", ".svn", ".tox", "node_modules"]

/-- The ending of the names of source files. -/
def sourceEnding : String := ".py"

def isSourceName (name : String) : Bool :=
  sourceEnding.toList.isSuffixOf name.toList

/-- Whether a path is that of a source file with none of the excluded names on the way. -/
def isSource (excludes : List String) (p : Path) : Bool :=
  isSourceName (p.getLastD "") && !p.any excludes.contains

/-- The sources among some entries of a folder, by their written paths. An empty list of excluded
names stands for the ignored folders. -/
def sources (excludes : List String) (entries : List Path) : List Path :=
  let excludes := if excludes.isEmpty then ignoredFolders else excludes
  sortOn (byText Path.toText) (entries.filter (isSource excludes))

/-! ## Names of modules -/

/-- The name of a module, and whether it stands for its folder. -/
structure ModuleName where
  name : String
  isPackage : Bool
  deriving DecidableEq, Repr

namespace ModuleName

/-- The name of the file that stands for its folder. -/
def packageFile : String := "__init__"

/-- A file name without its extension: what follows the last dot, if something stands on both sides
of it. -/
def stem (file : String) : String :=
  if Dotted.init file ≠ "" && Dotted.last file ≠ "" then Dotted.init file else file

/-- The module of a file in some folders below a root with the given name. -/
def ofFile (root : String) (folders : List String) (file : String) : ModuleName :=
  if stem file ≠ packageFile then ⟨Dotted.join (folders ++ [stem file]), false⟩
  else if folders.isEmpty then ⟨root, true⟩
  else ⟨Dotted.join folders, true⟩

/-- The module of a path below a root; the root itself has none. -/
def ofPath? (root path : Path) : Option ModuleName := do
  let relative ← Path.below? root path
  let file ← relative.getLast?
  return ofFile (root.getLastD "") relative.dropLast file

end ModuleName

end Xref.Files

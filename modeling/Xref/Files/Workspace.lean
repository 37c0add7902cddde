import Xref.Cst.Basic
import Xref.Files.Path
import Xref.OrderedMap

/-!
# Workspaces

A workspace is what a run may see and change of a tree of folders: files with their contents, some
folders, and the folder that the run starts in.
-/

namespace Xref.Files

/-- The content of a file: a source with its syntax tree, or plain text. -/
inductive Content
  | source (bytes : ByteArray) (tree : Cst)
  | plain (text : String)

/-- A tree of folders with a current one. -/
structure Workspace where
  here : Path
  folders : List Path
  files : OrderedMap Path Content

/-- Why a file cannot be opened or made. -/
inductive FileFault
  | missing
  | isFolder
  | notAFolder
  | taken
  | nameTooLong
  | nullCharacter
  | unencodable
  deriving DecidableEq, Repr

def FileFault.message : FileFault → String
  | missing => "No such file or directory"
  | isFolder => "Is a directory"
  | notAFolder => "Not a directory"
  | taken => "File exists"
  | nameTooLong => "File name too long"
  | nullCharacter => "embedded null byte"
  | unencodable => "surrogates not allowed"

namespace Workspace

variable (w : Workspace)

/-- Checks that a text can be handed to the system at all. -/
def checkText (text : String) : Except FileFault Unit := do
  if !text.toList.all Path.isEncodable then throw .unencodable
  if text.toList.contains '\x00' then throw .nullCharacter

/-- Checks that a written path can be handed to the system. -/
def checkPath (text : String) : Except FileFault Unit := do
  checkText text
  if Path.maxPath < Path.byteLength text then throw .nameTooLong

/-- Whether a path is that of a folder: a known one, or one above a known folder or file. -/
def isFolder (p : Path) : Bool :=
  p.isPrefixOf w.here || w.folders.any p.isPrefixOf ||
    w.files.keys.any fun f => p.isPrefixOf f && p != f

/-- Follows a part from a folder. -/
def enter (place : Path) (part : String) : Except FileFault Path :=
  if w.isFolder place then
    if Path.maxName < Path.byteLength part then .error .nameTooLong else .ok (place.follow part)
  else if w.files.contains place then .error .notAFolder
  else .error .missing

def origin (text : String) : Path :=
  if Path.isAbsolute text then [] else w.here

/-- The place that a written path names, seen from the current folder. All but the last part have to
be there. -/
def locate (text : String) : Except FileFault Path := do
  checkPath text
  (Path.parts text).foldlM w.enter (w.origin text)

/-- Writes a file into a folder that is there. -/
def write (path text : String) : Except FileFault Workspace := do
  let place ← w.locate path
  if w.isFolder place then throw .isFolder
  return { w with files := w.files.insert place (.plain text) }

/-- Opens a file for adding to it: one that is there keeps its content, and a new one is made
together with the folders above it. The parts of the path are joined before any is looked at. -/
def openLog (path : String) : Except FileFault Workspace := do
  let place := Path.seenFrom w.here path
  checkPath path
  let folder := place.dropLast
  if w.files.contains folder then throw .taken
  if (Path.stages folder).any w.files.contains then throw .notAFolder
  if place.any fun part => Path.maxName < Path.byteLength part then throw .nameTooLong
  if w.isFolder place then throw .isFolder
  if w.files.contains place then return w
  return { w with files := w.files.insert place (.plain "") }

/-- Follows a part from a place and makes the folder that it names, unless it is there. -/
def makeFolder (place : Path) (part : String) : Except FileFault (Workspace × Path) := do
  let next ← w.enter place part
  if w.isFolder next then return (w, next)
  if w.files.contains next then throw .taken
  return ({ w with folders := w.folders ++ [next] }, next)

/-- Makes the folders that some parts name, one after the other. A file in the way is a fault of its
own kind when more parts follow. -/
def makeFolders (w : Workspace) (place : Path) : List String → Except FileFault (Workspace × Path)
  | [] => .ok (w, place)
  | [part] => w.makeFolder place part
  | part :: parts =>
    match w.makeFolder place part with
    | .ok (w, next) => makeFolders w next parts
    | .error .taken => .error .notAFolder
    | .error fault => .error fault

/-- Adds a file together with the folders on the way to it. -/
def add (path : String) (content : Content) : Except FileFault Workspace := do
  checkPath path
  let parts := Path.parts path
  let (w, folder) ← w.makeFolders (w.origin path) parts.dropLast
  let place ← match parts.getLast? with
    | some name => w.enter folder name
    | none => pure folder
  if w.isFolder place then throw .isFolder
  return { w with files := w.files.insert place content }

/-- What there is below a folder: the rest of the path of every file and folder. -/
def entriesBelow (folder : Path) : List Path :=
  let places := w.folders.flatMap Path.stages ++ w.files.keys.flatMap Path.stages
  ((places.filterMap (Path.below? folder)).filter fun p => !p.isEmpty).eraseDups

end Workspace

end Xref.Files

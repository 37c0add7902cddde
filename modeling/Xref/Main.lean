import Xref.CommandLine.Run
import Xref.Cst.OfJson

/-!
# The command

Reads the sources below a folder, each with the syntax tree that stands beside it in a file of the
same name with `.cst.json` added, runs the command on them, and writes what it saved.
-/

namespace Xref.CommandLine

open Files

def variableNames : List String :=
  ["CALLINDEX_MAX_CANDIDATES", "CALLINDEX_WORKERS", "CALLINDEX_PREFER_SAME_MODULE",
   "CALLINDEX_MATCH_ARITY", "CALLINDEX_LOG_LEVEL", "CALLINDEX_QUIET", "CALLINDEX_LOG_FILE"]

def environment : IO Policy.Environment := do
  let values ← variableNames.mapM fun name => do return (name, ← IO.getEnv name)
  return fun name => (values.find? fun v => v.1 = name).bind Prod.snd

def readContent (path : String) : IO Content := do
  let bytes ← IO.FS.readBinFile path
  let text ← try pure (some (← IO.FS.readFile (path ++ ".cst.json"))) catch _ => pure none
  match text.bind Json.parse? with
  | some tree => return .source bytes (Cst.ofJson tree)
  | none => return .plain ""

/-- The source files at an entry of a folder and below it. -/
partial def readEntry (folder : Path) (entry : IO.FS.DirEntry) : IO (List (Path × Content)) := do
  let place := folder ++ [entry.fileName]
  if ← entry.path.isDir then
    let entries ← entry.path.readDir
    return (← entries.toList.mapM (readEntry place)).flatten
  else if isSourceName entry.fileName then
    return [(place, ← readContent (toString entry.path))]
  else return []

/-- The folder above a written path, seen from another folder, if it is there. -/
def folderAbove (here : Path) (path : String) : IO (List Path) := do
  let above := Path.toText (path.splitOn "/").dropLast
  let text := if above = "" then (if Path.isAbsolute path then "/" else ".") else above
  try
    let _ ← IO.FS.realPath text
    return [Path.seenFrom here text]
  catch _ => return []

/-- The part of the file system that a run with the given arguments looks at. -/
def readWorkspace (arguments : List String) : IO Workspace := do
  let here := Path.ofText (toString (← IO.FS.realPath "."))
  match Options.parse arguments with
  | .error _ => return ⟨here, [], .ofList []⟩
  | .ok o =>
    let root := match o.root with
      | some (.value folder) => folder
      | _ => ""
    let entries ← try (← IO.FS.realPath (if root = "" then "." else root)).readDir catch _ =>
      pure #[]
    let files := (← entries.toList.mapM (readEntry (Path.seenFrom here root))).flatten
    let folders := (← [o.output, o.graphOutput].mapM (folderAbove here)).flatten
    return ⟨here, folders, .ofList files⟩

/-- Writes the texts that a run saved. -/
def writeBack (w : Workspace) : IO Unit :=
  w.files.entries.forM fun (path, content) =>
    match content with
    | .plain text => if text = "" then pure () else IO.FS.writeFile ("/" ++ Path.toText path) text
    | .source .. => pure ()

/-- How the command is used. -/
def usage : String :=
  "usage: xref --root FOLDER [--output FILE] [--graph-output FILE] [--max-files N]\n" ++
  "            [--max-candidates N] [--any-module] [--workers N] [--log-level LEVEL]\n" ++
  "            [--quiet] [--log-file FILE] [-h]\n"

end Xref.CommandLine

open Xref.CommandLine in
/-- Runs the command. -/
def main (arguments : List String) : IO UInt32 := do
  let workspace ← readWorkspace arguments
  let (result, after) := run workspace (← environment) arguments
  writeBack after
  match result with
  | .ok text =>
    IO.print text
    return 0
  | .error (.stopped .help) =>
    IO.print usage
    return 0
  | .error (.stopped .usage) =>
    IO.eprint usage
    return 2
  | .error failure =>
    IO.eprintln failure.message
    return 1

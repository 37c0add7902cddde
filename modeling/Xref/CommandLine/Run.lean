import Xref.Call.NodeLink
import Xref.CommandLine.LogName
import Xref.CommandLine.Options
import Xref.Cst.Outline
import Xref.Files.ModuleName
import Xref.Files.Workspace
import Xref.Index.Build
import Xref.Index.Persisted

/-!
# Running the command

A run indexes the sources below a folder, saves the index and the call graph, and reports the counts
of the index.
-/

namespace Xref.CommandLine

open Files

/-- Why a run fails. -/
inductive Failure
  | stopped (stop : Stop)
  | unknownLevel (name : String)
  | logName (error : LogNameError)
  | number (error : Number.IntegerError)
  /-- A setting was given nothing, and its value is needed. -/
  | noValue (setting : Setting)
  | tree (fault : Cst.Fault)
  | noTree
  | index (fault : Fault)
  | unwritable (error : Json.WriteError)
  | file (fault : FileFault)
  deriving DecidableEq, Repr

def Failure.message : Failure → String
  | stopped .usage => "wrong arguments"
  | stopped .help => ""
  | unknownLevel name => "Level '" ++ name ++ "' does not exist"
  | logName e => e.message
  | number e => e.message
  | noValue _ => "a setting has no value"
  | tree f => f.message
  | noTree => "source file without a syntax tree"
  | index f => f.message
  | unwritable e => e.message
  | file f => f.message

/-- A step of a run, which may change the workspace and may fail. Changes made before a failure
stay. -/
abbrev Running := ExceptT Failure (StateM Workspace)

/-- A computation that may fail, as a step. -/
def attempt (failure : ε → Failure) (x : Except ε α) : Running α :=
  match x with
  | .ok a => pure a
  | .error e => throw (failure e)

def logLevels : List String :=
  ["TRACE", "DEBUG", "INFO", "SUCCESS", "WARNING", "ERROR", "CRITICAL"]

/-- The first of two texts unless it is empty. -/
def orElse (first second : String) : String :=
  if first = "" then second else first

variable (o : Options) (env : Policy.Environment)

/-- Whether the console is silent. -/
def isQuiet : Bool :=
  o.quiet || ["1", "true", "yes"].contains
    (String.ofList (((env "CALLINDEX_QUIET").getD "").toList.map Char.toLower))

def consoleLevel : String :=
  orElse o.logLevel ((env "CALLINDEX_LOG_LEVEL").getD "INFO")

def openLogs : Running Unit := do
  if !isQuiet o env && !logLevels.contains (consoleLevel o env) then
    throw (.unknownLevel (consoleLevel o env))
  let template := orElse o.logFile ((env "CALLINDEX_LOG_FILE").getD "")
  if template ≠ "" then
    let path ← attempt .logName (LogName.path template)
    set (← attempt .file ((← get).openLog path))

/-- What a setting changes a number to. -/
def changed (given : Option (Given Int)) (value : Int) : Int :=
  match given with
  | none => value
  | some (.value n) => n
  | some .nothing => 0

/-- The policy of a run: the environment changes the standard one, and the options change that. -/
def policyOf : Running Policy := do
  let p ← attempt .number (Policy.standard.withEnvironment env)
  return { p with
    maxCandidates := changed o.maxCandidates p.maxCandidates
    preferSameModule := p.preferSameModule && !o.anyModule
    workers :=
      match o.workers with
      | none => p.workers
      | some (.value n) => some n
      | some .nothing => none }

/-- The items before the position that a setting gives. -/
def before (items : List α) : Option (Given Int) → Except Failure (List α)
  | none => .ok items
  | some (.value n) => .ok (items.take (position items.length n))
  | some .nothing => .error (.noValue .maxFiles)

/-- The outline of a source below a root. -/
def outlineOf (w : Workspace) (root relative : Path) : Except Failure Outline :=
  let path := root ++ relative
  match w.files.get? path, ModuleName.ofPath? root path with
  | some (.source bytes tree), some m =>
    (Cst.outline relative.toText m.name m.isPackage bytes tree).mapError .tree
  | some _, _ => .error .noTree
  | none, _ => .error (.file .isFolder)

/-- The sources below a folder and its place; a folder that is not there has none. -/
def sourcesBelow (w : Workspace) (folder : String) : Except Failure (Path × List Path) :=
  match w.locate folder with
  | .error .nameTooLong => .error (.file .nameTooLong)
  | .error _ => .ok ([], [])
  | .ok root => .ok (root, if w.isFolder root then sources [] (w.entriesBelow root) else [])

/-- The outlines of the sources below the root. -/
def outlines (w : Workspace) (o : Options) : Except Failure (List Outline) :=
  match o.root with
  | some (.value folder) => do
    let (root, found) ← sourcesBelow w folder
    (← before found o.maxFiles).mapM (outlineOf w root)
  | _ => .error (.noValue .root)

/-- Saves a text, if a path is given and the text can be written. -/
def save (path : String) (text : Except Json.WriteError String) : Running Unit := do
  if path ≠ "" then
    let text ← attempt .unwritable text
    set (← attempt .file ((← get).write path text))

/-- Whether a call was given up because more definitions have its name than may be guessed. -/
def reachesLimit (x : Index) : Bool :=
  x.callSites.any fun s => (x.warningsFor s.id).any Diagnostic.isOverLimit

/-- Runs with the given options. The result is what is printed. -/
def runWith : Running String := do
  openLogs o env
  let policy ← policyOf o env
  let found ← attempt id (outlines (← get) o)
  let made ← attempt .index (Index.build found policy none)
  if o.maxCandidates = some .nothing && reachesLimit made.index then
    throw (.noValue .maxCandidates)
  save o.output made.index.written
  save o.graphOutput made.index.graph.written
  return made.index.stats.compact ++ "\n"

/-- Runs the command: what is printed or why it failed, and the workspace afterwards. -/
def run (w : Workspace) (env : Policy.Environment) (arguments : List String) :
    Except Failure String × Workspace :=
  match Options.parse arguments with
  | .error stop => (.error (.stopped stop), w)
  | .ok o => (runWith o env).run w

end Xref.CommandLine

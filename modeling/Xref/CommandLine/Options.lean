import Xref.Number.Integer
import Xref.Splitting

/-!
# Options

The arguments of a command are settings with or without a value. A long name may be cut short as
long as only one setting starts with it, and its value may follow it after `=`. The divider `--` in
the place of a value gives the setting nothing.
-/

namespace Xref.CommandLine

open Text

/-- What can be set. -/
inductive Setting
  | help
  | root
  | output
  | graphOutput
  | maxFiles
  | maxCandidates
  | anyModule
  | workers
  | logLevel
  | quiet
  | logFile
  deriving DecidableEq, Repr

namespace Setting

def names : List (String × Setting) :=
  [("-h", help), ("--help", help), ("--root", root), ("--output", output),
   ("--graph-output", graphOutput), ("--max-files", maxFiles), ("--max-candidates", maxCandidates),
   ("--any-module", anyModule), ("--workers", workers), ("--log-level", logLevel),
   ("--quiet", quiet), ("--log-file", logFile)]

def takesValue : Setting → Bool
  | help | anyModule | quiet => false
  | _ => true

def named? (name : List Char) : Option Setting :=
  (names.find? fun n => n.1.toList = name).map Prod.snd

/-- The settings whose names start with a text, one for each name. -/
def startingWith (text : List Char) : List Setting :=
  (names.filter fun n => text.isPrefixOf n.1.toList).map Prod.snd

end Setting

/-- Why the arguments give no options: they are wrong, or help was asked for. -/
inductive Stop
  | usage
  | help
  deriving DecidableEq, Repr

/-- What ends the settings. -/
def dividerText : String := "--"

/-- An argument as it is read by itself. -/
inductive Argument
  | plain (text : String)
  | divider
  | setting (s : Setting) (value : Option String)
  | unknown
  /-- A value is given to a setting that takes none. -/
  | refused
  deriving DecidableEq, Repr

namespace Argument

/-- A setting whose value stands in the same argument. -/
def withValue (s : Setting) (value : List Char) : Argument :=
  if s.takesValue then .setting s (some (String.ofList value)) else .refused

/-- A text cut at its first `=`. -/
def cutValue (cs : List Char) : List Char × Option (List Char) :=
  match splitAt '=' cs with
  | name :: value :: more => (name, some (joinWith '=' (value :: more)))
  | _ => (cs, none)

/-- The short name for help with more letters glued to it: they may only repeat it. -/
def gluedHelp (letters : List Char) : Argument :=
  if letters.all (· = 'h') then .setting .help none else .refused

/-- Digits only, and at least one; one line end may follow. -/
def isDigits (cs : List Char) : Bool :=
  let digits := cs.takeWhile fun c => (digitValue? c).isSome
  !digits.isEmpty && (cs.drop digits.length = [] || cs.drop digits.length = ['\n'])

/-- A negative number, which is a value and not a name. -/
def isNegativeNumber : List Char → Bool
  | '-' :: cs =>
    isDigits cs ||
      match cs.dropWhile fun c => (digitValue? c).isSome with
      | '.' :: fraction => isDigits fraction
      | _ => false
  | _ => false

/-- An argument with a dash that names no setting. -/
def unnamed (text : String) : Argument :=
  if isNegativeNumber text.toList || text.toList.contains ' ' then .plain text else .unknown

def read (text : String) : Except Stop Argument :=
  let cs := text.toList
  let (name, value) := cutValue cs
  let given (s : Setting) : Argument :=
    match value with
    | some v => withValue s v
    | none => .setting s none
  match cs, Setting.named? cs, value.bind fun _ => Setting.named? name with
  | _, some s, _ => .ok (.setting s none)
  | ['-'], _, _ => .ok (.plain text)
  | '-' :: 'h' :: '=' :: rest, _, _ => .ok (if rest.isEmpty then .refused else gluedHelp rest)
  | '-' :: _, _, some s => .ok (given s)
  | '-' :: '-' :: _, _, _ =>
    match Setting.startingWith name with
    | [] => .ok (unnamed text)
    | [s] => .ok (given s)
    | _ => .error .usage
  | '-' :: 'h' :: rest, _, _ => .ok (gluedHelp rest)
  | '-' :: _, _, _ => .ok (unnamed text)
  | _, _, _ => .ok (.plain text)

/-- Reads arguments; after a divider all are plain. -/
def readAll : List String → Except Stop (List Argument)
  | [] => .ok []
  | text :: rest =>
    if text = dividerText then .ok (.divider :: rest.map .plain)
    else do
      let first ← read text
      return first :: (← readAll rest)

end Argument

/-- What a setting is given: a value, or nothing where the divider stands in its place. -/
inductive Given (α : Type)
  | value (a : α)
  | nothing
  deriving DecidableEq, Repr

/-- The options of a run. A text that is empty is as good as none. -/
structure Options where
  root : Option (Given String)
  output : String
  graphOutput : String
  maxFiles : Option (Given Int)
  maxCandidates : Option (Given Int)
  anyModule : Bool
  workers : Option (Given Int)
  logLevel : String
  quiet : Bool
  logFile : String
  deriving DecidableEq, Repr

namespace Options

/-- The options before any argument is read. -/
def initial : Options where
  root := none
  output := "callindex.json"
  graphOutput := ""
  maxFiles := none
  maxCandidates := none
  anyModule := false
  workers := none
  logLevel := ""
  quiet := false
  logFile := ""

def textGiven (text : String) : Given String :=
  if text = dividerText then .nothing else .value text

/-- A text that may as well be empty. -/
def orEmpty (text : String) : String :=
  if text = dividerText then "" else text

def number (text : String) : Except Stop (Given Int) :=
  if text = dividerText then .ok .nothing
  else
    match Number.readInteger text with
    | .ok n => .ok (.value n)
    | .error _ => .error .usage

/-- The options with a setting made; settings without a value ignore it. -/
def set (o : Options) (s : Setting) (value : String) : Except Stop Options :=
  match s with
  | .help => .error .help
  | .root => .ok { o with root := some (textGiven value) }
  | .output => .ok { o with output := orEmpty value }
  | .graphOutput => .ok { o with graphOutput := orEmpty value }
  | .maxFiles => do return { o with maxFiles := some (← number value) }
  | .maxCandidates => do return { o with maxCandidates := some (← number value) }
  | .anyModule => .ok { o with anyModule := true }
  | .workers => do return { o with workers := some (← number value) }
  | .logLevel => .ok { o with logLevel := orEmpty value }
  | .quiet => .ok { o with quiet := true }
  | .logFile => .ok { o with logFile := orEmpty value }

/-- The options after some arguments, and whether an argument was left over. -/
def apply (o : Options) (leftover : Bool) : List Argument → Except Stop (Options × Bool)
  | [] => .ok (o, leftover)
  | .plain _ :: rest | .divider :: rest | .unknown :: rest => apply o true rest
  | .refused :: _ => .error .usage
  | .setting s (some value) :: rest => do apply (← o.set s value) leftover rest
  | .setting s none :: rest =>
    if s.takesValue then
      match rest with
      | .plain value :: rest => do apply (← o.set s value) leftover rest
      | _ => .error .usage
    else do apply (← o.set s "") leftover rest

/-- Reads the arguments of a command. The root has to be given, and every argument used. -/
def parse (arguments : List String) : Except Stop Options := do
  let (o, leftover) ← apply initial false (← Argument.readAll arguments)
  if leftover || o.root.isNone then throw .usage
  return o

end Options

end Xref.CommandLine

import Xref.Number.Integer

/-!
# Policies

How calls are guessed whose receiver is unknown, and how the work is spread. A policy can be changed
by environment variables.
-/

namespace Xref

open Text

/-- The settings of an index. `ignoredNames` and `commonNames` are never guessed. -/
structure Policy where
  maxCandidates : Int
  preferSameModule : Bool
  matchArity : Bool
  ignoredNames : List String
  commonNames : List String
  parallelThreshold : Int
  workers : Option Int
  deriving DecidableEq, Repr

namespace Policy

/-- Methods of containers, which many unrelated types share. -/
def containerNames : List String :=
  ["add", "append", "clear", "copy", "extend", "get", "insert", "items", "keys", "pop", "push",
   "remove", "sort", "update", "values"]

/-- Names that the indexed language defines itself. -/
def builtinNames : List String :=
  ["ArithmeticError", "AssertionError", "AttributeError", "BaseException", "BaseExceptionGroup",
   "BlockingIOError", "BrokenPipeError", "BufferError", "BytesWarning", "ChildProcessError",
   "ConnectionAbortedError", "ConnectionError", "ConnectionRefusedError", "ConnectionResetError",
   "DeprecationWarning", "EOFError", "Ellipsis", "EncodingWarning", "EnvironmentError",
   "Exception", "ExceptionGroup", "False", "FileExistsError", "FileNotFoundError",
   "FloatingPointError", "FutureWarning", "GeneratorExit", "IOError", "ImportError",
   "ImportWarning", "IndentationError", "IndexError", "InterruptedError", "IsADirectoryError",
   "KeyError", "KeyboardInterrupt", "LookupError", "MemoryError", "ModuleNotFoundError",
   "NameError", "None", "NotADirectoryError", "NotImplemented", "NotImplementedError", "OSError",
   "OverflowError", "PendingDeprecationWarning", "PermissionError", "ProcessLookupError",
   "RecursionError", "ReferenceError", "ResourceWarning", "RuntimeError", "RuntimeWarning",
   "StopAsyncIteration", "StopIteration", "SyntaxError", "SyntaxWarning", "SystemError",
   "SystemExit", "TabError", "TimeoutError", "True", "TypeError", "UnboundLocalError",
   "UnicodeDecodeError", "UnicodeEncodeError", "UnicodeError", "UnicodeTranslateError",
   "UnicodeWarning", "UserWarning", "ValueError", "Warning", "ZeroDivisionError", "abs", "aiter",
   "all", "anext", "any", "ascii", "bin", "bool", "breakpoint", "bytearray", "bytes", "callable",
   "chr", "classmethod", "compile", "complex", "copyright", "credits", "delattr", "dict", "dir",
   "divmod", "enumerate", "eval", "exec", "exit", "filter", "float", "format", "frozenset",
   "getattr", "globals", "hasattr", "hash", "help", "hex", "id", "input", "int", "isinstance",
   "issubclass", "iter", "len", "license", "list", "locals", "map", "max", "memoryview", "min",
   "next", "object", "oct", "open", "ord", "pow", "print", "property", "quit", "range", "repr",
   "reversed", "round", "set", "setattr", "slice", "sorted", "staticmethod", "str", "sum", "super",
   "tuple", "type", "vars", "zip"]

/-- The settings that hold unless others are given. -/
def standard : Policy where
  maxCandidates := 8
  preferSameModule := true
  matchArity := true
  ignoredNames := builtinNames
  commonNames := containerNames
  parallelThreshold := 15
  workers := none

abbrev Environment := String → Option String

/-- A switch: on for a few words in any case, off for all others. -/
def isOn (value : String) : Bool :=
  ["1", "true", "yes", "on"].contains (String.ofList ((strip value.toList).map Char.toLower))

/-- A number from a variable that is set and not empty. -/
def numberFrom (env : Environment) (name : String) : Except Number.IntegerError (Option Int) :=
  match (env name).filter (· ≠ "") with
  | some text => (Number.readInteger text).map some
  | none => .ok none

/-- The policy with the settings that the environment gives. -/
def withEnvironment (p : Policy) (env : Environment) : Except Number.IntegerError Policy := do
  let candidates ← numberFrom env "CALLINDEX_MAX_CANDIDATES"
  let workers ← numberFrom env "CALLINDEX_WORKERS"
  return { p with
    maxCandidates := candidates.getD p.maxCandidates
    preferSameModule :=
      ((env "CALLINDEX_PREFER_SAME_MODULE").map isOn).getD p.preferSameModule
    matchArity := ((env "CALLINDEX_MATCH_ARITY").map isOn).getD p.matchArity
    workers := workers <|> p.workers }

def chosenWorkers? (p : Policy) : Option Int :=
  p.workers.filter (· ≠ 0)

end Policy

end Xref

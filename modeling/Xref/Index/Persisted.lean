import Xref.Index.Basic
import Xref.Json.Printer
import Xref.Json.Reader

/-!
# The persisted form of an index

An index as plain data, in an order that depends on nothing but the indexed files. Generations and
dependencies are left out.
-/

namespace Xref.Index

def formatVersion : Int := 1

def definitionRecord (d : Definition) : Json :=
  .obj
    [("id", .str d.id), ("qualname", .str d.qualname), ("name", .str d.name),
     ("kind", .str d.kind.word), ("path", .str d.path), ("line", .int d.location.line),
     ("column", .int d.location.column), ("owner_class", .text? d.ownerClass),
     ("is_abstract", .bool d.isAbstract), ("is_async", .bool d.isAsync),
     ("decorators", .texts d.decorators), ("min_args", .int d.arity.min),
     ("max_args", .int? (d.arity.max.map Int.ofNat))]

def siteFields (s : Site) : List (String × Json) :=
  [("id", .str s.id), ("caller", .str s.caller), ("line", .int s.location.line),
   ("column", .int s.location.column), ("order", .int s.order), ("callee", .str s.callee),
   ("receiver", .text? s.receiver), ("receiver_kind", .str s.receiverKind.word),
   ("arg_count", .int? s.argCount), ("targets", .texts s.targets),
   ("confidence", .str s.confidence.word), ("dispatch", .str s.dispatch.word),
   ("suspended", .bool s.isSuspended), ("decorators", .texts s.decorators)]

def edgeRecord (s : Site) (target : DefId) : Json :=
  .obj
    [("source", .str s.caller), ("target", .str target), ("site", .str s.id),
     ("dispatch", .str s.dispatch.word)]

/-- The definitions that override the members of a class. -/
def overridesRecord (e : ClassEntry) : Json :=
  .obj (e.overrides.entries.map fun o => (o.1, .texts o.2))

def classRecord (e : ClassEntry) : Json :=
  .obj
    [("id", .str e.id), ("qualname", .str e.qualname), ("bases", .texts e.bases),
     ("resolved_bases", .texts e.resolvedBases), ("external_bases", .texts e.externalBases),
     ("linearization", (e.order.map Json.texts).getD .null),
     ("abstract_members", .texts (sortOn textOrder e.abstractMembers)),
     ("overrides", overridesRecord e), ("cyclic", .bool e.isCyclic)]

def fileRecord (d : Digest) : Json :=
  .obj [("path", .str d.path), ("module", .str d.moduleName), ("failed", .bool d.isFailed)]

/-- Call sites by the qualified name of the caller, then by place. -/
def sitesByCaller (x : Index) : List Site :=
  sortOn
    (compareLex (byText fun s : Site => x.catalog.qualnameOf s.caller)
      (compareLex (compareOn (·.location)) (compareLex (compareOn (·.order)) (byText (·.id)))))
    x.sites.values

def toData (x : Index) : Json :=
  let sites := x.sitesByCaller
  let classes := sortOn (compareLex (byText ClassEntry.qualname) (byText (·.id)))
    x.hierarchy.entries.values
  .obj
    [("format", .int formatVersion),
     ("files", .arr ((sortOn (byText Digest.path) x.catalog.files.values).map fileRecord)),
     ("definitions",
       .arr ((sortOn Definition.nameOrder x.catalog.definitions.values).map definitionRecord)),
     ("classes", .arr (classes.map classRecord)),
     ("call_sites", .arr (sites.map fun s => .obj (siteFields s))),
     ("edges", .arr (sites.flatMap fun s => s.targets.map (edgeRecord s)))]

def toText (x : Index) : String :=
  x.toData.pretty

/-- The text of the index as it is saved, if it can be. -/
def written (x : Index) : Except Json.WriteError String :=
  x.toData.write

/-- Why a saved index cannot be read. -/
inductive LoadError
  | text (error : Json.ReadError)
  | notAnObject
  | unsupported (format : Json)
  deriving DecidableEq, Repr

def LoadError.message : LoadError → String
  | text e => e.message
  | notAnObject => "the saved data is not an object"
  | unsupported format => "Unsupported index format: " ++ format.literal

/-- Whether a value counts as the version of the format: the number one in any form. -/
def isFormat : Json → Bool
  | .int n => n == formatVersion
  | .real n => n.equalsInt formatVersion
  | .bool b => b
  | _ => false

/-- How deeply the data of a saved index may nest: each level is read by one more call. -/
def maxDepth : Nat := stackRoom 9 1

/-- The data of a saved index. -/
def ofText (text : String) : Except LoadError Json :=
  match Json.parse maxDepth text with
  | .error e => .error (.text e)
  | .ok (.obj fields) =>
    let format := (Json.field? "format" fields).getD .null
    if isFormat format then .ok (.obj fields) else .error (.unsupported format)
  | .ok _ => .error .notAnObject

end Xref.Index

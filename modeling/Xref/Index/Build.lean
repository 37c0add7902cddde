import Xref.Digest.OfOutline
import Xref.Hierarchy.Build
import Xref.Index.Basic

/-!
# Building indexes

Digests are merged, the hierarchy is built, and every call is resolved, file by file. Work can be
called off: a token lets a number of checks pass, and the check after those stops the work.
-/

namespace Xref

/-- How many checks may still pass; without a number, all. -/
abbrev Token := Option Nat

/-- Passes a check, or stops with the given counts of finished and of all files. -/
def Token.check (token : Token) (done total : Nat) : Except Fault Token :=
  match token with
  | none => .ok none
  | some 0 => .error (.cancelled done total)
  | some (n + 1) => .ok (some n)

/-- Handles files one by one, with a check before each. -/
def Token.eachFile (f : α → Except Fault β) (total : Nat) :
    Nat → Token → List α → Except Fault (List β × Token)
  | _, token, [] => .ok ([], token)
  | done, token, a :: as => do
    let token ← token.check done total
    let b ← f a
    let (bs, token) ← eachFile f total (done + 1) token as
    return (b :: bs, token)

namespace Index

/-- A call that was resolved, or taken over from an earlier index. -/
structure Settled where
  site : Site
  warnings : List Diagnostic
  isReused : Bool

/-- What one file adds: its calls and references. -/
structure FileResult where
  calls : List Settled
  references : List Reference

/-- The earlier result for a call, if it still holds. -/
abbrev Reuse := PendingCall → Option (Site × List Diagnostic)

def settle (r : Resolver) (reuse : Reuse) (c : PendingCall) : Except Fault Settled :=
  match reuse c with
  | some (site, warnings) => .ok ⟨site, warnings, true⟩
  | none => (r.resolve c).map fun (site, warnings) => ⟨site, warnings, false⟩

/-- Settles the calls of a file and resolves its references. -/
def resolveFile (r : Resolver) (reuse : Reuse) (d : Digest) : Except Fault FileResult := do
  let calls ← d.calls.mapM (settle r reuse)
  let references ← d.references.mapM r.view.reference
  return ⟨calls, references⟩

/-- An index with the diagnostics of making it and the call sites taken over. -/
structure Made where
  index : Index
  diagnostics : List Diagnostic
  reused : List SiteId

/-- The index of a merged catalog, its hierarchy and the results for its files. -/
def made (merged : Catalog × List Diagnostic) (built : Hierarchy × List Diagnostic)
    (policy : Policy) (generation : Nat) (results : List FileResult) : Made :=
  let settled : OrderedMap SiteId Settled :=
    .ofList ((results.flatMap (·.calls)).map fun s => (s.site.id, s))
  let sites := settled.mapValues fun _ s => s.site
  let index : Index :=
    { catalog := merged.1
      hierarchy := built.1
      sites
      warnings := settled.mapValues fun _ s => s.warnings
      references := results.flatMap (·.references)
      graph := CallGraph.build merged.1.definitions sites.values
      policy
      generation }
  { index
    diagnostics := merged.1.files.values.flatMap (·.diagnostics) ++ merged.2 ++ built.2 ++
      index.callSites.flatMap fun s => index.warningsFor s.id
    reused := sortOn textOrder ((settled.entries.filter fun e => e.2.isReused).map Prod.fst) }

/-- Makes an index of some digests. What may be taken over can depend on the new catalog's
hierarchy. -/
def assemble (digests : List Digest) (policy : Policy) (generation : Nat) (token : Token)
    (reuse : Hierarchy → Reuse) : Except Fault Made := do
  let merged := Catalog.merge digests
  let token ← token.check digests.length digests.length
  let built ← Hierarchy.build merged.1
  let files := merged.1.files.values
  let (results, _) ←
    token.eachFile (resolveFile ⟨merged.1, built.1, policy⟩ (reuse built.1)) files.length 0 files
  return made merged built policy generation results

def build (outlines : List Outline) (policy : Policy) (token : Token) : Except Fault Made := do
  if outlines.isEmpty then throw .noFiles
  let (digests, token) ←
    token.eachFile (fun o => Digest.ofOutline o 1) outlines.length 0 outlines
  assemble digests policy 1 token fun _ _ => none

/-! ## Changing one file -/

/-- What a change touches: the files, the names defined in them, and the keys under which a trail
may mention what they define. -/
structure Change where
  paths : List String
  names : List String
  keys : List String

/-- The qualified names of the classes related to a class in a hierarchy. -/
def relatedNames (h : Hierarchy) (id : DefId) : List String :=
  match h.subtree? id with
  | none => []
  | some below =>
    (below ++ (h.order? id).getD []).filterMap fun c => (h.entries.get? c).map (·.qualname)

/-- What the change of some digests touches in the hierarchies before and after it. -/
def changeOf (before after : Hierarchy) (changed : List Digest) : Change :=
  let definitions := changed.flatMap (·.definitions.values)
  let names := definitions.map (·.name)
  let classes := changed.flatMap (·.classes.keys)
  { paths := changed.map (·.path)
    names
    keys := definitions.map (·.qualname) ++ names.map nameKey ++
      changed.flatMap (fun d => Text.Dotted.enclosing d.moduleName) ++
      classes.flatMap (relatedNames before) ++ classes.flatMap (relatedNames after) }

/-- The site of an unchanged file whose callee and dependencies a change does not touch. -/
def reusable (x : Index) (change : Change) : Reuse := fun c =>
  match x.sites.get? c.site with
  | none => none
  | some s =>
    if change.paths.contains c.path || change.names.contains c.callee ||
        s.dependencies.any change.keys.contains then none
    else some (s, x.warningsFor s.id)

def rebuild (x : Index) (digests changed : List Digest) (token : Token) : Except Fault Made :=
  assemble digests x.policy (x.generation + 1) token fun hierarchy =>
    x.reusable (changeOf x.hierarchy hierarchy changed)

/-- The index with one file added or replaced. -/
def update (x : Index) (o : Outline) (token : Token) : Except Fault Made := do
  let digest ← Digest.ofOutline o (x.generation + 1)
  let others := x.catalog.files.values.filter fun d => d.path ≠ digest.path
  let previous := (x.catalog.files.get? digest.path).toList
  x.rebuild (others ++ [digest]) (previous ++ [digest]) token

def remove (x : Index) (path : String) (token : Token) : Except Fault Made :=
  match x.catalog.files.get? path with
  | none => .error (.unknownFile path)
  | some removed =>
    let others := x.catalog.files.values.filter fun d => d.path ≠ path
    if others.isEmpty then .error .lastFile
    else x.rebuild others [removed] token

end Index

end Xref

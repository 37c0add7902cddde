import Xref.Catalog.Basic
import Xref.Digest.OfOutline

/-!
# Small files

Outlines of a few items and their catalogs, for the inputs at which a general statement is shown to
have instances, or a stronger one to fail.
-/

namespace Xref.Small

def mark (id : String) : Mark :=
  ⟨some id, ⟨1, 0⟩⟩

def file (path moduleName : String) (body : List Item) : Outline :=
  ⟨path, moduleName, .fileBody (mark "file") body, false, true⟩

def classItem (name : String) (bases : List String) (body : List Item) : Item :=
  .classDecl (mark name) ⟨name, bases, []⟩ body

/-- A function with a body; in the body of a class its one parameter is the receiver. -/
def functionItem (id name : String) (isAbstract : Bool) (body : List Item) : Item :=
  .functionDecl (mark id) ⟨name, [⟨"self", none, false, .positional⟩], [], isAbstract, false⟩ body

/-- An assignment of a name or of the value of a call. -/
def assignItem (id target : String) (kind : ValueKind) (value : String) : Item :=
  .assign (mark id) ⟨target, kind, some value, none, false⟩

def callItem (id callee : String) : Item :=
  .call (mark id) ⟨callee, none, some 0⟩

def importItem (id source name : String) : Item :=
  .importDecl (mark id) ⟨source, some name, none, 0⟩

/-- The digests of some files, without those that cannot be digested. -/
def digestsOf (files : List Outline) : List Digest :=
  files.filterMap fun o => (Digest.ofOutline o 1).toOption

theorem exists_outline_of_mem_digestsOf {files : List Outline} {d : Digest}
    (h : d ∈ digestsOf files) : ∃ o version, Digest.ofOutline o version = .ok d := by
  obtain ⟨o, _, ho⟩ := List.mem_filterMap.mp h
  cases hd : Digest.ofOutline o 1 with
  | error e =>
    rw [hd] at ho
    cases ho
  | ok d' =>
    rw [hd] at ho
    cases ho
    exact ⟨o, 1, hd⟩

def catalogOf (files : List Outline) : Catalog :=
  (Catalog.merge (digestsOf files)).1

end Xref.Small

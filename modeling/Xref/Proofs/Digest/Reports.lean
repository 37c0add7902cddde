import Xref.Proofs.Digest.Walk

/-!
# Reports of a digest

A well-formed outline is digested without a report of what is malformed: the walk reports nothing
but declarations that were replaced.
-/

namespace Xref

namespace Draft

/-- Nothing but replaced declarations is reported. -/
def OnlyReplaced (d : Draft) : Prop :=
  ∀ x ∈ d.diagnostics, ∃ qualname path previousPath, x = .duplicate qualname path previousPath

variable {d d' : Draft}

theorem OnlyReplaced.congr (h : d.OnlyReplaced) (hd : d'.diagnostics = d.diagnostics) :
    d'.OnlyReplaced := by
  unfold OnlyReplaced
  rw [hd]
  exact h

theorem OnlyReplaced.declare (h : d.OnlyReplaced) (scope : ScopeId) (x : Definition) :
    (d.declare scope x).OnlyReplaced := by
  unfold Draft.declare
  split
  · intro y hy
    rw [define, diagnostics_bind, List.mem_append, List.mem_singleton] at hy
    rcases hy with hy | rfl
    · exact h y hy
    · exact ⟨_, _, _, rfl⟩
  · exact h.congr (diagnostics_bind ..)

theorem diagnostics_leaf {file : FileContext} {place : Place} {i : Item} (hi : i.isLeaf)
    (h : walk file place d i = .ok d') : d'.diagnostics = d.diagnostics := by
  cases i with
  | classDecl | functionDecl | lambda | block => cases hi
  | assign mark a =>
    obtain ⟨p, _, rfl⟩ | ⟨_, ⟨_, v, _, rfl⟩ | ⟨_, _, rfl⟩ | ⟨_, _, rfl⟩⟩ := addAssignment_cases h
    · exact (d.rebound_assignMember ..).diagnostics
    · exact diagnostics_bind ..
    · exact diagnostics_bind ..
    · exact (d.rebound_bindValue ..).diagnostics
  | importDecl mark target =>
    cases h
    exact (d.rebound_addImport ..).diagnostics
  | _ =>
    cases h
    rfl

theorem OnlyReplaced.enter (h : d.OnlyReplaced) (file : FileContext) (place : Place) (o : Opening) :
    (d.enter file place o).OnlyReplaced := by
  have hopen : ∀ s, (d.openScope s).OnlyReplaced := fun s => h
  cases o with
  | classDecl mark head =>
    let x := file.classDefinition place mark head
    exact (hopen (file.newScope mark .classBody (some place.scope) (some x.id))).declare
      place.scope x
  | functionDecl mark head =>
    have hdecl := fun s => (hopen s).declare place.scope (file.functionDefinition place mark head)
    refine congr ?_ (rebound_bindParams ..).diagnostics
    split
    · exact (hdecl _).congr (diagnostics_bind ..)
    · exact hdecl _
  | lambda mark params => exact congr h (rebound_bindParams ..).diagnostics
  | block mark => exact hopen _

end Draft

theorem walkAll_onlyReplaced (file : FileContext) (place : Place) {d d' : Draft}
    (h : d.OnlyReplaced) (is : List Item) (hr : walkAll file place d is = .ok d') :
    d'.OnlyReplaced :=
  walkAll_keeps (A := fun _ => True) (fun _ hd hi hw => hd.congr (Draft.diagnostics_leaf hi hw))
    (fun o _ hd => ⟨trivial, hd.enter file _ o⟩) trivial h hr

/-- The digest of a well-formed outline has not failed, and reports nothing malformed. -/
theorem Digest.not_failed_of_check {o : Outline} {version : Int} {d : Digest}
    (hcheck : o.check = .ok ()) (h : ofOutline o version = .ok d) :
    d.isFailed = false ∧ ∀ path defect item, .malformed path defect item ∉ d.diagnostics := by
  obtain ⟨_, _, herror, _⟩ | ⟨_, mark, body, draft, _, hwalk, rfl⟩ := ofOutline_cases h
  · rw [hcheck] at herror
    cases herror
  · refine ⟨rfl, fun path defect item hmem => ?_⟩
    obtain ⟨_, _, _, heq⟩ := walkAll_onlyReplaced _ _ (fun x hx => by cases hx) body hwalk _ hmem
    cases heq

end Xref

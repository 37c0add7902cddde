import Xref.Proofs.Digest.Classes

/-!
# Labels of definitions and calls

The version of a definition, its decorators and whether it is asynchronous are shown but hardly ever
asked for, and so is whether the caller of a call was suspended before it. All steps that a file is
digested with commute with a change of such labels, when the change keeps which declarations stand
beside each other.
-/

namespace Xref

open Draft OrderedMap

/-- A change of the labels of definitions and calls. -/
structure Relabelling where
  version : Definition → Int
  decorators : Definition → List String
  isAsync : Definition → Bool
  isSuspended : PendingCall → Bool
  suspended : List DefId → List DefId
  supersedes_eq : ∀ x y : Definition,
    supersedes (decorators x) y.name (decorators y) = supersedes x.decorators y.name y.decorators

namespace Relabelling

variable (g : Relabelling)

def definition (x : Definition) : Definition :=
  { x with version := g.version x, decorators := g.decorators x, isAsync := g.isAsync x }

def call (c : PendingCall) : PendingCall :=
  { c with isSuspended := g.isSuspended c }

def digest (d : Digest) : Digest :=
  { d with definitions := d.definitions.mapValues fun _ => g.definition, calls :=
    d.calls.map g.call }

def draft (d : Draft) : Draft :=
  { d with
    definitions := d.definitions.mapValues fun _ => g.definition
    calls := d.calls.map g.call
    suspended := g.suspended d.suspended }

section

variable (d : Draft) (scope : ScopeId)

theorem draft_modifyScope (id : ScopeId) (f : Scope → Scope) :
    g.draft (d.modifyScope id f) = (g.draft d).modifyScope id f := by
  have hscope : (g.draft d).scopes.get? id = d.scopes.get? id := rfl
  unfold modifyScope
  rw [hscope]
  split <;> rfl

theorem draft_bind (name : String) (v : BindingValue) :
    g.draft (d.bind scope name v) = (g.draft d).bind scope name v :=
  g.draft_modifyScope d scope _

theorem draft_define (x : Definition) :
    g.draft (d.define x) = (g.draft d).define (g.definition x) := by
  unfold define draft
  rw [mapValues_insert]
  rfl

theorem draft_discardBelow (qualname : String) :
    g.draft (d.discardBelow qualname) = (g.draft d).discardBelow qualname := by
  -- the same ids are dropped, since qualified names stay
  have hremoved : (((g.draft d).definitions.entries.filter fun e =>
      Text.Dotted.isBelow qualname e.2.qualname).map Prod.fst) =
      ((d.definitions.entries.filter fun e => Text.Dotted.isBelow qualname e.2.qualname).map
        Prod.fst) := by
    simp only [draft, mapValues, List.filter_map, List.map_map]
    rfl
  unfold discardBelow
  rw [hremoved]
  simp only [draft, mapValues_restrict, List.filter_map]
  rfl

theorem replaced?_draft (x : Definition) :
    (g.draft d).replaced? scope (g.definition x) = (d.replaced? scope x).map g.definition := by
  have hbinding : (g.draft d).bindingIn? scope (g.definition x).name = d.bindingIn? scope x.name :=
    rfl
  have hbeside : ∀ y : Definition, supersedes (g.definition y).decorators (g.definition x).name
      (g.definition x).decorators = supersedes y.decorators x.name x.decorators :=
    fun y => g.supersedes_eq y x
  unfold replaced?
  rw [hbinding]
  split
  · next id _ =>
    have hget : (g.draft d).definitions.get? id = (d.definitions.get? id).map g.definition :=
      get?_mapValues ..
    rw [hget, Option.filter_map]
    simp only [Function.comp_def, hbeside]
  · rfl

theorem draft_declare (x : Definition) :
    g.draft (d.declare scope x) = (g.draft d).declare scope (g.definition x) := by
  unfold declare
  rw [draft_define, draft_bind, replaced?_draft]
  -- what is dropped below a replaced declaration is found by qualified names
  cases d.replaced? scope x with
  | none => rfl
  | some previous =>
    have hdiscard := g.draft_discardBelow d previous.qualname
    simp only [Option.map_some]
    congr 2
    rw [show (g.definition previous).qualname = previous.qualname from rfl, ← hdiscard]
    rfl

theorem draft_bindParams (scope seenFrom : ScopeId) (params : List Param) :
    g.draft (d.bindParams scope seenFrom params) = (g.draft d).bindParams scope seenFrom
      params := by
  unfold bindParams
  induction params generalizing d with
  | nil => rfl
  | cons p ps ih => rw [List.foldl_cons, List.foldl_cons, ih, draft_bind]

theorem draft_bindValue (name : String) (hint source : Option String) (seenFrom : ScopeId) :
    g.draft (d.bindValue scope name hint source seenFrom) =
      (g.draft d).bindValue scope name hint source seenFrom := by
  have hbinding : (g.draft d).bindingIn? scope name = d.bindingIn? scope name := rfl
  unfold bindValue
  rw [hbinding]
  extract_lets differs noted noted'
  have hnoted : g.draft noted = noted' := by
    unfold noted noted'
    split <;> rfl
  have hconflicts : noted'.conflicts = noted.conflicts := by rw [← hnoted]; rfl
  rw [hconflicts, ← hnoted]
  split <;> exact g.draft_bind noted ..

theorem draft_addImport (file : FileContext) (place : Place) (i : Import) :
    g.draft (d.addImport file place i) = (g.draft d).addImport file place i := by
  unfold addImport
  dsimp only
  split
  · split
    · rfl
    · exact g.draft_modifyScope d ..
  · split <;> exact g.draft_modifyScope d ..
  · exact g.draft_modifyScope d ..

theorem draft_assignMember (place : Place) (a : Assignment) (head member : String) :
    g.draft (d.assignMember place a head member) = (g.draft d).assignMember place a head
      member := by
  have hvisible :
    (g.draft d).visibleBinding? place.scope head = d.visibleBinding? place.scope head := by
    have hscopes : ∀ n id, (g.draft d).scopesFrom n id = d.scopesFrom n id := by
      intro n
      induction n with
      | zero => exact fun _ => rfl
      | succ n ih =>
        intro id
        cases id with
        | none => rfl
        | some id =>
          have hget : (g.draft d).scopes.get? id = d.scopes.get? id := rfl
          rw [scopesFrom, scopesFrom, hget]
          split
          · rfl
          · rw [ih]
    unfold visibleBinding?
    rw [hscopes]
    rfl
  unfold assignMember
  rw [hvisible]
  split
  · rfl
  · split
    · next owner _ =>
      have hclass : (g.draft d).classes.get? owner = d.classes.get? owner := rfl
      rw [hclass]
      split
      · rfl
      · next decl _ =>
        have hbinding : (g.draft d).bindingIn? decl.body member = d.bindingIn? decl.body member :=
          rfl
        rw [hbinding]
        split
        · rfl
        · exact g.draft_bindValue d ..
    · rfl

/-- An assignment can make a definition, which has the labels that the file gives it. -/
theorem addAssignment_draft {file file' : FileContext} (place : Place) (mark : Mark)
    (a : Assignment)
    (hfile : file'.boundDefinition place mark a.target = g.definition
      (file.boundDefinition place mark a.target)) :
    (g.draft d).addAssignment file' place mark a = (d.addAssignment file place mark a).map
      g.draft := by
  unfold addAssignment
  split
  · exact congrArg Except.ok (g.draft_assignMember d ..).symm
  · split
    · exact congrArg Except.ok (g.draft_bind d ..).symm
    · split
      · dsimp only
        have hlambdas :
          (g.draft d).lambdas.get? (a.value.getD "") = d.lambdas.get? (a.value.getD "") := rfl
        rw [hlambdas]
        split
        · exact congrArg Except.ok (g.draft_bind d ..).symm
        · rfl
      · dsimp only
        split
        · refine congrArg Except.ok ?_
          rw [draft_bind, draft_define, hfile]
          rfl
        · exact congrArg Except.ok (g.draft_bindValue d ..).symm

end

/-- Whether the name of a lambda is taken does not depend on labels. -/
theorem lambdaQualname_draft (file : FileContext) (place : Place) (mark : Mark) (d : Draft) :
    file.lambdaQualname place mark (g.draft d) = file.lambdaQualname place mark d := by
  unfold FileContext.lambdaQualname contains
  simp only [draft, get?_mapValues, Option.isSome_map]

end Relabelling

end Xref

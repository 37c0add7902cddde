import Xref.Proofs.Digest.Walk

/-!
# Definitions and classes of a digest

The walk over an outline keeps every definition under its own id, and beside every definition of a
class a record of its bases. Both are dropped together when the declaration around them is replaced.
-/

namespace Xref

open OrderedMap Draft FileContext
open OrderedMap (get?_insert get?_restrict)

namespace Draft

variable {d d' : Draft}

/-! ## What steps leave alone -/

/-- Two drafts with the same definitions and classes. -/
def SameDeclarations (d d' : Draft) : Prop :=
  d'.definitions = d.definitions ∧ d'.classes = d.classes

theorem Rebound.sameDeclarations (h : Rebound d d') : SameDeclarations d d' :=
  ⟨h.definitions, h.classes⟩

/-! ## The invariant -/

/-- Every definition stands under its own id, every class has a record, and every record a
definition. -/
structure Sound (d : Draft) : Prop where
  id_eq : ∀ {id : DefId} {x : Definition}, d.definitions.get? id = some x → x.id = id
  mem_classes : ∀ {id : DefId} {x : Definition}, d.definitions.get? id = some x →
    x.kind = .classBody → id ∈ d.classes.keys
  mem_definitions : ∀ {id : DefId}, id ∈ d.classes.keys → id ∈ d.definitions.keys

namespace Sound

theorem empty : empty.Sound where
  id_eq h := by cases h
  mem_classes h := by cases h
  mem_definitions h := by cases h

variable (h : d.Sound) (scope : ScopeId)
include h

theorem congr (hs : SameDeclarations d d') : d'.Sound where
  id_eq hx := h.id_eq (hs.1 ▸ hx)
  mem_classes hx hk := hs.2 ▸ h.mem_classes (hs.1 ▸ hx) hk
  mem_definitions hid := hs.1 ▸ h.mem_definitions (hs.2 ▸ hid)

theorem define {x : Definition} (hk : x.kind ≠ .classBody) : (d.define x).Sound where
  id_eq {id y} hy := by
    rw [Draft.define, get?_insert] at hy
    split at hy
    · next hid =>
      cases hy
      exact hid.symm
    · exact h.id_eq hy
  mem_classes {id y} hy hc := by
    rw [Draft.define, get?_insert] at hy
    split at hy
    · cases hy
      exact absurd hc hk
    · exact h.mem_classes hy hc
  mem_definitions hid := mem_keys_insert.mpr (.inr (h.mem_definitions hid))

/-- A definition below a replaced declaration goes with its record. -/
theorem discardBelow (qualname : String) : (d.discardBelow qualname).Sound where
  id_eq {id y} hy := by
    simp only [Draft.discardBelow, get?_restrict] at hy
    split at hy
    · exact h.id_eq hy
    · cases hy
  mem_classes {id y} hy hk := by
    simp only [Draft.discardBelow, get?_restrict] at hy ⊢
    split at hy
    · next hkept =>
      obtain ⟨decl, hdecl⟩ := mem_keys_iff.mp (h.mem_classes hy hk)
      refine mem_keys_iff.mpr ⟨decl, ?_⟩
      rw [get?_restrict, if_pos hkept, hdecl]
    · cases hy
  mem_definitions {id} hid := by
    obtain ⟨decl, hdecl⟩ := mem_keys_iff.mp hid
    simp only [Draft.discardBelow, get?_restrict] at hdecl ⊢
    split at hdecl
    · next hkept =>
      obtain ⟨x, hx⟩ := mem_keys_iff.mp
        (h.mem_definitions (mem_keys_iff.mpr ⟨decl, hdecl⟩))
      refine mem_keys_iff.mpr ⟨x, ?_⟩
      rw [get?_restrict, if_pos hkept, hx]
    · cases hdecl

/-- Declaring enters the definition in a draft that has lost at most what was inside a replaced
one. -/
theorem exists_declare (x : Definition) :
    ∃ e : Draft, e.Sound ∧ SameDeclarations (e.define x) (d.declare scope x) := by
  unfold declare
  split
  · next previous _ =>
    exact ⟨_, h.discardBelow previous.qualname, by simp [SameDeclarations, Draft.define]⟩
  · exact ⟨d, h, by simp [SameDeclarations, Draft.define]⟩

theorem declare {x : Definition} (hk : x.kind ≠ .classBody) : (d.declare scope x).Sound := by
  obtain ⟨e, he, hs⟩ := h.exists_declare scope x
  exact (he.define hk).congr hs

theorem declareClass (x : Definition) (decl : ClassDecl) :
    Sound { d.declare scope x with classes := (d.declare scope x).classes.insert x.id decl } := by
  obtain ⟨e, he, hdefs, hclasses⟩ := h.exists_declare scope x
  constructor
  · intro id y hy
    rw [hdefs, Draft.define, get?_insert] at hy
    split at hy
    · next hid =>
      cases hy
      exact hid.symm
    · exact he.id_eq hy
  · intro id y hy hk
    rw [hdefs, Draft.define, get?_insert] at hy
    rw [mem_keys_insert, hclasses]
    split at hy
    · next hid => exact .inl hid
    · exact .inr (he.mem_classes hy hk)
  · intro id hid
    rw [mem_keys_insert, hclasses] at hid
    rw [hdefs, Draft.define, mem_keys_insert]
    exact hid.imp_right he.mem_definitions

end Sound

end Draft

/-! ## The walk -/

theorem FileContext.kind_functionDefinition_ne (file : FileContext) (place : Place) (mark : Mark)
    (head : FunctionHead) : (file.functionDefinition place mark head).kind ≠ .classBody := by
  unfold functionDefinition
  split <;> simp

theorem Draft.Sound.leaf {d d' : Draft} {file : FileContext} {place : Place} {i : Item}
    (h : d.Sound) (hi : i.isLeaf) (hr : walk file place d i = .ok d') : d'.Sound := by
  cases i with
  | classDecl | functionDecl | lambda | block => cases hi
  | assign mark a =>
    obtain ⟨p, _, rfl⟩ | ⟨_, ⟨_, v, _, rfl⟩ | ⟨_, _, rfl⟩ | ⟨_, _, rfl⟩⟩ := addAssignment_cases hr
    · exact h.congr (d.rebound_assignMember ..).sameDeclarations
    · exact h.congr (d.rebound_bind ..).sameDeclarations
    · have hk : (file.boundDefinition place mark a.target).kind ≠ .classBody := by
        simp [boundDefinition]
      exact (h.define hk).congr (rebound_bind ..).sameDeclarations
    · exact h.congr (d.rebound_bindValue ..).sameDeclarations
  | importDecl mark target =>
    cases hr
    exact h.congr (d.rebound_addImport ..).sameDeclarations
  | _ =>
    cases hr
    exact h.congr ⟨rfl, rfl⟩

theorem Draft.Sound.enter {d : Draft} (h : d.Sound) (file : FileContext) (place : Place)
    (o : Opening) : (d.enter file place o).Sound := by
  have hopen : ∀ s, (d.openScope s).Sound := fun s => h.congr ⟨rfl, rfl⟩
  cases o with
  | classDecl mark head => exact (hopen _).declareClass place.scope _ _
  | functionDecl mark head =>
    have hdecl :=
      fun s => (hopen s).declare place.scope (file.kind_functionDefinition_ne place mark head)
    refine congr ?_ (rebound_bindParams ..).sameDeclarations
    -- a method binds its receiver before its parameters
    split
    · exact (hdecl _).congr (rebound_bind ..).sameDeclarations
    · exact hdecl _
  | lambda mark params =>
    have hk : (file.lambdaDefinition place mark params (file.lambdaQualname place mark d)).kind ≠
        .classBody := by simp [lambdaDefinition]
    refine congr ?_ (rebound_bindParams ..).sameDeclarations
    exact ((hopen _).define hk).congr ⟨rfl, rfl⟩
  | block mark => exact hopen _

namespace Digest

/-- Every definition of a digest stands under its own id, every class has a record, and every record
a definition. -/
structure Sound (d : Digest) : Prop where
  id_eq : ∀ {id : DefId} {x : Definition}, d.definitions.get? id = some x → x.id = id
  mem_classes : ∀ {id : DefId} {x : Definition}, d.definitions.get? id = some x →
    x.kind = .classBody → id ∈ d.classes.keys
  mem_definitions : ∀ {id : DefId}, id ∈ d.classes.keys → id ∈ d.definitions.keys

theorem sound_ofOutline {o : Outline} {version : Int} {d : Digest}
    (h : ofOutline o version = .ok d) : d.Sound := by
  obtain ⟨_, _, _, rfl⟩ | ⟨_, mark, body, draft, _, hwalk, rfl⟩ := ofOutline_cases h
  · exact ⟨fun hx => (by cases hx), fun hx => (by cases hx), fun hid => (by cases hid)⟩
  · have hstart : ((o.context version).startDraft mark).Sound := by
      refine Sound.define ?_ ?_
      · exact Sound.empty.congr ⟨rfl, rfl⟩
      · simp [fileDefinition]
    have hsound : draft.Sound :=
      walkAll_keeps (A := fun _ => True) (fun _ hd hi hw => hd.leaf hi hw)
      (fun o' _ hd => ⟨trivial, hd.enter _ _ o'⟩) trivial hstart hwalk
    exact ⟨hsound.id_eq, hsound.mem_classes, hsound.mem_definitions⟩

theorem path_ofOutline {o : Outline} {version : Int} {d : Digest}
    (h : ofOutline o version = .ok d) : d.path = o.knownPath := by
  obtain ⟨_, _, _, rfl⟩ | ⟨hcheck, _, _, _, _, _, rfl⟩ := ofOutline_cases h
  · rfl
  · -- an outline without a path fails the check
    have hpath : o.path ≠ "" := by
      intro hempty
      simp [Outline.check, hempty] at hcheck
    exact (if_neg hpath).symm

end Digest

end Xref

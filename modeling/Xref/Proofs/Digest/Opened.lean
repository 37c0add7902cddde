import Xref.Proofs.Ledger.Frame
import Xref.Proofs.Ledger.OfDraft

/-!
# Scopes that are opened once

A walk opens the scopes of its items, each once if their ids are fresh, and keeps what the scopes
that are open were opened as. What stands in a scope of a kind is then told by the kind at the end
of the walk.
-/

namespace Xref

open List Text OrderedMap

/-! ## Scopes as they are opened -/

/-- A scope as it is opened, with no name bound or imported yet. -/
def Scope.bare (s : Scope) : Scope :=
  { s with bindings := ∅, imports := ∅, starImports := [] }

namespace Draft

def opened? (d : Draft) (id : ScopeId) : Option Scope :=
  (d.scopes.get? id).map Scope.bare

def kindOf? (d : Draft) (id : ScopeId) : Option ScopeKind :=
  (d.scopes.get? id).map Scope.kind

/-- The definition that an item with a body makes. A block makes none. -/
def made? (d : Draft) (file : FileContext) (place : Place) : Opening → Option Definition
  | .classDecl mark head => some (file.classDefinition place mark head)
  | .functionDecl mark head => some (file.functionDefinition place mark head)
  | .lambda mark params =>
    some (file.lambdaDefinition place mark params (file.lambdaQualname place mark d))
  | .block _ => none

variable (d : Draft) (scope : ScopeId)

theorem kindOf?_eq (id : ScopeId) : d.kindOf? id = (d.opened? id).map Scope.kind := by
  rw [kindOf?, opened?, Option.map_map]
  rfl

theorem opened?_openScope (s : Scope) (id : ScopeId) :
    (d.openScope s).opened? id = if id = s.id then some s.bare else d.opened? id := by
  unfold opened? openScope
  rw [get?_insert]
  split <;> rfl

theorem opened?_modifyScope (id : ScopeId) {f : Scope → Scope} (hf : ∀ s, (f s).bare = s.bare) :
    (d.modifyScope id f).opened? = d.opened? := by
  funext scope
  unfold modifyScope
  cases hs : d.scopes.get? id with
  | none => rfl
  | some s =>
    unfold opened?
    rw [get?_insert]
    split
    · next heq =>
      rw [heq, hs]
      exact congrArg some (hf s)
    · rfl

theorem opened?_bind (name : String) (v : BindingValue) :
    (d.bind scope name v).opened? = d.opened? :=
  d.opened?_modifyScope scope fun _ => rfl

theorem opened?_bindParams (scope seenFrom : ScopeId) (params : List Param) :
    (d.bindParams scope seenFrom params).opened? = d.opened? := by
  unfold bindParams
  induction params generalizing d with
  | nil => rfl
  | cons p ps ih => rw [foldl_cons, ih, opened?_bind]

theorem opened?_bindValue (name : String) (hint source : Option String)
    (seenFrom : ScopeId) : (d.bindValue scope name hint source seenFrom).opened? = d.opened? := by
  unfold bindValue
  extract_lets differs noted
  have hnoted : noted.opened? = d.opened? := by
    unfold noted
    split <;> rfl
  split <;> rw [noted.opened?_bind, hnoted]

theorem opened?_declare (x : Definition) : (d.declare scope x).opened? = d.opened? := by
  unfold declare
  split <;> exact opened?_bind _ scope x.name _

section

variable (file : FileContext) (place : Place) (o : Opening)

/-- An import changes at most one scope, and there neither what it is opened as nor what is
bound. -/
theorem addImport_induct {P : Draft → Prop} (i : Import) (same : P d)
    (changed : ∀ f : Scope → Scope, (∀ s, (f s).bare = s.bare ∧ (f s).bindings = s.bindings) →
      P (d.modifyScope place.scope f)) : P (d.addImport file place i) := by
  have hstar : ∀ base, ∀ s : Scope, (s.addStarImport base).bare = s.bare ∧
      (s.addStarImport base).bindings = s.bindings := by
    intro base s
    unfold Scope.addStarImport
    split <;> exact ⟨rfl, rfl⟩
  unfold addImport
  dsimp only
  split
  · split
    · exact same
    · exact changed _ (hstar _)
  · split <;> exact changed _ fun _ => ⟨rfl, rfl⟩
  · exact changed _ fun _ => ⟨rfl, rfl⟩

theorem opened?_addImport (i : Import) : (d.addImport file place i).opened? = d.opened? :=
  d.addImport_induct (P := fun d' => d'.opened? = d.opened?) file place i rfl
    fun _ hf => d.opened?_modifyScope _ fun s => (hf s).1

/-- An item with a body opens its own scope, inside the one where it stands and owned by what it
makes. -/
theorem opened?_enter (id : ScopeId) : (d.enter file place o).opened? id =
      if id = file.markId o.mark then
        some (file.newScope o.mark o.kind (some place.scope) ((d.made? file place o).map (·.id)))
      else d.opened? id := by
  cases o with
  | classDecl mark head =>
    refine (congrFun (opened?_declare _ place.scope _) id).trans ?_
    exact d.opened?_openScope _ id
  | functionDecl mark head =>
    refine (congrFun (opened?_bindParams _ _ _ _) id).trans ?_
    have hdeclared := (congrFun (opened?_declare (d.openScope (file.newScope mark .function
      (some place.scope) (some (file.functionDefinition place mark head).id))) place.scope
      (file.functionDefinition place mark head)) id).trans (d.opened?_openScope _ id)
    cases head.receiver? place.ownerClass with
    | none => exact hdeclared
    | some receiver => exact (congrFun (opened?_bind _ _ _ _) id).trans hdeclared
  | lambda mark params =>
    refine (congrFun (opened?_bindParams _ _ _ _) id).trans ?_
    exact d.opened?_openScope _ id
  | block mark => exact d.opened?_openScope _ id

theorem kindOf?_enter (id : ScopeId) :
    (d.enter file place o).kindOf? id = if id = file.markId o.mark then some o.kind
      else d.kindOf? id := by
  simp only [kindOf?_eq, opened?_enter]
  split <;> rfl

theorem scopeKind_placeIn : (d.placeIn file place o).scopeKind = o.kind := by
  cases o <;> rfl

end

/-! ## Assignments to attributes -/

end Draft

def BindingValue.receiverOf? : BindingValue → Option DefId
  | receiver .self owner => some owner
  | _ => none

namespace Draft

/-- The body of the class whose receiver a name is, seen from a scope. -/
def receiverBody? (d : Draft) (scope : ScopeId) (name : String) : Option ScopeId :=
  ((d.visibleBinding? scope name).bind (·.value.receiverOf?)).bind fun owner =>
    (d.classes.get? owner).map (·.body)

/-- Whether a name is bound to what is a definition. -/
def isDefinitionIn (d : Draft) (scope : ScopeId) (name : String) : Bool :=
  ((d.bindingIn? scope name).bind fun b => b.value.definition?).isSome

variable (d : Draft)

/-- An attribute of what is no receiver is passed over, and one of a receiver is bound in the body
of its class, unless it is a definition there. -/
theorem assignMember_eq (place : Place) (a : Assignment) (head member : String) :
    d.assignMember place a head member =
      (if Dotted.hasDot member then none else d.receiverBody? place.scope head).elim d fun body =>
        if d.isDefinitionIn body member then d
        else d.bindValue body member a.clues.1 a.clues.2 place.scope := by
  unfold assignMember receiverBody?
  split
  · rfl
  cases hvisible : d.visibleBinding? place.scope head with
  | none => rfl
  | some b =>
    rw [Option.map_some, Option.bind_some]
    split
    · next owner howner =>
      rw [Option.some.injEq] at howner
      rw [howner]
      dsimp only [BindingValue.receiverOf?]
      rw [Option.bind_some]
      cases d.classes.get? owner with
      | none => rfl
      | some decl =>
        dsimp only [Option.map_some, Option.elim_some]
        unfold isDefinitionIn
        cases (d.bindingIn? decl.body member).bind fun b => b.value.definition? <;> rfl
    · next hother =>
      have hnone : b.value.receiverOf? = none := by
        cases hvalue : b.value with
        | receiver role owner =>
          cases role with
          | self => exact absurd (congrArg some hvalue) (hother owner)
          | cls => rfl
        | _ => rfl
      rw [hnone]
      rfl

theorem opened?_assignMember (place : Place) (a : Assignment) (head member : String) :
    (d.assignMember place a head member).opened? = d.opened? := by
  rw [assignMember_eq]
  cases (if Dotted.hasDot member then none else d.receiverBody? place.scope head) with
  | none => rfl
  | some body =>
    rw [Option.elim_some]
    split
    · rfl
    · exact d.opened?_bindValue ..

theorem opened?_leaf {d d' : Draft} {file : FileContext} {place : Place} {i : Item} (hi : i.isLeaf)
    (h : walk file place d i = .ok d') : d'.opened? = d.opened? := by
  cases i with
  | classDecl | functionDecl | lambda | block => cases hi
  | assign mark a =>
    obtain ⟨p, _, rfl⟩ | ⟨_, ⟨_, v, _, rfl⟩ | ⟨_, _, rfl⟩ | ⟨_, _, rfl⟩⟩ := addAssignment_cases h
    · exact d.opened?_assignMember ..
    · exact d.opened?_bind ..
    · exact opened?_bind ..
    · exact d.opened?_bindValue ..
  | importDecl mark target =>
    cases h
    exact d.opened?_addImport ..
  | _ =>
    cases h
    rfl

end Draft

variable {file : FileContext} {place : Place}

/-- A walk opens the scopes of its items only. -/
theorem Draft.opened?_walkAll {d d' : Draft} {is : List Item} (h : walkAll file place d is = .ok d')
    {id : ScopeId} (hid : id ∉ file.idsOf is) : d'.opened? id = d.opened? id := by
  induction is using Item.induct generalizing place d d' with
  | nil =>
    cases h
    rfl
  | leaf i is hi ih =>
    obtain ⟨d₁, hstep, hrest⟩ := exists_of_walkAll_cons h
    rw [file.idsOf_cons_leaf hi, mem_append, not_or] at hid
    rw [ih hrest hid.2, opened?_leaf hi hstep]
  | opened o body is hbody ih =>
    obtain ⟨d₁, hstep, hrest⟩ := exists_of_walkAll_cons h
    replace hstep := walkAll_of_walk_item hstep
    rw [file.idsOf_cons_item, mem_cons, mem_append, not_or, not_or] at hid
    rw [ih hrest hid.2.2, hbody hstep hid.2.1, d.opened?_enter, if_neg hid.1]

theorem Draft.kindOf?_walkAll {d d' : Draft} {is : List Item} (h : walkAll file place d is = .ok d')
    {id : ScopeId} (hid : id ∉ file.idsOf is) : d'.kindOf? id = d.kindOf? id := by
  rw [kindOf?_eq, kindOf?_eq, opened?_walkAll h hid]

/-! ## Scopes that are opened once -/

theorem Ledger.classes_step (l : Ledger) (file : FileContext) (place : Place) (i : Item) :
    (l.step file place i).classes = l.classes := by
  cases i with
  | assign mark a =>
    unfold Ledger.step
    dsimp only
    split
    · rfl
    · split <;> rfl
  | _ => rfl

/-- A ledger has no definitions, class records or calls that another has not. -/
structure Ledger.PartOf (l' l : Ledger) : Prop where
  definitions : ∀ {id x}, l'.definitions id = some x → l.definitions id = some x
  classes : ∀ {id decl}, l'.classes id = some decl → l.classes id = some decl
  calls : ∀ c ∈ l'.calls, c ∈ l.calls

theorem Ledger.partOf_makeRoom (l : Ledger) (scope : ScopeId) (x : Definition) :
    (l.makeRoom scope x).PartOf l := by
  unfold makeRoom
  split
  · next previous _ =>
    refine ⟨fun {id y} hy => ?_, fun {id decl} hdecl => ?_, fun c hc => (mem_filter.mp hc).1⟩
    · unfold discardBelow at hy
      dsimp only at hy
      split at hy
      · cases hy
      · exact hy
    · unfold discardBelow at hdecl
      dsimp only at hdecl
      split at hdecl
      · cases hdecl
      · exact hdecl
  · exact ⟨fun h => h, fun h => h, fun _ h => h⟩

/-- The records of classes after an item is entered: its own, and some of those before. -/
theorem Ledger.classes_enter {l : Ledger} {o : Opening} {owner : DefId}
    {decl : ClassDecl} (h : (l.enter file place o).classes owner = some decl) :
    (∃ mark head, o = .classDecl mark head ∧ owner = (file.classDefinition place mark head).id ∧
      decl = ⟨owner, head.bases, file.markId mark⟩) ∨ l.classes owner = some decl := by
  cases o with
  | classDecl mark head =>
    change (if owner = _ then some _ else _) = some decl at h
    split at h
    · next howner =>
      cases h
      subst howner
      exact .inl ⟨mark, head, rfl, rfl, rfl⟩
    · exact .inr (((l.openScope (file.markId mark)).partOf_makeRoom place.scope
        (file.classDefinition place mark head)).classes h)
  | functionDecl mark head =>
    exact .inr (((l.openScope (file.markId mark)).partOf_makeRoom place.scope
      (file.functionDefinition place mark head)).classes h)
  | lambda mark params | block mark => exact .inr h

/-- The scopes of some items are not open yet, the scope around them is, and class records have
class bodies. -/
structure Draft.Ready (file : FileContext) (place : Place) (is : List Item) (d : Draft) : Prop where
  fresh : file.Fresh place.scope is
  unopened : ∀ id ∈ file.idsOf is, d.kindOf? id = none
  here : d.kindOf? place.scope = some place.scopeKind
  bodies : ∀ owner decl, d.classes.get? owner = some decl → d.kindOf? decl.body = some .classBody

namespace Draft.Ready

variable {file : FileContext} {place : Place} {d d₁ : Draft} {i : Item} {is : List Item}
  {o : Opening}
  {body : List Item}

theorem leaf (h : Ready file place (i :: is) d) (hi : i.isLeaf)
    (hw : walk file place d i = .ok d₁) : Ready file place is d₁ := by
  have hkinds : d₁.kindOf? = d.kindOf? := by
    funext id
    rw [kindOf?_eq, kindOf?_eq, opened?_leaf hi hw]
  have hclasses : d₁.classes.get? = d.classes.get? := by
    have hledger : d₁.ledger.classes = d.ledger.classes := by
      rw [(ledger_leaf hi hw).1, Ledger.classes_step]
    exact hledger
  refine ⟨h.fresh.tail, fun id hid => ?_, ?_, fun owner decl hdecl => ?_⟩
  · rw [hkinds]
    refine h.unopened id ?_
    rw [file.idsOf_cons_leaf hi]
    exact mem_append_right _ hid
  · rw [hkinds]
    exact h.here
  · rw [hkinds]
    rw [hclasses] at hdecl
    exact h.bodies owner decl hdecl

theorem notOpen (h : Ready file place (o.item body :: is) d) :
    d.kindOf? (file.markId o.mark) = none := by
  refine h.unopened _ ?_
  rw [file.idsOf_cons_item]
  exact mem_cons_self

theorem scope_mem (h : Ready file place is d) : place.scope ∈ d.scopes.keys := by
  obtain ⟨s, hs, _⟩ := Option.map_eq_some_iff.mp h.here
  exact mem_keys_iff.mpr ⟨s, hs⟩

theorem enter (h : Ready file place (o.item body :: is) d) :
    Ready file (d.placeIn file place o) body (d.enter file place o) := by
  have hinside : file.Fresh (file.markId o.mark) body := h.fresh.head.inside
  refine ⟨?_, fun id hid => ?_, ?_, fun owner decl hdecl => ?_⟩
  · rwa [d.scope_placeIn]
  · have hne : id ≠ file.markId o.mark := fun heq => hinside.not_mem (heq ▸ hid)
    rw [d.kindOf?_enter, if_neg hne]
    refine h.unopened id ?_
    rw [file.idsOf_cons_item]
    exact mem_cons_of_mem _ (mem_append_left _ hid)
  · rw [d.scope_placeIn, d.kindOf?_enter, if_pos rfl, d.scopeKind_placeIn]
  · rw [d.kindOf?_enter]
    have hledger : (d.ledger.enter file place o).classes owner = some decl := by
      rw [← d.ledger_enter file h.scope_mem]
      exact hdecl
    obtain ⟨mark, head, rfl, _, rfl⟩ | hbefore := Ledger.classes_enter hledger
    · exact if_pos rfl
    · have hclass := h.bodies owner decl hbefore
      rw [if_neg fun heq => ?_]
      · exact hclass
      · rw [heq, h.notOpen] at hclass
        cases hclass

theorem leave_of_kept (h : Ready file place (o.item body :: is) d)
    (hkept : ∀ id, id ∉ file.idsOf body → d₁.kindOf? id = (d.enter file place o).kindOf? id)
    (hbodies : ∀ owner decl, d₁.classes.get? owner = some decl →
      d₁.kindOf? decl.body = some .classBody) : Ready file place is d₁ := by
  have hfresh : file.Fresh place.scope ([o.item body] ++ is) := h.fresh
  have hout : ∀ id ∈ place.scope :: file.idsOf is, d₁.kindOf? id = d.kindOf? id := by
    intro id hid
    have hnot := hfresh.disjoint id hid
    rw [file.idsOf_item, mem_cons, not_or] at hnot
    rw [hkept id hnot.2, d.kindOf?_enter, if_neg hnot.1]
  refine ⟨h.fresh.tail, fun id hid => ?_, ?_, hbodies⟩
  · rw [hout id (mem_cons_of_mem _ hid)]
    refine h.unopened id ?_
    rw [file.idsOf_cons_item]
    exact mem_cons_of_mem _ (mem_append_right _ hid)
  · rw [hout _ mem_cons_self]
    exact h.here

/-- A walk opens the scopes of its items only, and keeps the kinds of the others. -/
theorem after_walkAll {file : FileContext} {place : Place} {d d' : Draft} {is : List Item}
    (h : Ready file place is d) (hw : walkAll file place d is = .ok d') :
    (∀ id, id ∉ file.idsOf is → d'.kindOf? id = d.kindOf? id) ∧ Ready file place [] d' := by
  refine ⟨fun id hid => kindOf?_walkAll hw hid, ?_⟩
  induction is using Item.induct generalizing place d d' with
  | nil =>
    cases hw
    exact h
  | leaf i is hi ih =>
    obtain ⟨d₁, hstep, hrest⟩ := exists_of_walkAll_cons hw
    exact ih (h.leaf hi hstep) hrest
  | opened o body is hbody ih =>
    obtain ⟨d₁, hstep, hrest⟩ := exists_of_walkAll_cons hw
    replace hstep := walkAll_of_walk_item hstep
    exact ih (h.leave_of_kept (fun id hid => kindOf?_walkAll hstep hid)
      (hbody h.enter hstep).bodies) hrest

theorem leave (h : Ready file place (o.item body :: is) d)
    (hw : walkAll file (d.placeIn file place o) (d.enter file place o) body = .ok d₁) :
    Ready file place is d₁ :=
  have hinner := h.enter.after_walkAll hw
  h.leave_of_kept hinner.1 hinner.2.bodies

theorem exists_opened? (h : Ready file place is d) : ∃ s, d.opened? place.scope = some s := by
  have hhere := h.here
  rw [kindOf?_eq] at hhere
  obtain ⟨s, hs, _⟩ := Option.map_eq_some_iff.mp hhere
  exact ⟨s, hs⟩

/-- The scope of an item is not open before, so that none is opened in place of another. -/
theorem opened?_enter_of_some (h : Ready file place (o.item body :: is) d) {id : ScopeId}
    {s : Scope} (hs : d.opened? id = some s) : (d.enter file place o).opened? id = some s := by
  have hne : id ≠ file.markId o.mark := by
    rintro rfl
    have hnone := h.notOpen
    rw [kindOf?_eq, hs] at hnone
    cases hnone
  rw [d.opened?_enter, if_neg hne, hs]

/-- What each step of a walk that opens its scopes once keeps, and each step into a body, the walk
keeps. -/
theorem walkAll_keeps {P : Draft → Prop}
    (leaf : ∀ {place d d' i is}, Ready file place (i :: is) d → i.isLeaf →
      walk file place d i = .ok d' → P d → P d')
    (enter : ∀ {place d o body is}, Ready file place (o.item body :: is) d → P d →
      P (d.enter file place o)) (h : Ready file place is d) (hd : P d)
    (hw : walkAll file place d is = .ok d₁) : P d₁ := by
  induction is using Item.induct generalizing place d d₁ with
  | nil =>
    cases hw
    exact hd
  | leaf i is hi ih =>
    obtain ⟨d', hstep, hrest⟩ := exists_of_walkAll_cons hw
    exact ih (h.leaf hi hstep) (leaf h hi hstep hd) hrest
  | opened o body is hbody ih =>
    obtain ⟨d', hstep, hrest⟩ := exists_of_walkAll_cons hw
    replace hstep := walkAll_of_walk_item hstep
    exact ih (h.leave hstep) (hbody h.enter (enter h hd) hstep) hrest

end Draft.Ready

end Xref

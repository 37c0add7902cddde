import Xref.Digest.OfOutline

/-!
# Walks over items

A walk takes an item without a body in one step and goes into the body of any other. What each step
keeps, and each step into a body, the whole walk keeps. A digest that has not failed is that of a
walk over the file.
-/

namespace Xref

open List Text

/-! ## Other bindings -/

namespace Draft

/-- The second draft differs from the first at most in what names are bound to. -/
structure Rebound (d d' : Draft) : Prop where
  definitions : d'.definitions = d.definitions
  classes : d'.classes = d.classes
  lambdas : d'.lambdas = d.lambdas
  diagnostics : d'.diagnostics = d.diagnostics

theorem Rebound.refl (d : Draft) : Rebound d d :=
  ⟨rfl, rfl, rfl, rfl⟩

theorem Rebound.trans {d₁ d₂ d₃ : Draft} (h : Rebound d₁ d₂) (h' : Rebound d₂ d₃) : Rebound d₁ d₃ :=
  ⟨h'.definitions.trans h.definitions, h'.classes.trans h.classes, h'.lambdas.trans h.lambdas,
    h'.diagnostics.trans h.diagnostics⟩

variable (d : Draft)

theorem rebound_modifyScope (id : ScopeId) (f : Scope → Scope) :
    Rebound d (d.modifyScope id f) := by
  unfold modifyScope
  split
  · exact ⟨rfl, rfl, rfl, rfl⟩
  · exact .refl d

theorem rebound_bind (scope : ScopeId) (name : String) (v : BindingValue) :
    Rebound d (d.bind scope name v) :=
  d.rebound_modifyScope scope _

section

variable (scope : ScopeId) (name : String) (v : BindingValue)

@[simp] theorem definitions_bind : (d.bind scope name v).definitions = d.definitions :=
  (d.rebound_bind scope name v).definitions

@[simp] theorem classes_bind : (d.bind scope name v).classes = d.classes :=
  (d.rebound_bind scope name v).classes

@[simp] theorem lambdas_bind : (d.bind scope name v).lambdas = d.lambdas :=
  (d.rebound_bind scope name v).lambdas

@[simp] theorem diagnostics_bind : (d.bind scope name v).diagnostics = d.diagnostics :=
  (d.rebound_bind scope name v).diagnostics

end

theorem rebound_bindParams (scope seenFrom : ScopeId) (params : List Param) :
    Rebound d (d.bindParams scope seenFrom params) := by
  unfold bindParams
  induction params generalizing d with
  | nil => exact .refl d
  | cons p ps ih =>
    rw [List.foldl_cons]
    exact (d.rebound_bind ..).trans (ih _)

theorem rebound_bindValue (scope : ScopeId) (name : String) (hint source : Option String)
    (seenFrom : ScopeId) : Rebound d (d.bindValue scope name hint source seenFrom) := by
  unfold bindValue
  extract_lets differs noted
  have hnoted : Rebound d noted := by
    unfold noted
    split
    · exact ⟨rfl, rfl, rfl, rfl⟩
    · exact .refl d
  split <;> exact hnoted.trans (noted.rebound_bind ..)

theorem rebound_addImport (file : FileContext) (place : Place) (i : Import) :
    Rebound d (d.addImport file place i) := by
  unfold addImport
  dsimp only
  split
  · split
    · exact .refl d
    · exact d.rebound_modifyScope _ _
  · split <;> exact d.rebound_modifyScope _ _
  · exact d.rebound_modifyScope _ _

theorem rebound_assignMember (place : Place) (a : Assignment) (head member : String) :
    Rebound d (d.assignMember place a head member) := by
  unfold assignMember
  split
  · exact .refl d
  · split
    · split
      · exact .refl d
      · split
        · exact .refl d
        · exact d.rebound_bindValue ..
    · exact .refl d

end Draft

/-! ## Results -/

theorem bind_eq_ok {x : Except ε α} {f : α → Except ε β} {b : β} (h : x >>= f = .ok b) :
    ∃ a, x = .ok a ∧ f a = .ok b := by
  cases x with
  | error e => cases h
  | ok a => exact ⟨a, rfl, h⟩

theorem map_eq_ok {x : Except ε α} {f : α → β} {b : β} (h : x.map f = .ok b) :
    ∃ a, x = .ok a ∧ f a = b := by
  cases x with
  | error e => cases h
  | ok a =>
    cases h
    exact ⟨a, rfl, rfl⟩

/-! ## Items with a body -/

/-- The head of an item whose body the walk goes into. -/
inductive Opening
  | classDecl (mark : Mark) (head : ClassHead)
  | functionDecl (mark : Mark) (head : FunctionHead)
  | lambda (mark : Mark) (params : List Param)
  | block (mark : Mark)

namespace Opening

/-- The identity and place of the item. -/
def mark : Opening → Mark
  | classDecl m _ | functionDecl m _ | lambda m _ | block m => m

def item : Opening → List Item → Item
  | classDecl m h, body => .classDecl m h body
  | functionDecl m h, body => .functionDecl m h body
  | lambda m ps, body => .lambda m ps body
  | block m, body => .block m body

def kind : Opening → ScopeKind
  | classDecl .. => .classBody
  | functionDecl .. | lambda .. => .function
  | block _ => .block

/-- How many calls the walk takes to go into the body. -/
def calls : Opening → Nat
  | classDecl .. | functionDecl .. | lambda .. => 2
  | block _ => 1

end Opening

namespace Item

/-- Whether the walk takes an item in one step. -/
def isLeaf : Item → Bool
  | classDecl .. | functionDecl .. | lambda .. | block .. => false
  | _ => true

/-- Whether a text can hold the name of an item, where that is made of its place. -/
def isNameable : Item → Bool
  | lambda m _ _ => m.location.isWritable
  | _ => true

/-- What holds of no items, and of items behind a leaf or behind an item with a body of which it
holds, holds of all items. -/
theorem induct {P : List Item → Prop} (nil : P []) (leaf : ∀ i is, i.isLeaf → P is → P (i :: is))
    (opened : ∀ (o : Opening) body is, P body → P is → P (o.item body :: is))
    (is : List Item) : P is := by
  cases is with
  | nil => exact nil
  | cons i is =>
    have hrest : P is := induct nil leaf opened is
    cases i with
    | classDecl m h body =>
      exact opened (.classDecl m h) body is (induct nil leaf opened body) hrest
    | functionDecl m h body =>
      exact opened (.functionDecl m h) body is (induct nil leaf opened body) hrest
    | lambda m ps body => exact opened (.lambda m ps) body is (induct nil leaf opened body) hrest
    | block m body => exact opened (.block m) body is (induct nil leaf opened body) hrest
    | _ => exact leaf _ is rfl hrest
termination_by sizeOf is

end Item

/-- Where the walk stands in the body of an item. -/
def Draft.placeIn (d : Draft) (file : FileContext) (place : Place) : Opening → Place
  | .classDecl mark head =>
    let x := file.classDefinition place mark head
    ⟨file.markId mark, .classBody, x.qualname, place.caller, some x.id, place.room - 2⟩
  | .functionDecl mark head =>
    let x := file.functionDefinition place mark head
    ⟨file.markId mark, .function, x.qualname, x.id, none, place.room - 2⟩
  | .lambda mark params =>
    let x := file.lambdaDefinition place mark params (file.lambdaQualname place mark d)
    ⟨file.markId mark, .function, x.qualname, x.id, none, place.room - 2⟩
  | .block mark => ⟨file.markId mark, .block, place.qualname, place.caller, none, place.room - 1⟩

/-- The draft with which the walk goes into the body of an item. -/
def Draft.enter (d : Draft) (file : FileContext) (place : Place) : Opening → Draft
  | .classDecl mark head =>
    let x := file.classDefinition place mark head
    let d := (d.openScope (file.newScope mark .classBody (some place.scope) (some x.id))).declare
      place.scope x
    { d with classes := d.classes.insert x.id ⟨x.id, head.bases, file.markId mark⟩ }
  | .functionDecl mark head =>
    let x := file.functionDefinition place mark head
    let d := (d.openScope (file.newScope mark .function (some place.scope) (some x.id))).declare
      place.scope x
    let d := match head.receiver? place.ownerClass with
      | some (p, owner) => d.bind (file.markId mark) p.name (.receiver head.role owner)
      | none => d
    d.bindParams (file.markId mark) place.scope (head.givenParams place.ownerClass)
  | .lambda mark params =>
    let x := file.lambdaDefinition place mark params (file.lambdaQualname place mark d)
    let d := (d.openScope (file.newScope mark .function (some place.scope) (some x.id))).define x
    let d := { d with lambdas := d.lambdas.insert (mark.id.getD "") x.id }
    d.bindParams (file.markId mark) place.scope params
  | .block mark => d.openScope (file.newScope mark .block (some place.scope) none)

variable (file : FileContext)

/-- The walk goes into a body if the stack has room for it and a lambda can be named by its
place. -/
theorem walk_item (place : Place) (d : Draft) (o : Opening) (body : List Item) :
    walk file place d (o.item body) =
      if o.calls ≤ place.room then
        if (o.item body).isNameable then
          walkAll file (d.placeIn file place o) (d.enter file place o) body
        else .error .integerTooLong
      else .error .tooDeep := by
  cases o with
  | lambda mark params =>
    rw [Opening.item, walk, Place.reserve, Opening.calls, Item.isNameable, Location.checkWritable]
    split
    · split <;> rfl
    · rfl
  | _ =>
    rw [Opening.item, walk, Place.reserve]
    split <;> rename_i hroom
    · exact (if_pos hroom).symm
    · exact (if_neg hroom).symm

variable {file : FileContext} {place : Place} {d d' : Draft}

theorem walkAll_of_walk_item {o : Opening}
    {body : List Item} (h : walk file place d (o.item body) = .ok d') :
    walkAll file (d.placeIn file place o) (d.enter file place o) body = .ok d' := by
  rw [walk_item] at h
  split at h
  · split at h
    · exact h
    · cases h
  · cases h

theorem exists_of_walkAll_cons {i : Item} {is : List Item}
    (h : walkAll file place d (i :: is) = .ok d') :
    ∃ d₁, walk file place d i = .ok d₁ ∧ walkAll file place d₁ is = .ok d' := by
  rw [walkAll] at h
  exact bind_eq_ok h

/-- What holds of a draft, and is kept by the steps of a walk at places of some kind and by the
steps into a body, holds after the walk. -/
theorem walkAll_keeps {A : Place → Prop} {P : Draft → Prop}
    (leaf : ∀ {place d d' i}, A place → P d → i.isLeaf → walk file place d i = .ok d' → P d')
    (enter : ∀ {place d} (o : Opening), A place → P d → A (d.placeIn file place o) ∧
      P (d.enter file place o)) {is : List Item} (hplace : A place) (hd : P d)
    (h : walkAll file place d is = .ok d') : P d' := by
  induction is using Item.induct generalizing place d d' with
  | nil =>
    cases h
    exact hd
  | leaf i is hi ih =>
    obtain ⟨d₁, hstep, hrest⟩ := exists_of_walkAll_cons h
    exact ih hplace (leaf hplace hd hi hstep) hrest
  | opened o body is hbody ih =>
    obtain ⟨d₁, hstep, hrest⟩ := exists_of_walkAll_cons h
    obtain ⟨hin, henter⟩ := enter o hplace hd
    exact ih hplace (hbody hin henter (walkAll_of_walk_item hstep)) hrest

theorem walkAll_singleton (place : Place) (d : Draft) (i : Item) :
    walkAll file place d [i] = walk file place d i := by
  rw [walkAll]
  cases walk file place d i <;> rfl

theorem walkAll_append (place : Place) (d : Draft) (is js : List Item) :
    walkAll file place d (is ++ js) = walkAll file place d is >>= fun d =>
      walkAll file place d js := by
  induction is generalizing d with
  | nil => rfl
  | cons i is ih =>
    rw [cons_append, walkAll, walkAll]
    cases walk file place d i with
    | error e => rfl
    | ok d' => exact ih d'

/-! ## Assignments -/

/-- All that an assignment can do. -/
theorem Draft.addAssignment_cases {d d' : Draft} {file : FileContext} {place : Place} {mark : Mark}
    {a : Assignment} (h : d.addAssignment file place mark a = .ok d') :
    (∃ p, Dotted.cut? a.target = some p ∧ d' = d.assignMember place a p.1 p.2) ∨
    (Dotted.cut? a.target = none ∧
      (((a.isLoopTarget || a.kind = .lambda) ∧ ∃ v,
        (v = .loop ∨ ∃ id, d.lambdas.get? (a.value.getD "") = some id ∧ v = .literal id) ∧
          d' = d.bind place.scope a.target v) ∨
      ((a.isLoopTarget || a.kind = .lambda) = false ∧ a.makesDefinition place.scopeKind ∧
        d' = (d.define (file.boundDefinition place mark a.target)).bind place.scope a.target
          (.built (file.boundDefinition place mark a.target).id a.clues.1 place.scope)) ∨
      ((a.isLoopTarget || a.kind = .lambda) = false ∧ a.makesDefinition place.scopeKind = false ∧
        d' = d.bindValue place.scope a.target a.clues.1 a.clues.2 place.scope))) := by
  unfold addAssignment at h
  cases hcut : Dotted.cut? a.target with
  | some p =>
    rw [hcut] at h
    cases h
    exact .inl ⟨p, rfl, rfl⟩
  | none =>
    refine .inr ⟨rfl, ?_⟩
    rw [hcut] at h
    dsimp only at h
    split at h
    · next hloop =>
      cases h
      exact .inl ⟨by simp [hloop], .loop, .inl rfl, rfl⟩
    next hloop =>
    split at h
    · next hkind =>
      split at h
      · next id hid =>
        cases h
        exact .inl ⟨by simp [hkind], .literal id, .inr ⟨id, hid, rfl⟩, rfl⟩
      · cases h
    next hkind =>
    have hplain : (a.isLoopTarget || decide (a.kind = .lambda)) = false := by simp [hloop, hkind]
    split at h
    · next hmakes =>
      cases h
      exact .inr (.inl ⟨hplain, hmakes, rfl⟩)
    · next hmakes =>
      cases h
      exact .inr (.inr ⟨hplain, Bool.eq_false_iff.mpr hmakes, rfl⟩)

/-! ## Files -/

/-- What the walk knows of the file with an outline. -/
def Outline.context (o : Outline) (version : Int) : FileContext :=
  ⟨o.path, o.moduleName, o.isPackage, version⟩

namespace FileContext

variable (file : FileContext) (mark : Mark)

/-- Where the walk over a file begins. -/
def startPlace : Place :=
  ⟨file.markId mark, .fileBody, file.moduleName, (file.fileDefinition mark).id, none, walkRoom⟩

/-- The draft with which the walk over a file begins. -/
def startDraft : Draft :=
  (Draft.empty.openScope
    (file.newScope mark .fileBody none (some (file.fileDefinition mark).id))).define
    (file.fileDefinition mark)

end FileContext

namespace Item

mutual

theorem length_levels (level : Nat) (i : Item) : (i.levels level).length = i.preorder.length := by
  cases i with
  | fileBody | classDecl | functionDecl | lambda | block =>
    rw [levels, preorder, length_cons, length_cons, length_levelsAll]
  | _ => rfl

theorem length_levelsAll (level : Nat) (is : List Item) :
    (levelsAll level is).length = (preorderAll is).length := by
  cases is with
  | nil => rfl
  | cons i is =>
    rw [levelsAll, preorderAll, length_append, length_append, length_levels, length_levelsAll]

end

end Item

namespace Outline

variable {o : Outline}

/-- The check comes to all items of an outline that does not nest too deeply. -/
theorem reached_eq (h : o.isShallow) : o.reached = o.root.preorder := by
  have hall : (o.root.levels 0 ++ []).takeWhile (· ≤ maxNesting) = o.root.levels 0 ++ [] :=
    takeWhile_append_of_pos (all_eq_true.mp h)
  rw [append_nil] at hall
  rw [reached, hall, Item.length_levels, take_length]

/-- A well-formed outline has a path and a name, its root is a file body, its items pass the check
one after the other, and none nests too deeply. -/
theorem check_eq_ok_iff :
    o.check = .ok () ↔ o.path ≠ "" ∧ o.moduleName ≠ "" ∧ o.isShallow ∧
      ∃ mark body s, o.root = .fileBody mark body ∧ checkItems ⟨[],
        []⟩ o.root.preorder = .ok s := by
  unfold check
  split
  · next hpath => simp [hpath]
  split
  · next hmodule => simp [hmodule]
  next hpath hmodule =>
  simp only [hpath, hmodule, ne_eq, not_false_eq_true, true_and]
  split
  · next mark body hroot =>
    by_cases h : o.isShallow
    · rw [reached_eq h, if_pos h]
      cases hs : checkItems ⟨[], []⟩ o.root.preorder with
      | error e => simp [bind, Except.bind]
      | ok s => exact iff_of_true rfl ⟨h, mark, body, s, hroot, rfl⟩
    · rw [if_neg h]
      refine iff_of_false ?_ fun hall => h hall.1
      cases checkItems ⟨[], []⟩ o.reached <;> simp [bind, Except.bind, throw, throwThe,
        MonadExceptOf.throw]
  · next hroot =>
    refine iff_of_false (by simp) ?_
    rintro ⟨_, mark, body, _, heq, _⟩
    exact hroot mark body heq

/-- The root of a well-formed outline is a file body, and its items pass the check. -/
theorem checkItems_of_check (h : o.check = .ok ()) :
    ∃ mark body s, o.root = .fileBody mark body ∧ checkItems ⟨[], []⟩ o.root.preorder = .ok s :=
  (check_eq_ok_iff.mp h).2.2.2

end Outline

namespace Digest

variable {o : Outline} {version : Int}

theorem draftOf_eq {mark : Mark} {body : List Item} (h : o.root = .fileBody mark body)
    (version : Int) :
    draftOf o version = walkAll (o.context version) ((o.context version).startPlace mark)
      ((o.context version).startDraft mark) body := by
  unfold draftOf
  rw [h]
  rfl

/-- The digest of an outline is that of a failure, or that of a walk over the file. -/
theorem ofOutline_cases {d : Digest} (h : ofOutline o version = .ok d) :
    (∃ defect item, o.check = .error (.malformed defect item) ∧ d = failed o defect item) ∨
      (o.check = .ok () ∧ ∃ mark body draft, o.root = .fileBody mark body ∧
        walkAll (o.context version) ((o.context version).startPlace mark)
          ((o.context version).startDraft mark) body = .ok draft ∧ d = ofDraft o draft) := by
  unfold ofOutline at h
  cases hcheck : o.check with
  | error refusal =>
    rw [hcheck] at h
    cases refusal with
    | malformed defect item =>
      cases h
      exact .inl ⟨defect, item, rfl, rfl⟩
    | stopped fault => cases h
  | ok u =>
    rw [hcheck] at h
    obtain ⟨mark, body, _, hroot, _⟩ := Outline.checkItems_of_check hcheck
    obtain ⟨draft, hwalk, rfl⟩ := map_eq_ok h
    exact .inr ⟨rfl, mark, body, draft, hroot, (draftOf_eq hroot version).symm.trans hwalk, rfl⟩

end Digest

end Xref

import Xref.Proofs.Relabelled.Digest

/-!
# Outlines and digests without annotations

That a function is asynchronous, that it is suspended, and most decorators say nothing about which
definitions a file makes or what its names denote. Digesting commutes with forgetting them.
-/

namespace Xref

open Item Relabelling Draft

/-! ## Outlines -/

/-- The last names of the decorators that change what a declaration is. -/
def tellingTails : List String :=
  ["staticmethod", "classmethod", "abstractmethod", "overload"]

/-- Whether a decorator of a declaration with the given name only annotates it: it is none of those
that change what it is, and does not make it an accessor of the property of its own name. -/
def onlyAnnotates (name decorator : String) : Bool :=
  !tellingTails.contains (decoratorTail decorator) &&
    !([".setter", ".getter", ".deleter"].any fun suffix => decorator = name ++ suffix)

/-- The decorators of a declaration that do not only annotate it. -/
def tellingDecorators (name : String) (decorators : List String) : List String :=
  decorators.filter fun d => !onlyAnnotates name d

def ClassHead.unannotated (head : ClassHead) : ClassHead :=
  { head with decorators := tellingDecorators head.name head.decorators }

def FunctionHead.unannotated (head : FunctionHead) : FunctionHead :=
  { head with decorators := tellingDecorators head.name head.decorators, isAsync := false }

namespace Item

mutual

/-- The item without annotations; nothing is left of a suspension. -/
def unannotated : Item → List Item
  | fileBody m b => [fileBody m (unannotatedAll b)]
  | classDecl m h b => [classDecl m h.unannotated (unannotatedAll b)]
  | functionDecl m h b => [functionDecl m h.unannotated (unannotatedAll b)]
  | lambda m ps b => [lambda m ps (unannotatedAll b)]
  | block m b => [block m (unannotatedAll b)]
  | call m h => [call m h]
  | assign m a => [assign m a]
  | importDecl m i => [importDecl m i]
  | reference m e => [reference m e]
  | suspend _ => []
  | foreign v => [foreign v]

/-- The items of a body without annotations. -/
def unannotatedAll : List Item → List Item
  | [] => []
  | i :: is => unannotated i ++ unannotatedAll is

end

end Item

namespace Opening

def unannotated : Opening → Opening
  | classDecl m h => classDecl m h.unannotated
  | functionDecl m h => functionDecl m h.unannotated
  | o => o

theorem unannotated_item (o : Opening) (body : List Item) :
    (o.item body).unannotated = [o.unannotated.item (Item.unannotatedAll body)] := by
  cases o <;> rw [item, Item.unannotated] <;> rfl

theorem calls_unannotated (o : Opening) : o.unannotated.calls = o.calls := by
  cases o <;> rfl

theorem isNameable_unannotated (o : Opening) (body body' : List Item) :
    (o.unannotated.item body).isNameable = (o.item body').isNameable := by
  cases o <;> rfl

end Opening

def Outline.unannotated (o : Outline) : Outline :=
  { o with
    root := match o.root with
      | .fileBody m b => .fileBody m (unannotatedAll b)
      | other => other }

/-! ## Telling decorators -/

/-- A test that no annotation passes is not changed by forgetting annotations. -/
theorem any_tellingDecorators {name : String} {p : String → Bool}
    (h : ∀ d, p d → onlyAnnotates name d = false) (decorators : List String) :
    (tellingDecorators name decorators).any p = decorators.any p := by
  rw [tellingDecorators, List.any_filter]
  refine congrArg (List.any decorators) (funext fun d => ?_)
  cases hp : p d with
  | false => rw [Bool.and_false]
  | true => rw [h d hp, Bool.and_true, Bool.not_false]

theorem onlyAnnotates_of_tail {name d tail : String} (htail : tail ∈ tellingTails)
    (h : decide (decoratorTail d = tail)) : onlyAnnotates name d = false := by
  have hcontains : tellingTails.contains (decoratorTail d) := by
    rw [of_decide_eq_true h]
    simpa using htail
  rw [onlyAnnotates, hcontains]
  rfl

theorem hasDecorator_unannotated {head : FunctionHead} {tail : String} (h : tail ∈ tellingTails) :
    head.unannotated.hasDecorator tail = head.hasDecorator tail :=
  any_tellingDecorators (fun _ hd => onlyAnnotates_of_tail h hd) head.decorators

/-- Which declarations stand beside each other is told by the other decorators. -/
theorem supersedes_tellingDecorators (name previousName : String)
    (previous decorators : List String) :
    supersedes (tellingDecorators previousName previous) name (tellingDecorators name decorators) =
      supersedes previous name decorators := by
  have haccessor : ∀ d : String, ([".setter", ".getter", ".deleter"].any fun suffix =>
      d = name ++ suffix) → onlyAnnotates name d = false := by
    intro d hd
    rw [onlyAnnotates, hd, Bool.not_true, Bool.and_false]
  unfold supersedes
  rw [any_tellingDecorators (fun _ hd => onlyAnnotates_of_tail (by decide) hd),
    any_tellingDecorators haccessor]

/-- Annotations are forgotten, and versions kept. -/
def Relabelling.unannotated : Relabelling where
  version := (·.version)
  decorators x := tellingDecorators x.name x.decorators
  isAsync _ := false
  isSuspended _ := false
  suspended _ := []
  supersedes_eq _ _ := supersedes_tellingDecorators ..

theorem FunctionHead.receiver?_unannotated (head : FunctionHead) :
    head.unannotated.receiver? = head.receiver? := by
  funext owner
  unfold receiver?
  rw [hasDecorator_unannotated (by decide)]
  rfl

theorem FunctionHead.givenParams_unannotated (head : FunctionHead) :
    head.unannotated.givenParams = head.givenParams := by
  funext owner
  unfold givenParams
  rw [receiver?_unannotated]
  rfl

theorem FileContext.functionDefinition_unannotated (file : FileContext) (place : Place)
    (mark : Mark) (head : FunctionHead) :
    file.functionDefinition place mark head.unannotated =
      unannotated.definition (file.functionDefinition place mark head) := by
  unfold functionDefinition
  rw [head.givenParams_unannotated, hasDecorator_unannotated (by decide)]
  rfl

/-! ## The walk -/

namespace Relabelling

variable (file : FileContext) (place : Place) (d : Draft)

theorem placeIn_unannotated (o : Opening) :
    (unannotated.draft d).placeIn file place o.unannotated = d.placeIn file place o := by
  cases o with
  | lambda mark params =>
    dsimp only [Opening.unannotated, placeIn]
    rw [lambdaQualname_draft]
  | _ => rfl

/-- Going into a body commutes with forgetting annotations. -/
theorem enter_unannotated (o : Opening) :
    (unannotated.draft d).enter file place o.unannotated = unannotated.draft
      (d.enter file place o) := by
  cases o with
  | classDecl mark head =>
    have hdecl := fun s => unannotated.draft_declare (d.openScope s) place.scope
      (file.classDefinition place mark head)
    -- the record of the class is entered beside
    let decl : ClassDecl := ⟨(file.classDefinition place mark head).id, head.bases,
      file.markId mark⟩
    let enter (e : Draft) : Draft := { e with classes := e.classes.insert decl.id decl }
    exact congrArg enter (hdecl _).symm
  | functionDecl mark head =>
    have hreceiver := congrFun head.receiver?_unannotated place.ownerClass
    have hgiven := congrFun head.givenParams_unannotated place.ownerClass
    have hrole : head.unannotated.role = head.role := by
      rw [FunctionHead.role, hasDecorator_unannotated (by decide)]
      rfl
    have hdecl := fun s => unannotated.draft_declare (d.openScope s) place.scope
      (file.functionDefinition place mark head)
    dsimp only [Opening.unannotated, enter]
    rw [draft_bindParams, file.functionDefinition_unannotated, hreceiver, hgiven, hrole]
    refine congrArg (bindParams · _ _ _) ?_
    cases head.receiver? place.ownerClass with
    | none => exact (hdecl _).symm
    | some received =>
      rw [draft_bind]
      exact congrArg (bind · _ _ _) (hdecl _).symm
  | lambda mark params =>
    let x := file.lambdaDefinition place mark params (file.lambdaQualname place mark d)
    have hdef := fun s => unannotated.draft_define (d.openScope s) x
    dsimp only [Opening.unannotated, enter]
    rw [draft_bindParams, lambdaQualname_draft]
    refine congrArg (bindParams · _ _ _) ?_
    let enter (e : Draft) : Draft := { e with lambdas := e.lambdas.insert (mark.id.getD "") x.id }
    exact congrArg enter (hdef _).symm
  | block mark => rfl

/-- A step of the walk commutes with forgetting annotations. -/
theorem walk_unannotated {i : Item} (hi : i.isLeaf) :
    walkAll file place (unannotated.draft d) i.unannotated = (walk file place d i).map
      unannotated.draft := by
  cases i with
  | classDecl | functionDecl | lambda | block => cases hi
  | call mark head =>
    refine congrArg Except.ok ?_
    simp only [addCall, draft, List.map_append]
    rfl
  | assign mark a =>
    rw [Item.unannotated, walkAll_singleton, walk, walk]
    exact unannotated.addAssignment_draft d place mark a rfl
  | importDecl mark target =>
    exact congrArg Except.ok (unannotated.draft_addImport d file place target).symm
  | _ => rfl

theorem walkAll_unannotated (is : List Item) :
    walkAll file place (unannotated.draft d) (unannotatedAll is) =
      (walkAll file place d is).map unannotated.draft := by
  induction is using induct generalizing place d with
  | nil => rfl
  | leaf i is hi ih =>
    rw [unannotatedAll, walkAll_append, walkAll, walk_unannotated file place d hi]
    cases walk file place d i with
    | error e => rfl
    | ok d' => exact ih place d'
  | opened o body is hbody ih =>
    have hitem : walkAll file place (unannotated.draft d) (o.item body).unannotated =
        (walk file place d (o.item body)).map unannotated.draft := by
      rw [o.unannotated_item, walkAll_singleton, walk_item, walk_item, placeIn_unannotated,
        enter_unannotated, hbody, o.calls_unannotated, o.isNameable_unannotated _ body]
      split
      · split <;> rfl
      · rfl
    rw [unannotatedAll, walkAll_append, walkAll, hitem]
    cases walk file place d (o.item body) with
    | error e => rfl
    | ok d' => exact ih place d'

end Relabelling

theorem Digest.draftOf_unannotated (o : Outline) (version : Int) :
    draftOf o.unannotated version = (draftOf o version).map unannotated.draft := by
  obtain ⟨path, moduleName, root, isPackage, implicitMembers⟩ := o
  cases root with
  | fileBody mark body =>
    unfold draftOf Outline.unannotated
    rw [← walkAll_unannotated, draft_define]
    rfl
  | _ => rfl

/-- The digest of a well-formed outline is, labels apart, what the outline without annotations
gives. -/
theorem Digest.ofOutline_unannotated {o : Outline} (h : o.check = .ok ()) (version : Int) :
    (ofOutline o version).map unannotated.digest =
      (draftOf o.unannotated version).map (ofDraft o.unannotated) := by
  rw [ofOutline, h, draftOf_unannotated]
  cases draftOf o version <;> rfl

end Xref

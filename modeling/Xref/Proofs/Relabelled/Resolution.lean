import Xref.Index.Build
import Xref.Proofs.Relabelled.Catalog

/-!
# Resolving with other labels

No meaning and no hierarchy depends on labels, and no outcome of a call. Nor do they depend on the
list of files, as long as the same scopes may use implicit members.
-/

namespace Xref.Relabelling

open List View

variable (g : Relabelling)

/-! ## Meanings -/

section View

variable (v : View) {files : OrderedMap String Digest}

/-- The view with other labels, and with other files listed. -/
def viewWith (files : OrderedMap String Digest) (v : View) : View :=
  ⟨g.catalogWith files v.catalog, v.hierarchy⟩

theorem get?_view (id : DefId) :
    (g.viewWith files v).catalog.definitions.get? id = (v.catalog.definitions.get? id).map
      g.definition :=
  g.get?_catalog v.catalog id

theorem mentionClass_view : (g.viewWith files v).mentionClass = v.mentionClass := by
  funext id
  rw [mentionClass, mentionClass, get?_view]
  cases v.catalog.definitions.get? id <;> rfl

theorem mentionOrder_view : (g.viewWith files v).mentionOrder = v.mentionOrder := by
  funext id
  unfold mentionOrder
  rw [mentionClass_view]
  rfl

theorem classOf?_view : (g.viewWith files v).classOf? = v.classOf? := by
  funext r
  unfold classOf?
  split
  · rw [get?_view, Option.filter_map, Option.map_map]
    rfl
  · rfl

/-- The five ways to a meaning depend on each other with one hop less; none depends on labels. -/
theorem meanings_view (h : v.catalog.Unaffected files) (hops : Nat) :
    (g.viewWith files v).nameAt hops = v.nameAt hops ∧
      (g.viewWith files v).bindingAt hops = v.bindingAt hops ∧
      (g.viewWith files v).qualnameAt hops = v.qualnameAt hops ∧
      (g.viewWith files v).memberAt hops = v.memberAt hops ∧
        (g.viewWith files v).typeAt hops = v.typeAt hops := by
  have hfind : ∀ q, (g.viewWith files v).catalog.find? q = (v.catalog.find? q).map g.definition :=
    g.find?_catalog v.catalog
  have hlookup : (g.viewWith files v).catalog.lookup? = v.catalog.lookup? :=
    g.lookup?_catalog v.catalog h
  induction hops with
  | zero =>
    refine ⟨?_, ?_, ?_, ?_, ?_⟩ <;> rfl
  | succ hops ih =>
    obtain ⟨hname, hbinding, hqualname, hmember, htype⟩ := ih
    refine ⟨?_, ?_, ?_, ?_, ?_⟩
    · funext scope dotted
      rw [nameAt, nameAt, hlookup, hbinding, hmember]
    · funext b
      rw [bindingAt, bindingAt, hname, htype, hqualname]
      split
      · rfl
      · cases b.value with
        | declared id | literal id | built id =>
          dsimp only
          rw [get?_view]
          cases v.catalog.definitions.get? id <;> rfl
        | receiver role owner =>
          dsimp only
          rw [get?_view]
          cases v.catalog.definitions.get? owner <;> rfl
        | _ => rfl
    · funext qualname
      rw [qualnameAt, qualnameAt, hlookup, hbinding, hqualname, hmember, hfind]
      cases v.catalog.find? qualname <;> rfl
    · funext owner name
      rw [memberAt, memberAt, hqualname, hbinding, mentionOrder_view]
      cases owner.meaning with
      | definition id maker =>
        dsimp only
        rw [get?_view]
        cases v.catalog.definitions.get? id <;> rfl
      | package outer =>
        dsimp only
        rw [hfind, Option.isNone_map]
        rfl
      | _ => rfl
    · funext hint seenFrom
      rw [typeAt, typeAt, hname, classOf?_view]
      rfl

variable (h : v.catalog.Unaffected files)
include h

theorem name_view : (g.viewWith files v).name = v.name :=
  (g.meanings_view v h hops).1

theorem binding_view : (g.viewWith files v).binding = v.binding :=
  (g.meanings_view v h hops).2.1

theorem member_view : (g.viewWith files v).member = v.member :=
  (g.meanings_view v h hops).2.2.2.1

theorem reference_view : (g.viewWith files v).reference = v.reference := by
  funext p
  rw [reference, reference, g.name_view v h]

end View

/-! ## The hierarchy -/

section Hierarchy

open Hierarchy

variable (c : Catalog) {files : OrderedMap String Digest}

theorem basesOf_catalog (h : c.Unaffected files) : basesOf (g.catalogWith files c) = basesOf c := by
  have hadd : Bases.add (g.catalogWith files c) = Bases.add c := by
    funext scope bases base
    have hname : (View.mk (g.catalogWith files c) none).name = (View.mk c none).name :=
      g.name_view (View.mk c none) h
    unfold Bases.add
    rw [hname]
    split
    · rfl
    · generalize ((View.mk c none).name scope base).run [] = result
      obtain ⟨⟨meaning, _, _, _⟩, _⟩ := result
      cases meaning with
      | definition id maker =>
        have hclass :
          ((g.catalogWith files c).definitions.get? id).filter (fun d => d.kind = .classBody) =
            ((c.definitions.get? id).filter fun d => d.kind = .classBody).map g.definition := by
          rw [get?_catalog, Option.filter_map]
          rfl
        dsimp only
        rw [hclass]
        cases (c.definitions.get? id).filter fun d => d.kind = .classBody <;> rfl
      | object type holder | external qualname | package qualname | unresolved name => rfl
  funext decl
  rw [basesOf, basesOf, get?_catalog, hadd]
  cases c.definitions.get? decl.id <;> rfl

theorem hasDeepBase_catalog (h : c.Unaffected files) :
    hasDeepBase (g.catalogWith files c) = hasDeepBase c := by
  have hname : (View.mk (g.catalogWith files c) none).name = (View.mk c none).name :=
    g.name_view (View.mk c none) h
  unfold hasDeepBase
  rw [hname]
  refine congrArg (List.any c.classes.values) ?_
  funext decl
  rw [get?_catalog]
  cases c.definitions.get? decl.id <;> rfl

theorem allBases_catalog (h : c.Unaffected files) :
    allBases (g.catalogWith files c) = allBases c := by
  have hids : classIds (g.catalogWith files c) = classIds c := by
    rw [classIds, qualnameOf_catalog]
    rfl
  rw [allBases, hids, g.basesOf_catalog c h]
  rfl

theorem definitionOf?_catalog (b : Binding) :
    definitionOf? (g.catalogWith files c) b = (definitionOf? c b).map g.definition := by
  unfold definitionOf?
  cases b.value.definition? with
  | none => rfl
  | some id => exact g.get?_catalog c id

theorem withMembers_catalog (h : Hierarchy) :
    withMembers h (g.catalogWith files c) = withMembers h c := by
  have hlookup :
    ∀ id member, h.lookup? (g.catalogWith files c) id member none = h.lookup? c id member none :=
    fun _ _ => rfl
  have hconcrete : h.concrete? (g.catalogWith files c) = h.concrete? c := by
    funext member id
    unfold concrete?
    rw [hlookup]
    cases h.lookup? c id member none with
    | none => rfl
    | some found =>
      simp only [Option.bind_eq_bind, Option.bind_some, definitionOf?_catalog]
      cases definitionOf? c found.2 <;> rfl
  have habstract : givesAbstract h (g.catalogWith files c) = givesAbstract h c := by
    funext id member
    unfold givesAbstract
    rw [hlookup]
    cases h.lookup? c id member none with
    | none => rfl
    | some found =>
      simp only [Option.bind_some, definitionOf?_catalog]
      cases definitionOf? c found.2 <;> rfl
  funext e
  unfold withMembers concreteTargets
  rw [hconcrete, habstract]
  rfl

theorem build_catalogWith (h : c.Unaffected files) : build (g.catalogWith files c) = build c := by
  have hbare : bareEntry (g.catalogWith files c) = bareEntry c := by
    funext a orders id decl
    rw [bareEntry, bareEntry, qualnameOf_catalog]
  have hreport : cycleReport (g.catalogWith files c) = cycleReport c := by
    funext members
    rw [cycleReport, cycleReport, qualnameOf_catalog]
  have hof : ofAncestry (g.catalogWith files c) = ofAncestry c := by
    funext a
    unfold ofAncestry
    rw [hbare, hreport, qualnameOf_catalog]
    simp only [withMembers_catalog]
    rfl
  rw [build, build, g.hasDeepBase_catalog c h, g.allBases_catalog c h, hof]

theorem build_catalog : build (g.catalog c) = build c :=
  g.build_catalogWith c (g.unaffected c)

end Hierarchy

/-! ## Calls -/

section Resolver

open Resolver

variable (r : Resolver) (c : PendingCall) {files : OrderedMap String Digest}

/-- The resolver with other labels, and with other files listed. -/
def resolverWith (files : OrderedMap String Digest) (r : Resolver) : Resolver :=
  ⟨g.catalogWith files r.catalog, r.hierarchy, r.policy⟩

def resolver : Resolver :=
  ⟨g.catalog r.catalog, r.hierarchy, r.policy⟩

theorem reference_resolver : (g.resolver r).view.reference = r.view.reference :=
  g.reference_view r.view (g.unaffected r.catalog)

theorem get?_resolver (id : DefId) :
    (g.resolverWith files r).catalog.definitions.get? id = (r.catalog.definitions.get? id).map
      g.definition :=
  g.get?_catalog r.catalog id

theorem qualnameOf_resolver : (g.resolverWith files r).catalog.qualnameOf = r.catalog.qualnameOf :=
  g.qualnameOf_catalog r.catalog

/-- What follows a definition gets it with its other labels. -/
theorem bind_definition_resolver (id : DefId) (f : Definition → Resolving α) :
    (g.resolverWith files r).definition id >>= f = r.definition id >>= fun d =>
      f (g.definition d) := by
  unfold Resolver.definition
  rw [get?_resolver]
  cases r.catalog.definitions.get? id <;> rfl

theorem noteClass_resolver : (g.resolverWith files r).noteClass = r.noteClass := by
  funext id
  rw [noteClass, noteClass, qualnameOf_resolver]

theorem notedSubtree_resolver : (g.resolverWith files r).notedSubtree = r.notedSubtree := by
  funext id
  rw [notedSubtree, notedSubtree, noteClass_resolver]
  rfl

theorem candidates_resolver (isMember : Bool) :
    (g.resolverWith files r).candidates (g.call c) isMember = (r.candidates c isMember).map
      g.definition := by
  have hnamed : (g.resolverWith files r).catalog.named (g.call c).callee =
      (r.catalog.named c.callee).map g.definition := g.named_catalog r.catalog _
  unfold candidates
  dsimp only
  rw [hnamed, filter_map, filter_map]
  rw [isEmpty_map]
  exact (apply_ite (List.map g.definition) _ _ _).symm

theorem guess_resolver (isMember : Bool) :
    (g.resolverWith files r).guess (g.call c) isMember = r.guess c isMember := by
  have hguessed : (g.resolverWith files r).guessed (g.call c) isMember = r.guessed c isMember := by
    have hsort : sortOn Definition.nameOrder ((r.candidates c isMember).map g.definition) =
        (sortOn Definition.nameOrder (r.candidates c isMember)).map g.definition :=
      (map_sortOn (fun _ _ => rfl) _).symm
    unfold guessed
    dsimp only
    rw [candidates_resolver, hsort, isEmpty_map, length_map, map_map]
    rfl
  rw [guess, guess, hguessed]
  rfl

theorem construct_resolver : (g.resolverWith files r).construct = r.construct := by
  funext id
  have hinit : (((g.resolverWith files r).view.findMember? id "__init__").bind fun found =>
      found.2.value.definition?.bind (g.resolverWith files r).catalog.definitions.get?) =
      ((r.view.findMember? id "__init__").bind fun found =>
        found.2.value.definition?.bind r.catalog.definitions.get?).map g.definition := by
    show (r.view.findMember? id "__init__").bind _ = _
    cases r.view.findMember? id "__init__" with
    | none => rfl
    | some found => exact g.definitionOf?_catalog r.catalog found.2
  unfold construct
  rw [hinit]
  generalize ((r.view.findMember? id "__init__").bind fun found =>
    found.2.value.definition?.bind r.catalog.definitions.get?) = init
  cases init <;> rfl

theorem constructAny_resolver : (g.resolverWith files r).constructAny = r.constructAny := by
  funext id
  rw [constructAny, constructAny, notedSubtree_resolver, construct_resolver]

theorem missing_resolver : (g.resolverWith files r).missing = r.missing := by
  funext id member report
  rw [missing, missing, qualnameOf_resolver]
  rfl

theorem dispatchDefinition_resolver (id : DefId) (member : String) (d : Definition) :
    (g.resolverWith files r).dispatchDefinition id member (g.definition d) = r.dispatchDefinition id
      member d := by
  rw [dispatchDefinition, dispatchDefinition, construct_resolver]
  rfl

theorem invokeDefinition_resolver (d : Definition) (role : Option ReceiverRole) :
    (g.resolverWith files r).invokeDefinition (g.definition d) role = r.invokeDefinition d
      role := by
  rw [invokeDefinition, invokeDefinition, construct_resolver, constructAny_resolver]
  rfl

section Unaffected

variable (h : r.catalog.Unaffected files)
include h

theorem dispatchWith_resolver : (g.resolverWith files r).dispatchWith = r.dispatchWith := by
  funext invoke id member report
  have hlookup :
    (g.resolverWith files r).hierarchy.lookup? (g.resolverWith files r).catalog id member none =
      r.hierarchy.lookup? r.catalog id member none := rfl
  have hbinding : (g.resolverWith files r).view.binding = r.view.binding := g.binding_view r.view h
  unfold dispatchWith
  rw [notedSubtree_resolver, qualnameOf_resolver, missing_resolver, hlookup, hbinding]
  simp only [bind_definition_resolver, dispatchDefinition_resolver]
  rfl

theorem invoke_resolver (bound : Nat) :
    (g.resolverWith files r).invoke (g.call c) bound = r.invoke c bound := by
  have horHolder : (g.resolverWith files r).orHolder = r.orHolder := by
    funext type holder outcome
    unfold orHolder
    rw [qualnameOf_resolver]
  induction bound with
  | zero =>
    funext isHeld value
    unfold invoke
    simp only [bind_definition_resolver, invokeDefinition_resolver, guess_resolver]
    rfl
  | succ bound ih =>
    funext isHeld value
    unfold invoke
    simp only [bind_definition_resolver, invokeDefinition_resolver, guess_resolver, ih,
      g.dispatchWith_resolver r h, horHolder]
    rfl

theorem call_resolver : (g.resolverWith files r).call (g.call c) = r.call c := by
  funext isHeld value
  rw [Resolver.call, Resolver.call, g.invoke_resolver r c h]
  rfl

theorem dispatch_resolver : (g.resolverWith files r).dispatch (g.call c) = r.dispatch c := by
  funext id member
  rw [dispatch, dispatch, g.dispatchWith_resolver r h, g.call_resolver r c h]

theorem callBinding_resolver :
    (g.resolverWith files r).callBinding (g.call c) = r.callBinding c := by
  funext b
  have hbinding : (g.resolverWith files r).view.binding = r.view.binding := g.binding_view r.view h
  rw [callBinding, callBinding, hbinding, g.call_resolver r c h]

theorem callOnClass_resolver :
    (g.resolverWith files r).callOnClass (g.call c) = r.callOnClass c := by
  funext id
  rw [callOnClass, callOnClass, noteClass_resolver, qualnameOf_resolver, missing_resolver,
    g.callBinding_resolver r c h]
  rfl

theorem callOnParent_resolver :
    (g.resolverWith files r).callOnParent (g.call c) = r.callOnParent c := by
  funext owner
  rw [callOnParent, callOnParent, noteClass_resolver, qualnameOf_resolver, notedSubtree_resolver,
    g.callBinding_resolver r c h]
  rfl

theorem callName_resolver : (g.resolverWith files r).callName (g.call c) = r.callName c := by
  have hlookup : (g.resolverWith files r).catalog.lookup? = r.catalog.lookup? :=
    g.lookup?_catalog r.catalog h
  have hbinding : (g.resolverWith files r).view.binding = r.view.binding := g.binding_view r.view h
  rw [callName, callName, hlookup, guess_resolver, g.dispatch_resolver r c h,
    g.call_resolver r c h, hbinding, get?_resolver, Option.map_map]
  rfl

theorem callMember_resolver : (g.resolverWith files r).callMember (g.call c) = r.callMember c := by
  funext receiver
  have hname : (g.resolverWith files r).view.name = r.view.name := g.name_view r.view h
  have hmember : (g.resolverWith files r).view.member = r.view.member := g.member_view r.view h
  unfold callMember
  rw [hname, hmember, guess_resolver, g.dispatch_resolver r c h, g.call_resolver r c h,
    g.callOnClass_resolver r c h]
  simp only [bind_definition_resolver]
  rfl

/-- The outcome of a call does not depend on labels, nor do the names consulted for it. -/
theorem outcome_resolverWith : (g.resolverWith files r).outcome (g.call c) = r.outcome c := by
  have howner :
    ((g.resolverWith files r).catalog.definitions.get? (g.call c).caller).bind (·.ownerClass) =
      (r.catalog.definitions.get? c.caller).bind (·.ownerClass) := by
    rw [get?_resolver, Option.bind_map]
    rfl
  rw [outcome, outcome, g.callName_resolver r c h, g.callMember_resolver r c h,
    g.callOnParent_resolver r c h, guess_resolver, howner]
  rfl

end Unaffected

theorem outcome_resolver : (g.resolver r).outcome (g.call c) = r.outcome c :=
  g.outcome_resolverWith r c (g.unaffected r.catalog)

/-- What follows the definitions of some targets gets them with their other labels. -/
theorem bind_targetDefinitions_resolverWith (targets : List DefId)
    (f : List Definition → Resolving α) :
    (g.resolverWith files r).targetDefinitions targets >>= f =
      r.targetDefinitions targets >>= fun ds => f (ds.map g.definition) := by
  unfold targetDefinitions
  induction targets generalizing f with
  | nil => rfl
  | cons t ts ih =>
    simp only [mapM_cons, bind_assoc, pure_bind, bind_definition_resolver, ih, map_cons]

theorem bind_targetDefinitions_resolver (targets : List DefId) (f : List Definition → Resolving α) :
    (g.resolver r).targetDefinitions targets >>= f =
      r.targetDefinitions targets >>= fun ds => f (ds.map g.definition) :=
  g.bind_targetDefinitions_resolverWith r targets f

theorem forM_note_map_definition (ds : List Definition) :
    (ds.map g.definition).forM (fun d => note d.qualname) = ds.forM fun d => note d.qualname := by
  induction ds with
  | nil => rfl
  | cons d ds ih => exact congrArg (note d.qualname >>= fun _ => ·) ih

end Resolver

end Xref.Relabelling

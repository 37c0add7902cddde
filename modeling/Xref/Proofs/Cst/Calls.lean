import Xref.Proofs.Cst.Cover
import Xref.Proofs.Cst.Numbering

/-!
# The calls of an outline

The calls that are read from a node are those read from the nodes of its cover, in that order, and
the node itself if it is a call.
-/

namespace Xref

open List

def Item.callPlace? : Item → Option Location
  | call mark _ => some mark.location
  | _ => none

/-- The places of the calls among some items and below them, in program order. -/
def Item.callPlaces (items : List Item) : List Location :=
  (preorderAll items).filterMap callPlace?

namespace Cst

open Cover

open Item (callPlaces)

theorem callPlaces_append (is js : List Item) :
    callPlaces (is ++ js) = callPlaces is ++ callPlaces js := by
  rw [callPlaces, Item.preorderAll_append, filterMap_append]
  rfl

/-- An item that is no call has the calls of its body. -/
theorem callPlaces_around {i : Item} (body : List Item)
    (hpre : i.preorder = i :: Item.preorderAll body) (hplace : i.callPlace? = none) :
    callPlaces [i] = callPlaces body := by
  simp [callPlaces, Item.preorderAll, hpre, hplace]

/-! ## What is found in the nodes that are read -/

variable {source : ByteArray} {visit : Visit} {find : Cst → List Location} {n : Cst}

/-- What is found in the nodes that a cover reads. -/
def Cover.found (find : Cst → List Location) (c : Cover) : List Location :=
  c.read.flatMap find

section Found

variable {region : Region} {c d : Cover}

@[simp] theorem found_append : (c ++ d).found find = c.found find ++ d.found find := by
  simp [found]

@[simp] theorem found_all (f : Cst → Cover) (ns : List Cst) :
    (Cover.all f ns).found find = ns.flatMap fun n => (f n).found find := by
  simp [found, Cover.all, flatMap_assoc]

@[simp] theorem found_nothing : Cover.nothing.found find = [] := rfl

@[simp] theorem found_visited (n : Cst) : (Cover.visited n).found find = find n := by
  simp [found, Cover.visited]

@[simp] theorem found_passed (region : Region) (n : Cst) :
    (Cover.passed region n).found find = [] := rfl

@[simp] theorem found_alone (n : Cst) : (Cover.alone n).found find = [] := rfl

@[simp] theorem found_skipped (parent c : Cst) : (Cover.skipped region parent c).found find = [] :=
  rfl

theorem found_all_skipped (parent : Cst) (cs : List Cst) :
    (Cover.all (Cover.skipped region parent) cs).found find = [] := by
  simp

@[simp] theorem found_fieldsCover (fields : List (String × (Cst → Cover))) (n : Cst) :
    (fieldsCover region fields n).found find =
      fields.flatMap fun f => (n.field? f.1).toList.flatMap fun c => (f.2 c).found find := by
  have hfields : ∀ (rest : Cover), rest.found find = [] →
      (fields.foldr (fun f rest => all f.2 (n.field? f.1).toList ++ rest) rest).found find =
        fields.flatMap fun f => (n.field? f.1).toList.flatMap fun c => (f.2 c).found find := by
    intro rest hrest
    induction fields with
    | nil => exact hrest
    | cons f fields ih => rw [foldr_cons, found_append, found_all, ih, flatMap_cons]
  exact hfields _ (by simp)

@[simp] theorem found_childrenCover (p : Cst → Bool) (f : Cst → Cover) (n : Cst) :
    (childrenCover region p f n).found find = (n.namedChildren.filter p).flatMap fun c =>
      (f c).found find := by
  have hchildren : ∀ cs : List Cst,
      (cs.flatMap fun c => (if c.info.isNamed && p c then f c else skipped region n c).found find) =
        ((cs.filter fun c => c.info.isNamed).filter p).flatMap fun c => (f c).found find := by
    intro cs
    induction cs with
    | nil => rfl
    | cons c cs ih =>
      rw [flatMap_cons, ih]
      cases hnamed : c.info.isNamed <;> cases hp : p c <;> simp [hnamed, hp]
  rw [childrenCover, found_all]
  exact hchildren n.children

end Found

/-! ## Several nodes -/

/-- The calls of what a reading makes stand at the given places. -/
def Finds (m : Reading (List Item)) (places : List Location) : Prop :=
  ∀ start items stop, m.run start = .ok (items, stop) → callPlaces items = places

/-- Every node is read as items with the calls that are found in it. -/
def FindsAll (visit : Visit) (find : Cst → List Location) : Prop :=
  ∀ n decorators, Finds (visit n decorators) (find n)

theorem finds_nothing : Finds (pure []) [] := by
  intro start items stop h
  obtain ⟨rfl, _⟩ := run_pure_eq_ok.mp h
  rfl

theorem finds_both {m m' : Reading (List Item)} {places places' : List Location}
    (hm : Finds m places) (hm' : Finds m' places') :
    Finds (do return (← m) ++ (← m')) (places ++ places') := by
  intro start items stop h
  simp only [run_bind_eq_ok, run_pure_eq_ok] at h
  obtain ⟨is, mid, his, js, _, hjs, rfl, rfl⟩ := h
  rw [callPlaces_append, hm _ _ _ his, hm' _ _ _ hjs]

theorem finds_visitAll (hv : FindsAll visit find) (ns : List Cst) :
    Finds (visitAll visit ns) (ns.flatMap find) := by
  induction ns with
  | nil => exact finds_nothing
  | cons n ns ih => exact finds_both (hv n []) ih

theorem finds_visit? (hv : FindsAll visit find) (n? : Option Cst) :
    Finds (visit? visit n?) (n?.toList.flatMap find) := by
  cases n? with
  | none => exact finds_nothing
  | some n =>
    rw [Option.toList_some, flatMap_singleton]
    exact hv n []

theorem finds_suspension (n : Cst) : Finds (suspension n) [] := by
  unfold suspension
  split
  · intro start items stop h
    simp only [run_bind_eq_ok, run_pure_eq_ok] at h
    obtain ⟨mark, _, _, rfl, _⟩ := h
    rfl
  · exact finds_nothing

/-- Items without bodies that are no calls, one for each of some values. -/
theorem finds_eachMarked {f : Mark → α → Item} {place : Cst} (xs : List α)
    (hleaf : ∀ mark x, (f mark x).preorder = [f mark x] ∧ (f mark x).callPlace? = none) :
    Finds (xs.mapM fun x => do return f (← freshMark place) x) [] := by
  induction xs with
  | nil => exact finds_nothing
  | cons x xs ih =>
    intro start items stop h
    simp only [mapM_cons, run_bind_eq_ok, run_pure_eq_ok] at h
    obtain ⟨_, _, ⟨mark, _, _, rfl, rfl⟩, rest, _, hrest, rfl, rfl⟩ := h
    obtain ⟨hpre, hplace⟩ := hleaf mark x
    have hhere : callPlaces [f mark x] = [] := callPlaces_around [] hpre hplace
    rw [← singleton_append, callPlaces_append, hhere, ih _ _ _ hrest, append_nil]

/-! ## Classes and functions -/

/-- What is found in the body of a node: in its named children. -/
theorem found_block (n : Cst) (field : String) :
    ((n.field? field).toList.flatMap fun b => (blockCover b).found find) =
      (((n.field? field).map namedChildren).getD []).flatMap find := by
  cases n.field? field with
  | none => rfl
  | some b => simp [blockCover]

theorem found_parameters (n? : Option Cst) :
    (n?.toList.flatMap fun p => (parametersCover p).found find) = (defaults n?).flatMap find := by
  cases n? with
  | none => rfl
  | some p =>
    simp only [Option.toList_some, flatMap_singleton, parametersCover, found_append, found_alone,
      nil_append, found_childrenCover, found_fieldsCover, found_visited, defaults]
    induction p.namedChildren.filter (fun c => hasDefaultKind c.kind) with
    | nil => rfl
    | cons c cs ih =>
      rw [flatMap_cons, ih]
      cases hvalue : c.field? "value" <;> simp [hvalue]

theorem found_baseCover (n : Cst) :
    (baseCover source n).found find = (baseValueCover source (baseNode n)).found find := by
  unfold baseCover baseNode
  by_cases hkind : n.kind = "subscript"
  · cases hvalue : n.field? "value" <;> simp [hkind, hvalue]
  · simp [hkind]

variable {start stop : Nat} {before : List Item}

section

variable (hv : FindsAll visit find)
include hv

theorem found_of_readBases {ns : List Cst} {names : List String} {items : List Item}
    (h : (readBases source visit ns).run start = .ok ((names, items), stop)) :
    callPlaces items = ns.flatMap fun n => (baseCover source n).found find := by
  induction ns generalizing names items start with
  | nil =>
    obtain ⟨⟨⟩, _⟩ := run_pure_eq_ok.mp h
    rfl
  | cons n ns ih =>
    rw [flatMap_cons, found_baseCover, baseValueCover]
    simp only [readBases, run_bind_eq_ok, run_lift_eq_ok] at h
    obtain ⟨name?, _, ⟨hname, rfl⟩, h⟩ := h
    have hproper : isProperName source (baseNode n) = name?.isSome := by
      simp [isProperName, hname, Except.toOption]
    rw [hproper]
    cases name? with
    | some name =>
      simp only [run_bind_eq_ok, run_pure_eq_ok] at h
      obtain ⟨⟨names', items'⟩, _, hrest, ⟨⟩, rfl⟩ := h
      exact ih hrest
    | none =>
      dsimp only at h
      split at h
      · next hkeyword =>
        simp only [run_bind_eq_ok, run_pure_eq_ok] at h
        obtain ⟨_, _, ⟨rfl, rfl⟩, ⟨names', items'⟩, _, hrest, ⟨⟩, rfl⟩ := h
        rw [if_neg (by simp), if_pos hkeyword]
        exact ih hrest
      · next hkeyword =>
        simp only [run_bind_eq_ok, run_pure_eq_ok] at h
        obtain ⟨here, mid, hhere, ⟨names', items'⟩, _, hrest, ⟨⟩, rfl⟩ := h
        rw [if_neg (by simp), if_neg hkeyword, found_visited, callPlaces_append,
          hv _ _ _ _ _ hhere, ih hrest]

theorem finds_classItems (n : Cst) (decorators : List String) :
    Finds (classItems source visit n decorators) ((classCover source n).found find) := by
  unfold classItems classCover
  cases hname : n.field? "name" with
  | none => simpa using finds_nothing
  | some nameNode =>
    intro start items stop h
    simp only [run_bind_eq_ok, run_pure_eq_ok, run_lift_eq_ok] at h
    obtain ⟨⟨names, before⟩, _, hbefore, mark, _, _, name, _, _, body, _, hbody, rfl, _⟩ := h
    have hbases :
      ((n.field? "superclasses").toList.flatMap fun c => (basesCover source c).found find) =
        (((n.field? "superclasses").map namedChildren).getD []).flatMap fun c =>
          (baseCover source c).found find := by
      cases n.field? "superclasses" with
      | none => rfl
      | some c => simp [basesCover]
    simp only [Option.isSome_some, if_true, found_fieldsCover, flatMap_cons, flatMap_nil,
      append_nil, hbases, found_block]
    rw [callPlaces_append, found_of_readBases hv hbefore, callPlaces_around body rfl rfl,
      finds_visitAll hv _ _ _ _ hbody]

theorem finds_functionItems (n : Cst) (decorators : List String) :
    Finds (functionItems source visit n decorators) ((functionCover n).found find) := by
  unfold functionItems functionCover
  cases hname : n.field? "name" with
  | none => simpa using finds_nothing
  | some nameNode =>
    intro start items stop h
    simp only [run_bind_eq_ok, run_lift_eq_ok] at h
    obtain ⟨before, _, hbefore, mark, _, _, name, _, _, params, _, _, h⟩ := h
    simp only [Option.isSome_some, if_true, found_fieldsCover, flatMap_cons, flatMap_nil,
      append_nil, found_parameters, found_block]
    split at h
    all_goals
      simp only [run_bind_eq_ok, run_pure_eq_ok] at h
      obtain ⟨isAbstract, _, _, body, _, hbody, rfl, _⟩ := h
      rw [callPlaces_append, finds_visitAll hv _ _ _ _ hbefore, callPlaces_around body rfl rfl,
        finds_visitAll hv _ _ _ _ hbody]

theorem found_of_lambdaItems {mark : Mark} {item : Item}
    (h : (lambdaItems source visit n).run start = .ok ((before, mark, item), stop)) :
    callPlaces (before ++ [item]) = (lambdaCover n).found find := by
  simp only [lambdaItems, run_bind_eq_ok, run_pure_eq_ok] at h
  obtain ⟨before', _, hbefore, mark, _, _, params, _, _, body, _, hbody, ⟨⟩, _⟩ := h
  rw [callPlaces_append, finds_visitAll hv _ _ _ _ hbefore, callPlaces_around body rfl rfl,
    finds_visit? hv _ _ _ _ hbody]
  simp [lambdaCover, found_parameters]

end

/-! ## Assignments and loops -/

theorem finds_assignAll (place : Cst) (names : List String) (make : String → Assignment) :
    Finds (assignAll place names make) [] :=
  finds_eachMarked names fun _ _ => ⟨rfl, rfl⟩

theorem finds_chainTargets (kind : ValueKind) (value hint : Option String) (targets : List Cst) :
    Finds (chainTargets source kind value hint targets) [] := by
  induction targets with
  | nil => exact finds_nothing
  | cons target targets ih =>
    intro start items stop h
    simp only [chainTargets, run_bind_eq_ok, run_pure_eq_ok] at h
    obtain ⟨names, _, _, here, _, hhere, rest, _, hrest, rfl, _⟩ := h
    rw [callPlaces_append, finds_assignAll _ _ _ _ _ _ hhere, ih _ _ _ hrest, append_nil]

theorem value_chainOfRight (cs : List Cst) :
    (chainOfRight cs).value = (fieldIn? "right" cs).bind fun c => (chain c).value := by
  induction cs with
  | nil => rfl
  | cons c cs ih =>
    rw [chainOfRight]
    by_cases hfield : c.info.field = some "right"
    · simp [fieldIn?, hfield]
    · rw [if_neg hfield, ih]
      simp [fieldIn?, hfield]

/-- What is found in a chain of assignments: in its value. -/
theorem found_chainCover (n : Cst) :
    (chainCover n).found find = (chain n).value.toList.flatMap fun v =>
      (if v.kind = "lambda" then lambdaCover v else visited v).found find := by
  generalize hbound : n.height = bound
  induction bound using Nat.strongRecOn generalizing n with
  | ind bound ih =>
    subst hbound
    cases n with
    | node info children =>
      rw [chain]
      by_cases hkind : info.kind = "assignment"
      · have hassignment : (node info children).kind = "assignment" := hkind
        rw [chainCover_assignment hassignment, if_pos hkind]
        simp only [found_fieldsCover, flatMap_cons, flatMap_nil, append_nil, value_chainOfRight]
        cases hfield : fieldIn? "right" children with
        | none => simp [field?, Cst.children, hfield]
        | some c =>
          have hlt : c.height < (node info children).height :=
            height_lt_of_mem (mem_of_fieldIn? hfield).1
          simpa [field?, Cst.children, hfield] using ih c.height hlt c rfl
      · rw [chainCover, if_neg hkind, if_neg hkind]
        simp only [Option.toList_some, flatMap_singleton]
        rfl

theorem found_of_valueItems (hv : FindsAll visit find) {v? : Option Cst} {kind : ValueKind}
    {value : Option String}
    (h : (valueItems source visit v?).run start = .ok ((before, kind, value), stop)) :
    callPlaces before = v?.toList.flatMap fun v =>
      (if v.kind = "lambda" then lambdaCover v else visited v).found find := by
  unfold valueItems at h
  split at h
  · obtain ⟨⟨⟩, _⟩ := run_pure_eq_ok.mp h
    rfl
  · next v =>
    rw [Option.toList_some, flatMap_singleton]
    split at h
    · next hlambda =>
      simp only [run_bind_eq_ok, run_pure_eq_ok] at h
      obtain ⟨⟨before', mark, item⟩, _, hitems, ⟨⟩, _⟩ := h
      rw [if_pos hlambda, found_of_lambdaItems hv hitems]
    · next hlambda =>
      simp only [run_bind_eq_ok, run_pure_eq_ok] at h
      obtain ⟨⟨kind', value'⟩, _, _, here, _, hhere, ⟨⟩, _⟩ := h
      rw [if_neg hlambda, found_visited, hv _ _ _ _ _ hhere]

theorem finds_assignmentItems (hv : FindsAll visit find) (n : Cst) :
    Finds (assignmentItems source visit n) ((chainCover n).found find) := by
  intro start items stop h
  simp only [assignmentItems, run_bind_eq_ok, run_pure_eq_ok] at h
  obtain ⟨hint, _, _, ⟨before, kind, value⟩, _, hvalue, assignments, _, htargets, rfl, _⟩ := h
  rw [callPlaces_append, found_of_valueItems hv hvalue, finds_chainTargets _ _ _ _ _ _ _ htargets,
    append_nil, found_chainCover]

theorem finds_loopTargets (target? : Option Cst) : Finds (loopTargets source target?) [] := by
  cases target? with
  | none => exact finds_nothing
  | some target =>
    intro start items stop h
    simp only [loopTargets, run_bind_eq_ok] at h
    obtain ⟨names, _, _, h⟩ := h
    exact finds_assignAll _ _ _ _ _ _ h

theorem finds_loopItems (hv : FindsAll visit find) (n : Cst) :
    Finds (loopItems source visit n)
      ((fieldsCover .code [("right", visited), ("body", visited), ("alternative", visited)] n).found
        find) := by
  intro start items stop h
  simp only [loopItems, run_bind_eq_ok, run_pure_eq_ok] at h
  obtain ⟨right, _, hright, pause, _, hpause, targets, _, htargets, body, _, hbody, other, _,
    hother, rfl, _⟩ := h
  simp only [callPlaces_append, finds_visit? hv _ _ _ _ hright, finds_suspension _ _ _ _ hpause,
    finds_loopTargets _ _ _ _ htargets, finds_visit? hv _ _ _ _ hbody,
      finds_visit? hv _ _ _ _ hother]
  simp

/-! ## Context managers and comprehensions -/

theorem finds_contextTargets (targets : List Cst) : Finds (contextTargets source targets) [] := by
  induction targets with
  | nil => exact finds_nothing
  | cons target targets ih =>
    intro start items stop h
    simp only [contextTargets, run_bind_eq_ok, run_pure_eq_ok] at h
    obtain ⟨names, _, _, here, _, hhere, rest, _, hrest, rfl, _⟩ := h
    rw [callPlaces_append, finds_assignAll _ _ _ _ _ _ hhere, ih _ _ _ hrest, append_nil]

theorem found_managerCover (n : Cst) :
    (managerCover n).found find = (managerValueCover ((n.field? "value").getD n)).found find := by
  unfold managerCover
  cases hvalue : n.field? "value" <;> simp [hvalue]

theorem finds_contextItems (hv : FindsAll visit find) (n : Cst) :
    Finds (contextItems source visit n) ((managerCover n).found find) := by
  rw [found_managerCover]
  unfold contextItems managerValueCover
  dsimp only
  generalize (n.field? "value").getD n = value
  split
  · simp only [found_append, found_all_skipped, append_nil]
    cases hchildren : value.namedChildren with
    | nil => exact finds_nothing
    | cons expression targets =>
      have hfound : Finds (do return (← visit expression []) ++ (← contextTargets source targets))
          (find expression ++ []) := finds_both (hv expression []) (finds_contextTargets targets)
      simpa using hfound
  · rw [found_visited]
    exact hv value []

theorem finds_contextItemsAll (hv : FindsAll visit find) (ns : List Cst) :
    Finds (contextItemsAll source visit ns) (ns.flatMap fun n => (managerCover n).found find) := by
  induction ns with
  | nil => exact finds_nothing
  | cons n ns ih => exact finds_both (finds_contextItems hv n) ih

/-- The nodes that are read twice: a body that is a list of context managers. -/
def readAgain (n : Cst) : List Cst :=
  if n.kind = "with_statement" then
    ((n.field? "body").toList.filter isClause).flatMap namedChildren
  else []

theorem filter_clauses (n : Cst) :
    (n.namedChildren.filter fun c => c.kind = "with_clause") = n.children.filter isClause := by
  rw [namedChildren, filter_filter]
  congr 1
  funext c
  rw [isClause, Bool.and_comm]

section

variable (hv : FindsAll visit find)
include hv

theorem finds_withItems (hkind : n.kind = "with_statement") :
    Finds (withItems source visit n) ((withCover n).found find ++ (readAgain n).flatMap find) := by
  intro start items stop h
  simp only [withItems, run_bind_eq_ok, run_pure_eq_ok] at h
  obtain ⟨managers, _, hmanagers, pause, _, hpause, body, _, hbody, rfl, _⟩ := h
  have hblock : (withBodyCover n).found find ++ (readAgain n).flatMap find =
      (((n.field? "body").map namedChildren).getD []).flatMap find := by
    rw [withBodyCover, readAgain, if_pos hkind]
    cases hbody : n.field? "body" with
    | none => simp
    | some b =>
      cases hclause : isClause b <;> simp [hclause, blockCover]
  rw [callPlaces_append, callPlaces_append, finds_contextItemsAll hv _ _ _ _ hmanagers,
    finds_suspension _ _ _ _ hpause, finds_visitAll hv _ _ _ _ hbody, ← hblock, filter_clauses]
  simp [withCover, flatMap_assoc]

theorem finds_clauseItems (ns : List Cst) : Finds (clauseItems source visit ns)
      (ns.flatMap fun n => (fieldsCover .code [("right", visited)] n).found find) := by
  induction ns with
  | nil => exact finds_nothing
  | cons n ns ih =>
    intro start items stop h
    simp only [clauseItems, run_bind_eq_ok, run_pure_eq_ok] at h
    obtain ⟨right, _, hright, pause, _, hpause, targets, _, htargets, rest, _, hrest, rfl, _⟩ := h
    simp only [callPlaces_append, finds_visit? hv _ _ _ _ hright, finds_suspension _ _ _ _ hpause,
      finds_loopTargets _ _ _ _ htargets, ih _ _ _ hrest]
    simp

theorem finds_comprehensionItems (n : Cst) :
    Finds (comprehensionItems source visit n) ((comprehensionCover n).found find) := by
  intro start items stop h
  simp only [comprehensionItems, run_bind_eq_ok, run_pure_eq_ok] at h
  obtain ⟨mark, _, _, clauses, _, hclauses, rest, _, hrest, rfl, _⟩ := h
  rw [callPlaces_around (clauses ++ rest) rfl rfl, callPlaces_append,
    finds_clauseItems hv _ _ _ _ hclauses, finds_visitAll hv _ _ _ _ hrest]
  simp [comprehensionCover]

/-! ## Calls -/

theorem finds_argumentItems (n : Cst) :
    Finds (argumentItems source visit n) ((argumentCover source n).found find) := by
  have hcover : (argumentCover source n).found find =
      (if n.kind = "keyword_argument" then n.field? "value" else some n).toList.flatMap fun v =>
        (argumentValueCover source v).found find := by
    unfold argumentCover
    split <;> simp
  intro start items stop h
  rw [hcover]
  unfold argumentItems at h
  dsimp only at h
  split at h
  · next hvalue =>
    rw [hvalue, finds_nothing _ _ _ h]
    rfl
  · next v hvalue =>
    rw [hvalue, Option.toList_some, flatMap_singleton, argumentValueCover]
    split at h
    · next hname =>
      simp only [run_bind_eq_ok, run_lift_eq_ok] at h
      obtain ⟨name?, _, ⟨hproper, rfl⟩, h⟩ := h
      have hproper : isProperName source v = name?.isSome := by
        simp [isProperName, hproper, Except.toOption]
      rw [hname, hproper]
      cases name? with
      | none => simpa using hv v [] _ _ _ h
      | some expression =>
        simp only [run_bind_eq_ok, run_pure_eq_ok] at h
        obtain ⟨mark, _, _, rfl, _⟩ := h
        rfl
    · next hname => simpa [hname] using hv v [] _ _ _ h

theorem finds_argumentItemsAll (ns : List Cst) :
    Finds (argumentItemsAll source visit ns) (ns.flatMap fun n =>
      (argumentCover source n).found find) := by
  induction ns with
  | nil => exact finds_nothing
  | cons n ns ih => exact finds_both (finds_argumentItems hv n) ih

theorem found_of_receiverOf {receiver : String}
    (h : (receiverOf source visit n).run start = .ok ((before, receiver), stop)) :
    callPlaces before = (n.field? "object").toList.flatMap fun c =>
      (receiverCover source c).found find := by
  unfold receiverOf at h
  split at h
  · next hobject =>
    obtain ⟨⟨⟩, _⟩ := run_pure_eq_ok.mp h
    rw [hobject]
    rfl
  · next target hobject =>
    rw [hobject, Option.toList_some, flatMap_singleton, receiverCover]
    simp only [run_bind_eq_ok, run_lift_eq_ok] at h
    obtain ⟨name?, _, ⟨hname, rfl⟩, h⟩ := h
    cases name? with
    | some name =>
      obtain ⟨⟨⟩, _⟩ := run_pure_eq_ok.mp h
      rw [if_pos (by simp [hname, Except.toOption])]
      rfl
    | none =>
      simp only [run_bind_eq_ok, run_lift_eq_ok] at h
      obtain ⟨isSuper, _, ⟨hsuper, rfl⟩, h⟩ := h
      split at h
      · next his =>
        obtain ⟨⟨⟩, _⟩ := run_pure_eq_ok.mp h
        rw [if_pos (by simp [hsuper, his, Except.toOption])]
        rfl
      · next his =>
        simp only [run_bind_eq_ok, run_pure_eq_ok] at h
        obtain ⟨here, _, hhere, ⟨⟩, _⟩ := h
        rw [if_neg (by simp [hname, hsuper, his, Except.toOption]), found_visited,
          hv _ _ _ _ _ hhere]

theorem found_of_calleeOf {callee : String} {receiver : Option String}
    (h : (calleeOf source visit n).run start = .ok ((before, callee, receiver), stop)) :
    callPlaces before = (n.field? "function").toList.flatMap fun c =>
      (calleeCover source c).found find := by
  unfold calleeOf at h
  split at h
  · next hfunction =>
    obtain ⟨⟨⟩, _⟩ := run_pure_eq_ok.mp h
    rw [hfunction]
    rfl
  · next function hfunction =>
    rw [hfunction, Option.toList_some, flatMap_singleton, calleeCover]
    split at h
    · next hkind =>
      simp only [run_bind_eq_ok, run_pure_eq_ok] at h
      obtain ⟨name, _, _, ⟨⟩, _⟩ := h
      rw [if_pos hkind]
      rfl
    · next hkind =>
      rw [if_neg hkind]
      split at h
      · next hattribute =>
        simp only [run_bind_eq_ok, run_pure_eq_ok] at h
        obtain ⟨name, _, _, ⟨before', receiver'⟩, _, hreceiver, ⟨⟩, _⟩ := h
        rw [if_pos hattribute, found_of_receiverOf hv hreceiver]
        simp
      · next hattribute =>
        simp only [run_bind_eq_ok, run_pure_eq_ok] at h
        obtain ⟨here, _, hhere, ⟨⟩, _⟩ := h
        rw [if_neg hattribute, found_visited, hv _ _ _ _ _ hhere]

theorem found_of_readArguments {n? : Option Cst} {items : List Item} {count : Option Int}
    (h : (readArguments source visit n?).run start = .ok ((items, count), stop)) :
    callPlaces items = n?.toList.flatMap fun c => (argumentsCover source c).found find := by
  unfold readArguments at h
  split at h
  · obtain ⟨⟨⟩, _⟩ := run_pure_eq_ok.mp h
    rfl
  · next n =>
    rw [Option.toList_some, flatMap_singleton, argumentsCover]
    split at h
    · next hkind =>
      simp only [run_bind_eq_ok, run_pure_eq_ok] at h
      obtain ⟨here, _, hhere, ⟨⟩, _⟩ := h
      rw [if_pos hkind, found_visited, hv _ _ _ _ _ hhere]
    · next hkind =>
      simp only [run_bind_eq_ok, run_pure_eq_ok] at h
      obtain ⟨here, _, hhere, ⟨⟩, _⟩ := h
      rw [if_neg hkind, finds_argumentItemsAll hv _ _ _ _ hhere]
      simp

theorem finds_callItems (n : Cst) :
    Finds (callItems source visit n)
      ((fieldsCover .code [("function", calleeCover source),
        ("arguments", argumentsCover source)] n).found find ++ [n.location]) := by
  intro start items stop h
  simp only [callItems, run_bind_eq_ok, run_pure_eq_ok, run_freshMark_eq_ok] at h
  obtain ⟨⟨before, callee, receiver⟩, _, hcallee, ⟨arguments, count⟩, _, harguments, mark, _,
    ⟨rfl, _⟩, rfl, _⟩ := h
  rw [callPlaces_append, callPlaces_append, found_of_calleeOf hv hcallee,
    found_of_readArguments hv harguments]
  simp [callPlaces, Item.preorderAll, Item.preorder, Item.callPlace?]

end

/-! ## The whole tree -/

theorem finds_importItems (n : Cst) : Finds (importItems source n) [] := by
  intro start items stop h
  simp only [importItems, run_bind_eq_ok] at h
  obtain ⟨written, _, _, h⟩ := h
  split at h
  · cases h
  · split at h
    · next imports _ => exact finds_eachMarked imports (fun _ _ => ⟨rfl, rfl⟩) _ _ _ h
    · exact finds_nothing _ _ _ h
    · cases h
    · cases h

/-- What is found in a node, given what is found in the nodes below it: the node itself comes
last. -/
def foundAt (source : ByteArray) (find : Cst → List Location) (n : Cst) : List Location :=
  (cover source n).found find ++
    ((readAgain n).flatMap find ++ if n.kind = "call" then [n.location] else [])

theorem finds_ite {p : Prop} [Decidable p] {m m' : Reading (List Item)} {c d : Cover}
    {rest : List Location} (h : p → Finds m (c.found find ++ rest))
    (h' : ¬ p → Finds m' (d.found find ++ rest)) :
    Finds (if p then m else m') ((if p then c else d).found find ++ rest) := by
  by_cases hp : p
  · rw [if_pos hp, if_pos hp]
    exact h hp
  · rw [if_neg hp, if_neg hp]
    exact h' hp

/-- One step of the reading, with a case for each kind of node. -/
theorem findsAll_step (hv : FindsAll visit find) :
    FindsAll (step source visit) (foundAt source find) := by
  intro n decorators
  -- only a call is found itself, and only a `with` statement may be read twice in part
  have hplain : ∀ {m : Reading (List Item)} {places : List Location}, n.kind ≠ "with_statement" →
      n.kind ≠ "call" → Finds m places →
      Finds m (places ++
        ((readAgain n).flatMap find ++ if n.kind = "call" then [n.location] else [])) := by
    intro m places hwith hcall hm
    simpa [readAgain, hwith, hcall] using hm
  have hchildren : Finds (visitAll visit n.namedChildren)
      ((childrenCover .code (fun _ => true) visited n).found find) := by
    simpa using finds_visitAll hv n.namedChildren
  refine finds_ite (fun hkind => hplain (by simp [hkind]) (by simp [hkind]) ?_) fun _ => ?_
  · intro start items stop h
    obtain ⟨found, _, _, h⟩ := run_bind_eq_ok.mp h
    split at h
    · next definition hdefinition => simpa [hdefinition] using hv definition found _ _ _ h
    · next hdefinition => simpa [hdefinition] using finds_nothing _ _ _ h
  refine finds_ite (fun hkind => hplain (by simp [hkind]) (by simp [hkind]) ?_) fun _ => ?_
  · exact finds_classItems hv n decorators
  refine finds_ite (fun hkind => hplain (by simp [hkind]) (by simp [hkind]) ?_) fun _ => ?_
  · exact finds_functionItems hv n decorators
  refine finds_ite (fun hkind => hplain ?_ ?_ (by simpa using finds_importItems n)) fun _ => ?_
  · rintro heq
    simp [isImportKind, heq] at hkind
  · rintro heq
    simp [isImportKind, heq] at hkind
  refine finds_ite (fun hkind => hplain (by simp [hkind]) (by simp [hkind]) ?_) fun _ => ?_
  · exact finds_assignmentItems hv n
  refine finds_ite (fun hkind => hplain (by simp [hkind]) (by simp [hkind]) ?_) fun _ => ?_
  · simpa using finds_visit? hv (n.field? "right")
  refine finds_ite (fun hkind => hplain (by simp [hkind]) (by simp [hkind]) ?_) fun _ => ?_
  · exact finds_loopItems hv n
  refine finds_ite (fun hkind => ?_) fun hwith => ?_
  · simpa [hkind] using finds_withItems hv hkind
  refine finds_ite (fun hkind => hplain (by simp [hkind]) (by simp [hkind]) ?_) fun _ => ?_
  · intro start items stop h
    simp only [run_bind_eq_ok, run_pure_eq_ok] at h
    obtain ⟨⟨before, mark, item⟩, _, hlambda, rfl, _⟩ := h
    exact found_of_lambdaItems hv hlambda
  refine finds_ite (fun hkind => ?_) fun hcall => ?_
  · simpa [readAgain, hkind] using finds_callItems hv n
  refine finds_ite (fun _ => hplain hwith hcall ?_) fun _ => ?_
  · intro start items stop h
    simp only [run_bind_eq_ok, run_pure_eq_ok] at h
    obtain ⟨mark, _, _, rest, _, hrest, rfl, _⟩ := h
    have hpause : callPlaces (.suspend mark :: rest) = callPlaces rest := rfl
    rw [hpause, hchildren _ _ _ hrest]
  refine finds_ite (fun _ => hplain hwith hcall (finds_comprehensionItems hv n)) fun _ => ?_
  exact hplain hwith hcall hchildren

/-- The places of the calls that are found in a node whose height is bounded. -/
def foundIn (source : ByteArray) : Nat → Cst → List Location
  | 0, _ => []
  | bound + 1, n => foundAt source (foundIn source bound) n

/-- The calls that are read from a tree are those that are found in it, whatever bounds its
height. -/
theorem findsAll_visit (source : ByteArray) (bound : Nat) :
    FindsAll (Cst.visit source bound) (foundIn source bound) := by
  induction bound with
  | zero => exact fun _ _ => finds_nothing
  | succ bound ih => exact findsAll_step ih

end Cst

end Xref

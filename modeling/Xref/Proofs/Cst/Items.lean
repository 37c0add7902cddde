import Xref.Cst.Outline
import Xref.Proofs.Cst.Numbering
import Xref.Proofs.Script.Imports

/-!
# The items of a syntax tree

For every kind of node, the items that are read from it fit after those made before, provided that
the names in it are written and the nodes below it are read as items that fit.
-/

namespace Xref.Cst

open List Item ValueKind

/-! ## Written names -/

mutual

/-- The nodes of a tree, each before those below it. -/
def nodes : Cst → List Cst
  | node info children => node info children :: nodesAll children

def nodesAll : List Cst → List Cst
  | [] => []
  | c :: cs => nodes c ++ nodesAll cs

end

/-- Whether a node stands for a name: an identifier, or what fills a field for names. -/
def isWord (n : Cst) : Bool :=
  n.kind = "identifier" || n.info.field = some "name" || n.info.field = some "attribute"

/-- No name in a tree is written as an empty text, and a text can hold each row and column. -/
def Legible (source : ByteArray) (tree : Cst) : Prop :=
  ∀ n ∈ tree.nodes, (n.isWord → text source n ≠ .ok "") ∧ n.location.isWritable

theorem mem_nodesAll {n c : Cst} {cs : List Cst} (hc : c ∈ cs) (hn : n ∈ c.nodes) :
    n ∈ nodesAll cs := by
  induction cs with
  | nil => cases hc
  | cons d ds ih =>
    rw [nodesAll, mem_append]
    rcases mem_cons.mp hc with rfl | hc
    · exact .inl hn
    · exact .inr (ih hc)

theorem mem_nodes_self (n : Cst) : n ∈ n.nodes := by
  cases n
  rw [nodes]
  exact mem_cons_self

namespace Legible

variable {source : ByteArray} {n c : Cst}

section

variable (h : Legible source n)
include h

theorem child (hc : c ∈ n.children) : Legible source c := by
  intro m hm
  refine h m ?_
  cases n
  rw [nodes]
  exact mem_cons_of_mem _ (mem_nodesAll hc hm)

theorem namedChild (hc : c ∈ n.namedChildren) : Legible source c :=
  h.child (mem_filter.mp hc).1

theorem field {field : String} (hc : n.field? field = some c) : Legible source c :=
  h.child (mem_of_fieldIn? hc).1

/-- The named children of what fills a field. -/
theorem fieldChild {field : String}
    (hc : c ∈ ((n.field? field).map namedChildren).getD []) : Legible source c := by
  cases hf : n.field? field with
  | none => simp [hf] at hc
  | some b =>
    rw [hf] at hc
    exact (h.field hf).namedChild hc

theorem text_ne {s : String} (hword : n.isWord) (hs : text source n = .ok s) : s ≠ "" := by
  rintro rfl
  exact (h n (mem_nodes_self n)).1 hword hs

theorem text_ne_of_field {field s : String} (hc : n.field? field = some c)
    (hfield : field = "name" ∨ field = "attribute") (hs : text source c = .ok s) : s ≠ "" := by
  refine (h.field hc).text_ne ?_ hs
  rcases hfield with rfl | rfl <;> simp [isWord, (mem_of_fieldIn? hc).2]

theorem baseNode : Legible source (baseNode n) := by
  unfold Cst.baseNode
  split
  · cases hv : n.field? "value" with
    | none => exact h
    | some v => exact h.field hv
  · exact h

end

theorem default {params : Option Cst} (h : ∀ p ∈ params, Legible source p)
    (hc : c ∈ defaults params) : Legible source c := by
  cases params with
  | none => cases hc
  | some p =>
    obtain ⟨q, hq, hvalue⟩ := mem_filterMap.mp hc
    exact ((h p rfl).namedChild (mem_filter.mp hq).1).field hvalue

end Legible

mutual

theorem legible_chain {source : ByteArray} (n : Cst) (h : Legible source n) :
    ∀ v ∈ (chain n).value, Legible source v := by
  cases n with
  | node info children =>
    rw [chain]
    split
    · exact legible_chainOfRight children fun c hc => h.child hc
    · rintro v ⟨⟩
      exact h

theorem legible_chainOfRight {source : ByteArray} (cs : List Cst) (h : ∀ c ∈ cs, Legible source c) :
    ∀ v ∈ (chainOfRight cs).value, Legible source v := by
  cases cs with
  | nil => simp [chainOfRight]
  | cons c cs =>
    obtain ⟨hc, hcs⟩ := forall_mem_cons.mp h
    rw [chainOfRight]
    split
    · exact legible_chain c hc
    · exact legible_chainOfRight cs hcs

end

open Outline (defect?)

variable {source : ByteArray} {visit : Visit} {n : Cst}

/-! ## Several nodes -/

/-- Every node whose names are written is read as items that fit. -/
def Visits (source : ByteArray) (visit : Visit) : Prop :=
  ∀ n decorators, Legible source n → Makes (visit n decorators)

variable {ns : List Cst} {items before : List Item} {start stop : Nat} {known : List String}
  {name : String}
  {kind : ValueKind} {value : Option String}

theorem makes_visitAll (hv : Visits source visit) (hns : ∀ n ∈ ns, Legible source n) :
    Makes (visitAll visit ns) := by
  induction ns with
  | nil => exact makes_nothing
  | cons n ns ih =>
    obtain ⟨hn, hns⟩ := forall_mem_cons.mp hns
    exact makes_both (hv n [] hn) (ih hns)

theorem makes_visit? (hv : Visits source visit) {n? : Option Cst}
    (hn : ∀ n ∈ n?, Legible source n) : Makes (visit? visit n?) := by
  cases n? with
  | none => exact makes_nothing
  | some n => exact hv n [] (hn n rfl)

theorem makes_suspension (n : Cst) : Makes (suspension n) := by
  unfold suspension
  split
  · intro start items stop h
    simp only [run_bind_eq_ok, run_pure_eq_ok, run_freshMark_eq_ok] at h
    obtain ⟨mark, _, ⟨rfl, rfl⟩, rfl, rfl⟩ := h
    exact .leaf rfl rfl ⟨rfl, rfl⟩ fun _ _ => rfl
  · exact makes_nothing

/-! ## Classes and functions -/

section

variable (hv : Visits source visit)
include hv

theorem fits_readBases (hns : ∀ n ∈ ns, Legible source n) {names : List String}
    (h : (readBases source visit ns).run start = .ok ((names, items), stop)) :
    Fits [] start stop items := by
  induction ns generalizing names items start with
  | nil =>
    obtain ⟨⟨⟩, rfl⟩ := run_pure_eq_ok.mp h
    exact .nil
  | cons n ns ih =>
    obtain ⟨hn, hns⟩ := forall_mem_cons.mp hns
    simp only [readBases, run_bind_eq_ok, run_lift_eq_ok] at h
    obtain ⟨name?, _, ⟨hname, rfl⟩, h⟩ := h
    cases name? with
    | some name =>
      simp only [run_bind_eq_ok, run_pure_eq_ok] at h
      obtain ⟨⟨names', items'⟩, _, hrest, ⟨⟩, rfl⟩ := h
      exact ih hns hrest
    | none =>
      dsimp only at h
      split at h
      · simp only [run_bind_eq_ok, run_pure_eq_ok] at h
        obtain ⟨_, _, ⟨rfl, rfl⟩, ⟨names', items'⟩, _, hrest, ⟨⟩, rfl⟩ := h
        exact ih hns hrest
      · simp only [run_bind_eq_ok, run_pure_eq_ok] at h
        obtain ⟨here, mid, hhere, ⟨names', items'⟩, _, hrest, ⟨⟩, rfl⟩ := h
        exact (hv _ [] hn.baseNode _ _ _ hhere).beside (ih hns hrest)

variable (hn : Legible source n)
include hn

theorem makes_classItems (decorators : List String) :
    Makes (classItems source visit n decorators) := by
  intro start items stop h
  unfold classItems at h
  split at h
  · exact makes_nothing _ _ _ h
  · next nameNode hname =>
    simp only [run_bind_eq_ok, run_pure_eq_ok, run_lift_eq_ok, run_freshMark_eq_ok] at h
    obtain ⟨⟨names, before⟩, mid, hbefore, mark, _, ⟨rfl, rfl⟩, name, _, ⟨htext, rfl⟩, body, _,
      hbody, rfl, rfl⟩ := h
    refine (fits_readBases hv (fun c hc => hn.fieldChild hc) hbefore).beside
      (.around rfl rfl ⟨rfl, rfl⟩ ?_ ?_)
    · intro _ _
      simp [defect?, hn.text_ne_of_field hname (.inl rfl) htext]
    · exact makes_visitAll hv (fun c hc => hn.fieldChild hc) _ _ _ hbody

theorem makes_functionItems (decorators : List String) :
    Makes (functionItems source visit n decorators) := by
  intro start items stop h
  unfold functionItems at h
  split at h
  · exact makes_nothing _ _ _ h
  · next nameNode hname =>
    simp only [run_bind_eq_ok, run_lift_eq_ok, run_freshMark_eq_ok] at h
    obtain ⟨before, mid, hbefore, mark, _, ⟨rfl, rfl⟩, name, _, ⟨htext, rfl⟩, params, _,
      ⟨-, rfl⟩, h⟩ := h
    have hfits : ∀ isAbstract body last,
        (visitAll visit (((n.field? "body").map namedChildren).getD [])).run (mid + 1) =
          .ok (body, last) →
        Fits [] start last (before ++ [.functionDecl ⟨some (numbered (mid + 1)), n.location⟩
          ⟨name, params, decorators, isAbstract, n.isAsync⟩ body]) := by
      intro isAbstract body last hbody
      refine Fits.beside ?_ (.around rfl rfl ⟨rfl, rfl⟩ ?_ ?_)
      · exact makes_visitAll hv (fun c hc => Legible.default (fun p hp => hn.field hp) hc)
          _ _ _ hbefore
      · intro _ _
        simp [defect?, hn.text_ne_of_field hname (.inl rfl) htext]
      · exact makes_visitAll hv (fun c hc => hn.fieldChild hc) _ _ _ hbody
    split at h
    all_goals
      simp only [run_bind_eq_ok, run_pure_eq_ok, run_lift_eq_ok] at h
      obtain ⟨isAbstract, _, ⟨-, rfl⟩, body, _, hbody, rfl, rfl⟩ := h
      exact hfits isAbstract body _ hbody

/-- The lambda fits after the items of its default values, and can be referred to from then on. -/
theorem fits_lambdaItems {mark : Mark} {item : Item}
    (h : (lambdaItems source visit n).run start = .ok ((before, mark, item), stop)) :
    Fits [] start stop (before ++ [item]) ∧
      ∃ id, mark.id = some id ∧ id ∈ lambdaIds (preorderAll (before ++ [item])) := by
  simp only [lambdaItems, run_bind_eq_ok, run_pure_eq_ok, run_lift_eq_ok, run_freshMark_eq_ok,
    Prod.mk.injEq] at h
  obtain ⟨before', mid, hbefore, mark, _, ⟨rfl, rfl⟩, params, _, ⟨-, rfl⟩, body, _, hbody,
    ⟨rfl, rfl, rfl⟩, rfl⟩ := h
  refine ⟨Fits.beside ?_ (.around rfl rfl ⟨rfl, (hn n (mem_nodes_self n)).2⟩
    (fun _ _ => rfl) ?_), numbered (mid + 1), rfl, ?_⟩
  · exact makes_visitAll hv (fun c hc => Legible.default (fun p hp => hn.field hp) hc) _ _ _ hbefore
  · exact makes_visit? hv (fun c hc => hn.field hc) _ _ _ hbody
  · rw [preorderAll_append, mem_lambdaIds_append]
    exact .inr (mem_lambdaIds_cons.mpr (.inl rfl))

end

/-! ## Assignments and loops -/

/-- The assignment passes the check if its lambda is one of some known ones. -/
structure Allowed (known : List String) (a : Assignment) : Prop where
  target : a.target ≠ ""
  kind : a.kind.isRecognised
  lambda : a.kind = .lambda → ∃ id ∈ known, a.value = some id

theorem Allowed.defect? {lambdas : List String} {a : Assignment} (h : Allowed known a)
    (hl : ∀ id ∈ known, id ∈ lambdas) (mark : Mark) : defect? lambdas (.assign mark a) = none := by
  rw [Outline.defect?, if_neg (by simp [h.target, h.kind]), if_neg]
  simp only [Bool.and_eq_true, decide_eq_true_eq, Bool.not_eq_true', not_and, Bool.not_eq_false]
  intro hkind
  obtain ⟨id, hid, hvalue⟩ := h.lambda hkind
  simp [hvalue, hl id hid]

theorem allowed_plainAssignment (h : name ≠ "") (isLoopTarget : Bool) (known : List String) :
    Allowed known (plainAssignment isLoopTarget name) where
  target := h
  kind := rfl
  lambda hkind := by cases hkind

theorem fits_assignAll {names : List String} {make : String → Assignment} {place : Cst}
    (hmake : ∀ name ∈ names, Allowed known (make name))
    (h : (assignAll place names make).run start = .ok (items, stop)) :
    Fits known start stop items := by
  unfold assignAll at h
  exact fits_eachMarked (f := fun mark name => .assign mark (make name)) (fun _ _ =>
    ⟨rfl, rfl, rfl, rfl⟩)
    (fun name hname mark _ hl => (hmake name hname).defect? hl mark) h

theorem properName?_ne_empty (h : properName? source n = .ok (some name)) : name ≠ "" := by
  obtain ⟨name?, _, h⟩ := bind_eq_ok h
  cases name? with
  | none => cases h
  | some name' =>
    dsimp only at h
    split at h
    · cases h
    · next hne =>
      cases h
      exact hne

mutual

/-- Targets bind no empty name. -/
theorem targetNames_ne_empty (n : Cst) {names : List String}
    (h : targetNames source n = .ok names) : ∀ name ∈ names, name ≠ "" := by
  cases n with
  | node info children =>
    rw [targetNames] at h
    split at h
    · obtain ⟨name?, hname, h⟩ := bind_eq_ok h
      cases h
      intro name hmem
      cases name? with
      | none => cases hmem
      | some name' =>
        cases mem_singleton.mp hmem
        exact properName?_ne_empty hname
    · split at h
      · exact targetNamesAll_ne_empty children h
      · cases h
        simp

theorem targetNamesAll_ne_empty (ns : List Cst) {names : List String}
    (h : targetNamesAll source ns = .ok names) : ∀ name ∈ names, name ≠ "" := by
  cases ns with
  | nil =>
    cases h
    simp
  | cons n ns =>
    rw [targetNamesAll] at h
    split at h
    · obtain ⟨here, hhere, h⟩ := bind_eq_ok h
      obtain ⟨rest, hrest, h⟩ := bind_eq_ok h
      cases h
      exact forall_mem_append.mpr ⟨targetNames_ne_empty n hhere, targetNamesAll_ne_empty ns hrest⟩
    · obtain ⟨rest, hrest, h⟩ := bind_eq_ok (x := targetNamesAll source ns) h
      cases h
      exact targetNamesAll_ne_empty ns hrest

end

theorem fits_chainTargets {hint : Option String} (hkind : kind.isRecognised)
    (hlambda : kind = .lambda → ∃ id ∈ known, value = some id) {targets : List Cst}
    (h : (chainTargets source kind value hint targets).run start = .ok (items, stop)) :
    Fits known start stop items := by
  induction targets generalizing start items with
  | nil =>
    obtain ⟨rfl, rfl⟩ := run_pure_eq_ok.mp h
    exact .nil
  | cons target targets ih =>
    simp only [chainTargets, run_bind_eq_ok, run_pure_eq_ok, run_lift_eq_ok] at h
    obtain ⟨names, _, ⟨hnames, rfl⟩, here, mid, hhere, rest, _, hrest, rfl, rfl⟩ := h
    refine (fits_assignAll (fun name hname => ?_) hhere).beside (ih hrest)
    have hne := targetNames_ne_empty target hnames name hname
    split
    · exact ⟨hne, hkind, hlambda⟩
    · exact allowed_plainAssignment hne false known

theorem kind_of_valueOf {v : Cst} (h : valueOf source v = .ok (kind, value)) :
    kind.isRecognised ∧ kind ≠ .lambda := by
  unfold valueOf at h
  split at h
  · split at h
    · obtain ⟨name?, _, h⟩ := bind_eq_ok h
      cases name? <;> cases h <;> simp [isRecognised]
    · cases h
      simp [isRecognised]
  · split at h
    · obtain ⟨name?, _, h⟩ := bind_eq_ok h
      cases name? <;> cases h <;> simp [isRecognised]
    · cases h
      simp [isRecognised]

/-- The value of an assignment fits, and if it is a lambda, the assignment names one of its
items. -/
theorem fits_valueItems (hv : Visits source visit) {v? : Option Cst}
    (hn : ∀ v ∈ v?, Legible source v)
    (h : (valueItems source visit v?).run start = .ok ((before, kind, value), stop)) :
    Fits [] start stop before ∧ kind.isRecognised ∧
      (kind = .lambda → ∃ id ∈ lambdaIds (preorderAll before), value = some id) := by
  unfold valueItems at h
  split at h
  · obtain ⟨⟨⟩, rfl⟩ := run_pure_eq_ok.mp h
    exact ⟨.nil, rfl, by simp⟩
  · next v =>
    split at h
    · simp only [run_bind_eq_ok, run_pure_eq_ok] at h
      obtain ⟨⟨before', mark, item⟩, _, hlambda, ⟨⟩, rfl⟩ := h
      obtain ⟨hfits, id, hid, hmem⟩ := fits_lambdaItems hv (hn v rfl) hlambda
      exact ⟨hfits, rfl, fun _ => ⟨id, hmem, hid⟩⟩
    · simp only [run_bind_eq_ok, run_pure_eq_ok, run_lift_eq_ok] at h
      obtain ⟨⟨kind', value'⟩, _, ⟨hvalue, rfl⟩, here, _, hhere, ⟨⟩, rfl⟩ := h
      obtain ⟨hkind, hne⟩ := kind_of_valueOf hvalue
      exact ⟨hv v [] (hn v rfl) _ _ _ hhere, hkind, fun heq => absurd heq hne⟩

theorem makes_assignmentItems (hv : Visits source visit) (hn : Legible source n) :
    Makes (assignmentItems source visit n) := by
  intro start items stop h
  simp only [assignmentItems, run_bind_eq_ok, run_pure_eq_ok, run_lift_eq_ok] at h
  obtain ⟨hint, _, ⟨-, rfl⟩, ⟨before, kind, value⟩, mid, hvalue, assignments, _, htargets,
    rfl, rfl⟩ := h
  obtain ⟨hbefore, hkind, hlambda⟩ := fits_valueItems hv (legible_chain n hn) hvalue
  exact hbefore.append (fits_chainTargets hkind hlambda htargets) fun id hid => .inl hid

theorem makes_loopTargets (target? : Option Cst) : Makes (loopTargets source target?) := by
  cases target? with
  | none => exact makes_nothing
  | some target =>
    intro start items stop h
    simp only [loopTargets, run_bind_eq_ok, run_lift_eq_ok] at h
    obtain ⟨names, _, ⟨hnames, rfl⟩, h⟩ := h
    refine fits_assignAll (fun name hname => ?_) h
    exact allowed_plainAssignment (targetNames_ne_empty target hnames name (mem_filter.mp hname).1)
      true []

theorem makes_loopItems (hv : Visits source visit) (hn : Legible source n) :
    Makes (loopItems source visit n) := by
  intro start items stop h
  simp only [loopItems, run_bind_eq_ok, run_pure_eq_ok] at h
  obtain ⟨right, _, hright, pause, _, hpause, targets, _, htargets, body, _, hbody, other, _,
    hother, rfl, rfl⟩ := h
  have hfield :
    ∀ {field} {ns start stop}, (visit? visit (n.field? field)).run start = .ok (ns, stop) →
      Fits [] start stop ns := fun h => makes_visit? hv (fun c hc => hn.field hc) _ _ _ h
  exact ((((hfield hright).beside (makes_suspension n _ _ _ hpause)).beside
    (makes_loopTargets _ _ _ _ htargets)).beside (hfield hbody)).beside (hfield hother)

/-! ## Context managers and comprehensions -/

theorem makes_contextTargets (targets : List Cst) : Makes (contextTargets source targets) := by
  induction targets with
  | nil => exact makes_nothing
  | cons target targets ih =>
    intro start items stop h
    simp only [contextTargets, run_bind_eq_ok, run_pure_eq_ok, run_lift_eq_ok] at h
    obtain ⟨names, _, ⟨hnames, rfl⟩, here, mid, hhere, rest, _, hrest, rfl, rfl⟩ := h
    refine (fits_assignAll (fun name hname => ?_) hhere).beside (ih _ _ _ hrest)
    exact allowed_plainAssignment (targetNames_ne_empty target hnames name hname) false []

section

variable (hv : Visits source visit)
include hv

theorem makes_contextItems (hn : Legible source n) : Makes (contextItems source visit n) := by
  have hvalue : Legible source ((n.field? "value").getD n) := by
    cases hf : n.field? "value" with
    | none => exact hn
    | some v => exact hn.field hf
  unfold contextItems
  dsimp only
  split
  · split
    · exact makes_nothing
    · next expression targets hchildren =>
      refine makes_both (hv _ [] (hvalue.namedChild ?_)) (makes_contextTargets targets)
      rw [hchildren]
      exact mem_cons_self
  · exact hv _ [] hvalue

theorem makes_contextItemsAll (hns : ∀ n ∈ ns, Legible source n) :
    Makes (contextItemsAll source visit ns) := by
  induction ns with
  | nil => exact makes_nothing
  | cons n ns ih =>
    obtain ⟨hn, hns⟩ := forall_mem_cons.mp hns
    exact makes_both (makes_contextItems hv hn) (ih hns)

theorem makes_withItems (hn : Legible source n) : Makes (withItems source visit n) := by
  intro start items stop h
  simp only [withItems, run_bind_eq_ok, run_pure_eq_ok] at h
  obtain ⟨managers, _, hmanagers, pause, _, hpause, body, _, hbody, rfl, rfl⟩ := h
  refine (Fits.beside ?_ (makes_suspension n _ _ _ hpause)).beside ?_
  · refine makes_contextItemsAll hv (fun c hc => ?_) _ _ _ hmanagers
    obtain ⟨clause, hclause, hc⟩ := mem_flatMap.mp hc
    exact (hn.namedChild (mem_filter.mp hclause).1).namedChild hc
  · exact makes_visitAll hv (fun c hc => hn.fieldChild hc) _ _ _ hbody

theorem makes_clauseItems (hns : ∀ n ∈ ns, Legible source n) :
    Makes (clauseItems source visit ns) := by
  induction ns with
  | nil => exact makes_nothing
  | cons n ns ih =>
    obtain ⟨hn, hns⟩ := forall_mem_cons.mp hns
    intro start items stop h
    simp only [clauseItems, run_bind_eq_ok, run_pure_eq_ok] at h
    obtain ⟨right, _, hright, pause, _, hpause, targets, _, htargets, rest, _, hrest, rfl, rfl⟩ := h
    exact (((makes_visit? hv (fun c hc => hn.field hc) _ _ _ hright).beside
      (makes_suspension n _ _ _ hpause)).beside (makes_loopTargets _ _ _ _ htargets)).beside
        (ih hns _ _ _ hrest)

theorem makes_comprehensionItems (hn : Legible source n) :
    Makes (comprehensionItems source visit n) := by
  intro start items stop h
  simp only [comprehensionItems, run_bind_eq_ok, run_pure_eq_ok, run_freshMark_eq_ok] at h
  obtain ⟨mark, _, ⟨rfl, rfl⟩, clauses, _, hclauses, rest, _, hrest, rfl, rfl⟩ := h
  have hfirst :=
    makes_clauseItems hv (fun c hc => hn.namedChild (mem_filter.mp hc).1) _ _ _ hclauses
  have hother := makes_visitAll hv (fun c hc => hn.namedChild (mem_filter.mp hc).1) _ _ _ hrest
  exact .around rfl rfl ⟨rfl, rfl⟩ (fun _ _ => rfl) (hfirst.beside hother)

/-! ## Calls -/

theorem makes_argumentItems (hn : Legible source n) : Makes (argumentItems source visit n) := by
  intro start items stop h
  unfold argumentItems at h
  dsimp only at h
  split at h
  · exact makes_nothing _ _ _ h
  · next v hvalue =>
    have hlegible : Legible source v := by
      split at hvalue
      · exact hn.field hvalue
      · exact Option.some.inj hvalue ▸ hn
    split at h
    · simp only [run_bind_eq_ok, run_lift_eq_ok] at h
      obtain ⟨name?, _, ⟨-, rfl⟩, h⟩ := h
      cases name? with
      | none => exact hv v [] hlegible _ _ _ h
      | some expression =>
        simp only [run_bind_eq_ok, run_pure_eq_ok, run_freshMark_eq_ok] at h
        obtain ⟨mark, _, ⟨rfl, rfl⟩, rfl, rfl⟩ := h
        exact .leaf rfl rfl ⟨rfl, rfl⟩ fun _ _ => rfl
    · exact hv v [] hlegible _ _ _ h

theorem makes_argumentItemsAll (hns : ∀ n ∈ ns, Legible source n) :
    Makes (argumentItemsAll source visit ns) := by
  induction ns with
  | nil => exact makes_nothing
  | cons n ns ih =>
    obtain ⟨hn, hns⟩ := forall_mem_cons.mp hns
    exact makes_both (makes_argumentItems hv hn) (ih hns)

end

theorem memberName_ne_empty (hn : Legible source n) (h : memberName source n = .ok name) :
    name ≠ "" := by
  unfold memberName at h
  split at h
  · next member hmember => exact hn.text_ne_of_field hmember (.inr rfl) h
  · cases h
    simp

section

variable (hv : Visits source visit)
include hv

theorem fits_receiverOf (hn : Legible source n) {receiver : String}
    (h : (receiverOf source visit n).run start = .ok ((before, receiver), stop)) :
    Fits [] start stop before := by
  unfold receiverOf at h
  split at h
  · obtain ⟨⟨⟩, rfl⟩ := run_pure_eq_ok.mp h
    exact .nil
  · next target htarget =>
    simp only [run_bind_eq_ok, run_lift_eq_ok] at h
    obtain ⟨name?, _, ⟨-, rfl⟩, h⟩ := h
    cases name? with
    | some name =>
      obtain ⟨⟨⟩, rfl⟩ := run_pure_eq_ok.mp h
      exact .nil
    | none =>
      simp only [run_bind_eq_ok, run_lift_eq_ok] at h
      obtain ⟨isSuper, _, ⟨-, rfl⟩, h⟩ := h
      split at h
      · obtain ⟨⟨⟩, rfl⟩ := run_pure_eq_ok.mp h
        exact .nil
      · simp only [run_bind_eq_ok, run_pure_eq_ok] at h
        obtain ⟨here, _, hhere, ⟨⟩, rfl⟩ := h
        exact hv target [] (hn.field htarget) _ _ _ hhere

/-- What is called has a name. -/
theorem fits_calleeOf (hn : Legible source n) {callee : String} {receiver : Option String}
    (h : (calleeOf source visit n).run start = .ok ((before, callee, receiver), stop)) :
    Fits [] start stop before ∧ callee ≠ "" := by
  unfold calleeOf at h
  split at h
  · obtain ⟨⟨⟩, rfl⟩ := run_pure_eq_ok.mp h
    exact ⟨.nil, by simp⟩
  · next function hfunction =>
    have hlegible := hn.field hfunction
    split at h
    · next hkind =>
      simp only [run_bind_eq_ok, run_pure_eq_ok, run_lift_eq_ok] at h
      obtain ⟨name, _, ⟨htext, rfl⟩, ⟨⟩, rfl⟩ := h
      exact ⟨.nil, hlegible.text_ne (by simp [isWord, hkind]) htext⟩
    · split at h
      · simp only [run_bind_eq_ok, run_pure_eq_ok, run_lift_eq_ok] at h
        obtain ⟨name, _, ⟨hname, rfl⟩, ⟨before', receiver'⟩, _, hreceiver, ⟨⟩, rfl⟩ := h
        exact ⟨fits_receiverOf hv hlegible hreceiver, memberName_ne_empty hlegible hname⟩
      · simp only [run_bind_eq_ok, run_pure_eq_ok] at h
        obtain ⟨here, _, hhere, ⟨⟩, rfl⟩ := h
        exact ⟨hv function [] hlegible _ _ _ hhere, by simp⟩

theorem fits_readArguments {n? : Option Cst} (hn : ∀ n ∈ n?, Legible source n) {count : Option Int}
    (h : (readArguments source visit n?).run start = .ok ((items, count), stop)) :
    Fits [] start stop items := by
  unfold readArguments at h
  split at h
  · obtain ⟨⟨⟩, rfl⟩ := run_pure_eq_ok.mp h
    exact .nil
  · next n =>
    split at h
    · simp only [run_bind_eq_ok, run_pure_eq_ok] at h
      obtain ⟨here, _, hhere, ⟨⟩, rfl⟩ := h
      exact hv n [] (hn n rfl) _ _ _ hhere
    · simp only [run_bind_eq_ok, run_pure_eq_ok] at h
      obtain ⟨here, _, hhere, ⟨⟩, rfl⟩ := h
      refine makes_argumentItemsAll hv (fun c hc => ?_) _ _ _ hhere
      exact (hn n rfl).namedChild (mem_filter.mp hc).1

theorem makes_callItems (hn : Legible source n) : Makes (callItems source visit n) := by
  intro start items stop h
  simp only [callItems, run_bind_eq_ok, run_pure_eq_ok, run_freshMark_eq_ok] at h
  obtain ⟨⟨before, callee, receiver⟩, _, hcallee, ⟨arguments, count⟩, _, harguments, mark, _,
    ⟨rfl, rfl⟩, rfl, rfl⟩ := h
  obtain ⟨hbefore, hne⟩ := fits_calleeOf hv hn hcallee
  refine (hbefore.beside (fits_readArguments hv (fun c hc => hn.field hc) harguments)).beside ?_
  exact .leaf rfl rfl ⟨rfl, rfl⟩ fun _ _ => by simp [defect?, hne]

end

/-! ## Imports -/

theorem defect?_importDecl_eq_none_iff {lambdas : List String} {mark : Mark} {i : Import} :
    defect? lambdas (.importDecl mark i) = none ↔ i.HasTarget := by
  simp [defect?, Import.HasTarget]

theorem makes_importItems (n : Cst) : Makes (importItems source n) := by
  intro start items stop h
  simp only [importItems, run_bind_eq_ok, run_lift_eq_ok] at h
  obtain ⟨written, _, ⟨-, rfl⟩, h⟩ := h
  split at h
  · cases h
  · split at h
    · next imports himports =>
      refine fits_eachMarked (f :=
        .importDecl) (fun _ _ => ⟨rfl, rfl, rfl, rfl⟩) (fun i hi _ _ _ => ?_) h
      exact defect?_importDecl_eq_none_iff.mpr (Script.hasTarget_of_imports himports i hi)
    · exact makes_nothing _ _ _ h
    · cases h
    · cases h

/-! ## The whole tree -/

/-- One step of the reading, with a case for each kind of node. -/
theorem visits_step (hv : Visits source visit) : Visits source (step source visit) := by
  intro n decorators hn
  have hchildren : Makes (visitAll visit n.namedChildren) :=
    makes_visitAll hv fun c hc => hn.namedChild hc
  refine makes_ite ?decorated <| makes_ite (makes_classItems hv hn decorators) <|
    makes_ite (makes_functionItems hv hn decorators) <| makes_ite (makes_importItems n) <|
    makes_ite (makes_assignmentItems hv hn) <| makes_ite (makes_visit? hv fun c hc =>
      hn.field hc) <|
    makes_ite (makes_loopItems hv hn) <| makes_ite (makes_withItems hv hn) <| makes_ite ?lambda <|
    makes_ite (makes_callItems hv hn) <| makes_ite ?await <|
    makes_ite (makes_comprehensionItems hv hn) hchildren
  case decorated =>
    intro start items stop h
    obtain ⟨found, mid, hfound, h⟩ := run_bind_eq_ok.mp h
    have hcount : start = mid := count_of_mapM hfound
    subst hcount
    split at h
    · next definition hdefinition => exact hv definition found (hn.field hdefinition) _ _ _ h
    · exact makes_nothing _ _ _ h
  case lambda =>
    intro start items stop h
    simp only [run_bind_eq_ok, run_pure_eq_ok] at h
    obtain ⟨⟨before, mark, item⟩, _, hlambda, rfl, rfl⟩ := h
    exact (fits_lambdaItems hv hn hlambda).1
  case await =>
    intro start items stop h
    simp only [run_bind_eq_ok, run_pure_eq_ok, run_freshMark_eq_ok] at h
    obtain ⟨mark, _, ⟨rfl, rfl⟩, rest, _, hrest, rfl, rfl⟩ := h
    have hpause : Fits [] start (start + 1) [.suspend ⟨some (numbered (start + 1)), n.location⟩] :=
      .leaf rfl rfl ⟨rfl, rfl⟩ fun _ _ => rfl
    exact hpause.beside (hchildren _ _ _ hrest)

/-- A tree whose names are written is read as items that fit, whatever bounds its height. -/
theorem visits_visit (bound : Nat) : Visits source (Cst.visit source bound) := by
  induction bound with
  | zero => exact fun _ _ _ => makes_nothing
  | succ bound ih => exact visits_step ih

end Xref.Cst

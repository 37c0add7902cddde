import Xref.Proofs.Digest.Walk

/-!
# Files that can be digested

An assignment of a lambda names it by its id. The check of an outline knows the lambdas of all items
before the assignment, but the walk does not go into a file body inside the file, and has not met
the lambdas there. A file can be digested exactly if no assignment that the walk comes to names one
of these, and the check and the walk have room on the stack and numbers that a text can hold.
-/

namespace Xref

open Item List Text Opening Assignment OrderedMap Outline

/-! ## Walked items -/

/-- The lambda that an assignment binds a plain name to. -/
def Assignment.lambda? (a : Assignment) : Option String :=
  if (Dotted.cut? a.target).isNone && !a.isLoopTarget && a.kind = .lambda then some
    (a.value.getD "")
  else none

theorem Assignment.lambda?_eq_some {a : Assignment} {id : String} (h : a.lambda? = some id) :
    a.kind = .lambda ∧ a.value.getD "" = id := by
  unfold lambda? at h
  split at h
  · next hplain =>
    simp only [Bool.and_eq_true, decide_eq_true_eq] at hplain
    exact ⟨hplain.2, Option.some.inj h⟩
  · cases h

namespace Item

/-- The lambda that an item binds a name to. -/
def assigned? : Item → Option String
  | assign _ a => a.lambda?
  | _ => none

def lambdaId? : Item → Option String
  | lambda m _ _ => some (m.id.getD "")
  | _ => none

def lambdaIds (is : List Item) : List String :=
  is.filterMap lambdaId?

mutual

/-- The item and all below it that a walk comes to, in program order. -/
def walked : Item → List Item
  | fileBody m b => [fileBody m b]
  | classDecl m h b => classDecl m h b :: walkedAll b
  | functionDecl m h b => functionDecl m h b :: walkedAll b
  | lambda m ps b => lambda m ps b :: walkedAll b
  | block m b => block m b :: walkedAll b
  | call m h => [call m h]
  | assign m a => [assign m a]
  | importDecl m i => [importDecl m i]
  | reference m e => [reference m e]
  | suspend m => [suspend m]
  | foreign v => [foreign v]

/-- The items of a body and all below them that a walk comes to, in program order. -/
def walkedAll : List Item → List Item
  | [] => []
  | i :: is => walked i ++ walkedAll is

end

theorem walkedAll_cons_leaf {i : Item} (hi : i.isLeaf) (is : List Item) :
    walkedAll (i :: is) = i :: walkedAll is := by
  cases i with
  | classDecl | functionDecl | lambda | block => cases hi
  | _ =>
    rw [walkedAll, walked]
    rfl

theorem walked_item (o : Opening) (body : List Item) :
    (o.item body).walked = o.item body :: walkedAll body := by
  cases o <;> rw [item, walked]

theorem walkedAll_cons_item (o : Opening) (body is : List Item) :
    walkedAll (o.item body :: is) = o.item body :: (walkedAll body ++ walkedAll is) := by
  rw [walkedAll, walked_item]
  rfl

theorem walkedAll_append (is js : List Item) :
    walkedAll (is ++ js) = walkedAll is ++ walkedAll js := by
  induction is with
  | nil => rw [nil_append, walkedAll, nil_append]
  | cons i is ih => rw [cons_append, walkedAll, walkedAll, ih, append_assoc]

/-- The stack has room for a walk over some items, and a text for the names of the lambdas among
them. -/
def Fits (room : Nat) (is : List Item) : Prop :=
  callsAll is ≤ room ∧ ∀ i ∈ walkedAll is, i.isNameable
  deriving Decidable

theorem fits_cons_leaf {i : Item} (hi : i.isLeaf) {room : Nat} {is : List Item} :
    Fits room (i :: is) ↔ Fits room is := by
  rw [Fits, walkedAll_cons_leaf hi, forall_mem_cons, callsAll]
  cases i with
  | classDecl | functionDecl | lambda | block => cases hi
  | _ =>
    simp [Fits, calls, isNameable]

theorem callsAll_cons_item (o : Opening) (body is : List Item) :
    callsAll (o.item body :: is) = max (o.calls + callsAll body) (callsAll is) := by
  cases o <;> rw [callsAll, item, calls] <;> rfl

theorem fits_cons_item {o : Opening} {room : Nat} {body is : List Item} :
    Fits room (o.item body :: is) ↔
      (o.calls ≤ room ∧ (o.item body).isNameable ∧ Fits (room - o.calls) body) ∧ Fits room is := by
  have hcalls : o.calls + callsAll body ≤ room ↔ o.calls ≤ room ∧
    callsAll body ≤ room - o.calls := by
    omega
  simp only [Fits, callsAll_cons_item, walkedAll_cons_item, forall_mem_cons, forall_mem_append,
    Nat.max_le, hcalls]
  grind

/-- Every lambda that is assigned is known, or comes before the assignment. -/
def Covered (known : String → Prop) : List Item → Prop
  | [] => True
  | i :: is => (∀ id, i.assigned? = some id → known id) ∧
      Covered (fun id => i.lambdaId? = some id ∨ known id) is

variable {is : List Item}

theorem mem_lambdaIds_cons {i : Item} {id : String} :
    id ∈ lambdaIds (i :: is) ↔ i.lambdaId? = some id ∨ id ∈ lambdaIds is := by
  simp [lambdaIds]

theorem mem_lambdaIds_append {js : List Item} {id : String} :
    id ∈ lambdaIds (is ++ js) ↔ id ∈ lambdaIds is ∨ id ∈ lambdaIds js := by
  rw [lambdaIds, filterMap_append, mem_append, ← lambdaIds, ← lambdaIds]

theorem covered_append {known : String → Prop} {js : List Item} :
    Covered known (is ++ js) ↔ Covered known is ∧
      Covered (fun id => id ∈ lambdaIds is ∨ known id) js := by
  induction is generalizing known with
  | nil => simp [Covered, lambdaIds]
  | cons i is ih =>
    have hknown : (fun id => id ∈ lambdaIds is ∨ i.lambdaId? = some id ∨ known id) =
        fun id => id ∈ lambdaIds (i :: is) ∨ known id := by
      funext id
      rw [mem_lambdaIds_cons, ← or_assoc, or_comm (a := id ∈ lambdaIds is)]
    rw [cons_append, Covered, ih, hknown, Covered, and_assoc]

theorem covered_iff {known : String → Prop} :
    Covered known is ↔ ∀ before i after id, is = before ++ i :: after → i.assigned? = some id →
      id ∈ lambdaIds before ∨ known id := by
  constructor
  · rintro h before i after id rfl hid
    exact (covered_append.mp h).2.1 id hid
  · intro h
    induction is generalizing known with
    | nil => trivial
    | cons i is ih =>
      refine ⟨fun id hid => ?_, ih fun before j after id heq hid => ?_⟩
      · simpa [lambdaIds] using h [] i is id rfl hid
      · have hj := h (i :: before) j after id (by rw [heq, cons_append]) hid
        rw [mem_lambdaIds_cons] at hj
        rcases hj with (hi | hbefore) | hknown
        · exact .inr (.inl hi)
        · exact .inl hbefore
        · exact .inr (.inr hknown)

end Item

/-! ## The walk -/

@[simp] theorem Draft.lambdas_declare (d : Draft) (scope : ScopeId) (x : Definition) :
    (d.declare scope x).lambdas = d.lambdas := by
  unfold declare
  split <;> simp [define, discardBelow]

/-- What a walk over some items comes to: it goes through exactly if they fit and are covered by the
lambdas that are known before, and then those of the items are known too. -/
def Walks (fits : Prop) (d : Draft) (is : List Item) : Except Fault Draft → Prop
  | .ok d' => (fits ∧ Covered (· ∈ d.lambdas.keys) is) ∧
      ∀ id, id ∈ d'.lambdas.keys ↔ id ∈ lambdaIds is ∨ id ∈ d.lambdas.keys
  | .error _ => ¬ (fits ∧ Covered (· ∈ d.lambdas.keys) is)

namespace Walks

variable {p q : Prop} {d d₁ : Draft} {i : Item} {is js : List Item} {x : Except Fault Draft}

theorem exists_iff (h : Walks p d is x) :
    (∃ d', x = .ok d') ↔ p ∧ Covered (· ∈ d.lambdas.keys) is := by
  cases x with
  | ok d' => exact iff_of_true ⟨d', rfl⟩ h.1
  | error e => exact iff_of_false (by simp) h

theorem congr (h : Walks p d is x) (hpq : p ↔ q) : Walks q d is x :=
  propext hpq ▸ h

/-- A step that meets neither a lambda nor an assignment of one. -/
theorem step {d' : Draft} (hl : d'.lambdas = d.lambdas) (ha : i.assigned? = none)
    (hi : i.lambdaId? = none) : Walks True d [i] (.ok d') := by
  simp [Walks, Covered, lambdaIds, ha, hi, hl]

/-- The items below an item are walked with its lambda, if it is one. -/
theorem below (h : Walks p d₁ is x) (ha : i.assigned? = none)
    (hl : ∀ id, id ∈ d₁.lambdas.keys ↔ i.lambdaId? = some id ∨ id ∈ d.lambdas.keys) :
    Walks p d (i :: is) x := by
  cases x <;> simpa [Walks, Covered, mem_lambdaIds_cons, ha, hl, or_assoc, or_left_comm] using h

theorem append {f : Draft → Except Fault Draft} (h : Walks p d is x)
    (hf : ∀ d', x = .ok d' → Walks q d' js (f d')) : Walks (p ∧ q) d (is ++ js) (x >>= f) := by
  cases x with
  | error e => exact fun hall => h ⟨hall.1.1, (covered_append.mp hall.2).1⟩
  | ok d' =>
    have hjs := hf d' rfl
    have hknown : (fun id => id ∈ lambdaIds is ∨ id ∈ d.lambdas.keys) = (· ∈ d'.lambdas.keys) :=
      funext fun id => propext (h.2 id).symm
    show Walks (p ∧ q) d (is ++ js) (f d')
    cases hx : f d' with
    | error e =>
      rw [hx] at hjs
      exact fun hall => hjs ⟨hall.1.2, hknown ▸ (covered_append.mp hall.2).2⟩
    | ok d'' =>
      rw [hx] at hjs
      refine ⟨⟨⟨h.1.1, hjs.1.1⟩, covered_append.mpr ⟨h.1.2, hknown ▸ hjs.1.2⟩⟩, fun id => ?_⟩
      rw [hjs.2, h.2, mem_lambdaIds_append, ← or_assoc, or_comm (a := id ∈ lambdaIds js)]

end Walks

section

variable (file : FileContext) (place : Place) (d : Draft)

theorem walks_addAssignment (mark : Mark) (a : Assignment) :
    Walks True d [.assign mark a] (d.addAssignment file place mark a) := by
  unfold Draft.addAssignment
  have hstep : ∀ d' : Draft, d'.lambdas = d.lambdas → a.lambda? = none →
      Walks True d [.assign mark a] (.ok d') := fun d' hl ha => Walks.step hl ha rfl
  cases hcut : Dotted.cut? a.target with
  | some parts => exact hstep _ (d.rebound_assignMember ..).lambdas (by simp [lambda?, hcut])
  | none =>
    dsimp only
    by_cases hloop : a.isLoopTarget
    · rw [if_pos hloop]
      exact hstep _ (d.lambdas_bind ..) (by simp [lambda?, hloop])
    · rw [if_neg hloop]
      by_cases hk : a.kind = .lambda
      · have hlambda : a.lambda? = some (a.value.getD "") := by simp [lambda?, hcut, hloop, hk]
        rw [if_pos hk]
        cases hid : d.lambdas.get? (a.value.getD "") with
        | some id =>
          have hmem := mem_keys_iff.mpr ⟨id, hid⟩
          simp [Walks, Covered, assigned?, lambdaIds, lambdaId?, hlambda, hmem]
        | none =>
          have hout := get?_eq_none_iff.mp hid
          simp [Walks, Covered, assigned?, hlambda, hout]
      · rw [if_neg hk]
        have hnone : a.lambda? = none := by simp [lambda?, hk]
        split
        · exact hstep _ (by simp [Draft.define]) hnone
        · exact hstep _ (d.rebound_bindValue ..).lambdas hnone

theorem walks_leaf {i : Item} (hi : i.isLeaf) : Walks True d [i] (walk file place d i) := by
  cases i with
  | classDecl | functionDecl | lambda | block => cases hi
  | assign mark a => exact walks_addAssignment file place d mark a
  | importDecl mark target => exact .step (d.rebound_addImport ..).lambdas rfl rfl
  | _ => exact .step rfl rfl rfl

theorem mem_lambdas_enter (o : Opening) (body : List Item)
    (id : String) : id ∈ (d.enter file place o).lambdas.keys ↔
      (o.item body).lambdaId? = some id ∨ id ∈ d.lambdas.keys := by
  cases o with
  | classDecl mark head => simp [Draft.enter, Draft.openScope, item, lambdaId?]
  | functionDecl mark head =>
    unfold Draft.enter
    rw [(Draft.rebound_bindParams ..).lambdas]
    split <;> simp [Draft.openScope, item, lambdaId?]
  | lambda mark params =>
    unfold Draft.enter
    rw [(Draft.rebound_bindParams ..).lambdas, mem_keys_insert]
    simp [Draft.define, Draft.openScope, item, lambdaId?, eq_comm]
  | block mark => simp [Draft.enter, Draft.openScope, item, lambdaId?]

theorem room_placeIn (o : Opening) : (d.placeIn file place o).room = place.room - o.calls := by
  cases o <;> rfl

theorem walks_walkAll (is : List Item) :
    Walks (Fits place.room is) d (walkedAll is) (walkAll file place d is) := by
  induction is using induct generalizing place d with
  | nil => simp [walkAll, walkedAll, Walks, Covered, lambdaIds, Fits, callsAll]
  | leaf i is hi ih =>
    rw [walkAll, walkedAll_cons_leaf hi]
    refine ((walks_leaf file place d hi).append fun d' _ => ih place d').congr ?_
    rw [true_and, fits_cons_leaf hi]
  | opened o body is hbody ih =>
    have ho : (o.item body).assigned? = none := by cases o <;> rfl
    have hin := (hbody (d.placeIn file place o) (d.enter file place o)).below ho
      (mem_lambdas_enter file place d o body)
    rw [walkAll, walkedAll_cons_item, ← cons_append]
    refine Walks.congr (Walks.append ?_ fun d' _ => ih place d') fits_cons_item.symm
    rw [walk_item, ← room_placeIn file place d o]
    split
    · next hroom =>
      split
      · next hname => exact hin.congr (by simp [hroom, hname])
      · next hname => exact fun hall => hname hall.1.2.1
    · next hroom => exact fun hall => hroom hall.1.1

end

/-! ## The check -/

namespace Outline

/-- What the check remembers of lambdas is among the ids that it remembers. -/
def Seen.Consistent (s : Seen) : Prop :=
  ∀ id ∈ s.lambdas, id ∈ s.ids

/-- What an item must have to pass the check, and what the check then remembers. -/
theorem checkItem_eq_ok_iff {s s' : Seen} {i : Item} :
    checkItem s i = .ok s' ↔ ∃ id, i.mark?.bind (·.id) = some id ∧ id ≠ "" ∧ id ∉ s.ids ∧
      defect? s.lambdas i = none ∧ s' = ⟨id :: s.ids, i.lambdaId?.toList ++ s.lambdas⟩ := by
  unfold checkItem
  split
  · split <;> simp [mark?]
  cases hid : i.mark?.bind (·.id) with
  | none => simp
  | some id =>
    dsimp only
    by_cases hfree : id = "" ∨ id ∈ s.ids
    · rw [if_pos (by simpa using hfree)]
      simp only [reduceCtorEq, false_iff]
      rintro ⟨_, heq, hne, hnew, _⟩
      cases heq
      exact hfree.elim hne hnew
    · rw [if_neg (by simpa using hfree)]
      obtain ⟨hne, hnew⟩ := not_or.mp hfree
      cases hdefect : defect? s.lambdas i with
      | some defect => simp
      | none =>
        have hsome : ∀ P : String → Prop, (∃ k, some id = some k ∧ P k) ↔ P id := by simp
        rw [hsome]
        cases i with
        | lambda m ps b =>
          have hm : m.id = some id := by simpa [mark?] using hid
          simp [lambdaId?, hm, hne, hnew, eq_comm]
        | _ => simp [lambdaId?, hne, hnew, eq_comm]

/-- An item that passes the check assigns lambdas that were seen, and is a lambda that was not. -/
theorem checkItem_ok {s s' : Seen} {i : Item} (hs : s.Consistent) (h : checkItem s i = .ok s') :
    s'.Consistent ∧ (∀ id, id ∈ s'.lambdas ↔ i.lambdaId? = some id ∨ id ∈ s.lambdas) ∧
      (∀ id, i.assigned? = some id → id ∈ s.lambdas) ∧ ∀ id, i.lambdaId? = some id →
        id ∉ s.lambdas := by
  obtain ⟨id, hid, _, hnew, hdefect, rfl⟩ := checkItem_eq_ok_iff.mp h
  have hself : ∀ k, i.lambdaId? = some k → k = id := by
    cases i with
    | lambda m ps b =>
      have hm : m.id = some id := hid
      simp [lambdaId?, hm, eq_comm]
    | _ => simp [lambdaId?]
  refine ⟨fun k hk => ?_, by simp, fun k hk => ?_, fun k hk hmem => ?_⟩
  · rcases mem_append.mp hk with hk | hk
    · exact hself k (Option.mem_toList.mp hk) ▸ mem_cons_self
    · exact mem_cons_of_mem _ (hs k hk)
  · cases i with
    | assign m a =>
      -- a lambda is assigned only by an id that was seen
      obtain ⟨hkind, rfl⟩ := lambda?_eq_some hk
      simp only [defect?, hkind] at hdefect
      split at hdefect
      · cases hdefect
      split at hdefect
      · cases hdefect
      · next hseen =>
        simp only [decide_true, Bool.true_and, Bool.not_eq_true', Bool.not_eq_false] at hseen
        cases hv : a.value with
        | none => simp [hv] at hseen
        | some v => simpa [hv] using hseen
    | _ => cases hk
  · exact hnew (hself k hk ▸ hs k hmem)

theorem checkItems_ok {s s' : Seen} {is : List Item} (hs : s.Consistent)
    (h : checkItems s is = .ok s') :
    Covered (· ∈ s.lambdas) is ∧ (lambdaIds is).Nodup ∧ ∀ id ∈ lambdaIds is, id ∉ s.lambdas := by
  induction is generalizing s with
  | nil => exact ⟨trivial, .nil, fun id hid => by cases hid⟩
  | cons i is ih =>
    obtain ⟨t, hi, his⟩ := bind_eq_ok h
    obtain ⟨ht, hlambdas, hassigned, hnew⟩ := checkItem_ok hs hi
    obtain ⟨hcovered, hnodup, hrest⟩ := ih ht his
    have hknown : (fun id => i.lambdaId? = some id ∨ id ∈ s.lambdas) = (· ∈ t.lambdas) :=
      funext fun id => propext (hlambdas id).symm
    refine ⟨⟨hassigned, hknown ▸ hcovered⟩, ?_, fun id hid => ?_⟩
    · cases hid : i.lambdaId? with
      | none => simpa [lambdaIds, hid] using hnodup
      | some id =>
        rw [lambdaIds, filterMap_cons_some hid]
        refine nodup_cons.mpr ⟨fun hmem => ?_, hnodup⟩
        exact hrest id hmem ((hlambdas id).mpr (.inl hid))
    · rcases mem_lambdaIds_cons.mp hid with hid | hid
      · exact hnew id hid
      · exact fun hmem => hrest id hid ((hlambdas id).mpr (.inr hmem))

/-- In a well-formed outline lambdas have distinct ids and come before their assignments. -/
theorem covered_of_check {o : Outline} (h : o.check = .ok ()) :
    Item.Covered (fun _ => False) (Item.preorderAll o.root.body) ∧
      (Item.lambdaIds (Item.preorderAll o.root.body)).Nodup := by
  obtain ⟨mark, body, s, hroot, hs⟩ := checkItems_of_check h
  obtain ⟨hcovered, hnodup, _⟩ := checkItems_ok (fun id hid => by cases hid) hs
  rw [hroot] at hcovered hnodup ⊢
  refine ⟨?_, hnodup⟩
  simpa [Item.lambdaId?, Item.body] using hcovered.2

end Outline

namespace Item

mutual

theorem walked_sublist (i : Item) : i.walked.Sublist i.preorder := by
  cases i with
  | fileBody m b => exact (nil_sublist _).cons_cons _
  | classDecl m h b | functionDecl m h b | lambda m ps b => exact (walkedAll_sublist b).cons_cons _
  | block m b => exact (walkedAll_sublist b).cons_cons _
  | _ => exact .refl _

theorem walkedAll_sublist (is : List Item) : (walkedAll is).Sublist (preorderAll is) := by
  cases is with
  | nil => exact .refl _
  | cons i is => exact (walked_sublist i).append (walkedAll_sublist is)

end

/-- Among items with distinct lambdas, each known before it is assigned, some are covered by
themselves as soon as they have the lambdas that they assign. -/
theorem covered_of_sublist {is all : List Item} (hsub : is.Sublist all)
    (hall : Covered (fun _ => False) all) (hnodup : (lambdaIds all).Nodup)
    (hown : ∀ i ∈ is, ∀ id, i.assigned? = some id → id ∈ lambdaIds is) :
    Covered (fun _ => False) is := by
  rw [covered_iff]
  rintro before i after id rfl hid
  refine .inl (Decidable.byContradiction fun hbefore => ?_)
  have hafter : id ∈ lambdaIds after := by
    have hin := hown i (by simp) id hid
    have hi : i.lambdaId? ≠ some id := by
      cases i <;> simp [assigned?, lambdaId?] at hid ⊢
    rw [mem_lambdaIds_append, mem_lambdaIds_cons] at hin
    rcases hin with hin | hin | hin
    · exact absurd hin hbefore
    · exact absurd hin hi
    · exact hin
  -- among all items there is one such lambda before the assignment and one after it
  obtain ⟨front, back, rfl, _, hback⟩ := append_sublist_iff.mp hsub
  obtain ⟨middle, rest, rfl, hmem, hrest⟩ := cons_sublist_iff.mp hback
  obtain ⟨left, right, rfl⟩ := append_of_mem hmem
  have hfirst : id ∈ lambdaIds (front ++ left) := by
    have hsplit := (covered_iff.mp hall) (front ++ left) i (right ++ rest) id (by simp) hid
    simpa using hsplit
  have hsecond : id ∈ lambdaIds (i :: (right ++ rest)) := by
    rw [mem_lambdaIds_cons, mem_lambdaIds_append]
    exact .inr (.inr ((hrest.filterMap lambdaId?).subset hafter))
  have hsplit :
    front ++ (left ++ i :: right ++ rest) = (front ++ left) ++ i :: (right ++ rest) := by simp
  rw [hsplit, lambdaIds, filterMap_append] at hnodup
  exact (nodup_append.mp hnodup).2.2 id hfirst id hsecond rfl

end Item

/-! ## Digests -/

namespace Outline

/-- A well-formed outline assigns a lambda that stands only in a file body inside the file. -/
def AssignsHiddenLambda (o : Outline) : Prop :=
  o.check = .ok () ∧ ∃ i ∈ walkedAll o.root.body, ∃ id, i.assigned? = some id ∧
    id ∉ lambdaIds (walkedAll o.root.body)

/-- The check stops at an item without a defect before it: at a value that no message can show, or
at the first item that nests too deeply. -/
def StopsCheck (o : Outline) : Prop :=
  o.path ≠ "" ∧ o.moduleName ≠ "" ∧ (∃ mark body, o.root = .fileBody mark body) ∧
    ((∃ before value after s, o.reached = before ++ .foreign value :: after ∧
        checkItems ⟨[], []⟩ before = .ok s ∧ value.literalFault? maxNesting ≠ none) ∨
      (∃ s, checkItems ⟨[], []⟩ o.reached = .ok s) ∧ o.isShallow = false)

/-- An outline that has no digest: the check stops, or it is well formed and the walk over it has
too little room on the stack, a lambda whose place no text can hold, or an assignment of a lambda
that it did not meet. -/
def Indigestible (o : Outline) : Prop :=
  o.StopsCheck ∨ (o.check = .ok () ∧ walkRoom < callsAll o.root.body) ∨
    (o.check = .ok () ∧ ∃ i ∈ walkedAll o.root.body, i.isNameable = false) ∨ o.AssignsHiddenLambda

theorem checkItem_eq_stopped_iff {s : Seen} {i : Item} {fault : Fault} :
    checkItem s i = .error (.stopped fault) ↔
      ∃ value, i = .foreign value ∧ value.literalFault? maxNesting = some fault := by
  unfold checkItem
  split
  · next value => cases hfault : value.literalFault? maxNesting <;> simp [hfault]
  · next hforeign =>
    refine iff_of_false ?_ fun h => hforeign h.choose h.choose_spec.1
    split
    · simp
    · split
      · simp
      · split <;> simp

theorem checkItems_eq_stopped_iff {s : Seen} {is : List Item} :
    (∃ fault, checkItems s is = .error (.stopped fault)) ↔
      ∃ before value after t, is = before ++ .foreign value :: after ∧ checkItems s before = .ok t ∧
        value.literalFault? maxNesting ≠ none := by
  constructor
  · rintro ⟨fault, h⟩
    induction is generalizing s with
    | nil => cases h
    | cons i is ih =>
      cases hi : checkItem s i with
      | error e =>
        rw [checkItems, hi] at h
        cases h
        obtain ⟨value, rfl, hfault⟩ := checkItem_eq_stopped_iff.mp hi
        exact ⟨[], value, is, s, rfl, rfl, by simp [hfault]⟩
      | ok s' =>
        rw [checkItems, hi] at h
        obtain ⟨before, value, after, t, rfl, hbefore, hfault⟩ := ih h
        refine ⟨i :: before, value, after, t, rfl, ?_, hfault⟩
        rw [checkItems, hi]
        exact hbefore
  · rintro ⟨before, value, after, t, rfl, hbefore, hfault⟩
    obtain ⟨fault, hfault⟩ := Option.ne_none_iff_exists'.mp hfault
    refine ⟨fault, ?_⟩
    induction before generalizing s with
    | nil =>
      rw [nil_append, checkItems, checkItem_eq_stopped_iff.mpr ⟨value, rfl, hfault⟩]
      rfl
    | cons i before ih =>
      obtain ⟨s', hi, hrest⟩ := bind_eq_ok hbefore
      rw [cons_append, checkItems, hi]
      exact ih hrest

theorem exists_stopped_iff {o : Outline} :
    (∃ fault, o.check = .error (.stopped fault)) ↔ o.StopsCheck := by
  unfold StopsCheck check
  rw [← checkItems_eq_stopped_iff]
  split
  · next hpath => simp [hpath]
  split
  · next hmodule => simp [hmodule]
  next hpath hmodule =>
  simp only [hpath, hmodule, ne_eq, not_false_eq_true, true_and]
  split
  · next mark body hroot =>
    cases hs : checkItems ⟨[], []⟩ o.reached with
    | error e => simp [bind, Except.bind, hroot]
    | ok s =>
      cases h : o.isShallow <;>
        simp [bind, Except.bind, pure, Except.pure, throw, throwThe, MonadExceptOf.throw, hroot]
  · next hroot =>
    refine iff_of_false (by simp) ?_
    rintro ⟨⟨mark, body, heq⟩, _⟩
    exact hroot mark body heq

end Outline

namespace Digest

theorem exists_draftOf_iff {o : Outline} {version : Int} (hcheck : o.check = .ok ()) :
    (∃ d, draftOf o version = .ok d) ↔
      Fits walkRoom o.root.body ∧ Covered (fun _ => False) (walkedAll o.root.body) := by
  obtain ⟨mark, body, _, hroot, _⟩ := checkItems_of_check hcheck
  unfold draftOf
  rw [hroot]
  rw [(walks_walkAll _ _ _ body).exists_iff]
  have hnone : (· ∈ (∅ : OrderedMap String DefId).keys) = fun _ => False :=
    funext fun id => propext (iff_of_false (fun h => by cases h) not_false)
  exact iff_of_eq (congrArg (Fits walkRoom body ∧ Covered · (walkedAll body)) hnone)

theorem exists_ofOutline_iff_of_check {o : Outline} {version : Int} (hcheck : o.check = .ok ()) :
    (∃ d, ofOutline o version = .ok d) ↔
      Fits walkRoom o.root.body ∧ Covered (fun _ => False) (walkedAll o.root.body) := by
  rw [← exists_draftOf_iff hcheck, ofOutline, hcheck]
  cases draftOf o version <;> simp [Except.map]

/-- The lambdas that a well-formed outline assigns are met before, unless one is hidden. -/
theorem covered_walkedAll_iff {o : Outline} (hcheck : o.check = .ok ()) :
    Covered (fun _ => False) (walkedAll o.root.body) ↔ ¬ o.AssignsHiddenLambda := by
  constructor
  · rintro hcovered ⟨_, i, hi, id, hid, hhidden⟩
    obtain ⟨before, after, heq⟩ := append_of_mem hi
    rcases covered_iff.mp hcovered before i after id heq hid with hbefore | hnone
    · rw [heq, mem_lambdaIds_append] at hhidden
      exact hhidden (.inl hbefore)
    · exact hnone
  · intro hnone
    obtain ⟨hall, hnodup⟩ := covered_of_check hcheck
    refine covered_of_sublist (walkedAll_sublist _) hall hnodup fun i hi id hid => ?_
    exact Decidable.byContradiction fun hhidden => hnone ⟨hcheck, i, hi, id, hid, hhidden⟩

theorem exists_ofOutline_iff (o : Outline) (version : Int) :
    (∃ d, ofOutline o version = .ok d) ↔ ¬ o.Indigestible := by
  rw [Indigestible, ← exists_stopped_iff]
  cases hcheck : o.check with
  | error refusal =>
    rw [ofOutline, hcheck]
    cases refusal with
    | malformed defect item => simp [AssignsHiddenLambda, hcheck]
    | stopped fault => simp
  | ok u =>
    rw [exists_ofOutline_iff_of_check hcheck, covered_walkedAll_iff hcheck, Fits]
    simp [and_assoc]

end Digest

end Xref

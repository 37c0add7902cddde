import Xref.Proofs.Call.Running
import Xref.Proofs.Graph.Reachability

/-!
# How resolutions fail

Whether a resolution comes to something or stops with a fault does not depend on the trail before
it. The rules below give, for every way in which resolutions are composed, exactly the faults with
which they stop. From them follows when calling a value fails: at a definition that is lost, at a
class that is not in the hierarchy, or on the way along call operators that hold objects, which may
never end.
-/

namespace Xref

open Xref.Graph

/-! ## Rules -/

/-- What a resolution comes to, whatever trail it starts with. -/
def Gives (m : Resolving α) (x : Except Fault α) : Prop :=
  ∀ s, (m.run s).map Prod.fst = x

namespace Gives

protected theorem pure (a : α) : Gives (Pure.pure a) (.ok a) :=
  fun _ => rfl

protected theorem throw (e : Fault) : Gives (throw e : Resolving α) (.error e) :=
  fun _ => rfl

protected theorem modify (f : List String → List String) :
    Gives (modify f : Resolving Unit) (.ok ()) :=
  fun _ => rfl

protected theorem lift (x : Except Fault α) : Gives (liftM x : Resolving α) x := by
  intro s
  cases x <;> rfl

variable {m : Resolving α}

theorem bind_error {f : α → Resolving β} {e : Fault} (hm : Gives m (.error e)) :
    Gives (m >>= f) (.error e) := by
  intro s
  have h := hm s
  rw [StateT.run_bind]
  cases hr : m.run s with
  | error e' =>
    rw [hr] at h
    cases h
    rfl
  | ok p =>
    rw [hr] at h
    cases h

theorem bind_ok {f : α → Resolving β} {a : α} {y : Except Fault β}
    (hm : Gives m (.ok a)) (hf : Gives (f a) y) : Gives (m >>= f) y := by
  intro s
  have h := hm s
  rw [StateT.run_bind]
  cases hr : m.run s with
  | error e =>
    rw [hr] at h
    cases h
  | ok p =>
    rw [hr] at h
    cases h
    exact hf p.2

protected theorem forM {xs : List α} {f : α → Resolving PUnit} (hf : ∀ a, Gives (f a) (.ok ⟨⟩)) :
    Gives (xs.forM f) (.ok ⟨⟩) := by
  induction xs with
  | nil => exact .pure _
  | cons x xs ih => exact (hf x).bind_ok ih

theorem exists_run {a : α} (h : Gives m (.ok a)) (s : List String) :
    ∃ s', m.run s = .ok (a, s') := by
  have hs := h s
  cases hr : m.run s with
  | error e =>
    rw [hr] at hs
    cases hs
  | ok p =>
    rw [hr] at hs
    cases hs
    exact ⟨p.2, rfl⟩

end Gives

/-- A resolution stops exactly with the faults that have a property, whatever trail it starts
with. -/
def Fails (m : Resolving α) (F : Fault → Prop) : Prop :=
  ∃ x, Gives m x ∧ ∀ e, x = .error e ↔ F e

namespace Fails

variable {F G : Fault → Prop} {m : Resolving α}

theorem of_gives {x : Except Fault α} (h : Gives m x) : Fails m fun e => x = .error e :=
  ⟨x, h, fun _ => Iff.rfl⟩

theorem never {a : α} (h : Gives m (.ok a)) : Fails m fun _ => False :=
  ⟨_, h, fun e => by simp⟩

theorem congr (h : Fails m F) (hiff : ∀ e, F e ↔ G e) : Fails m G := by
  obtain ⟨x, hx, hF⟩ := h
  exact ⟨x, hx, fun e => (hF e).trans (hiff e)⟩

theorem stop {f : α → Resolving β} {e : Fault} (hm : Gives m (.error e)) :
    Fails (m >>= f) (· = e) :=
  ⟨_, hm.bind_error, fun e' => by simp [eq_comm]⟩

theorem after {f : α → Resolving β} {a : α} (hm : Gives m (.ok a))
    (hf : Fails (f a) F) : Fails (m >>= f) F := by
  obtain ⟨x, hx, hF⟩ := hf
  exact ⟨x, hm.bind_ok hx, hF⟩

/-- A composed resolution stops where its first part does, or where the second does after it. -/
protected theorem bind {m : Resolving α} {f : α → Resolving β} {x : Except Fault α}
    {F : α → Fault → Prop} (hm : Gives m x) (hf : ∀ a, x = .ok a → Fails (f a) (F a)) :
    Fails (m >>= f) fun e => x = .error e ∨ ∃ a, x = .ok a ∧ F a e := by
  cases x with
  | error e' => exact (Fails.stop hm).congr fun e => by simp [eq_comm]
  | ok a => exact (Fails.after hm (hf a rfl)).congr fun e => by simp

/-- What is made of a result afterwards does not matter. -/
theorem map (h : Fails m F) (f : α → β) : Fails (m >>= fun a => Pure.pure (f a)) F := by
  obtain ⟨x, hx, hF⟩ := h
  refine (Fails.bind (F := fun _ _ => False) hx fun a _ => .never (.pure (f a))).congr fun e => ?_
  simpa using hF e

theorem run_eq_error_iff (h : Fails m F) {s : List String} {e : Fault} :
    m.run s = .error e ↔ F e := by
  obtain ⟨x, hx, hF⟩ := h
  rw [← hF, ← hx s]
  cases m.run s <;> simp [Except.map]

end Fails

namespace Resolver

/-! ## What is consulted -/

/-- What following names comes to: a meaning, or the first fault on the trail. -/
def read (t : Tracing α) : Except Fault α :=
  (Mention.names (t.run []).2).map fun _ => denoted t

theorem gives_traced (t : Tracing α) : Gives (traced t) (read t) := by
  unfold traced read denoted
  generalize t.run [] = p
  obtain ⟨value, trail⟩ := p
  dsimp only
  cases Mention.names trail with
  | error e => exact .throw e
  | ok names => exact (Gives.modify _).bind_ok (.pure value)

variable {id type : DefId} {r : Resolver} {member : String} {bound : Nat} {e : Fault} {v : Resolved}

/-- A resolution that starts with a definition stops if it is lost, or later. -/
theorem fails_bind_definition (r : Resolver) {f : Definition → Resolving α}
    {F : Definition → Fault → Prop}
    (hf : ∀ d, r.catalog.definitions.get? id = some d → Fails (f d) (F d)) :
    Fails (r.definition id >>= f) fun e =>
      (r.catalog.definitions.get? id = none ∧ e = .lostDefinition) ∨
        ∃ d, r.catalog.definitions.get? id = some d ∧ F d e := by
  unfold definition
  cases hd : r.catalog.definitions.get? id with
  | none => exact (Fails.stop (.throw _)).congr fun e => by simp
  | some d => exact (Fails.after (.pure d) (hf d hd)).congr fun e => by simp

theorem gives_notedSubtree (r : Resolver) (id : DefId) :
    Gives (r.notedSubtree id) (r.hierarchy.subtree id) := by
  unfold notedSubtree
  cases hsub : r.hierarchy.subtree id with
  | error e => exact (Gives.lift (.error e)).bind_error
  | ok related =>
    refine (Gives.lift (.ok related)).bind_ok ?_
    exact (Gives.forM fun c => .modify _).bind_ok (.pure related)

theorem subtree_eq_error_iff (h : Hierarchy) (id : DefId) (e : Fault) :
    h.subtree id = .error e ↔ h.subtree? id = none ∧ e = .unknownClass id := by
  unfold Hierarchy.subtree
  cases h.subtree? id <;> simp [eq_comm]

theorem subtree_eq_ok_iff (h : Hierarchy) (id : DefId) (below : List DefId) :
    h.subtree id = .ok below ↔ h.subtree? id = some below := by
  unfold Hierarchy.subtree
  cases h.subtree? id <;> simp

/-! ## Definitions -/

/-- Calling a value that is a definition fails: it is lost, or the class on which a class method
runs is not in the hierarchy. -/
inductive DefinitionFails (r : Resolver) (value : Resolved) : Fault → Prop
  | lost {id : DefId} {maker : Option String} (hm : value.meaning = .definition id maker)
      (hd : r.catalog.definitions.get? id = none) : DefinitionFails r value .lostDefinition
  | outside {id : DefId} {maker : Option String} {d : Definition}
      (hm : value.meaning = .definition id maker) (hd : r.catalog.definitions.get? id = some d)
      (hk : d.kind = .classBody) (hr : value.role = some .cls)
      (hs : r.hierarchy.subtree? d.id = none) : DefinitionFails r value (.unknownClass d.id)

theorem fails_invokeDefinition (r : Resolver) (d : Definition) (role : Option ReceiverRole) :
    Fails (r.invokeDefinition d role) fun e =>
      d.kind = .classBody ∧ role = some .cls ∧ r.hierarchy.subtree? d.id = none ∧
        e = .unknownClass d.id := by
  unfold invokeDefinition
  cases hk : d.kind with
  | classBody =>
    by_cases hr : role = some .cls
    · simp only [hr, if_true]
      refine (Fails.bind (F := fun _ _ => False) (r.gives_notedSubtree d.id) fun related _ =>
        ?_).congr
        fun e => ?_
      · split <;> exact .never (.pure _)
      · simp [subtree_eq_error_iff]
    · simp only [hr, if_false]
      exact (Fails.never (.pure _)).congr fun e => by simp
  | fileBody | boundValue => exact (Fails.never (.pure _)).congr fun e => by simp
  | function | method | lambda =>
    by_cases ha : d.isAbstract
    · simp only [ha, if_true]
      exact (Fails.never (.pure _)).congr fun e => by simp
    · simp only [ha]
      exact (Fails.never (.pure _)).congr fun e => by simp

/-! ## Members -/

/-- The order of a class of the hierarchy that is free of cycles gives a binding for a member. -/
structure Finds (r : Resolver) (id : DefId) (member : String) (b : Binding) : Prop where
  known : ∃ below, r.hierarchy.subtree? id = some below
  acyclic : r.hierarchy.isCyclic id = false
  found : ∃ owner, r.hierarchy.lookup? r.catalog id member none = some (owner, b)

theorem Finds.unique {b b' : Binding} (h : r.Finds id member b)
    (h' : r.Finds id member b') : b = b' := by
  obtain ⟨owner, hl⟩ := h.found
  obtain ⟨owner', hl'⟩ := h'.found
  cases hl.symm.trans hl'
  rfl

/-- Calling a member of an object of a class fails: the class is not in the hierarchy, the value of
the member cannot be read or calling it fails, or the definition of the member is lost. -/
inductive DispatchFails (r : Resolver) (valueFails : Resolved → Fault → Prop) (id : DefId)
    (member : String) : Fault → Prop
  | outside (hs : r.hierarchy.subtree? id = none) :
      DispatchFails r valueFails id member (.unknownClass id)
  | unread {b : Binding} {e : Fault} (hb : r.Finds id member b) (hv : b.value.definition? = none)
      (he : read (r.view.binding b) = .error e) : DispatchFails r valueFails id member e
  | value {b : Binding} {v : Resolved} {e : Fault} (hb : r.Finds id member b)
      (hv : b.value.definition? = none) (hr : read (r.view.binding b) = .ok v)
      (he : valueFails v e) :
      DispatchFails r valueFails id member e
  | lost {b : Binding} {target : DefId} (hb : r.Finds id member b)
      (hv : b.value.definition? = some target) (hd : r.catalog.definitions.get? target = none) :
      DispatchFails r valueFails id member .lostDefinition

section

variable {r : Resolver} {valueFails : Resolved → Fault → Prop} {id : DefId} {member : String}
  {b : Binding} {e : Fault}

theorem dispatchFails_iff_of_outside (hs : r.hierarchy.subtree? id = none) :
    r.DispatchFails valueFails id member e ↔ e = .unknownClass id := by
  constructor
  · rintro (_ | ⟨hb, _⟩ | ⟨hb, _⟩ | ⟨hb, _⟩)
    · rfl
    all_goals
      obtain ⟨below, hbelow⟩ := hb.known
      cases hs.symm.trans hbelow
  · rintro rfl
    exact .outside hs

theorem not_dispatchFails {below : List DefId} (hs : r.hierarchy.subtree? id = some below)
    (hnone : ∀ b, ¬ r.Finds id member b) : ¬ r.DispatchFails valueFails id member e := by
  rintro (houtside | ⟨hb, _⟩ | ⟨hb, _⟩ | ⟨hb, _⟩)
  · cases hs.symm.trans houtside
  all_goals exact hnone _ hb

theorem dispatchFails_iff_of_value (hb : r.Finds id member b) (hv : b.value.definition? = none) :
    r.DispatchFails valueFails id member e ↔
      read (r.view.binding b) = .error e ∨ ∃ v, read (r.view.binding b) = .ok v ∧
        valueFails v e := by
  constructor
  · rintro (hs | ⟨hb', _, he⟩ | ⟨hb', _, hr, he⟩ | ⟨hb', hv', _⟩)
    · obtain ⟨below, hbelow⟩ := hb.known
      cases hs.symm.trans hbelow
    · exact .inl (hb.unique hb' ▸ he)
    · exact .inr ⟨_, hb.unique hb' ▸ hr, he⟩
    · rw [← hb.unique hb', hv] at hv'
      cases hv'
  · rintro (he | ⟨v, hr, he⟩)
    · exact .unread hb hv he
    · exact .value hb hv hr he

theorem dispatchFails_iff_of_definition {target : DefId} (hb : r.Finds id member b)
    (hv : b.value.definition? = some target) :
    r.DispatchFails valueFails id member e ↔
      r.catalog.definitions.get? target = none ∧ e = .lostDefinition := by
  constructor
  · rintro (hs | ⟨hb', hv', _⟩ | ⟨hb', hv', _⟩ | ⟨hb', hv', hd⟩)
    · obtain ⟨below, hbelow⟩ := hb.known
      cases hs.symm.trans hbelow
    · rw [← hb.unique hb', hv] at hv'
      cases hv'
    · rw [← hb.unique hb', hv] at hv'
      cases hv'
    · rw [← hb.unique hb', hv] at hv'
      cases hv'
      exact ⟨hd, rfl⟩
  · rintro ⟨hd, rfl⟩
    exact .lost hb hv hd

end

theorem fails_dispatchWith (r : Resolver) {invoke : Resolved → Resolving Outcome}
    {valueFails : Resolved → Fault → Prop} (hi : ∀ v, Fails (invoke v) (valueFails v)) (id : DefId)
    (member : String) (report : Bool) :
    Fails (r.dispatchWith invoke id member report) (r.DispatchFails valueFails id member) := by
  unfold dispatchWith
  cases hs : r.hierarchy.subtree id with
  | error e' =>
    obtain ⟨hnone, rfl⟩ := (subtree_eq_error_iff ..).mp hs
    exact (Fails.stop (hs ▸ r.gives_notedSubtree id)).congr fun e =>
      (dispatchFails_iff_of_outside hnone).symm
  | ok below =>
    have hbelow := (subtree_eq_ok_iff ..).mp hs
    refine Fails.after (hs ▸ r.gives_notedSubtree id) ?_
    by_cases hc : r.hierarchy.isCyclic id
    · simp only [hc, if_true]
      refine (Fails.never (.pure _)).congr fun e =>
        iff_of_false not_false (not_dispatchFails hbelow ?_)
      intro b hb
      simp [hb.acyclic] at hc
    · simp only [hc]
      cases hl : r.hierarchy.lookup? r.catalog id member none with
      | none =>
        refine (Fails.never (.pure _)).congr fun e =>
          iff_of_false not_false (not_dispatchFails hbelow ?_)
        intro b hb
        obtain ⟨owner, hl'⟩ := hb.found
        cases hl.symm.trans hl'
      | some found =>
        obtain ⟨owner, b⟩ := found
        have hb : r.Finds id member b := ⟨⟨below, hbelow⟩, by simpa using hc, owner, hl⟩
        dsimp only
        cases hv : b.value.definition? with
        | none =>
          exact (Fails.bind (gives_traced _) fun v _ => hi v).congr fun e =>
            (dispatchFails_iff_of_value hb hv).symm
        | some target =>
          refine (r.fails_bind_definition (F := fun _ _ => False) fun d _ => .never (.pure _)).congr
            fun e => ?_
          rw [dispatchFails_iff_of_definition hb hv]
          simp

/-! ## Chains of call operators -/

/-- The class of the object that a member of a class holds, if the order of the class gives such a
value and it can be read. -/
def heldType? (r : Resolver) (id : DefId) (member : String) : Option DefId :=
  match r.hierarchy.subtree? id, r.hierarchy.lookup? r.catalog id member none with
  | some _, some (_, b) =>
    if r.hierarchy.isCyclic id || b.value.definition?.isSome then none
    else
      match read (r.view.binding b) with
      | .ok v => match v.meaning with
        | .object type _ => some type
        | _ => none
      | .error _ => none
  | _, _ => none

theorem heldType?_eq_some_iff :
    r.heldType? id member = some type ↔
      ∃ b v holder, r.Finds id member b ∧ b.value.definition? = none ∧
        read (r.view.binding b) = .ok v ∧ v.meaning = .object type holder := by
  constructor
  · intro h
    unfold heldType? at h
    split at h
    · next below owner b hs hl =>
      split at h
      · cases h
      · next hno =>
        simp only [Bool.or_eq_true, not_or, Bool.not_eq_true, Option.isSome_eq_false_iff,
          Option.isNone_iff_eq_none] at hno
        split at h
        · next v hr =>
          split at h
          · next type' holder hm =>
            cases h
            exact ⟨b, v, holder, ⟨⟨below, hs⟩, hno.1, owner, hl⟩, hno.2, hr, hm⟩
          · cases h
        · cases h
    · cases h
  · rintro ⟨b, v, holder, hb, hv, hr, hm⟩
    obtain ⟨below, hs⟩ := hb.known
    obtain ⟨owner, hl⟩ := hb.found
    simp [heldType?, hs, hl, hb.acyclic, hv, hr, hm]

/-- The class of the object that is called when an object of a class is: what its call operator
holds. -/
def operators (r : Resolver) (type : DefId) : List DefId :=
  (r.heldType? type "__call__").toList

/-- Calling an object of a class fails, if at most so many call operators in a row are followed:
they are too many, or the last of them cannot be called. -/
def ObjectFails (r : Resolver) (bound : Nat) (type : DefId) (e : Fault) : Prop :=
  (HasChain r.operators bound type ∧ e = .endlessCall) ∨
    (¬ HasChain r.operators bound type ∧ ∃ last, Reaches r.operators type last ∧
      r.DispatchFails r.DefinitionFails last "__call__" e)

def ValueFails (r : Resolver) (bound : Nat) (v : Resolved) (e : Fault) : Prop :=
  r.DefinitionFails v e ∨ ∃ type holder, v.meaning = .object type holder ∧
    r.ObjectFails bound type e

/-- A member fails by itself, or the object that it holds does. -/
theorem dispatchFails_value_iff :
    r.DispatchFails (r.ValueFails bound) id member e ↔
      r.DispatchFails r.DefinitionFails id member e ∨
        ∃ type, r.heldType? id member = some type ∧ r.ObjectFails bound type e := by
  constructor
  · rintro (hs | ⟨hb, hv, he⟩ | ⟨hb, hv, hr, he | ⟨type, holder, hm, he⟩⟩ | ⟨hb, hv, hd⟩)
    · exact .inl (.outside hs)
    · exact .inl (.unread hb hv he)
    · exact .inl (.value hb hv hr he)
    · exact .inr ⟨type, heldType?_eq_some_iff.mpr ⟨_, _, holder, hb, hv, hr, hm⟩, he⟩
    · exact .inl (.lost hb hv hd)
  · rintro ((hs | ⟨hb, hv, he⟩ | ⟨hb, hv, hr, he⟩ | ⟨hb, hv, hd⟩) | ⟨type, htype, he⟩)
    · exact .outside hs
    · exact .unread hb hv he
    · exact .value hb hv hr (.inl he)
    · exact .lost hb hv hd
    · obtain ⟨b, v, holder, hb, hv, hr, hm⟩ := heldType?_eq_some_iff.mp htype
      exact .value hb hv hr (.inr ⟨type, holder, hm, he⟩)

/-- A member that holds an object does not fail by itself. -/
theorem not_dispatchFails_of_heldType? (h : r.heldType? id member = some type) :
    ¬ r.DispatchFails r.DefinitionFails id member e := by
  obtain ⟨b, v, holder, hb, hv, hr, hm⟩ := heldType?_eq_some_iff.mp h
  rw [dispatchFails_iff_of_value hb hv, hr]
  rintro (he | ⟨v', hv', hlost | ⟨hm', _⟩⟩)
  · cases he
  · cases hv'
    cases hm.symm.trans ‹_›
  · cases hv'
    cases hm.symm.trans hm'

theorem objectFails_succ_iff :
    r.ObjectFails (bound + 1) type e ↔
      r.DispatchFails r.DefinitionFails type "__call__" e ∨
        ∃ next, r.heldType? type "__call__" = some next ∧ r.ObjectFails bound next e := by
  unfold ObjectFails
  cases hnext : r.heldType? type "__call__" with
  | none =>
    have hnil : r.operators type = [] := by simp [operators, hnext]
    simp [hasChain_succ_of_nil hnil, reaches_iff_of_nil hnil]
  | some next =>
    have hone : r.operators type = [next] := by simp [operators, hnext]
    have hfree := fun e => not_dispatchFails_of_heldType? (e := e) hnext
    simp [hasChain_succ_of_singleton hone, reaches_iff_of_singleton hone, hfree, or_and_right,
      exists_or]

theorem valueFails_iff_of_object {holder : Option DefId} (hm : v.meaning = .object type holder) :
    r.ValueFails bound v e ↔ r.ObjectFails bound type e := by
  constructor
  · rintro ((⟨hm', _⟩ | ⟨hm', _⟩) | ⟨type', holder', hm', he⟩)
    · cases hm.symm.trans hm'
    · cases hm.symm.trans hm'
    · cases hm.symm.trans hm'
      exact he
  · exact fun he => .inr ⟨type, holder, hm, he⟩

theorem valueFails_iff_of_definition {maker : Option String}
    (hm : v.meaning = .definition id maker) :
    r.ValueFails bound v e ↔
      (r.catalog.definitions.get? id = none ∧ e = .lostDefinition) ∨
        ∃ d, r.catalog.definitions.get? id = some d ∧ d.kind = .classBody ∧ v.role = some .cls ∧
          r.hierarchy.subtree? d.id = none ∧ e = .unknownClass d.id := by
  constructor
  · rintro ((⟨hm', hd⟩ | ⟨hm', hd, hk, hr, hs⟩) | ⟨type, holder, hm', _⟩)
    · cases hm.symm.trans hm'
      exact .inl ⟨hd, rfl⟩
    · cases hm.symm.trans hm'
      exact .inr ⟨_, hd, hk, hr, hs, rfl⟩
    · cases hm.symm.trans hm'
  · rintro (⟨hd, rfl⟩ | ⟨d, hd, hk, hr, hs, rfl⟩)
    · exact .inl (.lost hm hd)
    · exact .inl (.outside hm hd hk hr hs)

theorem not_valueFails (hd : ∀ id maker, v.meaning ≠ .definition id maker)
    (ho : ∀ type holder, v.meaning ≠ .object type holder) : ¬ r.ValueFails bound v e := by
  rintro ((⟨hm, _⟩ | ⟨hm, _⟩) | ⟨type, holder, hm, _⟩)
  · exact hd _ _ hm
  · exact hd _ _ hm
  · exact ho _ _ hm

/-- Calling a value stops exactly with the faults of the value. -/
theorem fails_invoke (r : Resolver) (c : PendingCall) (bound : Nat) (isHeld : Bool) (v : Resolved) :
    Fails (r.invoke c bound isHeld v) (r.ValueFails bound v) := by
  unfold invoke
  split
  · next id maker hm =>
    exact (r.fails_bind_definition fun d _ => r.fails_invokeDefinition d v.role).congr fun e =>
      (valueFails_iff_of_definition hm).symm
  · next type holder hm =>
    cases bound with
    | zero =>
      refine (Fails.of_gives (.throw _)).congr fun e => ?_
      rw [valueFails_iff_of_object hm, ObjectFails]
      simp [HasChain.zero, eq_comm]
    | succ bound =>
      -- the call operator is called with a smaller bound
      refine ((r.fails_dispatchWith (r.fails_invoke c bound true) type "__call__" false).map
        (r.orHolder type holder)).congr fun e => ?_
      rw [valueFails_iff_of_object hm, objectFails_succ_iff, dispatchFails_value_iff]
  · next hm =>
    exact (Fails.never (.pure _)).congr fun e =>
      iff_of_false not_false (not_valueFails (by simp [hm]) (by simp [hm]))
  · next hm =>
    exact (Fails.never (.pure _)).congr fun e =>
      iff_of_false not_false (not_valueFails (by simp [hm]) (by simp [hm]))
  · next hm =>
    refine Fails.congr (F := fun _ => False) ?_ fun e =>
      iff_of_false not_false (not_valueFails (by simp [hm]) (by simp [hm]))
    split
    · exact .never (.pure _)
    · split
      · exact .never ((Gives.modify _).bind_ok (.pure _))
      · exact .never (.pure _)

end Resolver

end Xref

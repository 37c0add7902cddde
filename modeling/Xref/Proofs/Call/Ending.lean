import Xref.Proofs.Call.Forms

/-!
# Where calls end

Calling an object calls its call operator, which may hold an object again. Nothing keeps the classes
that were met on the way: the recursion ends exactly if it never comes back to a class. It is
followed for a number of steps only, so that a call stops without a result also on a long way that
does end.
-/

namespace Xref

open Xref.Graph OrderedMap Xref.Small

/-! ## More steps -/

/-- One resolution gives what another does, unless that stops for want of steps. -/
def Extends (m m' : Resolving α) : Prop :=
  ∀ s, m.run s ≠ .error .endlessCall → m'.run s = m.run s

namespace Extends

protected theorem refl (m : Resolving α) : Extends m m :=
  fun _ _ => rfl

protected theorem bind {m : Resolving α} {f f' : α → Resolving β} (hf : ∀ a, Extends (f a) (f' a)) :
    Extends (m >>= f) (m >>= f') := by
  intro s h
  rw [StateT.run_bind] at h ⊢
  rw [StateT.run_bind]
  cases hr : m.run s with
  | error e => rfl
  | ok p =>
    rw [hr] at h
    exact hf p.1 p.2 h

protected theorem map {m m' : Resolving α} (h : Extends m m') (f : α → β) :
    Extends (m >>= fun a => pure (f a)) (m' >>= fun a => pure (f a)) := by
  intro s hne
  have hm : m.run s ≠ .error .endlessCall := by
    intro he
    rw [StateT.run_bind, he] at hne
    exact hne rfl
  rw [StateT.run_bind, StateT.run_bind, h s hm]

end Extends

/-- A resolution that may follow more and more call operators ends: with enough steps it comes to
the same as with any more. -/
def Ends (m : Nat → Resolving α) (s : List String) : Prop :=
  ∃ bound, (m bound).run s ≠ .error .endlessCall ∧ ∀ more ≥ bound, (m more).run s = (m bound).run s

theorem ends_iff {m : Nat → Resolving α} {F : Nat → Fault → Prop}
    (hm : ∀ bound, Fails (m bound) (F bound))
    (hmore : ∀ bound more, bound ≤ more → Extends (m bound) (m more)) {s : List String} :
    Ends m s ↔ ∃ bound, ¬ F bound .endlessCall := by
  simp only [Ends, ne_eq, (hm _).run_eq_error_iff]
  refine exists_congr fun bound => and_iff_left_of_imp fun h more hle => ?_
  exact hmore bound more hle s fun he => h ((hm bound).run_eq_error_iff.mp he)

namespace Resolver

theorem extends_dispatchWith (r : Resolver) {invoke invoke' : Resolved → Resolving Outcome}
    (hi : ∀ v, Extends (invoke v) (invoke' v)) (id : DefId) (member : String) (report : Bool) :
    Extends (r.dispatchWith invoke id member report) (r.dispatchWith invoke' id member report) := by
  unfold dispatchWith
  refine .bind fun _ => ?_
  split
  · exact .refl _
  · split
    · exact .refl _
    · split
      · exact .bind hi
      · exact .refl _

theorem extends_invoke (r : Resolver) (c : PendingCall) {bound more : Nat} (hle : bound ≤ more)
    (isHeld : Bool) (v : Resolved) :
    Extends (r.invoke c bound isHeld v) (r.invoke c more isHeld v) := by
  induction bound generalizing more isHeld v with
  | zero =>
    unfold invoke
    split
    case h_2 => exact fun s h => absurd rfl h
    all_goals exact .refl _
  | succ bound ih =>
    obtain ⟨more, rfl⟩ : ∃ k, more = k + 1 := ⟨more - 1, by omega⟩
    unfold invoke
    split
    case h_2 type holder _ =>
      exact (r.extends_dispatchWith (ih (by omega) true) type "__call__" false).map _
    all_goals exact .refl _

/-! ## Values that are followed -/

theorem read_ne_endless (t : Tracing α) : read t ≠ .error .endlessCall := by
  unfold read Mention.names
  cases h : ((t.run []).2.filterMap Mention.fault?).getLast? with
  | none => simp [Except.map]
  | some fault =>
    obtain ⟨m, _, hm⟩ := List.mem_filterMap.mp (List.mem_of_getLast? h)
    cases m <;> cases hm <;> simp [Except.map]

theorem not_definitionFails_endless {r : Resolver} {v : Resolved} :
    ¬ r.DefinitionFails v .endlessCall := by
  intro h
  cases h

theorem not_dispatchFails_endless {r : Resolver} {id : DefId} {member : String} :
    ¬ r.DispatchFails r.DefinitionFails id member .endlessCall := by
  intro h
  cases h with
  | unread _ _ he => exact read_ne_endless _ he
  | value _ _ _ he => exact not_definitionFails_endless he

/-- Calling a value goes on along that many call operators. -/
def GoesOn (r : Resolver) (steps : Nat) (v : Resolved) : Prop :=
  ∃ type holder, v.meaning = .object type holder ∧ HasChain r.operators steps type

/-- Calling a value comes back to a class that was met on the way. -/
def ComesBack (r : Resolver) (v : Resolved) : Prop :=
  ∃ type holder, v.meaning = .object type holder ∧ Loops r.operators type

/-- A member of a class holds a value that is no definition. -/
def Holds (r : Resolver) (id : DefId) (member : String) (v : Resolved) : Prop :=
  ∃ b, r.Finds id member b ∧ b.value.definition? = none ∧ read (r.view.binding b) = .ok v

section

variable {r : Resolver} {bound : Nat} {v : Resolved} {id : DefId} {member : String}

theorem valueFails_endless_iff : r.ValueFails bound v .endlessCall ↔ r.GoesOn bound v := by
  simp [ValueFails, ObjectFails, GoesOn, not_definitionFails_endless, not_dispatchFails_endless]

theorem dispatchFails_endless_iff :
    r.DispatchFails (r.ValueFails bound) id member .endlessCall ↔
      ∃ v, r.Holds id member v ∧ r.GoesOn bound v := by
  constructor
  · intro h
    cases h with
    | unread _ _ he => exact absurd he (read_ne_endless _)
    | value hb hv hr he => exact ⟨_, ⟨_, hb, hv, hr⟩, valueFails_endless_iff.mp he⟩
  · rintro ⟨v, ⟨b, hb, hv, hr⟩, hf⟩
    exact .value hb hv hr (valueFails_endless_iff.mpr hf)

theorem readFails_endless_iff {t : Tracing Resolved} :
    r.ReadFails t .endlessCall ↔ ∃ v, read t = .ok v ∧ r.GoesOn r.bound v := by
  simp [ReadFails, read_ne_endless, valueFails_endless_iff]

/-- Only classes of the hierarchy have call operators. -/
theorem mem_keys_of_mem_operators {type next : DefId} (h : next ∈ r.operators type) :
    type ∈ r.hierarchy.entries.keys := by
  obtain ⟨b, _, _, hb, _⟩ := heldType?_eq_some_iff.mp (Option.mem_toList.mp h)
  obtain ⟨below, hbelow⟩ := hb.known
  unfold Hierarchy.subtree? at hbelow
  split at hbelow
  · next hin => exact contains_eq_true_iff.mp hin
  · cases hbelow

theorem ComesBack.goesOn (h : r.ComesBack v) (steps : Nat) : r.GoesOn steps v := by
  obtain ⟨type, holder, hm, hloops⟩ := h
  exact ⟨type, holder, hm, hloops.hasChain steps⟩

/-- A way with more steps than there are classes comes back to one of them. -/
theorem GoesOn.comesBack (h : r.GoesOn bound v) (hlt : r.hierarchy.entries.size < bound) :
    r.ComesBack v := by
  obtain ⟨type, holder, hm, hchain⟩ := h
  have hkeys : ∀ a b, b ∈ r.operators a → a ∈ r.hierarchy.entries.keys :=
    fun a b hb => mem_keys_of_mem_operators hb
  exact ⟨type, holder, hm, hchain.loops hkeys (by simpa [OrderedMap.keys, size] using hlt)⟩

/-- One number of steps is enough for all values that do not come back. -/
theorem exists_bound_iff {P : Resolved → Prop} :
    (∃ bound, ¬ ∃ v, P v ∧ r.GoesOn bound v) ↔ ∀ v, P v → ¬ r.ComesBack v := by
  constructor
  · rintro ⟨bound, h⟩ v hv hback
    exact h ⟨v, hv, hback.goesOn bound⟩
  · -- more steps than there are classes
    intro h
    refine ⟨r.hierarchy.entries.size + 1, ?_⟩
    rintro ⟨v, hv, hon⟩
    exact h v hv (hon.comesBack (by omega))

/-- The number of steps that calls take tells ways that come back and long ways from all others. -/
theorem goesOn_bound_iff : r.GoesOn r.bound v ↔ r.GoesOn maxChain v := by
  constructor
  · intro h
    by_cases hlt : r.hierarchy.entries.size < r.bound
    · exact (h.comesBack hlt).goesOn maxChain
    · have hmax : r.bound = maxChain := by
        unfold bound at hlt ⊢
        omega
      exact hmax ▸ h
  · rintro ⟨type, holder, hm, hchain⟩
    exact ⟨type, holder, hm, hchain.mono (Nat.min_le_right _ _)⟩

end

/-! ## What a call calls -/

/-- A call comes to calling a value: nothing on the way to it fails. -/
inductive Invokes (r : Resolver) (c : PendingCall) : Resolved → Prop
  /-- What the called name is bound to. -/
  | name {b : Binding} {scope : Scope} {v : Resolved} (hn : r.CallsName c b scope)
      (ho : r.implicitOwner? c scope = none) (hv : read (r.view.binding b) = .ok v) : Invokes r c v
  /-- What a member of the class around the method holds. -/
  | implicit {b : Binding} {scope : Scope} {owner : DefId} {v : Resolved}
      (hn : r.CallsName c b scope)
      (ho : r.implicitOwner? c scope = some owner) (hv : r.Holds owner c.callee v) : Invokes r c v
  /-- A member of a module or package. -/
  | moduleMember {receiver : String} {w v : Resolved} (hr : CallsMemberOf c receiver)
      (hw : read (r.view.name c.scope receiver) = .ok w) (hm : IsModule r.catalog w.meaning)
      (hv : read (r.view.member w c.callee) = .ok v) : Invokes r c v
  /-- What a member of the class that a class method runs on holds. -/
  | runtimeClass {receiver : String} {w v : Resolved} {id : DefId} {maker : Option String}
      {d : Definition} (hr : CallsMemberOf c receiver)
      (hw : read (r.view.name c.scope receiver) = .ok w) (hm : w.meaning = .definition id maker)
      (hd : r.catalog.definitions.get? id = some d) (hk : d.kind = .classBody)
      (hrole : w.role = some .cls) (hv : r.Holds d.id c.callee v) : Invokes r c v
  /-- A member of a class itself. -/
  | classMember {receiver : String} {w v : Resolved} {id owner : DefId} {maker : Option String}
      {d : Definition} {b : Binding} (hr : CallsMemberOf c receiver)
      (hw : read (r.view.name c.scope receiver) = .ok w) (hm : w.meaning = .definition id maker)
      (hd : r.catalog.definitions.get? id = some d) (hk : d.kind = .classBody)
      (hrole : w.role ≠ some .cls) (hc : r.hierarchy.isCyclic d.id = false)
      (hl : r.hierarchy.lookup? r.catalog d.id c.callee none = some (owner, b))
      (hv : read (r.view.binding b) = .ok v) : Invokes r c v
  /-- What a member of an object holds. -/
  | object {receiver : String} {w v : Resolved} {type : DefId} {holder : Option DefId}
      (hr : CallsMemberOf c receiver) (hw : read (r.view.name c.scope receiver) = .ok w)
      (hm : w.meaning = .object type holder) (hv : r.Holds type c.callee v) : Invokes r c v
  /-- A member after the class around the caller; those found before it are called first. -/
  | parent {owner : DefId} {below : List DefId} {before after : List (DefId × Binding)}
      {found : DefId × Binding} {v : Resolved} (hp : r.CallsParent c owner)
      (hc : r.hierarchy.isCyclic owner = false) (hs : r.hierarchy.subtree? owner = some below)
      (hb : r.bindingsAfter owner c.callee below = before ++ found :: after)
      (hbefore : ∀ f ∈ before, ∀ e, ¬ r.BindingFails f.2 e)
      (hv : read (r.view.binding found.2) = .ok v) : Invokes r c v

section

variable {r : Resolver} {c : PendingCall}

theorem exists_invokes_of_name {b : Binding} {scope : Scope} (hn : r.CallsName c b scope)
    (h : r.NameFails c b scope .endlessCall) : ∃ v, r.Invokes c v ∧ r.GoesOn r.bound v := by
  unfold NameFails at h
  cases ho : r.implicitOwner? c scope with
  | none =>
    rw [ho] at h
    obtain ⟨v, hv, hf⟩ := readFails_endless_iff.mp h
    exact ⟨v, .name hn ho hv, hf⟩
  | some owner =>
    rw [ho] at h
    obtain ⟨v, hv, hf⟩ := dispatchFails_endless_iff.mp h
    exact ⟨v, .implicit hn ho hv, hf⟩

theorem exists_invokes_of_member {receiver : String} {w : Resolved} (hr : CallsMemberOf c receiver)
    (hw : read (r.view.name c.scope receiver) = .ok w) (h : r.OnFails c w .endlessCall) :
    ∃ v, r.Invokes c v ∧ r.GoesOn r.bound v := by
  cases h with
  | moduleMember hm he =>
    obtain ⟨v, hv, hf⟩ := readFails_endless_iff.mp he
    exact ⟨v, .moduleMember hr hw hm hv, hf⟩
  | runtimeClass hm hd hk hrole he =>
    obtain ⟨v, hv, hf⟩ := dispatchFails_endless_iff.mp he
    exact ⟨v, .runtimeClass hr hw hm hd hk hrole hv, hf⟩
  | classMember hm hd hk hrole hc hl he =>
    obtain ⟨v, hv, hf⟩ := readFails_endless_iff.mp he
    exact ⟨v, .classMember hr hw hm hd hk hrole hc hl hv, hf⟩
  | object hm he =>
    obtain ⟨v, hv, hf⟩ := dispatchFails_endless_iff.mp he
    exact ⟨v, .object hr hw hm hv, hf⟩

theorem exists_invokes_of_parent {owner : DefId} (hp : r.CallsParent c owner)
    (h : r.ParentFails c owner .endlessCall) : ∃ v, r.Invokes c v ∧ r.GoesOn r.bound v := by
  cases h with
  | member hc hs hb hbefore he =>
    obtain ⟨v, hv, hf⟩ := readFails_endless_iff.mp he
    exact ⟨v, .parent hp hc hs hb hbefore hv, hf⟩

theorem callFails_of_invokes {v : Resolved} (h : r.Invokes c v) (hf : r.GoesOn r.bound v) :
    r.CallFails c .endlessCall := by
  cases h with
  | name hn ho hv =>
    refine .name hn ?_
    rw [NameFails, ho]
    exact readFails_endless_iff.mpr ⟨v, hv, hf⟩
  | implicit hn ho hv =>
    refine .name hn ?_
    rw [NameFails, ho]
    exact dispatchFails_endless_iff.mpr ⟨v, hv, hf⟩
  | moduleMember hr hw hm hv =>
    exact .member hr hw (.moduleMember hm (readFails_endless_iff.mpr ⟨v, hv, hf⟩))
  | runtimeClass hr hw hm hd hk hrole hv =>
    exact .member hr hw (.runtimeClass hm hd hk hrole (dispatchFails_endless_iff.mpr ⟨v, hv, hf⟩))
  | classMember hr hw hm hd hk hrole hc hl hv =>
    exact .member hr hw (.classMember hm hd hk hrole hc hl (readFails_endless_iff.mpr ⟨v, hv, hf⟩))
  | object hr hw hm hv =>
    exact .member hr hw (.object hm (dispatchFails_endless_iff.mpr ⟨v, hv, hf⟩))
  | parent hp hc hs hb hbefore hv =>
    exact .parent hp (.member hc hs hb hbefore (readFails_endless_iff.mpr ⟨v, hv, hf⟩))

theorem callFails_endless_iff :
    r.CallFails c .endlessCall ↔ ∃ v, r.Invokes c v ∧ r.GoesOn r.bound v := by
  constructor
  · intro h
    cases h with
    | name hn he => exact exists_invokes_of_name hn he
    | receiver hr he => exact absurd he (read_ne_endless _)
    | member hr hv he => exact exists_invokes_of_member hr hv he
    | parent hp he => exact exists_invokes_of_parent hp he
  · rintro ⟨v, hv, hf⟩
    exact callFails_of_invokes hv hf

end

/-! ## Ends of calls -/

section

variable (r : Resolver) (c : PendingCall)

theorem invoke_ends_iff (isHeld : Bool) (v : Resolved) (s : List String) :
    Ends (fun bound => r.invoke c bound isHeld v) s ↔ ¬ r.ComesBack v := by
  rw [ends_iff (fun bound => r.fails_invoke c bound isHeld v) fun bound more hle =>
    r.extends_invoke c hle isHeld v]
  simpa [valueFails_endless_iff] using exists_bound_iff (r := r) (P := (· = v))

theorem dispatch_ends_iff (id : DefId) (member : String) (report : Bool) (s : List String) :
    Ends (fun bound => r.dispatchWith (r.invoke c bound true) id member report) s ↔
      ∀ v, r.Holds id member v → ¬ r.ComesBack v := by
  rw [ends_iff (fun bound => r.fails_dispatchWith (r.fails_invoke c bound true) id member report)
    fun bound more hle => r.extends_dispatchWith (r.extends_invoke c hle true) id member report]
  simp only [dispatchFails_endless_iff, exists_bound_iff]

theorem binding_ends_iff (b : Binding) (isHeld : Bool) (s : List String) :
    Ends (fun bound => traced (r.view.binding b) >>= r.invoke c bound isHeld) s ↔
      ∀ v, read (r.view.binding b) = .ok v → ¬ r.ComesBack v := by
  rw [ends_iff (fun bound => Fails.bind (gives_traced _) fun v _ => r.fails_invoke c bound isHeld v)
    fun bound more hle => .bind fun v => r.extends_invoke c hle isHeld v]
  simp only [read_ne_endless, false_or, valueFails_endless_iff, exists_bound_iff]

theorem resolve_eq_endless_iff :
    r.resolve c = .error .endlessCall ↔ ∃ v, r.Invokes c v ∧ r.GoesOn maxChain v := by
  rw [resolve_eq_error_iff, callFails_endless_iff]
  simp only [goesOn_bound_iff, reduceCtorEq, false_and, or_false]

/-- The recursion that calls a value, a member of an object or what a binding holds comes to a
result if and only if it never calls back to a class by way of call operators; there is then a
number of steps after which more change nothing. A call of a program stops without a result if and
only if it comes to calling a value from which that many call operators can be followed: on every
way that comes back, and on long ways that would end. -/
theorem resolution_ends_iff :
    (∀ isHeld v s, Ends (fun bound => r.invoke c bound isHeld v) s ↔ ¬ r.ComesBack v) ∧
      (∀ id member report s,
        Ends (fun bound => r.dispatchWith (r.invoke c bound true) id member report) s ↔
          ∀ v, r.Holds id member v → ¬ r.ComesBack v) ∧
      (∀ b isHeld s, Ends (fun bound => traced (r.view.binding b) >>= r.invoke c bound isHeld) s ↔
        ∀ v, read (r.view.binding b) = .ok v → ¬ r.ComesBack v) ∧
      (r.resolve c = .error .endlessCall ↔ ∃ v, r.Invokes c v ∧ r.GoesOn maxChain v) :=
  ⟨r.invoke_ends_iff c, r.dispatch_ends_iff c, r.binding_ends_iff c, r.resolve_eq_endless_iff c⟩

end

/-- A class whose call operator is an object of the class, and a function that calls such an
object. -/
def operatorFile : Outline :=
  file "m.py" "m"
    [classItem "A" [] [.assign (mark "op") ⟨"__call__", .other, none, some "A", false⟩],
     .functionDecl (mark "use") ⟨"use", [⟨"a", some "A", false, .positional⟩], [], false, false⟩
      [callItem "call" "a"]]

def operatorCall : PendingCall :=
  ⟨"m.py#call", "m.py::m.use", "m.py#use", "m.py", ⟨1, 0⟩, 0, "a", none, some 0, false⟩

/-- A call operator that is an object of its own class is called without end. -/
theorem resolve_fails_on_own_operator :
    (digestsOf [operatorFile]).flatMap (·.calls) = [operatorCall] ∧
      (standard (catalogOf [operatorFile])).operators "m.py::m.A" = ["m.py::m.A"] ∧
      (standard (catalogOf [operatorFile])).resolve operatorCall = .error .endlessCall := by
  decide +kernel

end Resolver

end Xref

import Xref.Proofs.Call.Coherence
import Xref.Proofs.Call.Faults

/-!
# How calls fail

A call is made on a bare name, on what an expression before the name denotes, or on the parent. For
each form it is said what of the catalog is read on the way, and what is called in the end; the call
stops exactly with the faults of these.
-/

namespace Xref.Resolver

open Text List

/-! ## What is called -/

/-- Calling a member of an object of a class fails. -/
abbrev MemberFails (r : Resolver) (id : DefId) (member : String) : Fault → Prop :=
  r.DispatchFails (r.ValueFails r.bound) id member

/-- What following names comes to is called, and reading it fails or calling it does. -/
def ReadFails (r : Resolver) (t : Tracing Resolved) (e : Fault) : Prop :=
  read t = .error e ∨ ∃ v, read t = .ok v ∧ r.ValueFails r.bound v e

/-- Calling what a binding is bound to fails. -/
abbrev BindingFails (r : Resolver) (b : Binding) : Fault → Prop :=
  r.ReadFails (r.view.binding b)

section

variable (r : Resolver) (c : PendingCall)

theorem fails_call (isHeld : Bool) (v : Resolved) :
    Fails (r.call c isHeld v) (r.ValueFails r.bound v) :=
  r.fails_invoke c r.bound isHeld v

theorem fails_dispatch (id : DefId) (member : String) :
    Fails (r.dispatch c id member) (r.MemberFails id member) :=
  r.fails_dispatchWith (r.fails_call c true) id member true

theorem fails_callBinding (b : Binding) : Fails (r.callBinding c b) (r.BindingFails b) :=
  Fails.bind (gives_traced _) fun v _ => r.fails_call c _ v

theorem gives_guess (isMember : Bool) : Gives (r.guess c isMember) (.ok (r.guessed c isMember)) :=
  (Gives.modify _).bind_ok (.pure _)

end

/-- Resolutions one after the other stop with the fault of the first that stops. -/
theorem fails_mapM {f : α → Resolving β} {F : α → Fault → Prop} (hf : ∀ a, Fails (f a) (F a))
    (as : List α) :
    Fails (as.mapM f) fun e => ∃ before a after, as = before ++ a :: after ∧
      (∀ b ∈ before, ∀ e, ¬ F b e) ∧ F a e := by
  induction as with
  | nil =>
    rw [mapM_nil]
    exact (Fails.never (.pure _)).congr fun e => by simp
  | cons a as ih =>
    rw [mapM_cons]
    obtain ⟨x, hx, hF⟩ := hf a
    refine (Fails.bind hx fun b _ => ih.map (b :: ·)).congr fun e => ?_
    rw [hF]
    constructor
    · rintro (he | ⟨b, hb, before, a', after, rfl, hbefore, he⟩)
      · exact ⟨[], a, as, rfl, by simp, he⟩
      · refine ⟨a :: before, a', after, rfl, fun d hd => ?_, he⟩
        rcases mem_cons.mp hd with rfl | hd
        · intro e' he'
          cases ((hF e').mpr he').symm.trans hb
        · exact hbefore d hd
    · rintro ⟨before, a', after, heq, hbefore, he⟩
      cases before with
      | nil =>
        cases heq
        exact .inl he
      | cons d before =>
        cases heq
        cases x with
        | error e' => exact absurd ((hF e').mp rfl) (hbefore a (by simp) e')
        | ok b =>
          exact .inr ⟨b, rfl, before, a', after, rfl, fun d hd => hbefore d (by simp [hd]), he⟩

/-! ## Bare names -/

/-- A call of a bare name that is bound in a scope. -/
structure CallsName (r : Resolver) (c : PendingCall) (b : Binding) (scope : Scope) : Prop where
  receiver_eq : c.receiver = none
  plain : isName c.callee.toList
  lookup : r.catalog.lookup? c.scope c.callee = some (b, scope)

/-- The class on whose object a bare name is called: that of a method around the call. -/
def implicitOwner? (r : Resolver) (c : PendingCall) (scope : Scope) : Option DefId :=
  let inMethod :=
    ((r.catalog.definitions.get? c.caller).map fun d => decide (d.kind = .method)).getD false
  if scope.kind = .classBody && scope.id ≠ c.scope && inMethod then scope.owner else none

def NameFails (r : Resolver) (c : PendingCall) (b : Binding) (scope : Scope) (e : Fault) : Prop :=
  match r.implicitOwner? c scope with
  | some owner => r.MemberFails owner c.callee e
  | none => r.BindingFails b e

theorem fails_callName (r : Resolver) (c : PendingCall) :
    Fails (r.callName c) fun e => ∃ b scope, r.catalog.lookup? c.scope c.callee = some (b, scope) ∧
      r.NameFails c b scope e := by
  unfold callName
  cases hl : r.catalog.lookup? c.scope c.callee with
  | none => exact ((Fails.never (r.gives_guess c false)).map _).congr fun e => by simp
  | some found =>
    obtain ⟨b, scope⟩ := found
    refine Fails.congr (F := r.NameFails c b scope) ?_ fun e => by simp
    show Fails (match r.implicitOwner? c scope with
      | some owner => _
      | none => _) _
    unfold NameFails
    cases r.implicitOwner? c scope with
    | some owner => exact (r.fails_dispatch c owner c.callee).map _
    | none => exact Fails.bind (gives_traced _) fun v _ => (r.fails_call c b.value.isHeld v).map _

/-! ## Members -/

/-- A call of a member of what an expression denotes. -/
structure CallsMemberOf (c : PendingCall) (receiver : String) : Prop where
  receiver_eq : c.receiver = some receiver
  plain : isName c.callee.toList
  ne_parent : receiver ≠ "super()"
  isPath : Dotted.isPath receiver

/-- Calling a member of what is denoted fails. -/
inductive OnFails (r : Resolver) (c : PendingCall) (v : Resolved) : Fault → Prop
  | lost {id : DefId} {maker : Option String} (hm : v.meaning = .definition id maker)
      (hd : r.catalog.definitions.get? id = none) : OnFails r c v .lostDefinition
  | moduleMember {e : Fault} (hm : IsModule r.catalog v.meaning)
      (he : r.ReadFails (r.view.member v c.callee) e) : OnFails r c v e
  | runtimeClass {id : DefId} {maker : Option String} {d : Definition} {e : Fault}
      (hm : v.meaning = .definition id maker) (hd : r.catalog.definitions.get? id = some d)
      (hk : d.kind = .classBody) (hr : v.role = some .cls) (he : r.MemberFails d.id c.callee e) :
      OnFails r c v e
  | classMember {id owner : DefId} {maker : Option String} {d : Definition} {b : Binding}
      {e : Fault}
      (hm : v.meaning = .definition id maker) (hd : r.catalog.definitions.get? id = some d)
      (hk : d.kind = .classBody) (hr : v.role ≠ some .cls) (hc : r.hierarchy.isCyclic d.id = false)
      (hl : r.hierarchy.lookup? r.catalog d.id c.callee none = some (owner, b))
      (he : r.BindingFails b e) : OnFails r c v e
  | object {type : DefId} {holder : Option DefId} {e : Fault} (hm : v.meaning = .object type holder)
      (he : r.MemberFails type c.callee e) : OnFails r c v e

section

variable {r : Resolver} {c : PendingCall} {v : Resolved} {e : Fault}

theorem onFails_iff_of_object {type : DefId} {holder : Option DefId}
    (hm : v.meaning = .object type holder) : r.OnFails c v e ↔ r.MemberFails type c.callee e := by
  constructor
  · rintro (⟨hm', _⟩ | ⟨⟨_, hm'⟩ | ⟨_, _, _, hm', _⟩, _⟩ | ⟨hm', _⟩ | ⟨hm', _⟩ | ⟨hm', he⟩)
    case object =>
      cases hm.symm.trans hm'
      exact he
    all_goals cases hm.symm.trans hm'
  · exact .object hm

theorem onFails_iff_of_package {qualname : String} (hm : v.meaning = .package qualname) :
    r.OnFails c v e ↔ r.ReadFails (r.view.member v c.callee) e := by
  constructor
  · rintro (⟨hm', _⟩ | ⟨_, he⟩ | ⟨hm', _⟩ | ⟨hm', _⟩ | ⟨hm', _⟩)
    case moduleMember => exact he
    all_goals cases hm.symm.trans hm'
  · exact .moduleMember (.inl ⟨qualname, hm⟩)

theorem onFails_iff_of_lost {id : DefId} {maker : Option String}
    (hm : v.meaning = .definition id maker) (hd : r.catalog.definitions.get? id = none) :
    r.OnFails c v e ↔ e = .lostDefinition := by
  constructor
  · rintro (_ | ⟨⟨_, hm'⟩ | ⟨_, _, _, hm', hd', _⟩, _⟩ | ⟨hm', hd', _⟩ | ⟨hm', hd', _⟩ | ⟨hm', _⟩)
    · rfl
    · cases hm.symm.trans hm'
    · cases hm.symm.trans hm'
      cases hd.symm.trans hd'
    · cases hm.symm.trans hm'
      cases hd.symm.trans hd'
    · cases hm.symm.trans hm'
      cases hd.symm.trans hd'
    · cases hm.symm.trans hm'
  · rintro rfl
    exact .lost hm hd

theorem onFails_iff_of_definition {id : DefId} {maker : Option String} {d : Definition}
    (hm : v.meaning = .definition id maker) (hd : r.catalog.definitions.get? id = some d) :
    r.OnFails c v e ↔
      (d.kind = .fileBody ∧ r.ReadFails (r.view.member v c.callee) e) ∨
        (d.kind = .classBody ∧ v.role = some .cls ∧ r.MemberFails d.id c.callee e) ∨
        (d.kind = .classBody ∧ v.role ≠ some .cls ∧ r.hierarchy.isCyclic d.id = false ∧
          ∃ owner b, r.hierarchy.lookup? r.catalog d.id c.callee none = some (owner, b) ∧
            r.BindingFails b e) := by
  constructor
  · rintro (⟨hm', hd'⟩ | ⟨⟨_, hm'⟩ | ⟨_, _, _, hm', hd', hk⟩, he⟩ | ⟨hm', hd', hk, hr, he⟩ |
      ⟨hm', hd', hk, hr, hc, hl, he⟩ | ⟨hm', _⟩)
    · cases hm.symm.trans hm'
      cases hd.symm.trans hd'
    · cases hm.symm.trans hm'
    · cases hm.symm.trans hm'
      cases hd.symm.trans hd'
      exact .inl ⟨hk, he⟩
    · cases hm.symm.trans hm'
      cases hd.symm.trans hd'
      exact .inr (.inl ⟨hk, hr, he⟩)
    · cases hm.symm.trans hm'
      cases hd.symm.trans hd'
      exact .inr (.inr ⟨hk, hr, hc, _, _, hl, he⟩)
    · cases hm.symm.trans hm'
  · rintro (⟨hk, he⟩ | ⟨hk, hr, he⟩ | ⟨hk, hr, hc, owner, b, hl, he⟩)
    · exact .moduleMember (.inr ⟨id, maker, d, hm, hd, hk⟩) he
    · exact .runtimeClass hm hd hk hr he
    · exact .classMember hm hd hk hr hc hl he

theorem not_onFails (hd : ∀ id maker, v.meaning ≠ .definition id maker)
    (ho : ∀ type holder, v.meaning ≠ .object type holder) (hp : ∀ q, v.meaning ≠ .package q) :
    ¬ r.OnFails c v e := by
  rintro (⟨hm, _⟩ | ⟨⟨_, hm⟩ | ⟨_, _, _, hm, _⟩, _⟩ | ⟨hm, _⟩ | ⟨hm, _⟩ | ⟨hm, _⟩)
  · exact hd _ _ hm
  · exact hp _ hm
  · exact hd _ _ hm
  · exact hd _ _ hm
  · exact hd _ _ hm
  · exact ho _ _ hm

end

variable (r : Resolver)

theorem fails_callOnClass (c : PendingCall) (id : DefId) :
    Fails (r.callOnClass c id) fun e => r.hierarchy.isCyclic id = false ∧
      ∃ owner b, r.hierarchy.lookup? r.catalog id c.callee none = some (owner, b) ∧
        r.BindingFails b e := by
  unfold callOnClass
  refine Fails.after (.modify _) ?_
  by_cases hc : r.hierarchy.isCyclic id
  · simp only [hc, if_true]
    exact (Fails.never (.pure _)).congr fun e => by simp
  · simp only [hc]
    cases hl : r.hierarchy.lookup? r.catalog id c.callee none with
    | none => exact (Fails.never (.pure _)).congr fun e => by simp
    | some found =>
      obtain ⟨owner, b⟩ := found
      exact (r.fails_callBinding c b).congr fun e => by simp

theorem fails_callMember (c : PendingCall) (receiver : String) :
    Fails (r.callMember c receiver) fun e => read (r.view.name c.scope receiver) = .error e ∨
      ∃ v, read (r.view.name c.scope receiver) = .ok v ∧ r.OnFails c v e := by
  unfold callMember
  refine Fails.bind (gives_traced _) fun v _ => ?_
  dsimp only
  split
  · next id maker hm =>
    refine (r.fails_bind_definition (F := fun _ => r.OnFails c v) fun d hd => ?_).congr fun e => ?_
    · have hiff := fun e => onFails_iff_of_definition (r := r) (c := c) (e := e) hm hd
      cases hk : d.kind with
      | fileBody =>
        refine (Fails.bind (gives_traced _) fun w _ => (r.fails_call c false w).map _).congr
          fun e => ?_
        rw [hiff]
        simp [hk, ReadFails]
      | classBody =>
        by_cases hr : v.role = some .cls
        · simp only [hr, if_true]
          refine ((r.fails_dispatch c d.id c.callee).map _).congr fun e => ?_
          rw [hiff]
          simp [hk, hr]
        · simp only [hr, if_false]
          refine ((r.fails_callOnClass c d.id).map _).congr fun e => ?_
          rw [hiff]
          simp [hk, hr]
      | boundValue =>
        refine Fails.congr (F := fun _ => False) ?_ fun e => by simp [hiff, hk]
        dsimp only
        split <;> exact .never (.pure _)
      | function | method | lambda =>
        exact ((Fails.never (r.gives_guess c true)).map _).congr fun e => by simp [hiff, hk]
    · cases hd : r.catalog.definitions.get? id with
      | none => simp [onFails_iff_of_lost hm hd]
      | some d => simp
  · next qualname hm =>
    refine (Fails.bind (gives_traced _) fun w _ => (r.fails_call c false w).map _).congr fun e => ?_
    rw [onFails_iff_of_package hm]
    exact Iff.rfl
  · next type holder hm =>
    exact ((r.fails_dispatch c type c.callee).map _).congr fun e => (onFails_iff_of_object hm).symm
  · next hm =>
    exact (Fails.never (.pure _)).congr fun e =>
      iff_of_false not_false (not_onFails (by simp [hm]) (by simp [hm]) (by simp [hm]))
  · next hm =>
    exact ((Fails.never (r.gives_guess c true)).map _).congr fun e =>
      iff_of_false not_false (not_onFails (by simp [hm]) (by simp [hm]) (by simp [hm]))

/-! ## Parents -/

/-- A call of a member of the parent, in a method of a class. -/
structure CallsParent (r : Resolver) (c : PendingCall) (owner : DefId) : Prop where
  receiver_eq : c.receiver = some "super()"
  plain : isName c.callee.toList
  owner_eq : (r.catalog.definitions.get? c.caller).bind (·.ownerClass) = some owner

/-- Calling a member of the parent fails: the class is not in the hierarchy, or one of the members
that are found after it, and those before it do not. -/
inductive ParentFails (r : Resolver) (c : PendingCall) (owner : DefId) : Fault → Prop
  | outside (hc : r.hierarchy.isCyclic owner = false) (hs : r.hierarchy.subtree? owner = none) :
      ParentFails r c owner (.unknownClass owner)
  | member {below : List DefId} {before after : List (DefId × Binding)} {found : DefId × Binding}
      {e : Fault} (hc : r.hierarchy.isCyclic owner = false)
      (hs : r.hierarchy.subtree? owner = some below)
      (hb : r.bindingsAfter owner c.callee below = before ++ found :: after)
      (hbefore : ∀ f ∈ before, ∀ e, ¬ r.BindingFails f.2 e) (he : r.BindingFails found.2 e) :
      ParentFails r c owner e

theorem fails_callOnParent (c : PendingCall) (owner : DefId) :
    Fails (r.callOnParent c owner) (r.ParentFails c owner) := by
  unfold callOnParent
  refine Fails.after (.modify _) ?_
  by_cases hc : r.hierarchy.isCyclic owner
  · simp only [hc, if_true]
    refine (Fails.never (.pure _)).congr fun e => iff_of_false not_false ?_
    rintro (⟨hc', _⟩ | ⟨hc', _⟩) <;> simp [hc] at hc'
  · simp only [hc]
    have hac : r.hierarchy.isCyclic owner = false := by simpa using hc
    cases hs : r.hierarchy.subtree owner with
    | error e' =>
      obtain ⟨hnone, rfl⟩ := (subtree_eq_error_iff ..).mp hs
      refine (Fails.stop (hs ▸ r.gives_notedSubtree owner)).congr fun e => ⟨?_, ?_⟩
      · rintro rfl
        exact .outside hac hnone
      · rintro (_ | ⟨_, hs', _⟩)
        · rfl
        · cases hnone.symm.trans hs'
    | ok below =>
      have hbelow := (subtree_eq_ok_iff ..).mp hs
      refine Fails.after (hs ▸ r.gives_notedSubtree owner) ?_
      -- what is found is called one after the other
      have hiff : ∀ e, (∃ before found after, r.bindingsAfter owner c.callee below =
          before ++ found :: after ∧ (∀ f ∈ before, ∀ e, ¬ r.BindingFails f.2 e) ∧
          r.BindingFails found.2 e) ↔ r.ParentFails c owner e := by
        intro e
        constructor
        · rintro ⟨before, found, after, hb, hbefore, he⟩
          exact .member hac hbelow hb hbefore he
        · rintro (⟨_, hnone⟩ | ⟨_, hs', hb, hbefore, he⟩)
          · cases hbelow.symm.trans hnone
          · cases hbelow.symm.trans hs'
            exact ⟨_, _, _, hb, hbefore, he⟩
      refine Fails.congr ?_ hiff
      split
      · next hnil =>
        refine Fails.congr (F := fun _ => False) ?_ fun e => by simp [hnil]
        split <;> exact .never (.pure _)
      · next giver b hone =>
        refine (r.fails_callBinding c b).congr fun e => ?_
        simp [hone, cons_eq_append_iff]
      · have hall := fails_mapM (fun f : DefId × Binding => r.fails_callBinding c f.2)
          (r.bindingsAfter owner c.callee below)
        obtain ⟨x, hx, hF⟩ := hall
        refine (Fails.bind (F := fun _ _ => False) hx fun outcomes _ => ?_).congr fun e => ?_
        · split <;> exact .never (.pure _)
        · simpa using hF e

/-! ## All calls -/

/-- A call fails before its targets are known. -/
inductive CallFails (r : Resolver) (c : PendingCall) : Fault → Prop
  | name {b : Binding} {scope : Scope} {e : Fault} (hn : r.CallsName c b scope)
      (he : r.NameFails c b scope e) : CallFails r c e
  | receiver {receiver : String} {e : Fault} (hr : CallsMemberOf c receiver)
      (he : read (r.view.name c.scope receiver) = .error e) : CallFails r c e
  | member {receiver : String} {v : Resolved} {e : Fault} (hr : CallsMemberOf c receiver)
      (hv : read (r.view.name c.scope receiver) = .ok v) (he : r.OnFails c v e) : CallFails r c e
  | parent {owner : DefId} {e : Fault} (hp : r.CallsParent c owner) (he : r.ParentFails c owner e) :
      CallFails r c e

theorem CallFails.plain {r : Resolver} {c : PendingCall} {e : Fault} (h : r.CallFails c e) :
    isName c.callee.toList := by
  cases h with
  | name hn _ => exact hn.plain
  | receiver hr _ | member hr _ _ => exact hr.plain
  | parent hp _ => exact hp.plain

section

variable {r : Resolver} {c : PendingCall} {e : Fault}

/-- The failure of a call without a receiver. -/
theorem CallFails.of_none (hr : c.receiver = none) (h : r.CallFails c e) :
    ∃ b scope, r.CallsName c b scope ∧ r.NameFails c b scope e := by
  cases h with
  | name hn he => exact ⟨_, _, hn, he⟩
  | receiver hr' _ | member hr' _ _ => cases hr.symm.trans hr'.receiver_eq
  | parent hp _ => cases hr.symm.trans hp.receiver_eq

theorem CallFails.of_parent (hr : c.receiver = some "super()") (h : r.CallFails c e) :
    ∃ owner, r.CallsParent c owner ∧ r.ParentFails c owner e := by
  cases h with
  | name hn _ => cases hr.symm.trans hn.receiver_eq
  | receiver hr' _ => exact absurd (Option.some.inj (hr'.receiver_eq.symm.trans hr)) hr'.ne_parent
  | member hr' _ _ => exact absurd (Option.some.inj (hr'.receiver_eq.symm.trans hr)) hr'.ne_parent
  | parent hp he => exact ⟨_, hp, he⟩

theorem CallFails.of_receiver {receiver : String} (hr : c.receiver = some receiver)
    (hne : receiver ≠ "super()") (h : r.CallFails c e) :
    CallsMemberOf c receiver ∧ (read (r.view.name c.scope receiver) = .error e ∨
      ∃ v, read (r.view.name c.scope receiver) = .ok v ∧ r.OnFails c v e) := by
  cases h with
  | name hn _ => cases hr.symm.trans hn.receiver_eq
  | receiver hr' he =>
    cases hr.symm.trans hr'.receiver_eq
    exact ⟨hr', .inl he⟩
  | member hr' hv he =>
    cases hr.symm.trans hr'.receiver_eq
    exact ⟨hr', .inr ⟨_, hv, he⟩⟩
  | parent hp _ => exact absurd (Option.some.inj (hr.symm.trans hp.receiver_eq)) hne

end

variable (r : Resolver)

/-- What a call is made on and its outcome are found, or the call fails. -/
theorem fails_outcome (c : PendingCall) : Fails (r.outcome c) (r.CallFails c) := by
  unfold outcome
  by_cases hp : isName c.callee.toList
  case neg =>
    have hnever : ∀ e, False ↔ r.CallFails c e := fun e => iff_of_false not_false fun h =>
      hp h.plain
    simp only [hp]
    cases c.receiver with
    | none | some receiver => exact (Fails.never (.pure _)).congr hnever
  simp only [hp]
  cases hr : c.receiver with
  | none =>
    refine (r.fails_callName c).congr fun e => ⟨?_, fun h => ?_⟩
    · rintro ⟨b, scope, hl, he⟩
      exact .name ⟨hr, hp, hl⟩ he
    · obtain ⟨b, scope, hn, he⟩ := h.of_none hr
      exact ⟨b, scope, hn.lookup, he⟩
  | some receiver =>
    by_cases hsuper : receiver = "super()"
    · subst hsuper
      cases ho : (r.catalog.definitions.get? c.caller).bind (·.ownerClass) with
      | some owner =>
        refine ((r.fails_callOnParent c owner).map _).congr fun e => ⟨.parent ⟨hr, hp, ho⟩,
          fun h => ?_⟩
        obtain ⟨_, hparent, he⟩ := h.of_parent hr
        cases ho.symm.trans hparent.owner_eq
        exact he
      | none =>
        refine (Fails.never (.pure _)).congr fun e => iff_of_false not_false fun h => ?_
        obtain ⟨_, hparent, _⟩ := h.of_parent hr
        cases ho.symm.trans hparent.owner_eq
    · simp only [hsuper]
      by_cases hpath : Dotted.isPath receiver
      · simp only [hpath]
        refine (r.fails_callMember c receiver).congr fun e =>
          ⟨?_, fun h => (h.of_receiver hr hsuper).2⟩
        rintro (he | ⟨v, hv, he⟩)
        · exact .receiver ⟨hr, hp, hsuper, hpath⟩ he
        · exact .member ⟨hr, hp, hsuper, hpath⟩ hv he
      · simp only [hpath]
        refine ((Fails.never (r.gives_guess c true)).map _).congr fun e =>
          iff_of_false not_false fun h => ?_
        exact hpath (h.of_receiver hr hsuper).1.isPath

/-! ## Targets -/

theorem fails_targetDefinitions (targets : List DefId) :
    Fails (r.targetDefinitions targets) fun e =>
      e = .lostDefinition ∧ ∃ t ∈ targets, r.catalog.definitions.get? t = none := by
  unfold targetDefinitions
  induction targets with
  | nil =>
    rw [mapM_nil]
    exact (Fails.never (.pure _)).congr fun e => by simp
  | cons t ts ih =>
    rw [mapM_cons]
    refine (r.fails_bind_definition fun d _ => ih.map (d :: ·)).congr fun e => ?_
    cases hd : r.catalog.definitions.get? t with
    | none | some d => simp [hd]

/-- The outcome of a call has a target that is no definition. -/
def LosesTarget (r : Resolver) (c : PendingCall) : Prop :=
  ∃ p trail, (r.outcome c).run [] = .ok (p, trail) ∧
    ∃ t ∈ p.2.targets, r.catalog.definitions.get? t = none

/-- A call is resolved, or it fails, or one of its targets is lost. -/
theorem resolve_eq_error_iff (c : PendingCall) (e : Fault) :
    r.resolve c = .error e ↔ r.CallFails c e ∨ (e = .lostDefinition ∧ r.LosesTarget c) := by
  obtain ⟨x, hx, hF⟩ := r.fails_outcome c
  unfold resolve
  extract_lets steps
  have hsteps : Fails steps fun e => x = .error e ∨ ∃ p, x = .ok p ∧
      e = .lostDefinition ∧ ∃ t ∈ p.2.targets, r.catalog.definitions.get? t = none := by
    refine Fails.bind hx fun p _ => ?_
    obtain ⟨y, hy, hG⟩ := r.fails_targetDefinitions p.2.targets
    refine (Fails.bind (F := fun _ _ => False) hy fun ds _ => ?_).congr fun e => by simpa using hG e
    exact .never ((Gives.forM fun d => .modify _).bind_ok (.pure _))
  have hlost : r.LosesTarget c ↔ ∃ p, x = .ok p ∧ ∃ t ∈ p.2.targets,
      r.catalog.definitions.get? t = none := by
    constructor
    · rintro ⟨p, trail, hrun, hp⟩
      refine ⟨p, ?_, hp⟩
      rw [← hx [], hrun]
      rfl
    · rintro ⟨p, rfl, hp⟩
      obtain ⟨trail, hrun⟩ := hx.exists_run []
      exact ⟨p, trail, hrun, hp⟩
  rw [← hF, hlost]
  calc _ ↔ steps.run [] = .error e := by
        cases steps.run [] <;> simp [bind, Except.bind, pure, Except.pure]
    _ ↔ _ := hsteps.run_eq_error_iff
    _ ↔ _ := by
        refine or_congr_right ⟨?_, ?_⟩
        · rintro ⟨p, hp, he, ht⟩
          exact ⟨he, p, hp, ht⟩
        · rintro ⟨he, p, hp, ht⟩
          exact ⟨p, hp, he, ht⟩

end Xref.Resolver

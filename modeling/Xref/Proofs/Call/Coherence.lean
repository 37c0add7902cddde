import Xref.Proofs.Call.Dispatch
import Xref.Proofs.Catalog.Merge

/-!
# Coherence of resolved calls

The parts of a resolved call fit together, whatever the call: nothing is known of it exactly when it
has no targets, its targets are definitions, it is certain of one target or of a class with its
initializer, and it is certain of a set of overrides only where they override an abstract member of
the class that is declared for the receiver.
-/

namespace Xref.Resolver

open List Hierarchy Xref.Small

/-- What a receiver that is no class and no object gives a member of: a package or a file. -/
def IsModule (catalog : Catalog) (meaning : Meaning) : Prop :=
  (∃ qualname, meaning = .package qualname) ∨
    ∃ id maker d, meaning = .definition id maker ∧ catalog.definitions.get? id = some d ∧
      d.kind = .fileBody

mutual

/-- The values that a call may call on its way to its targets. -/
inductive CallsValue (r : Resolver) (c : PendingCall) : Resolved → Prop
  /-- What the called name is bound to. -/
  | name {b : Binding} {scope : Scope} (hr : c.receiver = none)
      (hl : r.catalog.lookup? c.scope c.callee = some (b, scope)) :
      CallsValue r c (denoted (r.view.binding b))
  /-- A member of a module or package. -/
  | moduleMember {receiver : String} (hr : c.receiver = some receiver)
      (hm : IsModule r.catalog (denoted (r.view.name c.scope receiver)).meaning) :
      CallsValue r c (denoted (r.view.member (denoted (r.view.name c.scope receiver)) c.callee))
  /-- A member of a class itself. -/
  | classMember {receiver : String} {id owner : DefId} {maker : Option String} {b : Binding}
      (hr : c.receiver = some receiver)
      (hm : (denoted (r.view.name c.scope receiver)).meaning = .definition id maker)
      (hl : r.hierarchy.lookup? r.catalog id c.callee none = some (owner, b)) :
      CallsValue r c (denoted (r.view.binding b))
  /-- A member after the class around the caller, for an object of a class derived from it. -/
  | parentMember {id owner giver : DefId} {related : List DefId} {b : Binding}
      (hr : c.receiver = some "super()")
      (ho : (r.catalog.definitions.get? c.caller).bind (·.ownerClass) = some owner)
      (hs : r.hierarchy.subtree? owner = some related) (hid : id ∈ related)
      (hl : r.hierarchy.lookup? r.catalog id c.callee (some owner) = some (giver, b)) :
      CallsValue r c (denoted (r.view.binding b))
  /-- A value that an object has as a member. -/
  | attribute {id owner : DefId} {member : String} {b : Binding} (hc : CallsMember r c id member)
      (hl : r.hierarchy.lookup? r.catalog id member none = some (owner, b))
      (hv : b.value.definition? = none) : CallsValue r c (denoted (r.view.binding b))

/-- The members that a call may call on its way to its targets, each with the class that is declared
for its receiver. -/
inductive CallsMember (r : Resolver) (c : PendingCall) : DefId → String → Prop
  /-- A bare name that is a member of a class around the method. -/
  | implicit {b : Binding} {scope : Scope} {owner : DefId} (hr : c.receiver = none)
      (hl : r.catalog.lookup? c.scope c.callee = some (b, scope)) (hk : scope.kind = .classBody)
      (ho : scope.owner = some owner) : CallsMember r c owner c.callee
  /-- A member of an object. -/
  | object {receiver : String} {type : DefId} {holder : Option DefId}
      (hr : c.receiver = some receiver)
      (hm : (denoted (r.view.name c.scope receiver)).meaning = .object type holder) :
      CallsMember r c type c.callee
  /-- A member of the class that a class method runs on. -/
  | receiverClass {receiver : String} {id : DefId} {maker : Option String}
      (hr : c.receiver = some receiver)
      (hm : (denoted (r.view.name c.scope receiver)).meaning = .definition id maker)
      (hc : (denoted (r.view.name c.scope receiver)).role = some .cls) :
      CallsMember r c id c.callee
  /-- The call operator of a called object. -/
  | operator {value : Resolved} {type : DefId} {holder : Option DefId} (hv : CallsValue r c value)
      (hm : value.meaning = .object type holder) : CallsMember r c type "__call__"

end

/-- A property that outcomes keep on the way from the values and members that a call calls to its
own outcome. -/
structure Closed (r : Resolver) (c : PendingCall) (P : Outcome → Prop) : Prop where
  unknown : ∀ reason, P (.unknown reason)
  guessed : ∀ isMember, P (r.guessed c isMember)
  missing : ∀ id member report, P (r.missing id member report)
  run : ∀ {id d}, r.catalog.definitions.get? id = some d → P (.exact [d.id])
  held : ∀ {id d}, r.catalog.definitions.get? id = some d → P (.ambiguous [d.id] .static)
  construct : ∀ {id d}, r.catalog.definitions.get? id = some d → d.kind = .classBody →
    P (r.construct d.id)
  constructAny : ∀ {id related}, r.hierarchy.subtree? id = some related →
    P (.ambiguous (related.flatMap fun k => (r.construct k).targets).eraseDups .virtual)
  dispatchDefinition : ∀ {id owner target member b d}, r.CallsMember c id member →
    r.hierarchy.lookup? r.catalog id member none = some (owner, b) →
      b.value.definition? = some target →
    r.catalog.definitions.get? target = some d → P (r.dispatchDefinition id member d)
  orHolder : ∀ {value type holder o}, r.CallsValue c value →
    value.meaning = .object type holder → P o → P (r.orHolder type holder o)
  together : ∀ {outcomes : List Outcome}, (∀ o ∈ outcomes, P o) →
    (outcomes.flatMap (·.targets)).eraseDups ≠ [] →
    P (.ambiguous (outcomes.flatMap (·.targets)).eraseDups .virtual)

variable {r : Resolver} {c : PendingCall} {id : DefId} {member : String}

/-- What a fold collects was there at the start or is added for an element. -/
theorem mem_foldl {step : List β → α → List β} {P : α → β → Prop}
    (hstep : ∀ found a x, x ∈ step found a → x ∈ found ∨ P a x) {as : List α} {found : List β}
    {x : β} (h : x ∈ as.foldl step found) : x ∈ found ∨ ∃ a ∈ as, P a x := by
  induction as generalizing found with
  | nil => exact .inl h
  | cons a as ih =>
    rw [foldl_cons] at h
    rcases ih h with hfound | ⟨a', ha', hp⟩
    · rcases hstep found a x hfound with hold | hnew
      · exact .inl hold
      · exact .inr ⟨a, mem_cons_self, hnew⟩
    · exact .inr ⟨a', mem_cons_of_mem _ ha', hp⟩

/-- The bindings after a class are found by lookups in the classes of the list. -/
theorem mem_bindingsAfter {owner giver : DefId} {related : List DefId} {b : Binding}
    (h : (giver, b) ∈ r.bindingsAfter owner member related) :
    ∃ id ∈ related, r.hierarchy.lookup? r.catalog id member (some owner) = some (giver, b) := by
  unfold bindingsAfter at h
  have hfold := mem_foldl
    (P := fun id hit => r.hierarchy.lookup? r.catalog id member (some owner) = some hit) ?_ h
  · rcases hfold with hnil | hid
    · cases hnil
    · exact hid
  · intro found id x hx
    split at hx
    · next hit hl =>
      split at hx
      · exact .inl hx
      · rcases mem_append.mp hx with hold | hnew
        · exact .inl hold
        · rw [mem_singleton.mp hnew]
          exact .inr hl
    · exact .inl hx

/-! ## Calling values and members -/

section

variable {P : Outcome → Prop} (hs : r.catalog.Sound) (hP : r.Closed c P)
include hP

theorem ensures_guess (isMember : Bool) : Ensures (r.guess c isMember) P :=
  .after fun _ => .pure (hP.guessed isMember)

theorem ensures_invokeDefinition {d : Definition} (hd : r.catalog.definitions.get? id = some d)
    (role : Option ReceiverRole) : Ensures (r.invokeDefinition d role) P := by
  unfold invokeDefinition
  split
  · next hk =>
    split
    · refine (r.ensures_notedSubtree d.id).bind fun related hrelated => ?_
      split
      · exact .pure (hP.construct hd hk)
      · exact .pure (hP.constructAny hrelated)
    · exact .pure (hP.construct hd hk)
  · exact .pure (hP.unknown _)
  · exact .pure (hP.held hd)
  · split
    · exact .pure (hP.unknown _)
    · exact .pure (hP.run hd)

/-- What a called member comes to, given what calling its value comes to. -/
theorem ensures_dispatchWith_closed {invoke : Resolved → Resolving Outcome}
    (hi : ∀ value, r.CallsValue c value → Ensures (invoke value) P) (hc : r.CallsMember c id member)
    (report : Bool) : Ensures (r.dispatchWith invoke id member report) P := by
  refine (r.ensures_dispatchWith invoke id member report).mono fun o ho => ?_
  cases ho with
  | cyclic => exact hP.unknown _
  | missing => exact hP.missing id member report
  | value _ hl hv ho => exact hi _ (.attribute hc hl hv) _ _ _ ho
  | definition _ hl hv hd => exact hP.dispatchDefinition hc hl hv hd

theorem ensures_invoke (bound : Nat) (isHeld : Bool) {value : Resolved}
    (hv : r.CallsValue c value) : Ensures (r.invoke c bound isHeld value) P := by
  unfold invoke
  split
  · exact (r.ensures_definition _).bind fun d hd => ensures_invokeDefinition hP hd _
  · next type holder hm =>
    -- the call operator is called with a smaller bound
    cases bound with
    | zero => exact .throw _
    | succ bound =>
      have hi : ∀ value, r.CallsValue c value → Ensures (r.invoke c bound true value) P :=
        fun _ hv => ensures_invoke bound true hv
      exact (ensures_dispatchWith_closed hP hi (.operator hv hm) false).bind
        fun o ho => .pure (hP.orHolder hv hm ho)
  · exact .pure (hP.unknown _)
  · exact .pure (hP.unknown _)
  · split
    · exact .pure (hP.unknown _)
    · split
      · exact ensures_guess hP false
      · exact .pure (hP.unknown _)

theorem ensures_call (isHeld : Bool) {value : Resolved} (hv : r.CallsValue c value) :
    Ensures (r.call c isHeld value) P :=
  ensures_invoke hP r.bound isHeld hv

theorem ensures_dispatch (hc : r.CallsMember c id member) : Ensures (r.dispatch c id member) P :=
  ensures_dispatchWith_closed hP (fun _ hv => ensures_call hP true hv) hc true

theorem ensures_callBinding {b : Binding} (hv : r.CallsValue c (denoted (r.view.binding b))) :
    Ensures (r.callBinding c b) P := by
  refine (ensures_traced _).bind fun value hvalue => ?_
  subst hvalue
  exact ensures_call hP _ hv

/-! ## Forms of calls -/

theorem ensures_callOnClass
    (hv : ∀ owner b, r.hierarchy.lookup? r.catalog id c.callee none = some (owner, b) →
      r.CallsValue c (denoted (r.view.binding b))) : Ensures (r.callOnClass c id) P := by
  unfold callOnClass
  refine .after fun _ => ?_
  split
  · exact .pure (hP.unknown _)
  · split
    · exact .pure (hP.missing id c.callee true)
    · next owner b hl => exact ensures_callBinding hP (hv owner b hl)

theorem ensures_callOnParent (hr : c.receiver = some "super()") {owner : DefId}
    (ho : (r.catalog.definitions.get? c.caller).bind (·.ownerClass) = some owner) :
    Ensures (r.callOnParent c owner) P := by
  unfold callOnParent
  refine .after fun _ => ?_
  split
  · exact .pure (hP.unknown _)
  · refine (r.ensures_notedSubtree owner).bind fun related hrelated => ?_
    have hfound : ∀ f ∈ r.bindingsAfter owner c.callee related,
      Ensures (r.callBinding c f.2) P := by
      intro f hf
      obtain ⟨id, hid, hl⟩ := mem_bindingsAfter hf
      exact ensures_callBinding hP (.parentMember hr ho hrelated hid hl)
    split
    · split <;> exact .pure (hP.unknown _)
    · next giver b hone => exact hfound (giver, b) (by simp [hone])
    · -- several bindings are called and their targets put together
      refine (Ensures.mapM hfound).bind fun outcomes houtcomes => ?_
      split
      · exact .pure (hP.unknown _)
      · next hne => exact .pure (hP.together houtcomes hne)

theorem ensures_callName (hr : c.receiver = none) : Ensures (r.callName c) fun p => P p.2 := by
  unfold callName
  split
  · exact (ensures_guess hP false).bind fun o ho => .pure ho
  · next b scope hl =>
    dsimp only
    split
    · next owner howner =>
      split at howner
      · next hin =>
        have hk : scope.kind = .classBody := by
          simp only [Bool.and_eq_true, decide_eq_true_eq] at hin
          exact hin.1.1
        exact (ensures_dispatch hP (.implicit hr hl hk howner)).bind fun o ho => .pure ho
      · cases howner
    · refine (ensures_traced _).bind fun value hvalue => ?_
      subst hvalue
      exact (ensures_call hP _ (.name hr hl)).bind fun o ho => .pure ho

include hs

theorem ensures_callMember {receiver : String} (hr : c.receiver = some receiver) :
    Ensures (r.callMember c receiver) fun p => P p.2 := by
  unfold callMember
  refine (ensures_traced _).bind fun resolved hresolved => ?_
  subst hresolved
  dsimp only
  split
  · next id maker hm =>
    refine (r.ensures_definition id).bind fun d hd => ?_
    have hid := hs.id_eq hd
    split
    · next hk =>
      refine (ensures_traced _).bind fun value hvalue => ?_
      subst hvalue
      have hmod : IsModule r.catalog (denoted (r.view.name c.scope receiver)).meaning :=
        .inr ⟨id, maker, d, hm, hd, hk⟩
      exact (ensures_call hP _ (.moduleMember hr hmod)).bind fun o ho => .pure ho
    · split
      · next hc =>
        rw [hid]
        exact (ensures_dispatch hP (.receiverClass hr hm hc)).bind fun o ho => .pure ho
      · -- a class by its name: members are looked up in it, not dispatched
        rw [hid]
        exact (ensures_callOnClass hP fun _ _ hl => .classMember hr hm hl).bind fun o ho => .pure ho
    · split <;> exact .pure (hP.unknown _)
    · exact (ensures_guess hP true).bind fun o ho => .pure ho
  · next qualname hm =>
    refine (ensures_traced _).bind fun value hvalue => ?_
    subst hvalue
    exact (ensures_call hP _ (.moduleMember hr (.inl ⟨qualname, hm⟩))).bind fun o ho => .pure ho
  · next type holder hm => exact (ensures_dispatch hP (.object hr hm)).bind fun o ho => .pure ho
  · exact .pure (hP.unknown _)
  · exact (ensures_guess hP true).bind fun o ho => .pure ho

/-- Every outcome of a call has a property that is closed under the steps of calls. -/
theorem ensures_outcome : Ensures (r.outcome c) fun p => P p.2 := by
  unfold outcome
  dsimp only
  split
  · next hr =>
    split
    · exact ensures_callName hP hr
    · exact .pure (hP.unknown _)
  · next receiver hr =>
    split
    · exact .pure (hP.unknown _)
    · split
      · next hsuper =>
        subst hsuper
        split
        · next owner ho => exact (ensures_callOnParent hP hr ho).bind fun o ho => .pure ho
        · exact .pure (hP.unknown _)
      · split
        · exact ensures_callMember hs hP hr
        · exact (ensures_guess hP true).bind fun o ho => .pure ho

end

/-! ## Coherence -/

/-- What holds of every outcome of a call. -/
structure Coherent (r : Resolver) (c : PendingCall) (o : Outcome) : Prop where
  unknown_iff : o.confidence = .unknown ↔ o.targets = []
  static_of_unknown : o.confidence = .unknown → o.dispatch = .static
  exact_static : o.confidence = .exact → o.dispatch = .static →
    (∃ t, o.targets = [t]) ∨ ∃ k i, o.targets = [k, i] ∧ k ∈ r.catalog.classes.keys
  exact_virtual : o.confidence = .exact → o.dispatch = .virtual →
    ∃ id member owner b d, r.CallsMember c id member ∧
      r.hierarchy.lookup? r.catalog id member none = some (owner, b) ∧
      definitionOf? r.catalog b = some d ∧ d.isAbstract ∧
      o.targets = r.hierarchy.dispatchTargets id member

theorem mem_targets_construct (id : DefId) : id ∈ (r.construct id).targets := by
  unfold construct
  dsimp only
  split
  · split <;> simp [Outcome.exact]
  · simp [Outcome.exact]

namespace Coherent

theorem unknown (reason : Option Reason) : r.Coherent c (.unknown reason) := by
  constructor <;> simp [Outcome.unknown]

theorem ambiguous {targets : List DefId} (h : targets ≠ []) (dispatch : Dispatch) :
    r.Coherent c (.ambiguous targets dispatch) := by
  constructor <;> simp [Outcome.ambiguous, h]

theorem exact_singleton (id : DefId) : r.Coherent c (.exact [id]) := by
  constructor <;> simp [Outcome.exact]

/-- Constructing a class gives the class, and its initializer if there is one to run. -/
theorem construct {id : DefId} (hid : id ∈ r.catalog.classes.keys) :
    r.Coherent c (r.construct id) := by
  unfold Resolver.construct
  dsimp only
  split
  · split
    · exact .exact_singleton id
    · next d _ _ => constructor <;> simp [Outcome.exact, hid]
  · exact .exact_singleton id

/-- So does constructing a class of a subtree. -/
theorem constructAny {related : List DefId} (hrelated : r.hierarchy.subtree? id = some related) :
    r.Coherent c (.ambiguous (related.flatMap fun k => (r.construct k).targets).eraseDups
      .virtual) := by
  refine .ambiguous ?_ .virtual
  -- the class itself is in its subtree, and is among its own targets
  have hself : related.head? = some id := by
    unfold subtree? at hrelated
    split at hrelated
    · cases hrelated
      exact Graph.head?_reachable _ _ _
    · cases hrelated
  have hmem : id ∈ (related.flatMap fun k => (r.construct k).targets).eraseDups := by
    rw [mem_eraseDups, mem_flatMap]
    exact ⟨id, mem_of_mem_head? hself, mem_targets_construct id⟩
  exact ne_nil_of_mem hmem

theorem missing (id : DefId) (member : String) (report : Bool) :
    r.Coherent c (r.missing id member report) := by
  unfold Resolver.missing
  dsimp only
  split
  · next hne => exact .ambiguous (by simpa using hne) .virtual
  · split <;> exact .unknown _

/-- A member that is a definition: only an abstract one gives a certain set of overrides. -/
theorem dispatchDefinition (hs : r.catalog.Sound) {id owner target : DefId} {member : String}
    {b : Binding} {d : Definition} (hc : r.CallsMember c id member)
    (hl : r.hierarchy.lookup? r.catalog id member none = some (owner, b))
    (hv : b.value.definition? = some target) (hd : r.catalog.definitions.get? target = some d) :
    r.Coherent c (r.dispatchDefinition id member d) := by
  unfold Resolver.dispatchDefinition
  split
  · next hk =>
    rw [hs.id_eq hd]
    exact .construct (hs.mem_classes hd hk)
  · exact .ambiguous (cons_ne_nil _ _) .static
  · dsimp only
    split
    · split
      · exact .unknown _
      · exact .exact_singleton d.id
    · next hne =>
      have htargets : r.hierarchy.dispatchTargets id member ≠ [] := by
        intro hnil
        simp [hnil] at hne
      cases habs : d.isAbstract with
      | false => exact .ambiguous htargets .virtual
      | true =>
        refine ⟨by simp [htargets], by simp, by simp, fun _ _ => ?_⟩
        exact ⟨id, member, owner, b, d, hc, hl, definitionOf?_eq hv hd, habs, rfl⟩

theorem orHolder {o : Outcome} (h : r.Coherent c o) (type : DefId) (holder : Option DefId) :
    r.Coherent c (r.orHolder type holder o) := by
  unfold Resolver.orHolder
  split
  · exact h
  · split
    · exact .ambiguous (cons_ne_nil _ _) .static
    · exact .unknown _

theorem guessed (isMember : Bool) : r.Coherent c (r.guessed c isMember) := by
  unfold Resolver.guessed
  split
  · exact .unknown _
  · dsimp only
    split
    · exact .unknown _
    · next hne =>
      split
      · exact .unknown _
      · refine .ambiguous (fun hnil => hne ?_) _
        have hlen := (sortOn_perm Definition.nameOrder (r.candidates c isMember)).length_eq
        rw [map_eq_nil_iff.mp hnil] at hlen
        simpa using hlen.symm

/-- Coherence is closed under the steps of calls. -/
theorem closed (hs : r.catalog.Sound) : r.Closed c (r.Coherent c) where
  unknown := .unknown
  guessed := .guessed
  missing := .missing
  run _ := .exact_singleton _
  held _ := .ambiguous (cons_ne_nil _ _) .static
  construct hd hk := .construct (hs.id_eq hd ▸ hs.mem_classes hd hk)
  constructAny := .constructAny
  dispatchDefinition := .dispatchDefinition hs
  orHolder _ _ ho := ho.orHolder _ _
  together _ hne := .ambiguous hne .virtual

end Coherent

/-! ## Resolved calls -/

/-- What a resolved call consists of: a coherent outcome whose targets are definitions, and the
warning that it is worth. -/
theorem exists_outcome_of_resolve (hs : r.catalog.Sound) {site : Site} {ws : List Diagnostic}
    (hr : r.resolve c = .ok (site, ws)) :
    ∃ o : Outcome, r.Coherent c o ∧ (∀ t ∈ o.targets, t ∈ r.catalog.definitions.keys) ∧
      site.targets = o.targets ∧ site.confidence = o.confidence ∧ site.dispatch = o.dispatch ∧
      ws = warnings c o := by
  unfold resolve at hr
  -- the outcome, then the definitions of its targets, then their names for the trail
  extract_lets steps at hr
  have hsteps : Ensures steps fun p =>
      r.Coherent c p.2.1 ∧ ∀ t ∈ p.2.1.targets, t ∈ r.catalog.definitions.keys := by
    refine (ensures_outcome hs (Coherent.closed hs)).bind fun p hp => ?_
    refine (r.ensures_targetDefinitions p.2.targets).bind fun ds hds => .after fun _ =>
      .pure ⟨hp, ?_⟩
    intro t ht
    have hget : r.catalog.definitions.get? t ∈ ds.map some := hds ▸ mem_map_of_mem ht
    obtain ⟨d, _, hd⟩ := mem_map.mp hget
    exact OrderedMap.mem_keys_iff.mpr ⟨d, hd.symm⟩
  cases hrun : steps.run [] with
  | error e =>
    rw [hrun] at hr
    cases hr
  | ok result =>
    rw [hrun] at hr
    cases hr
    obtain ⟨hcoherent, htargets⟩ := hsteps _ _ _ hrun
    exact ⟨_, hcoherent, htargets, rfl, rfl, rfl, rfl⟩

/-- Every call that is resolved against the merged digests of some files, whatever the hierarchy and
the policy, is coherent: nothing is known of it if and only if it has no targets; its targets are
definitions; a call of which nothing is known does not depend on the class of an object; there is at
most one warning, and only for such a call; a certain target is one definition, or a class followed
by another; and a certain set of overrides is the one of an abstract definition, found for a member
of the class declared for the receiver. -/
theorem resolve_coherent (r : Resolver) {digests : List Digest}
    (hd : ∀ d ∈ digests, ∃ o version, Digest.ofOutline o version = .ok d)
    (hm : r.catalog = (Catalog.merge digests).1) (c : PendingCall) {site : Site}
    {ws : List Diagnostic} (hr : r.resolve c = .ok (site, ws)) :
    (site.confidence = .unknown ↔ site.targets = []) ∧
      (∀ t ∈ site.targets, t ∈ r.catalog.definitions.keys) ∧
      (site.confidence = .unknown → site.dispatch = .static) ∧
      ws.length ≤ 1 ∧ (ws ≠ [] → site.confidence = .unknown) ∧
      (site.confidence = .exact → site.dispatch = .static →
        (∃ t, site.targets = [t]) ∨
          ∃ k i, site.targets = [k, i] ∧ k ∈ r.catalog.classes.keys) ∧
      (site.confidence = .exact → site.dispatch = .virtual →
        ∃ id member owner b d, r.CallsMember c id member ∧
          r.hierarchy.lookup? r.catalog id member none = some (owner, b) ∧
          definitionOf? r.catalog b = some d ∧ d.isAbstract = true ∧
          site.targets = r.hierarchy.dispatchTargets id member) := by
  have hsound : r.catalog.Sound := by
    rw [hm]
    refine Catalog.sound_merge fun d hmem => ?_
    obtain ⟨o, version, ho⟩ := hd d hmem
    exact Digest.sound_ofOutline ho
  obtain ⟨o, hcoherent, htargets, ht, hconf, hdisp, hws⟩ := exists_outcome_of_resolve hsound hr
  rw [ht, hconf, hdisp]
  refine ⟨hcoherent.unknown_iff, htargets, hcoherent.static_of_unknown, ?_, ?_,
    hcoherent.exact_static, hcoherent.exact_virtual⟩
  · rw [hws, warnings]
    split <;> simp
  · intro hne
    rw [hws, warnings] at hne
    split at hne
    · assumption
    · exact absurd rfl hne

/-! ## An abstract member -/

/-- A class with an abstract method that another method calls, and a class that overrides it. -/
def abstractFiles : List Outline :=
  [file "m.py" "m"
    [classItem "Base" []
      [functionItem "run" "run" true [], functionItem "go" "go" false []],
     classItem "Job" ["Base"] [functionItem "work" "run" false []]]]

/-- The call of the abstract method on the receiver. -/
def abstractCall : PendingCall :=
  ⟨"m.py#call", "m.py::m.Base.go", "m.py#go", "m.py", ⟨5, 8⟩, 0, "run", some "self", some 0, false⟩

/-- The call surely runs the override, for the abstract member that it overrides. -/
theorem resolve_coherent_abstract :
    ∃ site ws, (standard (catalogOf abstractFiles)).resolve abstractCall = .ok (site, ws) ∧
      site.confidence = .exact ∧ site.dispatch = .virtual ∧ site.targets = ["m.py::m.Job.run"] ∧
      ws = [] ∧
      ∃ id member owner b d, (standard (catalogOf abstractFiles)).CallsMember abstractCall
        id member ∧
        (standard (catalogOf abstractFiles)).hierarchy.lookup? (catalogOf abstractFiles) id
          member none = some (owner, b) ∧
        definitionOf? (catalogOf abstractFiles) b = some d ∧ d.isAbstract = true := by
  have hsome : ((standard (catalogOf abstractFiles)).resolve abstractCall).toOption.any
      (fun p => p.1.confidence = .exact && p.1.dispatch = .virtual &&
        p.1.targets = ["m.py::m.Job.run"] && p.2 = []) := by decide +kernel
  cases hr : (standard (catalogOf abstractFiles)).resolve abstractCall with
  | error e =>
    rw [hr] at hsome
    cases hsome
  | ok p =>
    obtain ⟨site, ws⟩ := p
    rw [hr] at hsome
    simp only [Except.toOption, Option.any_some, Bool.and_eq_true, decide_eq_true_eq] at hsome
    obtain ⟨⟨⟨hconf, hdisp⟩, htargets⟩, hws⟩ := hsome
    obtain ⟨_, _, _, _, _, _, hvirtual⟩ :=
      resolve_coherent (standard (catalogOf abstractFiles))
        (fun _ => exists_outline_of_mem_digestsOf) rfl abstractCall hr
    obtain ⟨id, member, owner, b, d, hc, hl, hd, habs, _⟩ := hvirtual hconf hdisp
    exact ⟨site, ws, rfl, hconf, hdisp, htargets, hws, id, member, owner, b, d, hc, hl, hd, habs⟩

end Xref.Resolver

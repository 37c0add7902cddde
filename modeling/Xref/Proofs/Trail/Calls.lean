import Xref.Proofs.Call.Coherence
import Xref.Proofs.Trail.Meaning

/-!
# What a trail tells of a call

The names on which a call depends are those that its resolution consulted, and at last those of its
targets. When they avoid the names on which two resolvers differ, the other resolver resolves the
call alike.
-/

namespace Xref

open List

/-- Provided that `p` holds: when a resolution comes to a result with a property `N`, along a trail
outside a set of names, another one comes to it along the same trail, and it has a property `Q`.
That the trail was outside the set before does not depend on `p`. -/
def Tracks (bad : String → Prop) (p : Prop) (m m' : Resolving α) (N Q : α → Prop) : Prop :=
  ∀ trail a trail', m.run trail = .ok (a, trail') → (∀ q ∈ trail', ¬ bad q) → N a →
    (∀ q ∈ trail, ¬ bad q) ∧ (p → m'.run trail = .ok (a, trail') ∧ Q a)

namespace Tracks

variable {bad : String → Prop} {p p' : Prop} {N P Q : α → Prop} {M R : β → Prop}
  {m m' : Resolving α}

protected theorem pure {a a' : α} (h : p → N a → a' = a ∧ Q a) :
    Tracks bad p (pure a) (pure a') N Q := by
  intro trail b trail' hr hend hn
  cases hr
  refine ⟨hend, fun hp => ?_⟩
  obtain ⟨rfl, hq⟩ := h hp hn
  exact ⟨rfl, hq⟩

theorem same {a : α} : Tracks bad p (pure a) (pure a) N fun _ => True :=
  .pure fun _ _ => ⟨rfl, trivial⟩

protected theorem throw {e : Fault} {m' : Resolving α} : Tracks bad p (throw e) m' N Q := by
  intro trail a trail' hr
  cases hr

/-- A composition; what is asked of the first result follows from what the second part does with
it. -/
theorem bindWith {f f' : α → Resolving β} (hm : Tracks bad p m m' N P)
    (hf : ∀ a, Tracks bad (p ∧ P a) (f a) (f' a) M R)
    (hn : ∀ a trail b trail', (f a).run trail = .ok (b, trail') → (∀ q ∈ trail', ¬ bad q) →
      M b → N a) : Tracks bad p (m >>= f) (m' >>= f') M R := by
  intro trail b trail'' hr hend hb
  obtain ⟨a, trail', ha, hr⟩ := Ensures.run_bind hr
  obtain ⟨hmid, hlater⟩ := hf a trail' b trail'' hr hend hb
  obtain ⟨hstart, hfirst⟩ := hm trail a trail' ha hmid (hn a trail' b trail'' hr hend hb)
  refine ⟨hstart, fun hp => ?_⟩
  obtain ⟨heq, hpa⟩ := hfirst hp
  obtain ⟨heq', hrb⟩ := hlater ⟨hp, hpa⟩
  refine ⟨?_, hrb⟩
  rw [StateT.run_bind, heq]
  exact heq'

/-- A composition that asks nothing of the first result. -/
protected theorem bind {m m' : Resolving α} {f f' : α → Resolving β}
    (hm : Tracks bad p m m' (fun _ => True) P) (hf : ∀ a, Tracks bad (p ∧ P a) (f a) (f' a) M R) :
    Tracks bad p (m >>= f) (m' >>= f') M R :=
  hm.bindWith hf fun _ _ _ _ _ _ _ => trivial

theorem congr {m m' m'' : Resolving α} (h : Tracks bad p m m'' N Q) (he : p → m' = m'') :
    Tracks bad p m m' N Q := by
  intro trail a trail' hr hend hn
  obtain ⟨hstart, hsame⟩ := h trail a trail' hr hend hn
  exact ⟨hstart, fun hp => he hp ▸ hsame hp⟩

theorem mono (h : Tracks bad p m m' N P) (hp : p' → p)
    (hq : p' → ∀ a, P a → Q a) : Tracks bad p' m m' N Q := by
  intro trail a trail' hr hend hn
  obtain ⟨hstart, hsame⟩ := h trail a trail' hr hend hn
  exact ⟨hstart, fun h' => ⟨(hsame (hp h')).1, hq h' _ (hsame (hp h')).2⟩⟩

theorem weaken (h : Tracks bad p m m' N Q) (hp : p' → p) : Tracks bad p' m m' N Q :=
  h.mono hp fun _ _ hq => hq

/-- After a name is recorded it may be taken to lie outside the set. -/
theorem note {q : String} {f f' : Unit → Resolving α} {m' : Resolving α}
    (he : p → ¬ bad q → m' = Resolver.note q >>= f')
    (hf : Tracks bad (p ∧ ¬ bad q) (f ()) (f' ()) N Q) :
    Tracks bad p (Resolver.note q >>= f) m' N Q := by
  intro trail a trail' hr hend hn
  have hr' : (f ()).run (q :: trail) = .ok (a, trail') := hr
  obtain ⟨hmid, hsame⟩ := hf _ a trail' hr' hend hn
  have hfree : ¬ bad q := hmid q mem_cons_self
  refine ⟨fun q' hq' => hmid q' (mem_cons_of_mem _ hq'), fun hp => ?_⟩
  rw [he hp hfree]
  exact hsame ⟨hp, hfree⟩

/-- A trail that is all names is outside a set when its names are. -/
theorem avoids_of_names {mentions : List Mention} {names : List String}
    (h : Mention.names mentions = .ok names) (hfree : ∀ q ∈ names, ¬ bad q) :
    ∀ m ∈ mentions, m.Avoids bad := by
  unfold Mention.names at h
  split at h
  · cases h
  · next hfaults =>
    cases h
    have hnone := filterMap_eq_nil_iff.mp (List.getLast?_eq_none_iff.mp hfaults)
    intro m hm
    cases m with
    | key text => exact hfree text (mem_filterMap.mpr ⟨_, hm, rfl⟩)
    | lost id | tooDeep => cases hnone _ hm

/-- Following a meaning adds its trail, all of it names. -/
theorem traced {t t' : Tracing α} (h : Follows bad p t t' Q) :
    Tracks bad p (Resolver.traced t) (Resolver.traced t') (fun _ => True) Q := by
  intro trail a trail' hr hend _
  have hrun : ∀ u : Tracing α, u.run [] = t.run [] → Resolver.traced u = Resolver.traced t := by
    intro u hu
    rw [Resolver.traced, Resolver.traced, hu]
  obtain ⟨names, hnames, ha, htrail⟩ : ∃ names, Mention.names (t.run []).2 = .ok names ∧
      (t.run []).1 = a ∧ names ++ trail = trail' := by
    unfold Resolver.traced at hr
    split at hr
    next value mentions ht =>
      rw [ht]
      split at hr
      · next names hnames =>
        cases hr
        exact ⟨names, hnames, rfl, rfl⟩
      · cases hr
  subst htrail ha
  have hfree := avoids_of_names hnames fun q hq => hend q (mem_append_left _ hq)
  refine ⟨fun q hq => hend q (mem_append_right _ hq), fun hp => ?_⟩
  obtain ⟨heq, hq⟩ := (h [] hfree).2 hp
  rw [hrun t' heq]
  exact ⟨hr, hq⟩

theorem mapM {f f' : β → Resolving α} {bs : List β} (hf : ∀ b ∈ bs, Tracks bad p (f b) (f' b) N Q) :
    Tracks bad p (bs.mapM f) (bs.mapM f') (fun as => ∀ a ∈ as, N a) fun as => ∀ a ∈ as, Q a := by
  induction bs with
  | nil =>
    rw [mapM_nil, mapM_nil]
    exact .pure fun _ _ => ⟨rfl, fun a ha => by cases ha⟩
  | cons b bs ih =>
    rw [mapM_cons, mapM_cons]
    refine (hf b mem_cons_self).bindWith (fun a => ?_) ?_
    · refine ((ih fun b' hb' => hf b' (mem_cons_of_mem _ hb')).weaken And.left).bindWith
        (fun as => .pure fun hp _ => ⟨rfl, ?_⟩) ?_
      · exact forall_mem_cons.mpr ⟨hp.1.2, hp.2⟩
      · intro as trail all trail' hr _ hn
        cases hr
        exact (forall_mem_cons.mp hn).2
    · intro a trail all trail' hr _ hn
      obtain ⟨as, _, _, hr⟩ := Ensures.run_bind hr
      cases hr
      exact (forall_mem_cons.mp hn).1

end Tracks

namespace Resolver.Agrees

variable {r r' : Resolver} {bad renamed : String → Prop} {known : DefId →
  Prop} {own : ScopeId → Prop}
  {p : Prop}

/-! ## What a resolution reads -/

variable {id : DefId} {member : String}

section

variable (h : Agrees r r' bad renamed known own)
include h

theorem qualnameOf_eq (hk : known id) : r'.catalog.qualnameOf id = r.catalog.qualnameOf id := by
  rw [Catalog.qualnameOf, h.definition_eq hk]
  rfl

theorem tracks_definition (id : DefId) :
    Tracks bad (known id) (r.definition id) (r'.definition id) (fun _ => True)
      fun d => r.catalog.definitions.get? id = some d := by
  unfold definition
  refine Tracks.congr ?_ fun hk => by rw [h.definition_eq hk]
  cases hd : r.catalog.definitions.get? id with
  | none => exact .throw
  | some d => exact .pure fun _ _ => ⟨rfl, rfl⟩

theorem tracks_noteClass (id : DefId) :
    Tracks bad (known id) (r.noteClass id) (r'.noteClass id) (fun _ => True)
      fun _ => ¬ bad (r.catalog.qualnameOf id) := by
  unfold noteClass
  refine Tracks.congr ?_ fun hk => by rw [h.qualnameOf_eq hk]
  intro trail a trail' hr hend _
  cases hr
  exact ⟨fun q hq => hend q (mem_cons_of_mem _ hq), fun _ => ⟨rfl, hend _ mem_cons_self⟩⟩

end

/-- What the members of a class with all of its subtree outside the set are looked up in. -/
structure Below (r : Resolver) (bad : String → Prop) (id : DefId) (below : List DefId) : Prop where
  subtree_eq : r.hierarchy.subtree? id = some below
  free : ∀ c ∈ below, ¬ bad (r.catalog.qualnameOf c)

theorem Below.free_self {below : List DefId} (h : Below r bad id below) :
    ¬ bad (r.catalog.qualnameOf id) := by
  refine h.free id ?_
  have hsub := h.subtree_eq
  unfold Hierarchy.subtree? at hsub
  split at hsub
  · cases hsub
    exact mem_of_head? (Graph.head?_reachable _ _ id)
  · cases hsub

theorem run_forM_note (name : α → String) (as : List α) (trail : List String) :
    (as.forM fun a => note (name a)).run trail = .ok ((), (as.map name).reverse ++ trail) := by
  induction as generalizing trail with
  | nil => rfl
  | cons a as ih =>
    have hstep : ((a :: as).forM fun a => note (name a)).run trail =
        (as.forM fun a => note (name a)).run (name a :: trail) := rfl
    rw [hstep, ih, map_cons, reverse_cons, append_assoc]
    rfl

theorem run_notedSubtree {below : List DefId} (h : r.hierarchy.subtree? id = some below)
    (trail : List String) :
    (r.notedSubtree id).run trail =
      .ok (below, (below.map r.catalog.qualnameOf).reverse ++ trail) := by
  have hsub : r.hierarchy.subtree id = .ok below := by rw [Hierarchy.subtree, h]
  have hnoted : (below.forM r.noteClass).run trail =
      .ok ((), (below.map r.catalog.qualnameOf).reverse ++ trail) :=
    run_forM_note r.catalog.qualnameOf below trail
  unfold notedSubtree
  rw [hsub, StateT.run_bind]
  show (below.forM r.noteClass >>= fun _ => pure below).run trail = _
  rw [StateT.run_bind, hnoted]
  rfl

/-- The whole subtree is recorded, so that it is the same for the other resolver. -/
theorem tracks_notedSubtree (h : Agrees r r' bad renamed known own) (id : DefId) :
    Tracks bad p (r.notedSubtree id) (r'.notedSubtree id) (fun _ => True) (Below r bad id) := by
  intro trail below trail' hr hend _
  have hsub := r.ensures_notedSubtree id trail below trail' hr
  rw [run_notedSubtree hsub] at hr
  cases hr
  have hfree : ∀ c ∈ below, ¬ bad (r.catalog.qualnameOf c) := by
    intro c hc
    refine hend _ (mem_append_left _ ?_)
    rw [mem_reverse]
    exact mem_map_of_mem hc
  refine ⟨fun q hq => hend q (mem_append_right _ hq), fun _ => ⟨?_, hsub, hfree⟩⟩
  have hnames : below.map r'.catalog.qualnameOf = below.map r.catalog.qualnameOf :=
    map_congr_left fun c hc => h.qualnameOf_eq (h.known_of_subtree hsub c hc (hfree c hc))
  rw [run_notedSubtree (h.subtree_eq hsub hfree).1, hnames]

/-! ## Outcomes -/

/-- The targets of an outcome are outside the set. -/
def FreeTargets (r : Resolver) (bad : String → Prop) (o : Outcome) : Prop :=
  ∀ t ∈ o.targets, ¬ bad (r.catalog.qualnameOf t)

section

variable (h : Agrees r r' bad renamed known own)
include h

theorem guess_eq (c : PendingCall) (isMember : Bool)
    (hc : ¬ bad (nameKey c.callee)) : r'.guessed c isMember = r.guessed c isMember := by
  have hfound : r'.candidates c isMember = r.candidates c isMember := by
    unfold candidates
    rw [h.named_eq hc, h.policy_eq]
  unfold guessed
  rw [hfound, h.policy_eq]

/-- Guessing records the name first, so that the other resolver need not guess when it is in the
set. -/
theorem tracks_guess (c : PendingCall) (isMember : Bool) (f : Outcome → α) {N : α → Prop}
    {m' : Resolving α}
    (he : p → ¬ bad (nameKey c.callee) → m' = r'.guess c isMember >>= fun o => pure (f o)) :
    Tracks bad p (r.guess c isMember >>= fun o => pure (f o)) m' N fun _ => True := by
  unfold guess at he ⊢
  rw [bind_assoc] at he ⊢
  refine .note he (.pure fun hp _ => ⟨?_, trivial⟩)
  rw [h.guess_eq c isMember hp.2]

/-- A class with its name outside the set is constructed alike. -/
theorem construct_eq (hk : known id) (hq : ¬ bad (r.catalog.qualnameOf id)) :
    r'.construct id = r.construct id := by
  obtain ⟨heq, hwithin⟩ := h.findMember_eq hk (h.place hk hq) "__init__"
  have hinit : ((r'.view.findMember? id "__init__").bind fun found =>
      found.2.value.definition?.bind r'.catalog.definitions.get?) =
      (r.view.findMember? id "__init__").bind fun found =>
        found.2.value.definition?.bind r.catalog.definitions.get? := by
    rw [heq]
    cases hm : r.view.findMember? id "__init__" with
    | none => rfl
    | some found =>
      cases hd : found.2.value.definition? with
      | none => simp [hd]
      | some target =>
        have hb := hwithin found.1 found.2 hm
        simp only [Option.bind_some, hd]
        exact h.definition_eq (hb.1 target (BindingValue.mem_ids_of_definition? hd))
  unfold construct
  rw [hinit]

theorem tracks_construct (hk : p → known id) :
    Tracks bad p (pure (r.construct id)) (pure (r'.construct id)) (FreeTargets r bad) fun _ =>
      True :=
  .pure fun hp hfree => ⟨h.construct_eq (hk hp) (hfree id (mem_targets_construct id)), trivial⟩

theorem tracks_constructAny (id : DefId) :
    Tracks bad (known id) (r.constructAny id) (r'.constructAny id) (FreeTargets r bad)
      fun _ => True := by
  unfold constructAny
  refine (h.tracks_notedSubtree id).bind fun below => ?_
  split
  · exact h.tracks_construct And.left
  · refine .pure fun hp _ => ⟨?_, trivial⟩
    have htargets : below.flatMap (fun c => (r'.construct c).targets) =
        below.flatMap fun c => (r.construct c).targets := by
      refine flatMap_congr fun c hc => ?_
      rw [h.construct_eq (h.known_of_subtree hp.2.subtree_eq c hc (hp.2.free c hc))
        (hp.2.free c hc)]
    rw [htargets]

theorem tracks_invokeDefinition (d : Definition) (role : Option ReceiverRole) :
    Tracks bad (known d.id) (r.invokeDefinition d role) (r'.invokeDefinition d role)
      (FreeTargets r bad) fun _ => True := by
  unfold invokeDefinition
  split
  · split
    · exact h.tracks_constructAny d.id
    · exact h.tracks_construct id
  · exact .same
  · exact .same
  · split <;> exact .same

theorem missing_eq (hk : known id) (hp : SamePlace r r' renamed known id) (report : Bool)
    (ht : r'.hierarchy.dispatchTargets id member = r.hierarchy.dispatchTargets id member) :
    r'.missing id member report = r.missing id member report := by
  unfold missing
  rw [ht, hp.hasExternalBase_eq, h.qualnameOf_eq hk]

theorem dispatchDefinition_eq {d : Definition} (hk : known d.id)
    (ht : r'.hierarchy.dispatchTargets id member = r.hierarchy.dispatchTargets id member)
    (hfree : FreeTargets r bad (r.dispatchDefinition id member d)) :
    r'.dispatchDefinition id member d = r.dispatchDefinition id member d := by
  unfold dispatchDefinition at hfree ⊢
  rw [ht]
  split
  · next hkind =>
    rw [hkind] at hfree
    exact h.construct_eq hk (hfree d.id (mem_targets_construct d.id))
  · rfl
  · rfl

/-- A member of an object is called alike when what its binding denotes is. -/
theorem tracks_dispatchWith {invoke invoke' : Resolved → Resolving Outcome}
    (hi : ∀ value, Tracks bad (value.meaning.Known known) (invoke value) (invoke' value)
      (FreeTargets r bad) fun _ => True) (id : DefId) (member : String) (report : Bool) :
    Tracks bad (known id) (r.dispatchWith invoke id member report)
      (r'.dispatchWith invoke' id member report) (FreeTargets r bad) fun _ => True := by
  unfold dispatchWith
  refine (h.tracks_notedSubtree id).bind fun below => ?_
  have hplace : known id ∧ Below r bad id below → SamePlace r r' renamed known id :=
    fun hp => h.place hp.1 hp.2.free_self
  have htargets := fun hp : known id ∧ Below r bad id below =>
    (h.subtree_eq hp.2.subtree_eq hp.2.free).2 member
  have hlookup := fun hp => h.lookup_member_eq (hplace hp) member none
  refine Tracks.congr ?_ fun hp => by
    rw [(hplace hp).isCyclic_eq, h.qualnameOf_eq hp.1, (hlookup hp).1]
  split
  · exact .same
  cases hl : r.hierarchy.lookup? r.catalog id member none with
  | none => exact .pure fun hp _ => ⟨h.missing_eq hp.1 (hplace hp) report (htargets hp), trivial⟩
  | some found =>
    obtain ⟨giver, b⟩ := found
    have hb := fun hp => (hlookup hp).2 giver b hl
    dsimp only
    cases hd : b.value.definition? with
    | none =>
      refine (Tracks.traced (((h.followsAt View.hops).binding b).weaken hb)).bind ?_
      exact fun value => (hi value).weaken And.right
    | some target =>
      refine ((h.tracks_definition target).weaken (fun hp =>
        (hb hp).1 target (BindingValue.mem_ids_of_definition? hd))).bind fun d => ?_
      refine .pure fun hp hfree => ⟨h.dispatchDefinition_eq ?_ (htargets hp.1) hfree, trivial⟩
      exact h.known_id hp.2 ((hb hp.1).1 target (BindingValue.mem_ids_of_definition? hd))

end

theorem freeTargets_of_orHolder {type : DefId} {holder : Option DefId} {o : Outcome}
    (h : FreeTargets r bad (r.orHolder type holder o)) : FreeTargets r bad o := by
  unfold orHolder at h
  split at h
  · exact h
  · next hempty =>
    have hnil : o.targets = [] := by simpa using hempty
    intro t ht
    rw [hnil] at ht
    cases ht

/-- What an expression denotes is called alike, also with a greater bound on the call operators. -/
theorem tracks_invoke (h : Agrees r r' bad renamed known own) (c : PendingCall) {bound bound' : Nat}
    (hb : bound ≤ bound') (isHeld : Bool) (value : Resolved) :
    Tracks bad (value.meaning.Known known) (r.invoke c bound isHeld value)
      (r'.invoke c bound' isHeld value) (FreeTargets r bad) fun _ => True := by
  unfold invoke
  cases hv : value.meaning with
  | definition id maker =>
    refine (h.tracks_definition id).bind fun d => ?_
    exact (h.tracks_invokeDefinition d value.role).weaken (fun hp => h.known_id hp.2 hp.1)
  | object type holder =>
    cases bound with
    | zero => exact .throw
    | succ bound =>
      obtain ⟨bound', rfl⟩ : ∃ n, bound' = n + 1 := ⟨bound' - 1, by omega⟩
      -- the call operator is looked up as a member, and what it denotes is called with one step
      -- less
      refine (h.tracks_dispatchWith (h.tracks_invoke c (Nat.le_of_succ_le_succ hb) true) type
        "__call__"
        false).bindWith (fun o => .pure fun hp _ => ⟨?_, trivial⟩) ?_
      · unfold orHolder
        rw [h.qualnameOf_eq hp.1]
      · intro o trail o' trail' hr _ hfree
        cases hr
        exact freeTargets_of_orHolder hfree
  | external q | package q => exact .same
  | unresolved name =>
    dsimp only
    split
    · exact .same
    · split
      · rw [← bind_pure (r.guess c false)]
        exact h.tracks_guess c false id fun _ _ => (bind_pure _).symm
      · exact .same

theorem tracks_call (h : Agrees r r' bad renamed known own) (c : PendingCall) (isHeld : Bool)
    (value : Resolved) :
    Tracks bad (value.meaning.Known known) (r.call c isHeld value) (r'.call c isHeld value)
      (FreeTargets r bad) fun _ => True :=
  h.tracks_invoke c h.bound_le isHeld value

theorem tracks_dispatch (h : Agrees r r' bad renamed known own) (c : PendingCall) (id : DefId)
    (member : String) :
    Tracks bad (known id) (r.dispatch c id member) (r'.dispatch c id member) (FreeTargets r bad)
      fun _ => True :=
  h.tracks_dispatchWith (h.tracks_call c true) id member true

theorem tracks_binding (h : Agrees r r' bad renamed known own) (b : Binding) :
    Tracks bad (b.value.Within known own) (traced (r.view.binding b)) (traced (r'.view.binding b))
      (fun _ => True) fun value => value.meaning.Known known :=
  .traced ((h.followsAt View.hops).binding b)

theorem tracks_callBinding (h : Agrees r r' bad renamed known own) (c : PendingCall) (b : Binding) :
    Tracks bad (b.value.Within known own) (r.callBinding c b) (r'.callBinding c b)
      (FreeTargets r bad) fun _ => True :=
  (h.tracks_binding b).bind fun value =>
    (h.tracks_call c _ value).weaken And.right

/-! ## Forms of calls -/

theorem tracks_kind {kind : ReceiverKind} {m m' : Resolving Outcome} {P : Outcome → Prop}
    (h : Tracks bad p m m' (FreeTargets r bad) P) :
    Tracks bad p (m >>= fun o => pure (kind, o)) (m' >>= fun o => pure (kind, o))
      (fun o => FreeTargets r bad o.2) fun _ => True := by
  refine h.bindWith (fun o => .same) ?_
  intro o trail b trail' hr _ hb
  cases hr
  exact hb

section

variable (h : Agrees r r' bad renamed known own)
include h

/-- Of a member called on a class only the class is recorded. What its members may run can depend on
classes that are not, but then the member is one that the change names. -/
theorem tracks_callOnClass (c : PendingCall) (id : DefId) (hc : ¬ renamed c.callee) :
    Tracks bad (known id) (r.callOnClass c id) (r'.callOnClass c id) (FreeTargets r bad)
      fun _ => True := by
  unfold callOnClass
  refine (h.tracks_noteClass id).bind fun _ => ?_
  have hplace := fun hp : known id ∧ ¬ bad (r.catalog.qualnameOf id) => h.place hp.1 hp.2
  have hlookup := fun hp => h.lookup_member_eq (hplace hp) c.callee none
  refine Tracks.congr ?_ fun hp => by
    rw [(hplace hp).isCyclic_eq, h.qualnameOf_eq hp.1, (hlookup hp).1]
  split
  · exact .same
  cases hl : r.hierarchy.lookup? r.catalog id c.callee none with
  | none =>
    refine .pure fun hp _ => ⟨h.missing_eq hp.1 (hplace hp) true ?_, trivial⟩
    exact (hplace hp).targets_eq hc
  | some found =>
    obtain ⟨giver, b⟩ := found
    exact (h.tracks_callBinding c b).weaken (fun hp => (hlookup hp).2 giver b hl)

/-- The bindings after a class are the same in the orders of classes with the same place. -/
theorem bindingsAfter_eq {ids : List DefId}
    (hids : ∀ id ∈ ids, SamePlace r r' renamed known id) (owner : DefId) (member : String) :
    r'.bindingsAfter owner member ids = r.bindingsAfter owner member ids := by
  unfold bindingsAfter
  refine foldl_ext _ _ _ fun found id hid => ?_
  rw [(h.lookup_member_eq (hids id hid) member (some owner)).1]

theorem within_of_bindingsAfter {ids : List DefId}
    (hids : ∀ id ∈ ids, SamePlace r r' renamed known id) {owner giver : DefId} {b : Binding}
    (hb : (giver, b) ∈ r.bindingsAfter owner member ids) : b.value.Within known own := by
  obtain ⟨id, hid, hl⟩ := mem_bindingsAfter hb
  exact (h.lookup_member_eq (hids id hid) member (some owner)).2 giver b hl

end

theorem freeTargets_of_flatMap {outcomes : List Outcome}
    (h : ∀ t ∈ (outcomes.flatMap (·.targets)).eraseDups, ¬ bad (r.catalog.qualnameOf t)) :
    ∀ o ∈ outcomes, FreeTargets r bad o :=
  fun o ho t ht => h t (mem_eraseDups.mpr (mem_flatMap.mpr ⟨o, ho, ht⟩))

section

variable (h : Agrees r r' bad renamed known own)
include h

section

variable (c : PendingCall)

theorem tracks_callOnParent (owner : DefId) :
    Tracks bad (known owner) (r.callOnParent c owner) (r'.callOnParent c owner) (FreeTargets r bad)
      fun _ => True := by
  unfold callOnParent
  refine (h.tracks_noteClass owner).bind fun _ => ?_
  refine Tracks.congr ?_ fun hp => by
    rw [(h.place hp.1 hp.2).isCyclic_eq, h.qualnameOf_eq hp.1,
      (h.place hp.1 hp.2).hasExternalBase_eq]
  split
  · exact .same
  refine (h.tracks_notedSubtree owner).bind fun below => ?_
  have hplaces : Below r bad owner below → ∀ id ∈ below, SamePlace r r' renamed known id :=
    fun hp id hid =>
      h.place (h.known_of_subtree hp.subtree_eq id hid (hp.free id hid)) (hp.free id hid)
  refine Tracks.congr ?_ fun hp => by rw [h.bindingsAfter_eq (hplaces hp.2)]
  have hwithin : ∀ found ∈ r.bindingsAfter owner c.callee below, Below r bad owner below →
      found.2.value.Within known own := fun found hf hp => h.within_of_bindingsAfter (hplaces hp) hf
  split
  · split <;> exact .same
  · next giver b heq =>
    refine (h.tracks_callBinding c b).weaken (fun hp => hwithin (giver, b) ?_ hp.2)
    rw [heq]
    exact mem_cons_self
  -- the targets are merged, so that those of each binding are outside the set when the merged ones
  -- are
  · refine (Tracks.mapM fun found hf => (h.tracks_callBinding c found.2).weaken
      (fun hp => hwithin found hf hp.2)).bindWith (fun outcomes => ?_) ?_
    · split <;> exact .same
    · intro outcomes trail o trail' hr _ hfree
      refine freeTargets_of_flatMap ?_
      split at hr
      · next hnil =>
        rw [hnil]
        exact fun t ht => by cases ht
      · cases hr
        exact hfree

theorem tracks_callName : Tracks bad (known c.caller ∧ own c.scope) (r.callName c) (r'.callName c)
      (fun o => FreeTargets r bad o.2) fun _ => True := by
  unfold callName
  cases hl : r.catalog.lookup? c.scope c.callee with
  | none =>
    refine h.tracks_guess c false _ fun hp hfree => ?_
    rcases h.lookup_eq c.callee hp.2 with heq | ⟨_, hbad⟩
    · rw [heq, hl]
    · exact absurd hbad hfree
  | some found =>
    obtain ⟨b, scope⟩ := found
    have hl' : own c.scope → r'.catalog.lookup? c.scope c.callee = some (b, scope) := by
      intro hs
      rcases h.lookup_eq c.callee hs with heq | ⟨hnone, _⟩
      · exact heq.trans hl
      · cases hl.symm.trans hnone
    have hwithin := fun hs => h.within_of_lookup hs hl
    refine Tracks.congr ?_ fun hp => by rw [hl' hp.2, h.definition_eq hp.1]
    dsimp only
    split
    · next owner howner =>
      refine tracks_kind ((h.tracks_dispatch c owner c.callee).weaken (fun hp => ?_))
      split at howner
      · exact (hwithin hp.2).2 owner howner
      · cases howner
    · refine ((h.tracks_binding b).weaken (fun hp => (hwithin hp.2).1)).bind fun value => ?_
      exact tracks_kind ((h.tracks_call c _ value).weaken And.right)

theorem tracks_callMember (receiver : String) (hc : ¬ renamed c.callee) :
    Tracks bad (own c.scope) (r.callMember c receiver) (r'.callMember c receiver)
      (fun o => FreeTargets r bad o.2) fun _ => True := by
  unfold callMember
  refine (Tracks.traced ((h.followsAt View.hops).name c.scope receiver)).bind fun value => ?_
  have hmember : Tracks bad (value.meaning.Known known) (traced (r.view.member value c.callee))
      (traced (r'.view.member value c.callee)) (fun _ => True) fun value =>
        value.meaning.Known known :=
    .traced ((h.followsAt View.hops).member value c.callee)
  cases hv : value.meaning with
  | definition id maker =>
    rw [hv] at hmember
    refine ((h.tracks_definition id).weaken And.right).bind fun d => ?_
    have hk : (own c.scope ∧ known id) ∧ r.catalog.definitions.get? id = some d → known d.id :=
      fun hp => h.known_id hp.2 hp.1.2
    split
    · refine (hmember.weaken (fun hp => hp.1.2)).bind fun value' => ?_
      exact tracks_kind ((h.tracks_call c false value').weaken And.right)
    · split
      · exact tracks_kind ((h.tracks_dispatch c d.id c.callee).weaken hk)
      · exact tracks_kind ((h.tracks_callOnClass c d.id hc).weaken hk)
    · split <;> exact .same
    · exact h.tracks_guess c true _ fun _ _ => rfl
  | package q =>
    rw [hv] at hmember
    refine (hmember.weaken (fun _ => trivial)).bind fun value' => ?_
    exact tracks_kind ((h.tracks_call c false value').weaken And.right)
  | object type holder =>
    exact tracks_kind ((h.tracks_dispatch c type c.callee).weaken And.right)
  | external q => exact .same
  | unresolved q => exact h.tracks_guess c true _ fun _ _ => rfl

/-- Whatever the form of a call, it comes to the same for the other resolver. -/
theorem tracks_outcome (hc : ¬ renamed c.callee) :
    Tracks bad (known c.caller ∧ own c.scope) (r.outcome c) (r'.outcome c)
      (fun o => FreeTargets r bad o.2) fun _ => True := by
  unfold outcome
  dsimp only
  split
  · split
    · exact h.tracks_callName c
    · exact .same
  · next receiver _ =>
    split
    · exact .same
    split
    · refine Tracks.congr ?_ fun hp => by rw [h.definition_eq hp.1]
      split
      · next owner howner =>
        obtain ⟨d, hd, hd'⟩ := Option.bind_eq_some_iff.mp howner
        exact tracks_kind ((h.tracks_callOnParent c owner).weaken
          (fun hp => h.known_of_owner hp.1 hd hd'))
      · exact .same
    split
    · exact (h.tracks_callMember c receiver hc).weaken And.right
    · exact h.tracks_guess c true _ fun _ _ => rfl

end

/-! ## Sites -/

/-- The targets of a call are recorded, so that they are the same definitions for the other
resolver. -/
theorem tracks_targetDefinitions (targets : List DefId) :
    Tracks bad p (r.targetDefinitions targets) (r'.targetDefinitions targets)
      (fun ds => ∀ d ∈ ds, ¬ bad d.qualname) fun _ => True := by
  refine (Tracks.mapM (Q := fun _ => True) fun target _ => ?_).mono id fun _ _ _ => trivial
  intro trail d trail' hr hend hfree
  have hd := r.ensures_definition target trail d trail' hr
  rw [definition, hd] at hr
  cases hr
  refine ⟨hend, fun _ => ⟨?_, trivial⟩⟩
  rw [definition, h.definition_eq (h.known_of_definition hd hfree), hd]
  rfl

end

theorem tracks_noteAll (name : α → String) (as : List α) :
    Tracks bad p (as.forM fun a => note (name a)) (as.forM fun a => note (name a)) (fun _ => True)
      fun _ => True := by
  intro trail u trail' hr hend _
  refine ⟨fun q hq => hend q ?_, fun _ => ⟨hr, trivial⟩⟩
  rw [run_forM_note] at hr
  cases hr
  exact mem_append_right _ hq

/-- An outcome with the definitions of its targets, which are recorded. -/
def withTargets (r : Resolver) (o : ReceiverKind × Outcome) :
    Resolving (ReceiverKind × Outcome × List Definition) := do
  let definitions ← r.targetDefinitions o.2.targets
  definitions.forM fun d => note d.qualname
  return (o.1, o.2, definitions)

/-- When the targets are recorded outside the set, so they are. -/
theorem freeTargets_of_withTargets {o : ReceiverKind × Outcome} {trail trail' : List String}
    {result : ReceiverKind × Outcome × List Definition}
    (hr : (withTargets r o).run trail = .ok (result, trail')) (hend : ∀ q ∈ trail', ¬ bad q) :
    FreeTargets r bad o.2 := by
  obtain ⟨ds, trail₁, hds, hr⟩ := Ensures.run_bind hr
  have hget := r.ensures_targetDefinitions _ _ _ _ hds
  obtain ⟨_, trail₂, hnote, hr⟩ := Ensures.run_bind hr
  rw [run_forM_note Definition.qualname] at hnote
  cases hnote
  cases hr
  intro t ht
  obtain ⟨d, hd, hsome⟩ : ∃ d ∈ ds, some d = r.catalog.definitions.get? t := by
    have hmem := mem_map_of_mem (f := r.catalog.definitions.get?) ht
    rw [hget] at hmem
    exact mem_map.mp hmem
  rw [Catalog.qualnameOf, ← hsome]
  refine hend _ (mem_append_left _ ?_)
  rw [mem_reverse]
  exact mem_map_of_mem hd

variable (h : Agrees r r' bad renamed known own)
include h

theorem tracks_withTargets (o : ReceiverKind × Outcome) :
    Tracks bad p (withTargets r o) (withTargets r' o) (fun _ => True) fun _ => True := by
  refine (h.tracks_targetDefinitions o.2.targets).bindWith (fun ds =>
    (tracks_noteAll Definition.qualname ds).bind fun _ => .same) ?_
  intro ds trail result trail' hr hend _ d hd
  obtain ⟨_, trail₁, hnote, hr⟩ := Ensures.run_bind hr
  rw [run_forM_note Definition.qualname] at hnote
  cases hnote
  cases hr
  refine hend _ (mem_append_left _ ?_)
  rw [mem_reverse]
  exact mem_map_of_mem hd

/-- A call with dependencies outside the set is resolved alike by the other resolver, unless the
change names what it calls. -/
theorem resolve_eq {c : PendingCall} (hcaller : known c.caller) (hscope : own c.scope)
    (hc : ¬ renamed c.callee) {s : Site} {ws : List Diagnostic} (hs : r.resolve c = .ok (s, ws))
    (hfree : ∀ q ∈ s.dependencies, ¬ bad q) : r'.resolve c = .ok (s, ws) := by
  -- the targets are recorded last: that they are outside the set carries over to the outcome
  have hsteps := (h.tracks_outcome c hc).bindWith (fun o => h.tracks_withTargets o)
    fun o trail result trail' hr hend _ => freeTargets_of_withTargets hr hend
  unfold resolve at hs ⊢
  extract_lets steps at hs
  extract_lets steps'
  cases hrun : steps.run [] with
  | error e =>
    rw [hrun] at hs
    cases hs
  | ok found =>
    obtain ⟨result, trail⟩ := found
    rw [hrun] at hs
    cases hs
    have hend : ∀ q ∈ trail, ¬ bad q := fun q hq => hfree q (mem_sortedSet.mpr hq)
    have hrun' : steps'.run [] = .ok (result, trail) :=
      ((hsteps [] result trail hrun hend trivial).2 ⟨hcaller, hscope⟩).1
    rw [hrun']
    rfl

end Resolver.Agrees

end Xref

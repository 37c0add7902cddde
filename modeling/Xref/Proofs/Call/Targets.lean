import Xref.Proofs.Call.Forms

/-!
# Targets are definitions

In an index of files a binding may refer to a definition that is lost, but no call has it for a
target: a definition is looked at before it becomes one, the classes of a hierarchy have
definitions, and so have the names that hold objects.
-/

namespace Xref

open List Text Hierarchy Option

/-! ## Holders of objects -/

/-- Whatever is on the trail before, a computation gives a value with a property. -/
def Always (t : Tracing α) (P : α → Prop) : Prop :=
  ∀ trail, P (t.run trail).1

namespace Always

variable {P : α → Prop} {Q : β → Prop}

protected theorem pure {a : α} (h : P a) : Always (pure a) P :=
  fun _ => h

protected theorem bind {t : Tracing α} {f : α → Tracing β} (ht : Always t P)
    (hf : ∀ a, P a → Always (f a) Q) : Always (t >>= f) Q :=
  fun trail => hf _ (ht trail) _

theorem after {t : Tracing α} {f : α → Tracing β} (hf : ∀ a, Always (f a) Q) : Always (t >>= f) Q :=
  fun _ => hf _ _

theorem mono {t : Tracing α} {P' : α → Prop} (h : Always t P) (hp : ∀ a, P a → P' a) :
    Always t P' :=
  fun trail => hp _ (h trail)

theorem foldlM {f : β → α → Tracing β} (hf : ∀ b a, Always (f b a) Q) {as : List α} {b : β}
    (hb : Q b) : Always (as.foldlM f b) Q := by
  induction as generalizing b with
  | nil => exact .pure hb
  | cons a as ih => exact (hf b a).bind fun b' hb' => ih hb'

end Always

/-- The name that holds an object is one of some. -/
def Meaning.Held (known : DefId → Prop) : Meaning → Prop
  | .object _ (some holder) => known holder
  | _ => True

namespace View

variable {v : View} {known : DefId → Prop} {hops : Nat}

/-- What is resolved in so many hops is held by definitions, and what a binding denotes is marked
with it. -/
structure HeldAt (v : View) (known : DefId → Prop) (hops : Nat) : Prop where
  name : ∀ scope dotted, Always (v.nameAt hops scope dotted) fun r => r.meaning.Held known
  binding : ∀ b, Always (v.bindingAt hops b) fun r => r.binding = some b ∧ r.meaning.Held known
  qualname : ∀ q, Always (v.qualnameAt hops q) fun r => r.meaning.Held known
  member : ∀ owner name, Always (v.memberAt hops owner name) fun r => r.meaning.Held known

theorem heldAt_zero (v : View) (known : DefId → Prop) : v.HeldAt known 0 where
  name _ _ := .pure trivial
  binding _ := .pure ⟨rfl, trivial⟩
  qualname _ := .after fun _ => .pure trivial
  member _ _ := .pure trivial

theorem held_hinted (b : Binding) (type : Tracing (Option DefId))
    (external : Tracing (Option String)) :
    Always (hinted b type external) fun r => r.binding = some b ∧ r.meaning.Held known := by
  refine .after fun found => ?_
  split
  · exact .pure ⟨rfl, trivial⟩
  · refine .after fun outside => ?_
    split <;> exact .pure ⟨rfl, trivial⟩

section

variable (ih : v.HeldAt known hops)
include ih

theorem held_name_succ (scope : ScopeId) (dotted : String) :
    Always (v.nameAt (hops + 1) scope dotted) fun r => r.meaning.Held known := by
  rw [nameAt]
  split
  · exact .after fun _ => .foldlM ih.member trivial
  · next b owner _ =>
    refine (ih.binding b).bind fun r hr => .foldlM ih.member ?_
    split <;> exact hr.2

theorem held_binding_succ (hk : ∀ {id d}, v.catalog.definitions.get? id = some d → known d.id)
    (b : Binding) :
    Always (v.bindingAt (hops + 1) b) fun r => r.binding = some b ∧ r.meaning.Held known := by
  rw [bindingAt]
  split
  · exact .pure ⟨rfl, trivial⟩
  cases b.value with
  | declared id | literal id =>
    dsimp only
    split
    · exact .pure ⟨rfl, trivial⟩
    · exact .after fun _ => .pure ⟨rfl, trivial⟩
  | built id maker seenFrom =>
    dsimp only
    split
    · exact .pure ⟨rfl, trivial⟩
    · next d hd =>
      refine .after fun _ => ?_
      split
      · refine .after fun type => ?_
        split
        · -- the holder was looked up just before
          exact .pure ⟨rfl, hk hd⟩
        · exact .after fun _ => .pure ⟨rfl, trivial⟩
      · exact .pure ⟨rfl, trivial⟩
  | imported q => exact (ih.qualname q).bind fun r hr => .pure ⟨rfl, hr⟩
  | receiver role owner =>
    dsimp only
    cases v.catalog.definitions.get? owner with
    | none => cases role <;> exact Always.pure ⟨rfl, trivial⟩
    | some d => cases role <;> exact Always.after fun _ => Always.pure ⟨rfl, trivial⟩
  | assigned hint source seenFrom =>
    dsimp only
    split
    · exact held_hinted b _ _
    · exact (ih.name _ _).bind fun r hr => .pure ⟨rfl, hr⟩
    · exact .pure ⟨rfl, trivial⟩
  | parameter hint seenFrom =>
    dsimp only
    split
    · exact held_hinted b _ _
    · exact .pure ⟨rfl, trivial⟩
  | loop => exact .pure ⟨rfl, trivial⟩

theorem held_qualname_succ (q : String) :
    Always (v.qualnameAt (hops + 1) q) fun r => r.meaning.Held known := by
  rw [qualnameAt]
  refine .after fun _ => ?_
  split
  · exact .pure trivial
  split
  · exact .pure trivial
  split
  · exact .pure trivial
  dsimp only
  split
  · exact .pure trivial
  split
  · split
    · exact (ih.binding _).mono fun _ hr => hr.2
    · exact .pure trivial
  · exact .after fun owner => ih.member owner _

theorem held_member_object (id : DefId) (name : String) :
    Always (v.memberAt (hops + 1) (.plain (.object id none)) name) fun r =>
      r.meaning.Held known := by
  rw [memberAt]
  refine .after fun _ => ?_
  split
  · exact (ih.binding _).mono fun _ hr => hr.2
  · exact .pure trivial

theorem held_member_succ (owner : Resolved) (name : String) :
    Always (v.memberAt (hops + 1) owner name) fun r => r.meaning.Held known := by
  have hclass := fun id => held_member_object ih id name
  simp only [memberAt, Resolved.plain] at hclass
  rw [memberAt]
  split
  · exact .pure trivial
  · dsimp only
    split
    · exact .after fun _ => .pure trivial
    · exact ih.qualname _
  · exact hclass _
  · split
    · exact .pure trivial
    · split
      · exact ih.qualname _
      · exact hclass _
      · exact .pure trivial
      · exact .pure trivial
  · exact .pure trivial

end

theorem heldAt (hk : ∀ {id d}, v.catalog.definitions.get? id = some d → known d.id) (hops : Nat) :
    v.HeldAt known hops := by
  induction hops with
  | zero => exact v.heldAt_zero known
  | succ hops ih =>
    exact ⟨held_name_succ ih, held_binding_succ ih hk, held_qualname_succ ih, held_member_succ ih⟩

end View

namespace Resolver

/-! ## Outcomes -/

/-- What the calls of an index of files are resolved against. -/
structure OfFiles (r : Resolver) : Prop where
  sound : r.catalog.Sound
  built : ∃ reports, build r.catalog = .ok (r.hierarchy, reports)

/-- The targets of an outcome are definitions. -/
def Defined (r : Resolver) (o : Outcome) : Prop :=
  ∀ t ∈ o.targets, t ∈ r.catalog.definitions.keys

variable {r : Resolver} {c : PendingCall}

theorem held_of_callsValue (hs : r.catalog.Sound) {value : Resolved} (hv : r.CallsValue c value) :
    value.meaning.Held (· ∈ r.catalog.definitions.keys) := by
  have hheld : r.view.HeldAt (· ∈ r.catalog.definitions.keys) View.hops :=
    View.heldAt hs.mem_keys View.hops
  cases hv with
  | moduleMember => exact hheld.member _ _ []
  | _ => exact (hheld.binding _ []).2

namespace Defined

theorem unknown (reason : Option Reason) : r.Defined (.unknown reason) := by
  intro t ht
  cases ht

theorem singleton {id : DefId} (hid : id ∈ r.catalog.definitions.keys) {confidence : Confidence}
    {dispatch : Dispatch} : r.Defined ⟨[id], confidence, dispatch, none⟩ := by
  intro t ht
  rw [mem_singleton.mp ht]
  exact hid

theorem construct (hs : r.catalog.Sound) {id : DefId} (hid : id ∈ r.catalog.definitions.keys) :
    r.Defined (r.construct id) := by
  unfold Resolver.construct
  dsimp only
  split
  · next d hd =>
    obtain ⟨_, _, hd⟩ := bind_eq_some_iff.mp hd
    obtain ⟨_, _, hd⟩ := bind_eq_some_iff.mp hd
    split
    · exact .singleton hid
    · intro t ht
      rcases mem_cons.mp ht with rfl | ht
      · exact hid
      · rw [mem_singleton.mp ht]
        exact hs.mem_keys hd
  · exact .singleton hid

/-- What a hierarchy lists as overrides are definitions. -/
theorem dispatchTargets (h : r.OfFiles) (id : DefId) (member : String) {confidence : Confidence}
    {dispatch : Dispatch} :
    r.Defined ⟨r.hierarchy.dispatchTargets id member, confidence, dispatch, none⟩ := by
  intro t ht
  obtain ⟨reports, hb⟩ := h.built
  obtain ⟨k, hk⟩ := exists_concrete?_of_mem_dispatchTargets hb ht
  obtain ⟨⟨owner, b⟩, _, hk⟩ := bind_eq_some_iff.mp hk
  obtain ⟨d, hd, hk⟩ := bind_eq_some_iff.mp hk
  obtain ⟨target, _, hd⟩ := bind_eq_some_iff.mp hd
  split at hk
  · cases hk
  · cases hk
    exact h.sound.mem_keys hd

theorem constructAny (h : r.OfFiles) {id : DefId} {related : List DefId}
    (hrelated : r.hierarchy.subtree? id = some related) :
    r.Defined (.ambiguous (related.flatMap fun k => (r.construct k).targets).eraseDups
      .virtual) := by
  intro t ht
  obtain ⟨reports, hb⟩ := h.built
  obtain ⟨k, hk, ht⟩ := mem_flatMap.mp (mem_eraseDups.mp ht)
  -- every class of the subtree has a record, and so a definition
  have hkey := (keyed_of_build hb).mem_keys_of_subtree? hrelated hk
  exact construct h.sound (h.sound.mem_definitions ((mem_keys_of_build hb).mp hkey)) t ht

theorem missing (h : r.OfFiles) (id : DefId) (member : String) (report : Bool) :
    r.Defined (r.missing id member report) := by
  unfold Resolver.missing
  dsimp only
  split
  · exact dispatchTargets h id member
  · split <;> exact .unknown _

theorem dispatchDefinition (h : r.OfFiles) (id : DefId) (member : String) {target : DefId}
    {d : Definition} (hd : r.catalog.definitions.get? target = some d) :
    r.Defined (r.dispatchDefinition id member d) := by
  have hid := h.sound.mem_keys hd
  unfold Resolver.dispatchDefinition
  split
  · exact .construct h.sound hid
  · exact .singleton hid
  · dsimp only
    split
    · split
      · exact .unknown _
      · exact .singleton hid
    · exact dispatchTargets h id member

theorem guessed (hs : r.catalog.Sound) (c : PendingCall) (isMember : Bool) :
    r.Defined (r.guessed c isMember) := by
  unfold Resolver.guessed
  split
  · exact .unknown _
  dsimp only
  split
  · exact .unknown _
  split
  · exact .unknown _
  intro t ht
  obtain ⟨d, hd, rfl⟩ := mem_map.mp ht
  -- candidates are among the definitions with the name
  have hnamed : d ∈ r.catalog.named c.callee := by
    have hfound := mem_sortOn.mp hd
    unfold candidates at hfound
    extract_lets kind fitting sameFile at hfound
    split at hfound
    · exact (mem_filter.mp (mem_filter.mp hfound).1).1
    · exact (mem_filter.mp hfound).1
  obtain ⟨id, _, hid⟩ := mem_filterMap.mp hnamed
  exact hs.mem_keys hid

theorem orHolder {type : DefId} {holder : Option DefId} {o : Outcome} (h : r.Defined o)
    (hh : (Meaning.object type holder).Held (· ∈ r.catalog.definitions.keys)) :
    r.Defined (r.orHolder type holder o) := by
  unfold Resolver.orHolder
  split
  · exact h
  · split
    · exact .singleton hh
    · exact .unknown _

/-- Calling a value or a member gives definitions. -/
theorem closed (h : r.OfFiles) : r.Closed c r.Defined where
  unknown := .unknown
  guessed := .guessed h.sound c
  missing := .missing h
  run hd := .singleton (h.sound.mem_keys hd)
  held hd := .singleton (h.sound.mem_keys hd)
  construct hd _ := .construct h.sound (h.sound.mem_keys hd)
  constructAny := .constructAny h
  dispatchDefinition _ _ _ hd := .dispatchDefinition h _ _ hd
  orHolder hv hm ho := ho.orHolder (hm ▸ held_of_callsValue h.sound hv)
  together houtcomes _ t ht := by
    obtain ⟨o, ho, ht⟩ := mem_flatMap.mp (mem_eraseDups.mp ht)
    exact houtcomes o ho t ht

end Defined

/-! ## Calls -/

/-- A call of an index of files is resolved exactly if it does not fail before its targets are
known. -/
theorem resolve_eq_error_iff_callFails (h : r.OfFiles) (c : PendingCall) (e : Fault) :
    r.resolve c = .error e ↔ r.CallFails c e := by
  rw [resolve_eq_error_iff]
  refine or_iff_left ?_
  rintro ⟨_, p, trail, hrun, t, ht, hlost⟩
  exact OrderedMap.get?_eq_none_iff.mp hlost
    (ensures_outcome h.sound (Defined.closed h) _ _ _ hrun t ht)

end Resolver

end Xref

import Xref.Call.Site

/-!
# Running a resolution

A resolution threads a trail and may stop with a fault. What it gives is described by conditions on
every result that it comes to; the rules below follow the ways in which resolutions are composed,
and there is one for each way in which a resolution consults the catalog or the hierarchy.
-/

namespace Xref

open List

/-- Every result that a resolution comes to, from whatever trail, has a property. -/
def Ensures (m : Resolving α) (P : α → Prop) : Prop :=
  ∀ s a s', m.run s = .ok (a, s') → P a

namespace Ensures

variable {P : α → Prop} {Q : β → Prop} {m : Resolving α}

/-- A composed resolution gives a result only if both of its parts do. -/
theorem run_bind {f : α → Resolving β} {s s'' : List String} {b : β}
    (h : (m >>= f).run s = .ok (b, s'')) :
    ∃ a s', m.run s = .ok (a, s') ∧ (f a).run s' = .ok (b, s'') := by
  rw [StateT.run_bind] at h
  cases hm : m.run s with
  | error e =>
    rw [hm] at h
    cases h
  | ok r =>
    rw [hm] at h
    exact ⟨r.1, r.2, rfl, h⟩

protected theorem pure {a : α} (h : P a) : Ensures (Pure.pure a) P := by
  intro s a' s' hr
  cases hr
  exact h

protected theorem throw (e : Fault) : Ensures (throw e : Resolving α) P := by
  intro s a s' hr
  cases hr

theorem anything (m : Resolving α) : Ensures m fun _ => True :=
  fun _ _ _ _ => trivial

protected theorem bind {m : Resolving α} {f : α → Resolving β} (hm : Ensures m P)
    (hf : ∀ a, P a → Ensures (f a) Q) : Ensures (m >>= f) Q := by
  intro s b s'' hr
  obtain ⟨a, s', ha, hb⟩ := run_bind hr
  exact hf a (hm s a s' ha) s' b s'' hb

/-- A first part whose result does not matter. -/
theorem after {f : α → Resolving β} (hf : ∀ a, Ensures (f a) Q) : Ensures (m >>= f) Q :=
  (anything m).bind fun a _ => hf a

theorem mono {P' : α → Prop} (h : Ensures m P) (hp : ∀ a, P a → P' a) : Ensures m P' :=
  fun s a s' hr => hp a (h s a s' hr)

protected theorem mapM {f : α → Resolving β} {as : List α} (hf : ∀ a ∈ as, Ensures (f a) Q) :
    Ensures (as.mapM f) fun bs => ∀ b ∈ bs, Q b := by
  induction as with
  | nil =>
    rw [mapM_nil]
    exact .pure (forall_mem_nil _)
  | cons a as ih =>
    obtain ⟨ha, has⟩ := forall_mem_cons.mp hf
    rw [mapM_cons]
    exact ha.bind fun b hb => (ih has).bind fun bs hbs => .pure (forall_mem_cons.mpr ⟨hb, hbs⟩)

end Ensures

/-- What a resolution comes to does not depend on the trail before it. -/
def Steady (m : Resolving α) : Prop :=
  ∀ s a s₁, m.run s = .ok (a, s₁) → ∀ t, ∃ t₁, m.run t = .ok (a, t₁)

namespace Steady

protected theorem pure (a : α) : Steady (Pure.pure a) := by
  intro s a' s₁ hr t
  cases hr
  exact ⟨t, rfl⟩

protected theorem throw (e : Fault) : Steady (throw e : Resolving α) := by
  intro s a s₁ hr
  cases hr

protected theorem modify (f : List String → List String) : Steady (modify f : Resolving Unit) := by
  intro s a s₁ hr t
  cases hr
  exact ⟨f t, rfl⟩

protected theorem lift (x : Except Fault α) : Steady (liftM x : Resolving α) := by
  intro s a s₁ hr t
  cases x with
  | error e => cases hr
  | ok v =>
    cases hr
    exact ⟨t, rfl⟩

protected theorem bind {m : Resolving α} {f : α → Resolving β} (hm : Steady m)
    (hf : ∀ a, Steady (f a)) : Steady (m >>= f) := by
  intro s b s₂ hr t
  obtain ⟨a, s₁, ha, hb⟩ := Ensures.run_bind hr
  obtain ⟨t₁, hta⟩ := hm s a s₁ ha t
  obtain ⟨t₂, htb⟩ := hf a s₁ b s₂ hb t₁
  refine ⟨t₂, ?_⟩
  rw [StateT.run_bind, hta]
  exact htb

protected theorem forM (xs : List α) {f : α → Resolving PUnit} (hf : ∀ a, Steady (f a)) :
    Steady (xs.forM f) := by
  induction xs with
  | nil => exact .pure _
  | cons x xs ih => exact (hf x).bind fun _ => ih

/-- Two runs that come to something come to the same. -/
theorem unique {m : Resolving α} (hm : Steady m) {s s₁ t t₁ : List String} {a b : α}
    (ha : m.run s = .ok (a, s₁)) (hb : m.run t = .ok (b, t₁)) : a = b := by
  obtain ⟨t₂, ht⟩ := hm s a s₁ ha t
  rw [hb] at ht
  cases ht
  rfl

end Steady

namespace Resolver

/-- The meaning that following names leads to, without the trail. -/
def denoted (t : Tracing α) : α :=
  (t.run []).1

theorem ensures_traced (t : Tracing α) : Ensures (traced t) fun a => a = denoted t := by
  intro s a s' hr
  unfold traced at hr
  unfold denoted
  split at hr
  next value trail ht =>
    rw [ht]
    split at hr
    · cases hr
      rfl
    · cases hr

theorem ensures_definition (r : Resolver) (id : DefId) :
    Ensures (r.definition id) fun d => r.catalog.definitions.get? id = some d := by
  intro s d s' hr
  unfold definition at hr
  split at hr
  · next d' hd =>
    cases hr
    exact hd
  · cases hr

theorem ensures_notedSubtree (r : Resolver) (id : DefId) :
    Ensures (r.notedSubtree id) fun related => r.hierarchy.subtree? id = some related := by
  intro s related s' hr
  obtain ⟨related', s₁, h₁, hr⟩ := Ensures.run_bind hr
  obtain ⟨_, s₂, _, hr⟩ := Ensures.run_bind hr
  cases hr
  unfold Hierarchy.subtree at h₁
  cases hsub : r.hierarchy.subtree? id with
  | none =>
    rw [hsub] at h₁
    cases h₁
  | some ids =>
    rw [hsub] at h₁
    cases h₁
    rfl

theorem ensures_targetDefinitions (r : Resolver) (targets : List DefId) :
    Ensures (r.targetDefinitions targets) fun ds =>
      targets.map r.catalog.definitions.get? = ds.map some := by
  unfold targetDefinitions
  induction targets with
  | nil =>
    rw [mapM_nil]
    exact .pure rfl
  | cons t ts ih =>
    rw [mapM_cons]
    refine (r.ensures_definition t).bind fun d hd => ih.bind fun ds hds => .pure ?_
    rw [map_cons, map_cons, hd, hds]

/-! ## Trails do not matter -/

theorem steady_traced (t : Tracing α) : Steady (traced t) := by
  unfold traced
  split
  split
  · exact (Steady.modify _).bind fun _ => .pure _
  · exact .throw _

theorem steady_definition (r : Resolver) (id : DefId) : Steady (r.definition id) := by
  unfold definition
  split
  · exact .pure _
  · exact .throw _

theorem steady_notedSubtree (r : Resolver) (id : DefId) : Steady (r.notedSubtree id) := by
  refine (Steady.lift _).bind fun related => ?_
  exact (Steady.forM related fun c => .modify _).bind fun _ => .pure _

theorem steady_guess (r : Resolver) (call : PendingCall) (isMember : Bool) :
    Steady (r.guess call isMember) :=
  (Steady.modify _).bind fun _ => .pure _

theorem steady_invokeDefinition (r : Resolver) (d : Definition) (role : Option ReceiverRole) :
    Steady (r.invokeDefinition d role) := by
  unfold invokeDefinition constructAny
  split
  · split
    · refine (r.steady_notedSubtree d.id).bind fun related => ?_
      split <;> exact .pure _
    · exact .pure _
  · exact .pure _
  · exact .pure _
  · split <;> exact .pure _

theorem steady_dispatchWith (r : Resolver) {invoke : Resolved → Resolving Outcome}
    (hi : ∀ value, Steady (invoke value)) (id : DefId) (member : String) (report : Bool) :
    Steady (r.dispatchWith invoke id member report) := by
  unfold dispatchWith
  refine (r.steady_notedSubtree id).bind fun _ => ?_
  split
  · exact .pure _
  · split
    · exact .pure _
    · split
      · exact (steady_traced _).bind hi
      · exact (r.steady_definition _).bind fun _ => .pure _

theorem steady_invoke (r : Resolver) (call : PendingCall) (bound : Nat) (isHeld : Bool)
    (value : Resolved) : Steady (r.invoke call bound isHeld value) := by
  unfold invoke
  split
  · exact (r.steady_definition _).bind fun d => r.steady_invokeDefinition d _
  · -- an object is called through its call operator, with a smaller bound
    cases bound with
    | zero => exact .throw _
    | succ bound =>
      exact (r.steady_dispatchWith (r.steady_invoke call bound true) _ _ _).bind fun _ => .pure _
  · exact .pure _
  · exact .pure _
  · split
    · exact .pure _
    · split
      · exact r.steady_guess call false
      · exact .pure _

end Resolver

end Xref

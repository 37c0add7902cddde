import Xref.Proofs.Call.Running
import Xref.Proofs.Hierarchy.Overrides

/-!
# Calls of members

A member is called on an object whose class is declared. What its order gives for the member decides
how the call goes on. A function is run together with everything that overrides it below the class,
and so is what only derived classes give. A value held by the class, a class nested in it and the
value of a call are run alone: there an override is lost unless it is what they run.
-/

namespace Xref.Resolver

open Outcome Hierarchy Xref.Small

variable {r : Resolver} {invoke : Resolved → Resolving Outcome} {id : DefId} {member : String}
  {report : Bool} {o : Outcome}

/-- What calling a member of an object of a class comes to. -/
inductive DispatchesTo (r : Resolver) (invoke : Resolved → Resolving Outcome) (id : DefId)
    (member : String) (report : Bool) : Outcome → Prop
  | cyclic (hc : r.hierarchy.isCyclic id) :
      DispatchesTo r invoke id member report (.unknown (some (.inCycle (r.catalog.qualnameOf id))))
  | missing (hc : r.hierarchy.isCyclic id = false)
      (hl : r.hierarchy.lookup? r.catalog id member none = none) :
      DispatchesTo r invoke id member report (r.missing id member report)
  | value {owner : DefId} {b : Binding} {s s' : List String} {o : Outcome}
      (hc : r.hierarchy.isCyclic id = false)
      (hl : r.hierarchy.lookup? r.catalog id member none = some (owner, b))
      (hv : b.value.definition? = none)
      (ho : (invoke (denoted (r.view.binding b))).run s = .ok (o, s')) :
      DispatchesTo r invoke id member report o
  | definition {owner : DefId} {b : Binding} {target : DefId} {d : Definition}
      (hc : r.hierarchy.isCyclic id = false)
      (hl : r.hierarchy.lookup? r.catalog id member none = some (owner, b))
      (hv : b.value.definition? = some target) (hd : r.catalog.definitions.get? target = some d) :
      DispatchesTo r invoke id member report (r.dispatchDefinition id member d)

theorem ensures_dispatchWith (r : Resolver) (invoke : Resolved → Resolving Outcome) (id : DefId)
    (member : String) (report : Bool) :
    Ensures (r.dispatchWith invoke id member report) (r.DispatchesTo invoke id member report) := by
  unfold dispatchWith
  refine .after fun _ => ?_
  split
  · next hc => exact .pure (.cyclic hc)
  · next hc =>
    have hac : r.hierarchy.isCyclic id = false := by simpa using hc
    split
    · next hl => exact .pure (.missing hac hl)
    · next owner b hl =>
      split
      · next hv =>
        refine (ensures_traced _).bind fun value hvalue => ?_
        subst hvalue
        exact fun s o s' ho => .value hac hl hv ho
      · next target hv =>
        exact (r.ensures_definition target).bind fun d hd => .pure (.definition hac hl hv hd)

/-! ## Overrides -/

/-- A function is dispatched to everything that overrides it. -/
theorem dispatchDefinition_covers {d : Definition} (hclass : d.kind ≠ .classBody)
    (hheld : d.kind ≠ .boundValue)
    (hknown : (r.dispatchDefinition id member d).confidence ≠ .unknown) :
    ∀ t ∈ r.hierarchy.dispatchTargets id member,
      t ∈ (r.dispatchDefinition id member d).targets := by
  unfold dispatchDefinition at hknown ⊢
  split
  · next hk => exact absurd hk hclass
  · next hk => exact absurd hk hheld
  · intro t ht
    dsimp only
    split
    · next hnone =>
      -- nothing but the definition itself is listed
      have hself : t = d.id := by
        by_contra hne
        have hmem : t ∈ (r.hierarchy.dispatchTargets id member).filter (· ≠ d.id) :=
          List.mem_filter.mpr ⟨ht, by simpa using hne⟩
        rw [List.isEmpty_iff.mp hnone] at hmem
        cases hmem
      split
      · next habs => simp_all [unknown]
      · exact List.mem_singleton.mpr hself
    · exact ht

/-- A member that the order of the class does not give is dispatched to all that derived classes
give. -/
theorem missing_covers :
    ∀ t ∈ r.hierarchy.dispatchTargets id member, t ∈ (r.missing id member report).targets := by
  intro t ht
  unfold missing
  have hne : (r.hierarchy.dispatchTargets id member).isEmpty = false := by
    cases hts : r.hierarchy.dispatchTargets id member with
    | nil => simp [hts] at ht
    | cons => rfl
  simpa [hne, ambiguous] using ht

/-- A concrete override that a call of a member leaves out, by what the order of the class gives for
the member: a value, a class or the value of a call. -/
inductive Overlooks (r : Resolver) (call : PendingCall) (bound : Nat) (id : DefId) (member : String)
    (t : DefId) : Prop
  /-- The value is called and does not run the override. -/
  | value {owner : DefId} {b : Binding} {o : Outcome} {s : List String}
      (hl : r.hierarchy.lookup? r.catalog id member none = some (owner, b))
      (hv : b.value.definition? = none)
      (ho : (r.invoke call bound true (denoted (r.view.binding b))).run [] = .ok (o, s))
      (ht : t ∈ r.hierarchy.dispatchTargets id member) (hne : t ∉ o.targets)
  /-- The class is constructed; the override is not its initializer. -/
  | nested {owner : DefId} {b : Binding} {d : Definition}
      (hl : r.hierarchy.lookup? r.catalog id member none = some (owner, b))
      (hd : definitionOf? r.catalog b = some d) (hk : d.kind = .classBody)
      (ht : t ∈ r.hierarchy.dispatchTargets id member) (hne : t ∉ (r.construct d.id).targets)
  /-- The value of a call is called; the override is another definition. -/
  | held {owner : DefId} {b : Binding} {d : Definition}
      (hl : r.hierarchy.lookup? r.catalog id member none = some (owner, b))
      (hd : definitionOf? r.catalog b = some d) (hk : d.kind = .boundValue)
      (ht : t ∈ r.hierarchy.dispatchTargets id member) (hne : t ≠ d.id)

section

variable {call : PendingCall} {bound : Nat} {t : DefId}

theorem Overlooks.mem (h : r.Overlooks call bound id member t) :
    t ∈ r.hierarchy.dispatchTargets id member := by
  cases h <;> assumption

variable {b : Binding}

theorem definitionOf?_eq {target : DefId} {d : Definition} (hv : b.value.definition? = some target)
    (hd : r.catalog.definitions.get? target = some d) : definitionOf? r.catalog b = some d := by
  rw [definitionOf?, hv, Option.bind_some, hd]

/-- What a call of a member leaves out is what it overlooks. -/
theorem DispatchesTo.overlooks (h : r.DispatchesTo (r.invoke call bound true) id member report o)
    (hac : r.hierarchy.isCyclic id = false) (hknown : o.confidence ≠ .unknown)
    (ht : t ∈ r.hierarchy.dispatchTargets id member) (hne : t ∉ o.targets) :
    r.Overlooks call bound id member t := by
  cases h with
  | cyclic hc => simp [hac] at hc
  | missing _ _ => exact absurd (missing_covers t ht) hne
  | value _ hl hv ho =>
    obtain ⟨s, hs⟩ := r.steady_invoke call bound true _ _ _ _ ho []
    exact .value hl hv hs ht hne
  | @definition owner b target d _ hl hv hd =>
    have hdef := definitionOf?_eq hv hd
    by_cases hclass : d.kind = .classBody
    · rw [dispatchDefinition, hclass] at hne
      exact .nested hl hdef hclass ht hne
    · by_cases hheld : d.kind = .boundValue
      · rw [dispatchDefinition, hheld] at hne
        exact .held hl hdef hheld ht fun heq => hne (by simp [heq, ambiguous])
      · exact absurd (dispatchDefinition_covers hclass hheld hknown t ht) hne

/-- The outcome is the one of the definition that the order gives. -/
theorem DispatchesTo.eq_dispatchDefinition (h : r.DispatchesTo invoke id member report o)
    (hac : r.hierarchy.isCyclic id = false) {owner : DefId} {d : Definition}
    (hl : r.hierarchy.lookup? r.catalog id member none = some (owner, b))
    (hd : definitionOf? r.catalog b = some d) : o = r.dispatchDefinition id member d := by
  obtain ⟨target, hv, hget⟩ := Option.bind_eq_some_iff.mp hd
  cases h with
  | cyclic hc => simp [hac] at hc
  | missing _ hl' => simp [hl'] at hl
  | value _ hl' hv' _ =>
    rw [hl'] at hl
    cases hl
    simp [hv'] at hv
  | definition _ hl' hv' hd' =>
    rw [hl'] at hl
    cases hl
    rw [hv'] at hv
    cases hv
    rw [hd'] at hget
    cases hget
    rfl

/-- The outcome is the one of calling the value that the order gives. -/
theorem DispatchesTo.exists_run (h : r.DispatchesTo invoke id member report o)
    (hac : r.hierarchy.isCyclic id = false) {owner : DefId}
    (hl : r.hierarchy.lookup? r.catalog id member none = some (owner, b))
    (hv : b.value.definition? = none) :
    ∃ s s', (invoke (denoted (r.view.binding b))).run s = .ok (o, s') := by
  cases h with
  | cyclic hc => simp [hac] at hc
  | missing _ hl' => simp [hl'] at hl
  | value _ hl' _ ho =>
    rw [hl'] at hl
    cases hl
    exact ⟨_, _, ho⟩
  | definition _ hl' hv' _ =>
    rw [hl'] at hl
    cases hl
    simp [hv'] at hv

/-- What a call of a member overlooks is not among its targets. -/
theorem DispatchesTo.not_mem_of_overlooks
    (h : r.DispatchesTo (r.invoke call bound true) id member report o)
    (hac : r.hierarchy.isCyclic id = false) (ht : r.Overlooks call bound id member t) :
    t ∉ o.targets := by
  cases ht with
  | value hl hv ho _ hne =>
    obtain ⟨s, s', hrun⟩ := h.exists_run hac hl hv
    rwa [(r.steady_invoke call bound true _).unique hrun ho]
  | nested hl hd hk _ hne =>
    rw [h.eq_dispatchDefinition hac hl hd, dispatchDefinition, hk]
    exact hne
  | held hl hd hk _ hne =>
    rw [h.eq_dispatchDefinition hac hl hd, dispatchDefinition, hk]
    simpa [ambiguous] using hne

end

/-- A call of a member of an object of a declared class, once anything is known of it, runs every
override that the index lists if and only if it overlooks none: this can only happen where the order
of the class gives a value, a class or the value of a call for the member. -/
theorem dispatch_covers_iff_overlooks_none (r : Resolver) (call : PendingCall) (bound : Nat)
    (id : DefId) (member : String) (report : Bool) {s s' : List String} {o : Outcome}
    (hac : r.hierarchy.isCyclic id = false)
    (hrun : (r.dispatchWith (r.invoke call bound true) id member report).run s = .ok (o, s'))
    (hknown : o.confidence ≠ .unknown) :
    (∀ t ∈ r.hierarchy.dispatchTargets id member, t ∈ o.targets) ↔
      ∀ t, ¬ r.Overlooks call bound id member t := by
  have h := r.ensures_dispatchWith (r.invoke call bound true) id member report s o s' hrun
  constructor
  · intro hcovers t ht
    exact h.not_mem_of_overlooks hac ht (hcovers t ht.mem)
  · intro hnone t ht
    by_contra hne
    exact hnone t (h.overlooks hac hknown ht hne)

/-! ## Members of every kind -/

/-- A class with a copied function, a nested class, the value of a call and a method, and a class
derived from it that has methods of the same names. -/
def overridingCatalog : Catalog :=
  catalogOf [file "m.py" "m"
    [functionItem "default" "default" false [], classItem "Base" []
      [assignItem "copy" "run" .name "default", classItem "Step" [] [],
       assignItem "make" "hook" .call "default",
       functionItem "stop" "stop" false []],
     classItem "Job" ["Base"]
      [functionItem "run" "run" false [], functionItem "step" "Step" false [],
       functionItem "hook" "hook" false [],
       functionItem "halt" "stop" false []]]]

def standard (c : Catalog) : Resolver :=
  ⟨c, (built c).1, .standard⟩

/-- A call of a member of an object of the first class. -/
def baseCall (member : String) : PendingCall :=
  ⟨"m.py#call", "m.py::m", "m.py#file", "m.py", ⟨9, 0⟩, 0, member, some "base", some 0, false⟩

/-- What such a call comes to. -/
def baseOutcome (member : String) : Except Fault Outcome :=
  ((standard overridingCatalog).dispatch (baseCall member) "m.py::m.Base" member).run' []

/-- A copied function, a nested class and the value of a call are run alone, though the index lists
an override of each. -/
theorem dispatch_drops_overrides :
    (standard overridingCatalog).hierarchy.isCyclic "m.py::m.Base" = false ∧
      (standard overridingCatalog).hierarchy.dispatchTargets "m.py::m.Base" "run" =
        ["m.py::m.Job.run"] ∧
      baseOutcome "run" = .ok (.exact ["m.py::m.default"]) ∧
      (standard overridingCatalog).hierarchy.dispatchTargets "m.py::m.Base" "Step" =
        ["m.py::m.Job.Step"] ∧
      baseOutcome "Step" = .ok (.exact ["m.py::m.Base.Step"]) ∧
      (standard overridingCatalog).hierarchy.dispatchTargets "m.py::m.Base" "hook" =
        ["m.py::m.Base.hook", "m.py::m.Job.hook"] ∧
      baseOutcome "hook" = .ok (.ambiguous ["m.py::m.Base.hook"] .static) := by
  decide +kernel

/-- A method is run with its override, so that nothing is overlooked. -/
theorem dispatch_covers_stop :
    ∃ o s', ((standard overridingCatalog).dispatch (baseCall "stop") "m.py::m.Base" "stop").run [] =
        .ok (o, s') ∧
      o = .ambiguous ["m.py::m.Base.stop", "m.py::m.Job.stop"] .virtual ∧
      ∀ t, ¬ (standard overridingCatalog).Overlooks (baseCall "stop")
        (standard overridingCatalog).bound "m.py::m.Base" "stop" t := by
  have hrun : ((standard overridingCatalog).dispatch (baseCall "stop") "m.py::m.Base" "stop").run
    [] =
      .ok (.ambiguous ["m.py::m.Base.stop", "m.py::m.Job.stop"] .virtual, ["m.Job", "m.Base"]) := by
    decide +kernel
  refine ⟨_, _, hrun, rfl, ?_⟩
  exact (dispatch_covers_iff_overlooks_none (standard overridingCatalog) (baseCall "stop") _
    "m.py::m.Base" "stop" true (by decide +kernel) hrun (by decide)).mp (by decide +kernel)

end Xref.Resolver

import Xref.Proofs.Call.Targets
import Xref.Proofs.Index.Assemble

/-!
# Certain answers and guesses

A policy says how to guess, and nothing else in the resolution of a call asks for it. A guess is
always the whole outcome of a call: it is made where nothing is known of what is called, and no rule
looks at what another came to in that way. So two policies give a call the same outcome, or each its
own guess.
-/

namespace Xref

open Xref.Small

namespace Resolver

/-- What a binding denotes is marked with it. -/
theorem binding_denoted (r : Resolver) (b : Binding) :
    (denoted (r.view.binding b)).binding = some b := by
  have hheld : r.view.HeldAt (fun _ => True) View.hops := View.heldAt (fun _ => trivial) View.hops
  exact (hheld.binding b []).1

/-- What follows a traced computation gets the value that it denotes. -/
theorem bind_traced_congr {t : Tracing α} {f g : α → Resolving β}
    (h : f (denoted t) = g (denoted t)) : traced t >>= f = traced t >>= g := by
  unfold denoted at h
  unfold traced
  generalize t.run [] = p at h ⊢
  obtain ⟨value, trail⟩ := p
  dsimp only at h ⊢
  cases Mention.names trail with
  | error fault => rfl
  | ok names => simp only [bind_assoc, pure_bind, h]

/-! ## What no policy decides -/

def under (r : Resolver) (p : Policy) : Resolver :=
  { r with policy := p }

section

variable (r : Resolver) (p : Policy) (c : PendingCall)

/-- What a name or a member holds is called alike under every policy. -/
theorem invoke_held_under (bound : Nat) :
    (r.under p).invoke c bound true = r.invoke c bound true := by
  induction bound with
  | zero =>
    funext value
    unfold invoke
    rfl
  | succ bound ih =>
    funext value
    unfold invoke
    dsimp only
    rw [ih]
    rfl

/-- A value is called alike under two policies, or it has no binding and each policy guesses. -/
theorem call_under (isHeld : Bool) (value : Resolved) :
    (r.under p).call c isHeld value = r.call c isHeld value ∨
      value.binding = none ∧ r.call c isHeld value = r.guess c false ∧
        (r.under p).call c isHeld value = (r.under p).guess c false := by
  have hheld := r.invoke_held_under p c
  obtain ⟨meaning, binding, role, via⟩ := value
  unfold call
  rw [show (r.under p).bound = r.bound from rfl]
  generalize r.bound = bound
  cases meaning with
  | definition id maker =>
    left
    unfold invoke
    rfl
  | object type holder =>
    left
    cases bound with
    | zero =>
      unfold invoke
      rfl
    | succ bound =>
      unfold invoke
      dsimp only
      rw [hheld]
      rfl
  | external qualname | package qualname =>
    left
    unfold invoke
    rfl
  | unresolved name =>
    unfold invoke
    dsimp only
    split
    · exact .inl rfl
    · split
      · next hguess =>
        simp only [Bool.and_eq_true, Option.isNone_iff_eq_none] at hguess
        exact .inr ⟨hguess.1, rfl, rfl⟩
      · exact .inl rfl

theorem dispatch_under : (r.under p).dispatch c = r.dispatch c := by
  have hcall : (r.under p).call c true = r.call c true := r.invoke_held_under p c r.bound
  funext id member
  rw [dispatch, dispatch, hcall]
  rfl

/-- What is bound is called alike under every policy. -/
theorem callBinding_under : (r.under p).callBinding c = r.callBinding c := by
  funext b
  refine bind_traced_congr ?_
  rcases r.call_under p c b.value.definition?.isNone (denoted (r.view.binding b)) with h | ⟨h, _⟩
  · exact h
  · rw [binding_denoted] at h
    cases h

theorem callOnClass_under : (r.under p).callOnClass c = r.callOnClass c := by
  funext id
  rw [callOnClass, callOnClass, callBinding_under]
  rfl

theorem callOnParent_under : (r.under p).callOnParent c = r.callOnParent c := by
  funext owner
  rw [callOnParent, callOnParent, callBinding_under]
  rfl

end

/-! ## Guesses -/

/-- The outcome of a call under another policy: the same, or its own guess in place of a guess. -/
def SameOrGuessed (r : Resolver) (p : Policy) (c : PendingCall) (o o' : Outcome) : Prop :=
  o' = o ∨ ∃ isMember, o = r.guessed c isMember ∧ o' = (r.under p).guessed c isMember

end Resolver

/-- Two resolutions stop with the same fault, or come to related results along the same trail. -/
def Agree (R : α → α → Prop) (m m' : Resolving α) : Prop :=
  ∀ s, (∃ e, m.run s = .error e ∧ m'.run s = .error e) ∨
    ∃ a a' s', m.run s = .ok (a, s') ∧ m'.run s = .ok (a', s') ∧ R a a'

namespace Agree

variable {R : α → α → Prop} {S : β → β → Prop}

theorem of_eq {m m' : Resolving α} (h : m' = m) (hrefl : ∀ a, R a a) : Agree R m m' := by
  intro s
  rw [h]
  cases hm : m.run s with
  | error e => exact .inl ⟨e, rfl, rfl⟩
  | ok q => exact .inr ⟨q.1, q.1, q.2, rfl, rfl, hrefl q.1⟩

protected theorem pure {a a' : α} (h : R a a') : Agree R (pure a) (pure a') :=
  fun s => .inr ⟨a, a', s, rfl, rfl, h⟩

protected theorem bind {m m' : Resolving α} {f f' : α → Resolving β} (hm : Agree R m m')
    (hf : ∀ a a', R a a' → Agree S (f a) (f' a')) : Agree S (m >>= f) (m' >>= f') := by
  intro s
  rw [StateT.run_bind, StateT.run_bind]
  rcases hm s with ⟨e, he, he'⟩ | ⟨a, a', s', ha, ha', hr⟩
  · rw [he, he']
    exact .inl ⟨e, rfl, rfl⟩
  · rw [ha, ha']
    exact hf a a' hr s'

/-- The first part is the same for both. -/
theorem after {m : Resolving α} {f f' : α → Resolving β} (hf : ∀ a, Agree S (f a) (f' a)) :
    Agree S (m >>= f) (m >>= f') :=
  (of_eq rfl fun _ => rfl).bind fun a _ h => h ▸ hf a

end Agree

namespace Resolver

section

variable (r : Resolver) (p : Policy) (c : PendingCall)

theorem agree_guess (isMember : Bool) :
    Agree (r.SameOrGuessed p c) (r.guess c isMember) ((r.under p).guess c isMember) :=
  .after fun _ => .pure (.inr ⟨isMember, rfl, rfl⟩)

theorem agree_call (isHeld : Bool) (value : Resolved) :
    Agree (r.SameOrGuessed p c) (r.call c isHeld value) ((r.under p).call c isHeld value) := by
  rcases r.call_under p c isHeld value with h | ⟨_, h, h'⟩
  · exact .of_eq h fun _ => .inl rfl
  · rw [h, h']
    exact r.agree_guess p c false

/-- Under both policies a call is made on the same kind of thing, and comes to the same or to a
guess. -/
def SameForm (a a' : ReceiverKind × Outcome) : Prop :=
  a'.1 = a.1 ∧ r.SameOrGuessed p c a.2 a'.2

/-- The outcome of a call, with what it is made on. -/
theorem agree_form {m m' : Resolving Outcome} (h : Agree (r.SameOrGuessed p c) m m')
    (kind : ReceiverKind) :
    Agree (r.SameForm p c) (do return (kind, ← m)) (do return (kind, ← m')) :=
  h.bind fun _ _ ho => .pure ⟨rfl, ho⟩

theorem agree_callName : Agree (r.SameForm p c) (r.callName c) ((r.under p).callName c) := by
  have hdispatch := r.dispatch_under p c
  unfold callName
  rw [show (r.under p).catalog = r.catalog from rfl]
  split
  · exact r.agree_form p c (r.agree_guess p c false) _
  · dsimp only
    split
    · rw [hdispatch]
      exact .of_eq rfl fun _ => ⟨rfl, .inl rfl⟩
    · exact .after fun value => r.agree_form p c (r.agree_call p c _ value) _

theorem agree_callMember (receiver : String) :
    Agree (r.SameForm p c) (r.callMember c receiver) ((r.under p).callMember c receiver) := by
  have hrefl : ∀ m : Resolving (ReceiverKind × Outcome), Agree (r.SameForm p c) m m :=
    fun m => .of_eq rfl fun _ => ⟨rfl, .inl rfl⟩
  unfold callMember
  rw [dispatch_under, callOnClass_under]
  refine .after fun resolved => ?_
  dsimp only
  split
  · refine .after fun d => ?_
    split
    · exact .after fun value => r.agree_form p c (r.agree_call p c false value) _
    · exact hrefl _
    · exact hrefl _
    · exact r.agree_form p c (r.agree_guess p c true) _
  · exact .after fun value => r.agree_form p c (r.agree_call p c false value) _
  · exact hrefl _
  · exact hrefl _
  · exact r.agree_form p c (r.agree_guess p c true) _

/-- Whatever the form of a call, two policies disagree on its outcome only where both guess. -/
theorem agree_outcome : Agree (r.SameForm p c) (r.outcome c) ((r.under p).outcome c) := by
  have hrefl : ∀ m : Resolving (ReceiverKind × Outcome), Agree (r.SameForm p c) m m :=
    fun m => .of_eq rfl fun _ => ⟨rfl, .inl rfl⟩
  unfold outcome
  rw [callOnParent_under]
  dsimp only
  split
  · split
    · exact r.agree_callName p c
    · exact hrefl _
  · split
    · exact hrefl _
    · split
      · exact hrefl _
      · split
        · exact r.agree_callMember p c _
        · exact r.agree_form p c (r.agree_guess p c true) _

end

variable {r : Resolver} {p : Policy} {c : PendingCall}

/-- A call is resolved alike under another policy, unless that policy guesses another outcome. -/
theorem resolve_under {site : Site} {ws : List Diagnostic} (h : r.resolve c = .ok (site, ws))
    (hsame : ∀ isMember, (r.guessed c isMember).targets = site.targets →
      (r.guessed c isMember).confidence = site.confidence →
      (r.under p).guessed c isMember = r.guessed c isMember) :
    (r.under p).resolve c = .ok (site, ws) := by
  have hagree := r.agree_outcome p c []
  unfold resolve at h ⊢
  extract_lets steps at h
  extract_lets steps'
  obtain ⟨⟨⟨kind, o, ds⟩, trail⟩, hsteps, h⟩ := bind_eq_ok h
  cases h
  obtain ⟨⟨kind₁, o₁⟩, trail₁, hrun, hrest⟩ := Ensures.run_bind hsteps
  obtain ⟨_, _, _, hnotes⟩ := Ensures.run_bind hrest
  obtain ⟨_, _, _, hend⟩ := Ensures.run_bind hnotes
  cases hend
  rcases hagree with ⟨e, he, _⟩ | ⟨a, ⟨kind', o'⟩, s', ha, ha', hkind, ho⟩
  · rw [hrun] at he
    cases he
  · rw [hrun] at ha
    cases ha
    dsimp only at hkind ho
    have ho' : o' = o := by
      rcases ho with ho | ⟨isMember, hguess, hguess'⟩
      · exact ho
      · rw [hguess', hguess]
        exact hsame isMember (by rw [← hguess]) (by rw [← hguess])
    rw [hkind, ho'] at ha'
    -- what follows the outcome looks its targets up and never asks the policy
    have hsteps' : steps'.run [] = .ok ((kind, o, ds), trail) := by
      unfold steps'
      rw [StateT.run_bind, ha']
      exact hrest
    rw [hsteps']
    rfl

theorem confidence_guessed (isMember : Bool) : (r.guessed c isMember).confidence ≠ .exact := by
  unfold guessed
  split
  · decide
  · dsimp only
    split
    · simp [Outcome.unknown]
    · split <;> simp [Outcome.unknown, Outcome.ambiguous]

/-- A greater limit keeps a guess. -/
theorem guessed_raise {n : Int} (hn : r.policy.maxCandidates ≤ n) {isMember : Bool}
    (h : (r.guessed c isMember).targets ≠ []) :
    (r.under { r.policy with maxCandidates := n }).guessed c isMember = r.guessed c isMember := by
  -- only the test of the limit can come out differently
  refine ite_congr rfl (fun _ => rfl) fun hfree => ite_congr rfl (fun _ => rfl) fun hsome => ?_
  have hlimit : ¬ r.policy.maxCandidates < (r.candidates c isMember).length := by
    intro hlt
    refine h ?_
    unfold guessed
    rw [if_neg hfree]
    rw [if_neg hsome, if_pos hlt]
    rfl
  have hlimit' : ¬ n < (r.candidates c isMember).length := by omega
  exact (if_neg hlimit').trans (if_neg hlimit).symm

/-! ## Answers under two policies -/

/-- A call that is resolved exactly under one policy is resolved to the same site under every other.
A call that has targets is resolved to the same site when more candidates are allowed. -/
theorem resolve_keeps_answer_across_policies (catalog : Catalog) (hierarchy : Hierarchy)
    (c : PendingCall) (p : Policy) (site : Site) (ws : List Diagnostic)
    (h : (Resolver.mk catalog hierarchy p).resolve c = .ok (site, ws)) :
    (site.confidence = .exact →
      ∀ q : Policy, (Resolver.mk catalog hierarchy q).resolve c = .ok (site, ws)) ∧
    (site.targets ≠ [] → ∀ n, p.maxCandidates ≤ n →
      (Resolver.mk catalog hierarchy { p with maxCandidates := n }).resolve c = .ok (site,
        ws)) := by
  constructor
  · intro hexact q
    refine resolve_under (p := q) h fun isMember _ hconfidence => ?_
    exact absurd (hconfidence.trans hexact) (confidence_guessed isMember)
  · intro htargets n hn
    refine resolve_under (p := { p with maxCandidates := n }) h fun isMember hsame _ => ?_
    exact guessed_raise hn (by rwa [hsame])

/-- Two classes with methods of one name, and a function. -/
def rivalCatalog : Catalog :=
  catalogOf [file "m.py" "m"
    [classItem "Job" [] [functionItem "run" "run" false []],
     classItem "Task" [] [functionItem "start" "run" false []],
     .functionDecl (mark "main") ⟨"main", [], [], false, false⟩ []]]

def rivalResolver (p : Policy) : Resolver :=
  ⟨rivalCatalog, (Hierarchy.built rivalCatalog).1, p⟩

/-- A policy that allows some candidates and never guesses the function. -/
def limited (n : Int) : Policy :=
  { Policy.standard with maxCandidates := n, ignoredNames := ["main"] }

def rivalCall (callee : String) (receiver : Option String) : PendingCall :=
  ⟨"m.py#call", "m.py::m", "m.py#file", "m.py", ⟨9, 0⟩, 0, callee, receiver, some 0, false⟩

/-- The function is found under a policy that would not guess it, the two methods wherever two
candidates are allowed; with one candidate they are not named. -/
theorem resolve_keeps_answer_of_rivals :
    (∃ site ws, (rivalResolver .standard).resolve (rivalCall "main" none) = .ok (site, ws) ∧
      site.targets = ["m.py::m.main"] ∧ site.confidence = .exact ∧
      (rivalResolver (limited 0)).resolve (rivalCall "main" none) = .ok (site, ws)) ∧
    (∃ site ws, (rivalResolver (limited 2)).resolve (rivalCall "run" (some "x")) = .ok (site, ws) ∧
      site.targets = ["m.py::m.Job.run", "m.py::m.Task.run"] ∧
      (rivalResolver (limited 8)).resolve (rivalCall "run" (some "x")) = .ok (site, ws)) ∧
    (∃ site ws, (rivalResolver (limited 1)).resolve (rivalCall "run" (some "x")) = .ok (site, ws) ∧
      site.targets = []) := by
  refine ⟨?_, ?_, ?_⟩
  · have hfound : ((rivalResolver .standard).resolve (rivalCall "main" none)).toOption.any (fun a =>
        a.1.targets = ["m.py::m.main"] ∧ a.1.confidence = .exact) := by decide +kernel
    obtain ⟨⟨site, ws⟩, hrun, hsite⟩ := exists_of_any hfound
    obtain ⟨htargets, hexact⟩ := of_decide_eq_true hsite
    exact ⟨site, ws, hrun, htargets, hexact,
      (resolve_keeps_answer_across_policies _ _ _ _ site ws hrun).1 hexact (limited 0)⟩
  · have hfound :
      ((rivalResolver (limited 2)).resolve (rivalCall "run" (some "x"))).toOption.any (fun a =>
        a.1.targets = ["m.py::m.Job.run", "m.py::m.Task.run"]) := by decide +kernel
    obtain ⟨⟨site, ws⟩, hrun, hsite⟩ := exists_of_any hfound
    have htargets : site.targets = ["m.py::m.Job.run", "m.py::m.Task.run"] :=
      of_decide_eq_true hsite
    exact ⟨site, ws, hrun, htargets,
      (resolve_keeps_answer_across_policies _ _ _ _ site ws hrun).2 (by simp [htargets]) 8
        (by decide)⟩
  · have hfound :
      ((rivalResolver (limited 1)).resolve (rivalCall "run" (some "x"))).toOption.any (fun a =>
        a.1.targets = []) := by decide +kernel
    obtain ⟨⟨site, ws⟩, hrun, hsite⟩ := exists_of_any hfound
    exact ⟨site, ws, hrun, of_decide_eq_true hsite⟩

end Resolver

end Xref

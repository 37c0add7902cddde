import Xref.Proofs.Ledger.Frame

/-!
# Excess

Two walks over the same items, one from a ledger in which a declaration was walked before and one
from a ledger in which it was not. The first ledger exceeds the second by what the declaration left:
its calls, class records and references, higher numbers of calls, and callers that are suspended.
The walks go in step and the excess stays as it is, but for what a later declaration drops. While
the declaration is not replaced the ledgers may also differ in a margin: what the declaration
defines, and what its name is declared as.
-/

namespace Xref

open Item List Text
open Definition (idOf)

/-- What a declaration leaves: the ids of its items, the number of calls before it, the calls that
it adds to each caller, the callers that are suspended after it, and its references. -/
structure Excess where
  ids : String → Prop
  base : DefId → Nat
  calls : DefId → Nat
  suspended : DefId → Bool
  references : List PendingReference

/-- What one ledger has beyond another from which it came. -/
def Excess.since (u t : Ledger) (ids : String → Prop)
    (references : List PendingReference) : Excess :=
  ⟨ids, u.counts, fun c => t.counts c - u.counts c, t.suspended, references⟩

/-- A call that comes after what left the excess. -/
def Excess.raise (x : Excess) (c : PendingCall) : PendingCall :=
  { c with order := c.order + x.calls c.caller, isSuspended :=
    c.isSuspended || x.suspended c.caller }

theorem Excess.raise_eq_self {x : Excess} {c : PendingCall} :
    x.raise c = c ↔ x.calls c.caller = 0 ∧ (x.suspended c.caller → c.isSuspended) := by
  obtain ⟨site, caller, scope, path, location, order, callee, receiver, argCount, isSuspended⟩ := c
  simp [raise]

/-- Where two ledgers may differ: in some definitions, in the calls and records of some, and in what
some names are declared as. -/
structure Margin where
  aside : DefId → Prop
  dropped : DefId → Bool
  off : ScopeId → String → Prop

/-- Something that is declared outside a margin, with nothing of the margin below it. -/
def Margin.Clear (m : Margin) (id : DefId) : Prop :=
  ¬ m.aside id ∧ ∀ other, m.aside other → Dotted.isBelow id other = false

/-- No margin but for the scopes with some ids. -/
def Margin.scopes (ids : String → Prop) : Margin :=
  ⟨fun _ => False, fun _ => false, fun scope _ => ids scope⟩

theorem Margin.clear_scopes (ids : String → Prop) (id : DefId) : (Margin.scopes ids).Clear id :=
  ⟨not_false, fun _ h => h.elim⟩

namespace Ledger

/-- A ledger is another one with an excess, up to a margin. -/
structure Exceeds (x : Excess) (m : Margin) (t u : Ledger) : Prop where
  definitions : ∀ id, ¬ m.aside id → t.definitions id = u.definitions id
  classes : ∀ id, m.dropped id = false →
    t.classes id = u.classes id ∨ ∃ decl, t.classes id = some decl ∧ x.ids decl.body
  calls : ∃ first extra last,
    u.calls.filter (fun c => !m.dropped c.caller) = first ++ last ∧
    t.calls.filter (fun c => !m.dropped c.caller) = first ++ extra ++ last.map x.raise ∧
    (∀ c ∈ first, c.order < x.base c.caller) ∧ (∀ c ∈ extra, x.ids c.site) ∧
    ∀ c ∈ last, x.base c.caller ≤ c.order
  references : ∃ first last,
    u.references = first ++ last ∧ t.references = first ++ x.references ++ last
  counts : ∀ c, t.counts c = u.counts c + x.calls c
  base : ∀ c, x.base c ≤ u.counts c
  suspended : ∀ c, t.suspended c = (u.suspended c || x.suspended c)
  declared : ∀ s name, ¬ m.off s name → t.declared s name = u.declared s name

/-- What changes leave is an excess, where all that may change besides is in the margin. -/
theorem Exceeds.ofChanges {file : FileContext} {m : Margin} {ids : String → Prop} {n : Nat}
    {t u : Ledger} (hg : u.Grounded file)
    (h : Changes (¬ m.aside ·) (!m.dropped ·) ids m.off n u t) :
    ∃ references, references.length = n ∧ Exceeds (.since u t ids references) m t u := by
  obtain ⟨references, hreferences, hlength⟩ := h.references
  obtain ⟨new, hcalls, hnew⟩ := h.calls
  refine ⟨references, hlength, h.definitions, fun id hid => h.classes id (by simp [hid]),
    ?_, ?_, ?_, fun c => Nat.le_refl _, ?_, h.declared⟩
  · refine ⟨_, new, [], (append_nil _).symm, by simpa using hcalls, fun c hc => ?_, hnew, by simp⟩
    exact (hg.called c (mem_of_mem_filter hc)).2
  · exact ⟨u.references, [], by simp, by simpa [Excess.since] using hreferences⟩
  · intro c
    have hle := h.counts c
    simp only [Excess.since]
    omega
  · intro c
    have hsuspended := h.suspended c
    simp only [Excess.since]
    cases hu : u.suspended c with
    | false => rw [Bool.false_or]
    | true => rw [hsuspended hu, Bool.true_or]

namespace Exceeds

variable {file : FileContext} {place : Place} {x : Excess} {m : Margin} {t u : Ledger}

/-! ## Single changes -/

section

variable (h : Exceeds x m t u) (scope : ScopeId)
include h

theorem redeclare {declared declared' : ScopeId → String → Option DefId}
    (hd : ∀ s name, ¬ m.off s name → declared s name = declared' s name) :
    Exceeds x m { t with declared } { u with declared := declared' } :=
  ⟨h.definitions, h.classes, h.calls, h.references, h.counts, h.base, h.suspended, hd⟩

theorem openScope : Exceeds x m (t.openScope scope) (u.openScope scope) :=
  h.redeclare fun s name hoff => by rw [h.declared s name hoff]

theorem unbind (names : List String) : Exceeds x m (t.unbind scope names) (u.unbind scope names) :=
  h.redeclare fun s name hoff => by rw [h.declared s name hoff]

theorem bind (name : String) (id : DefId) :
    Exceeds x m (t.bind scope name id) (u.bind scope name id) :=
  h.redeclare fun s name hoff => by rw [h.declared s name hoff]

theorem define (y : Definition) : Exceeds x m (t.define y) (u.define y) := by
  refine ⟨fun id hid => ?_, h.classes, h.calls, h.references, h.counts, h.base, h.suspended,
    h.declared⟩
  simp only [Ledger.define]
  rw [h.definitions id hid]

theorem record (decl : ClassDecl) : Exceeds x m (t.record decl) (u.record decl) := by
  refine ⟨h.definitions, fun id hid => ?_, h.calls, h.references, h.counts, h.base, h.suspended,
    h.declared⟩
  simp only [Ledger.record]
  split
  · exact .inl rfl
  · exact h.classes id hid

theorem addCall (file : FileContext) (place : Place) (mark : Mark) (head : CallHead) :
    Exceeds x m (t.addCall file place mark head) (u.addCall file place mark head) := by
  refine ⟨h.definitions, h.classes, ?_, h.references, fun c => ?_, fun c => ?_, h.suspended,
    h.declared⟩
  · obtain ⟨first, extra, last, hu, ht, hfirst, hextra, hlast⟩ := h.calls
    simp only [Ledger.addCall, filter_append, hu, ht]
    -- the new call comes last in both, unless its caller is in the margin
    by_cases hd : m.dropped place.caller
    · refine ⟨first, extra, last, ?_, ?_, hfirst, hextra, hlast⟩ <;> simp [callRecord, hd]
    · refine ⟨first, extra, last ++ [u.callRecord file place mark head], ?_, ?_, hfirst, hextra, ?_⟩
      · simp [callRecord, hd]
      · simp [callRecord, hd, Excess.raise, h.counts, h.suspended]
      · exact forall_mem_append.mpr ⟨hlast, forall_mem_singleton.mpr (h.base _)⟩
  · simp only [Ledger.addCall]
    rw [h.counts c]
    split <;> omega
  · have hbase := h.base c
    simp only [Ledger.addCall]
    split <;> omega

theorem addReference (r : PendingReference) :
    Exceeds x m (t.addReference r) (u.addReference r) := by
  obtain ⟨first, last, hu, ht⟩ := h.references
  refine ⟨h.definitions, h.classes, h.calls, ⟨first, last ++ [r], ?_, ?_⟩, h.counts, h.base,
    h.suspended, h.declared⟩
  · simp [Ledger.addReference, hu]
  · simp [Ledger.addReference, ht]

theorem suspend (caller : DefId) : Exceeds x m (t.suspend caller) (u.suspend caller) := by
  refine ⟨h.definitions, h.classes, h.calls, h.references, h.counts, h.base, fun c => ?_,
    h.declared⟩
  simp only [Ledger.suspend]
  rw [h.suspended c, Bool.or_assoc]

/-- What is outside the margin is dropped from both. -/
theorem drops_eq (ht : t.Grounded file) (hu : u.Grounded file) {p : String}
    (hclear : m.Clear (idOf file.path p)) (id : DefId) : t.drops p id = u.drops p id := by
  by_cases hid : m.aside id
  · have hstays : ∀ {l : Ledger}, l.Grounded file → l.drops p id = false := by
      intro l hl
      rw [← Bool.not_eq_true]
      intro hdrops
      have hbelow := hl.isBelow_of_drops hdrops
      rw [hclear.2 id hid] at hbelow
      cases hbelow
    rw [hstays ht, hstays hu]
  · rw [drops, drops, h.definitions id hid]

theorem discardBelow (ht : t.Grounded file) (hu : u.Grounded file) {p : String}
    (hclear : m.Clear (idOf file.path p)) : Exceeds x m (t.discardBelow p) (u.discardBelow p) := by
  have hdrops := h.drops_eq ht hu hclear
  refine ⟨fun id hid => ?_, fun id hid => ?_, ?_, h.references, h.counts, h.base, h.suspended,
    h.declared⟩
  · simp only [Ledger.discardBelow]
    rw [hdrops id, h.definitions id hid]
  · simp only [Ledger.discardBelow]
    rw [hdrops id]
    split
    · exact .inl rfl
    · exact h.classes id hid
  · obtain ⟨first, extra, last, hucalls, htcalls, hfirst, hextra, hlast⟩ := h.calls
    let stays : PendingCall → Bool := fun c => !u.drops p c.caller
    have hfilter : ∀ l : Ledger, (∀ id, l.drops p id = u.drops p id) →
        (l.discardBelow p).calls.filter (fun c => !m.dropped c.caller) =
          (l.calls.filter fun c => !m.dropped c.caller).filter stays := by
      intro l hl
      simp only [Ledger.discardBelow, hl]
      rw [filter_comm]
    refine ⟨first.filter stays, extra.filter stays, last.filter stays, ?_, ?_, fun c hc => ?_,
      fun c hc => ?_, fun c hc => ?_⟩
    · rw [hfilter u fun _ => rfl, hucalls, filter_append]
    · rw [hfilter t hdrops, htcalls, filter_append, filter_append, filter_map]
      rfl
    · exact hfirst c (mem_of_mem_filter hc)
    · exact hextra c (mem_of_mem_filter hc)
    · exact hlast c (mem_of_mem_filter hc)

/-! ## Declarations -/

theorem replaced?_eq (hs : u.Stands file place) {y : Definition}
    (hclear : m.Clear (idOf file.path (place.qualname ++ "." ++ y.name)))
    (hon : ¬ m.off place.scope y.name) : t.replaced? place.scope y = u.replaced? place.scope y := by
  rw [replaced?, replaced?, h.declared _ _ hon]
  cases hid : u.declared place.scope y.name with
  | none => rfl
  | some id =>
    have hout : ¬ m.aside id := by
      rw [hs.named hid]
      exact hclear.1
    rw [Option.bind_some, Option.bind_some, h.definitions id hout]

theorem declare (ht : t.Grounded file) (hu : u.Grounded file) (hs : u.Stands file place)
    {y : Definition} (hclear : m.Clear (idOf file.path (place.qualname ++ "." ++ y.name)))
    (hon : ¬ m.off place.scope y.name) :
    Exceeds x m (t.declare place.scope y) (u.declare place.scope y) := by
  have hroom : Exceeds x m (t.makeRoom place.scope y) (u.makeRoom place.scope y) := by
    unfold makeRoom
    rw [h.replaced?_eq hs hclear hon]
    cases hprevious : u.replaced? place.scope y with
    | none => exact h
    | some previous =>
      rw [← hs.qualname_of_replaced? hu hprevious] at hclear
      exact h.discardBelow ht hu hclear
  exact (hroom.bind ..).define y

theorem lambdaDefinition_eq {mark : Mark} (params : List Param)
    (hclear : m.Clear (idOf file.path (lambdaName place.qualname mark))) :
    t.lambdaDefinition file place mark params = u.lambdaDefinition file place mark params := by
  simp only [lambdaDefinition]
  rw [h.definitions _ hclear.1]

theorem placeIn_eq {o : Opening}
    (hclear : ∀ p ∈ o.defined place.qualname, m.Clear (idOf file.path p)) :
    t.placeIn file place o = u.placeIn file place o := by
  cases o with
  | lambda mark params =>
    simp only [placeIn]
    rw [h.lambdaDefinition_eq params (hclear _ mem_cons_self)]
  | _ => rfl

/-- Two walks go into the body of an item in step. -/
theorem enter (ht : t.Grounded file) (hu : u.Grounded file) (hs : u.Stands file place)
    {o : Opening} (hne : place.scope ≠ file.markId o.mark)
    (hclear : ∀ p ∈ o.defined place.qualname, m.Clear (idOf file.path p))
    (hon : ∀ name ∈ o.bound, ¬ m.off place.scope name) :
    Exceeds x m (t.enter file place o) (u.enter file place o) := by
  have hopen := h.openScope (file.markId o.mark)
  have ht' := ht.openScope (file.markId o.mark)
  have hu' := hu.openScope (file.markId o.mark)
  have hs' := hs.openScope hne
  refine Exceeds.unbind ?_ _ _
  cases o with
  | classDecl mark head =>
    exact (hopen.declare ht' hu' hs' (hclear _ (mem_singleton.mpr rfl))
      (hon _ (mem_singleton.mpr rfl))).record _
  | functionDecl mark head =>
    exact hopen.declare ht' hu' hs' (hclear _ (mem_singleton.mpr rfl))
      (hon _ (mem_singleton.mpr rfl))
  | lambda mark params =>
    simp only
    rw [h.lambdaDefinition_eq params (hclear _ mem_cons_self)]
    exact hopen.define _
  | block mark => exact hopen

/-! ## The walk -/

theorem step (file : FileContext) (place : Place) (i : Item) :
    Exceeds x m (t.step file place i) (u.step file place i) := by
  cases i with
  | call mark head => exact h.addCall file place mark head
  | assign mark a =>
    simp only [Ledger.step]
    split
    · exact h
    · split
      · exact (h.define _).unbind _ _
      · exact h.unbind _ _
  | reference mark expression => exact h.addReference _
  | suspend mark => exact h.suspend _
  | _ => exact h

/-- Two walks over items that leave the margin alone go in step. -/
theorem walkAll (hts : t.Stands file place) (htg : t.Grounded file) (hus : u.Stands file place)
    (hug : u.Grounded file) {is : List Item} (hfresh : file.Fresh place.scope is)
    (hclear : ∀ p ∈ Item.namesAll place.scopeKind place.qualname is, m.Clear (idOf file.path p))
    (hbound : ∀ name ∈ Item.boundNames is, ¬ m.off place.scope name)
    (hids : ∀ id ∈ file.idsOf is, ∀ name, ¬ m.off id name) :
    Exceeds x m (t.walkAll file place is) (u.walkAll file place is) := by
  induction is using Item.induct generalizing place t u with
  | nil =>
    rw [walkAll_nil, walkAll_nil]
    exact h
  | leaf i is hi ih =>
    obtain ⟨htg', hts', _⟩ := step_frames hts htg hi
    obtain ⟨hug', hus', _⟩ := step_frames hus hug hi
    rw [namesAll_cons, forall_mem_append] at hclear
    rw [boundNames_cons, forall_mem_append] at hbound
    rw [file.idsOf_cons_leaf hi, forall_mem_append] at hids
    rw [walkAll_cons, walkAll_cons, walk_leaf _ _ _ hi, walk_leaf _ _ _ hi]
    exact ih (h.step file place i) hts' htg' hus' hug' hfresh.tail hclear.2 hbound.2 hids.2
  | opened o body is hbody ih =>
    rw [namesAll_cons, forall_mem_append, forall_names_item] at hclear
    rw [boundNames_cons, forall_mem_append, boundNames_item] at hbound
    rw [file.idsOf_cons_item, forall_mem_cons, forall_mem_append] at hids
    obtain ⟨htg', hts', _⟩ := walk_frames hts htg hfresh.head
    obtain ⟨hug', hus', _⟩ := walk_frames hus hug hfresh.head
    have hne := hfresh.head.ne_and_not_mem.1
    have hplace := h.placeIn_eq hclear.1.1
    have hwalk :
      Exceeds x m (t.walk file place (o.item body)) (u.walk file place (o.item body)) := by
      rw [walk_item, walk_item, hplace]
      have htin := hts.inside htg hne
      rw [hplace] at htin
      refine hbody (h.enter htg hug hus hne hclear.1.1 hbound.1) htin (htg.enter place o)
        (hus.inside hug hne) (hug.enter place o) ?_ ?_ ?_ hids.2.1
      · rw [scope_placeIn]
        exact hfresh.head.inside
      · rw [scopeKind_placeIn]
        exact hclear.1.2 _ (u.qualname_placeIn file place o)
      · rw [scope_placeIn]
        exact fun name _ => hids.1 name
    rw [walkAll_cons, walkAll_cons]
    exact ih hwalk hts' htg' hus' hug' hfresh.tail hclear.2 hbound.2 hids.2.2

end

/-- Without a margin two walks go in step over all items outside the excess. -/
theorem walkAll_scopes {ids : String → Prop} (h : Exceeds x (.scopes ids) t u)
    (hts : t.Stands file place) (htg : t.Grounded file) (hus : u.Stands file place)
    (hug : u.Grounded file) {is : List Item} (hfresh : file.Fresh place.scope is)
    (hout : ∀ id ∈ place.scope :: file.idsOf is, ¬ ids id) :
    Exceeds x (.scopes ids) (t.walkAll file place is) (u.walkAll file place is) := by
  rw [forall_mem_cons] at hout
  exact h.walkAll hts htg hus hug hfresh (fun p _ => Margin.clear_scopes ids _) (fun _ _ => hout.1)
    fun id hid _ => hout.2 id hid

/-! ## What is left -/

/-- Without a margin the class records agree exactly if none is left. -/
theorem classes_eq_iff (h : Exceeds x (.scopes x.ids) t u)
    (hu : ∀ id decl, u.classes id = some decl → ¬ x.ids decl.body) :
    t.classes = u.classes ↔ ∀ id decl, t.classes id = some decl → ¬ x.ids decl.body := by
  constructor
  · intro heq id decl hdecl
    exact hu id decl (heq ▸ hdecl)
  · intro ht
    funext id
    rcases h.classes id rfl with heq | ⟨decl, hdecl, hbody⟩
    · exact heq
    · exact (ht id decl hdecl hbody).elim

/-- Without a margin the references agree exactly if the excess has none. -/
theorem references_eq_iff (h : Exceeds x m t u) :
    t.references = u.references ↔ x.references = [] := by
  obtain ⟨first, last, hu, ht⟩ := h.references
  rw [hu, ht]
  constructor
  · intro heq
    have hlength := congrArg List.length heq
    simp only [length_append] at hlength
    exact eq_nil_of_length_eq_zero (by omega)
  · intro hnone
    rw [hnone, append_nil]

/-- Without a margin the calls agree exactly if none is left and the later ones are not raised. -/
theorem calls_eq_iff (h : Exceeds x (.scopes x.ids) t u) (hu : ∀ c ∈ u.calls, ¬ x.ids c.site) :
    t.calls = u.calls ↔ (∀ c ∈ t.calls, ¬ x.ids c.site) ∧
      ∀ c ∈ u.calls, x.base c.caller ≤ c.order →
        x.calls c.caller = 0 ∧ (x.suspended c.caller → c.isSuspended) := by
  obtain ⟨first, extra, last, hucalls, htcalls, hfirst, hextra, hlast⟩ := h.calls
  simp only [Margin.scopes, Bool.not_false, filter_true] at hucalls htcalls
  constructor
  · intro heq
    refine ⟨heq ▸ hu, fun c hc hbase => Excess.raise_eq_self.mp ?_⟩
    have hparts : first ++ extra ++ last.map x.raise = first ++ last := by
      rw [← hucalls, ← htcalls, heq]
    have hnone : extra = [] := by
      have hlength := congrArg List.length hparts
      simp only [length_append, length_map] at hlength
      exact eq_nil_of_length_eq_zero (by omega)
    rw [hnone, append_nil, append_cancel_left_eq] at hparts
    rw [hucalls, mem_append] at hc
    rcases hc with hc | hc
    · exact absurd hbase (Nat.not_le_of_lt (hfirst c hc))
    · exact map_inj_left.mp (hparts.trans (map_id last).symm) c hc
  · rintro ⟨hnone, hraise⟩
    have hextra' : extra = [] := by
      refine eq_nil_iff_forall_not_mem.mpr fun c hc => hnone c ?_ (hextra c hc)
      rw [htcalls]
      exact mem_append_left _ (mem_append_right _ hc)
    have hlast' : last.map x.raise = last.map id := by
      refine map_inj_left.mpr fun c hc => Excess.raise_eq_self.mpr (hraise c ?_ (hlast c hc))
      rw [hucalls]
      exact mem_append_right _ hc
    rw [hucalls, htcalls, hextra', hlast', map_id, append_nil]

end Exceeds

end Ledger

end Xref

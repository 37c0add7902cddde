import Xref.Proofs.Digest.Conflicts
import Xref.Proofs.Digest.Reports

/-!
# Calls in program order

Every call of an outline leaves one record, in program order. What a record says is told by where
the call stands: its scope is the innermost around it, its caller what was made for the innermost
function or lambda around it, and its number and suspension count what comes before it on behalf of
the same caller. The records stay as they are unless a declaration is replaced.
-/

namespace Xref

open Item List Text Definition Draft

/-! ## Occurrences of items -/

/-- An item of an outline, with the heads of the items around it, the innermost first. -/
structure Occurrence where
  around : List Opening
  item : Item

namespace Item

def isCall : Item → Bool
  | call .. => true
  | _ => false

def isSuspension : Item → Bool
  | suspend _ => true
  | _ => false

mutual

/-- The item and all below it, in program order. -/
def occurrences (around : List Opening) : Item → List Occurrence
  | classDecl m h b => ⟨around, classDecl m h b⟩ :: occurrencesAll (.classDecl m h :: around) b
  | functionDecl m h b =>
    ⟨around, functionDecl m h b⟩ :: occurrencesAll (.functionDecl m h :: around) b
  | lambda m ps b => ⟨around, lambda m ps b⟩ :: occurrencesAll (.lambda m ps :: around) b
  | block m b => ⟨around, block m b⟩ :: occurrencesAll (.block m :: around) b
  | i => [⟨around, i⟩]

/-- The items of a body and all below them, in program order. -/
def occurrencesAll (around : List Opening) : List Item → List Occurrence
  | [] => []
  | i :: is => occurrences around i ++ occurrencesAll around is

end

section

variable (around : List Opening)

theorem occurrencesAll_nil : occurrencesAll around [] = [] := by
  rw [occurrencesAll]

theorem occurrencesAll_cons_leaf {i : Item} (hi : i.isLeaf) (is : List Item) :
    occurrencesAll around (i :: is) = ⟨around, i⟩ :: occurrencesAll around is := by
  rw [occurrencesAll]
  cases i with
  | classDecl | functionDecl | lambda | block => cases hi
  | _ => rw [occurrences] <;> simp

theorem occurrencesAll_cons_item (o : Opening) (body is : List Item) :
    occurrencesAll around (o.item body :: is) =
      ⟨around, o.item body⟩ :: (occurrencesAll (o :: around) body ++ occurrencesAll around is) := by
  rw [occurrencesAll]
  cases o <;> rw [Opening.item, occurrences, cons_append]

/-- The items that occur are those that a walk comes to. -/
theorem map_item_occurrencesAll (is : List Item) :
    (occurrencesAll around is).map (·.item) = walkedAll is := by
  induction is using induct generalizing around with
  | nil =>
    rw [occurrencesAll_nil, walkedAll]
    rfl
  | leaf i is hi ih => rw [occurrencesAll_cons_leaf around hi, walkedAll_cons_leaf hi, map_cons, ih]
  | opened o body is hbody ih =>
    rw [occurrencesAll_cons_item, walkedAll_cons_item, map_cons, map_append, hbody, ih]

end

end Item

/-- Whether the body of an item is its own caller. -/
def Opening.isCaller : Opening → Bool
  | functionDecl .. | lambda .. => true
  | classDecl .. | block _ => false

/-- Whether an item makes a definition, after which what is inside it is named. -/
def Opening.isNamed : Opening → Bool
  | block _ => false
  | classDecl .. | functionDecl .. | lambda .. => true

theorem Opening.eq_of_item_eq {o o' : Opening} {body body' : List Item}
    (h : o.item body = o'.item body') : o = o' := by
  cases o <;> cases o' <;> cases h <;> rfl

/-- The mark of the innermost of some items around that has a property, or that of the file. -/
def innermost (p : Opening → Bool) (root : Mark) (around : List Opening) : Mark :=
  ((around.find? p).map Opening.mark).getD root

theorem innermost_cons (p : Opening → Bool) (root : Mark) (o : Opening) (around : List Opening) :
    innermost p root (o :: around) = if p o then o.mark else innermost p root around := by
  cases h : p o <;> simp [innermost, h]

namespace Occurrence

/-- The mark of the innermost scope around. -/
def scopeMark (root : Mark) (x : Occurrence) : Mark :=
  innermost (fun _ => true) root x.around

/-- The mark of the innermost function or lambda around. -/
def callerMark (root : Mark) (x : Occurrence) : Mark :=
  innermost Opening.isCaller root x.around

/-- The mark of the innermost declaration or lambda around. -/
def namedMark (root : Mark) (x : Occurrence) : Mark :=
  innermost Opening.isNamed root x.around

end Occurrence

/-! ## Records of calls -/

/-- An item, with the scope and the caller for which it is met. -/
structure Stop where
  scope : ScopeId
  caller : DefId
  item : Item

namespace Stop

def isCallOf (caller : DefId) (s : Stop) : Bool :=
  s.item.isCall && s.caller = caller

/-- Whether a suspension is met for a caller. -/
def isSuspensionOf (caller : DefId) (s : Stop) : Bool :=
  s.item.isSuspension && s.caller = caller

/-- The record that a call leaves after some other stops: it counts the calls of its caller among
them, and tells whether the caller was suspended. -/
def record? (path : String) (earlier : List Stop) (s : Stop) : Option PendingCall :=
  match s.item with
  | .call mark head => some
    { site := Scope.idOf path (mark.id.getD ""), caller := s.caller, scope := s.scope, path
      location := mark.location, order := earlier.countP (isCallOf s.caller), callee := head.callee
      receiver := head.receiver, argCount := head.argCount
      isSuspended := earlier.any (isSuspensionOf s.caller) }
  | _ => none

/-- The records that the calls among some stops leave, after some others. -/
def recordsAfter (path : String) : List Stop → List Stop → List PendingCall
  | _, [] => []
  | earlier, s :: stops =>
    (s.record? path earlier).toList ++ recordsAfter path (earlier ++ [s]) stops

theorem recordsAfter_append (path : String) (earlier stops stops' : List Stop) :
    recordsAfter path earlier (stops ++ stops') =
      recordsAfter path earlier stops ++ recordsAfter path (earlier ++ stops) stops' := by
  induction stops generalizing earlier with
  | nil => simp [recordsAfter]
  | cons s stops ih => simp [recordsAfter, ih]

end Stop

/-- Where a walk comes to an item. -/
def Visit.stop (w : Visit) : Stop :=
  ⟨w.place.scope, w.place.caller, w.item⟩

/-- The counts and suspensions of a ledger are those of some stops. -/
structure Ledger.Tallies (l : Ledger) (stops : List Stop) : Prop where
  counts : ∀ caller, l.counts caller = stops.countP (Stop.isCallOf caller)
  suspended : ∀ caller, l.suspended caller = stops.any (Stop.isSuspensionOf caller)

namespace Ledger

variable {l l' : Ledger} {stops : List Stop} (file : FileContext) (place : Place)

variable (h : l.Tallies stops) (mark : Mark)
include h

theorem Tallies.congr (hcounts : l'.counts = l.counts) (hsuspended : l'.suspended = l.suspended) :
    l'.Tallies stops :=
  ⟨fun caller => hcounts ▸ h.counts caller, fun caller => hsuspended ▸ h.suspended caller⟩

/-- What is neither a call nor a suspension is not tallied. -/
theorem Tallies.pass {s : Stop} (hcall : s.item.isCall = false)
    (hsuspension : s.item.isSuspension = false) : l.Tallies (stops ++ [s]) := by
  constructor
  · intro caller
    simp [h.counts caller, Stop.isCallOf, hcall]
  · intro caller
    simp [h.suspended caller, Stop.isSuspensionOf, hsuspension]

theorem Tallies.addCall (head : CallHead) :
    (l.addCall file place mark head).Tallies (stops ++ [⟨place.scope, place.caller,
      .call mark head⟩]) := by
  constructor
  · intro caller
    show (if caller = place.caller then l.counts caller + 1 else l.counts caller) = _
    by_cases hcaller : caller = place.caller
    · simp [hcaller, h.counts, Stop.isCallOf, Item.isCall]
    · simp [hcaller, h.counts, Stop.isCallOf, Item.isCall, Ne.symm hcaller]
  · intro caller
    simp [Ledger.addCall, h.suspended, Stop.isSuspensionOf, Item.isSuspension]

theorem Tallies.suspend :
    (l.suspend place.caller).Tallies (stops ++ [⟨place.scope, place.caller, .suspend mark⟩]) := by
  constructor
  · intro caller
    simp [Ledger.suspend, h.counts, Stop.isCallOf, Item.isCall]
  · intro caller
    show (decide (caller = place.caller) || l.suspended caller) = _
    rw [h.suspended, any_append, Bool.or_comm]
    simp [Stop.isSuspensionOf, Item.isSuspension, eq_comm]

/-- The record of a call counts what is tallied. -/
theorem Tallies.record?_eq (head : CallHead) :
    Stop.record? file.path stops ⟨place.scope, place.caller, .call mark head⟩ =
      some (l.callRecord file place mark head) := by
  simp only [Stop.record?, callRecord, h.counts, h.suspended]
  rfl

/-- An item without a body leaves a record if it is a call, and is tallied. -/
theorem Tallies.step {i : Item} (hi : i.isLeaf) :
    (l.step file place i).calls = l.calls ++ (Stop.record? file.path stops ⟨place.scope,
      place.caller, i⟩).toList ∧
      (l.step file place i).Tallies (stops ++ [⟨place.scope, place.caller, i⟩]) := by
  cases i with
  | classDecl | functionDecl | lambda | block => cases hi
  | call mark head =>
    rw [h.record?_eq]
    exact ⟨rfl, h.addCall file place mark head⟩
  | suspend mark => exact ⟨(append_nil _).symm, h.suspend place mark⟩
  | assign mark a =>
    have hsame : (l.step file place (.assign mark a)).calls = l.calls ∧
        (l.step file place (.assign mark a)).counts = l.counts ∧
        (l.step file place (.assign mark a)).suspended = l.suspended := by
      unfold Ledger.step
      dsimp only
      split
      · exact ⟨rfl, rfl, rfl⟩
      · split <;> exact ⟨rfl, rfl, rfl⟩
    exact ⟨hsame.1.trans (append_nil _).symm, (h.congr hsame.2.1 hsame.2.2).pass rfl rfl⟩
  | reference mark expression =>
    have hsame : (l.step file place (.reference mark expression)).Tallies stops := h.congr rfl rfl
    exact ⟨(append_nil _).symm, hsame.pass rfl rfl⟩
  | _ => exact ⟨(append_nil _).symm, h.pass rfl rfl⟩

/-- Going into the body of an item counts and suspends nothing. -/
theorem Tallies.enter (o : Opening) (body : List Item) :
    (l.enter file place o).Tallies (stops ++ [⟨place.scope, place.caller, o.item body⟩]) := by
  have hroom : ∀ (m : Ledger) (scope : ScopeId) (x : Definition),
      (m.makeRoom scope x).counts = m.counts ∧ (m.makeRoom scope x).suspended = m.suspended := by
    intro m scope x
    unfold makeRoom
    split <;> exact ⟨rfl, rfl⟩
  have hsame : (l.enter file place o).counts = l.counts ∧
    (l.enter file place o).suspended = l.suspended := by
    cases o with
    | classDecl mark head => exact hroom (l.openScope (file.markId mark)) _ _
    | functionDecl mark head => exact hroom (l.openScope (file.markId mark)) _ _
    | lambda | block => exact ⟨rfl, rfl⟩
  refine (h.congr hsame.1 hsame.2).pass ?_ ?_ <;> cases o <;> rfl

end Ledger

/-! ## Walks that replace nothing -/

namespace Draft

variable {d d' : Draft} {file : FileContext} {place : Place}

/-- A declaration that reports nothing drops no calls. -/
theorem quiet_declare {scope : ScopeId} {x : Definition}
    (h : (d.declare scope x).diagnostics = []) :
    d.diagnostics = [] ∧ (d.declare scope x).calls = d.calls := by
  have hcalls : ∀ e : Draft, (e.bind scope x.name (.declared x.id)).calls = e.calls := by
    intro e
    unfold bind modifyScope
    split <;> rfl
  unfold declare at h ⊢
  dsimp only at h ⊢
  split at h
  · rw [define, diagnostics_bind] at h
    simp at h
  · rw [define, diagnostics_bind] at h
    exact ⟨h, hcalls d⟩

theorem quiet_enter {o : Opening} (h : (d.enter file place o).diagnostics = []) :
    d.diagnostics = [] ∧ (d.enter file place o).calls = d.calls := by
  have hparams : ∀ (e : Draft) (scope seenFrom : ScopeId) (params : List Param),
      (e.bindParams scope seenFrom params).calls = e.calls := by
    intro e scope seenFrom params
    exact congrArg Ledger.calls (e.ledger_bindParams scope seenFrom params)
  have hreceiver :
    ∀ (e : Draft) (scope : ScopeId) (name : String) (role : ReceiverRole) (owner : DefId),
      (e.bind scope name (.receiver role owner)).calls = e.calls := by
    intro e scope name role owner
    exact congrArg Ledger.calls (e.ledger_bind_of_none scope name rfl)
  cases o with
  | classDecl mark head => exact quiet_declare h
  | functionDecl mark head =>
    unfold enter at h ⊢
    dsimp only at h ⊢
    rw [(rebound_bindParams ..).diagnostics] at h
    rw [hparams]
    cases hself : head.receiver? place.ownerClass with
    | none =>
      rw [hself] at h
      exact quiet_declare h
    | some receiver =>
      rw [hself] at h
      dsimp only at h ⊢
      rw [diagnostics_bind] at h
      rw [hreceiver]
      exact quiet_declare h
  | lambda mark params =>
    unfold enter at h ⊢
    dsimp only at h ⊢
    rw [(rebound_bindParams ..).diagnostics] at h
    rw [hparams]
    exact ⟨h, rfl⟩
  | block mark => exact ⟨h, rfl⟩

variable {is : List Item} (o : Opening)

/-- A walk takes back no report. -/
theorem quiet_walkAll (h : walkAll file place d is = .ok d') (hquiet : d'.diagnostics = []) :
    d.diagnostics = [] := by
  induction is using induct generalizing place d d' with
  | nil =>
    cases h
    exact hquiet
  | leaf i is hi ih =>
    obtain ⟨d₁, hstep, hrest⟩ := exists_of_walkAll_cons h
    rw [← diagnostics_leaf hi hstep]
    exact ih hrest hquiet
  | opened o body is hbody ih =>
    obtain ⟨d₁, hstep, hrest⟩ := exists_of_walkAll_cons h
    replace hstep := walkAll_of_walk_item hstep
    exact (quiet_enter (hbody hstep (ih hrest hquiet))).1

/-- A walk that reports nothing leaves one record for each call that it comes to. -/
theorem calls_walkAll {stops : List Stop} (hscope : place.scope ∈ d.scopes.keys)
    (h : walkAll file place d is = .ok d') (hquiet : d'.diagnostics = [])
    (ht : d.ledger.Tallies stops) :
    d'.calls = d.calls ++ Stop.recordsAfter file.path stops
      ((visitsAll file place d is).map Visit.stop) ∧
      d'.ledger.Tallies (stops ++ (visitsAll file place d is).map Visit.stop) := by
  induction is using Item.induct generalizing place d d' stops with
  | nil =>
    cases h
    rw [visitsAll_nil]
    simpa [Stop.recordsAfter] using ht
  | leaf i is hi ih =>
    obtain ⟨d₁, hstep, hrest⟩ := exists_of_walkAll_cons h
    obtain ⟨hledger, hkeys⟩ := ledger_leaf hi hstep
    obtain ⟨hcalls, ht₁⟩ := ht.step file place hi
    rw [← hledger] at hcalls ht₁
    obtain ⟨hcalls', ht'⟩ := ih (hkeys _ hscope) hrest hquiet ht₁
    have hcalls : d₁.calls = d.calls ++ _ := hcalls
    rw [visitsAll_cons hstep, visits_leaf file place d hi, singleton_append, map_cons]
    refine ⟨?_, by simpa [Visit.stop] using ht'⟩
    rw [hcalls', hcalls, Stop.recordsAfter, append_assoc]
    rfl
  | opened o body is hbody ih =>
    obtain ⟨d₁, hstep, hrest⟩ := exists_of_walkAll_cons h
    have hvisits := visitsAll_cons hstep is
    replace hstep := walkAll_of_walk_item hstep
    have hquiet₁ := quiet_walkAll hrest hquiet
    have hcallsIn := (quiet_enter (quiet_walkAll hstep hquiet₁)).2
    have hopen : (d.placeIn file place o).scope ∈ (d.enter file place o).scopes.keys := by
      rw [d.scope_placeIn]
      exact d.mem_scopes_enter file place o (.inl rfl)
    have htIn := ht.enter file place o body
    rw [← d.ledger_enter file hscope] at htIn
    obtain ⟨hcalls₁, ht₁⟩ := hbody hopen hstep hquiet₁ htIn
    have hscope₁ : place.scope ∈ d₁.scopes.keys :=
      (ledger_walkAll hopen hstep).2 _ (d.mem_scopes_enter file place o (.inr hscope))
    obtain ⟨hcalls', ht'⟩ := ih hscope₁ hrest hquiet ht₁
    have hnone : Stop.record? file.path stops ⟨place.scope, place.caller, o.item body⟩ = none := by
      cases o <;> rfl
    rw [hvisits, visits_item, cons_append, map_cons, map_append]
    refine ⟨?_, by simpa [Visit.stop] using ht'⟩
    rw [hcalls', hcalls₁, hcallsIn, Stop.recordsAfter, Stop.recordsAfter_append, ← append_assoc]
    simp only [Visit.stop, hnone, Option.toList_none, nil_append, append_assoc]

/-! ## Where a walk stands -/

/-- What was made by the item that opened a scope. -/
def ownerOf? (d : Draft) (id : ScopeId) : Option DefId :=
  (d.scopes.get? id).bind (·.owner)

theorem ownerOf?_eq (d : Draft) (id : ScopeId) : d.ownerOf? id = (d.opened? id).bind (·.owner) := by
  rw [ownerOf?, opened?]
  cases d.scopes.get? id <;> rfl

theorem ownerOf?_walkAll (h : walkAll file place d is = .ok d') {id : ScopeId}
    (hid : id ∉ file.idsOf is) : d'.ownerOf? id = d.ownerOf? id := by
  rw [ownerOf?_eq, ownerOf?_eq, opened?_walkAll h hid]

theorem ownerOf?_enter :
    (d.enter file place o).ownerOf? (file.markId o.mark) = (d.made? file place o).map (·.id) := by
  rw [ownerOf?_eq, d.opened?_enter, if_pos rfl]
  rfl

/-- The body of a function or lambda is called for what was made for it. -/
theorem caller_placeIn : some (d.placeIn file place o).caller =
    if o.isCaller then (d.made? file place o).map (·.id) else some place.caller := by
  cases o <;> rfl

/-- What is inside a declaration or lambda is named after what was made for it. -/
theorem qualname_placeIn :
    some (idOf file.path (d.placeIn file place o).qualname) =
    if o.isNamed then (d.made? file place o).map (·.id)
      else some (idOf file.path place.qualname) := by
  cases o <;> rfl

/-- The definition that is made for an item is named after what is around it. -/
theorem exists_made? {o : Opening} (ho : o.isNamed) : ∃ n ∈ o.defined place.qualname,
    (d.made? file place o).map (·.id) = some (idOf file.path n) := by
  cases o with
  | block mark => cases ho
  | classDecl mark head | functionDecl mark head => exact ⟨_, mem_singleton.mpr rfl, rfl⟩
  | lambda mark params =>
    have hname := d.ledger.qualname_lambdaDefinition file place mark params
    rw [lambdaDefinition_ledger] at hname
    exact ⟨_, hname, rfl⟩

end Draft

/-- A place lies inside some items, where `own` tells for the scopes around what was made by the
item that opened them. -/
structure Place.Inside (file : FileContext) (root : Mark) (own : ScopeId → Option DefId)
    (around : List Opening) (place : Place) : Prop where
  scope : place.scope = file.markId (innermost (fun _ => true) root around)
  caller : own (file.markId (innermost Opening.isCaller root around)) = some place.caller
  named : own (file.markId (innermost Opening.isNamed root around)) =
    some (idOf file.path place.qualname)

theorem Place.Inside.enter {file : FileContext} {root : Mark} {own : ScopeId → Option DefId}
    {around : List Opening} {place : Place} {d : Draft} {o : Opening}
    (h : place.Inside file root own around)
    (ho : own (file.markId o.mark) = (d.made? file place o).map (·.id)) :
    (d.placeIn file place o).Inside file root own (o :: around) where
  scope := by rw [d.scope_placeIn, innermost_cons, if_pos rfl]
  caller := by
    rw [d.caller_placeIn, innermost_cons]
    split
    · exact ho
    · exact h.caller
  named := by
    rw [d.qualname_placeIn, innermost_cons]
    split
    · exact ho
    · exact h.named

/-- A visit of a walk is one of an occurrence. -/
structure Visit.Meets (file : FileContext) (root : Mark) (own : ScopeId → Option DefId) (w : Visit)
    (x : Occurrence) : Prop where
  item : w.item = x.item
  place : w.place.Inside file root own x.around
  made : ∀ o body, x.item = o.item body →
    own (file.markId o.mark) = (w.draft.made? file w.place o).map (·.id)

/-- A walk visits the items as they occur, if `own` tells the owners of the scopes at its end. -/
theorem meets_visitsAll {file : FileContext} {root : Mark} {own : ScopeId → Option DefId}
    {place : Place} {d d' : Draft} {is : List Item} {around : List Opening}
    (hfresh : file.Fresh place.scope is) (h : walkAll file place d is = .ok d')
    (hown : ∀ id ∈ file.idsOf is, own id = d'.ownerOf? id)
    (hplace : place.Inside file root own around) :
    List.Forall₂ (Visit.Meets file root own) (visitsAll file place d is)
      (occurrencesAll around is) := by
  induction is using induct generalizing place d d' around with
  | nil =>
    rw [visitsAll_nil, occurrencesAll_nil]
    exact .nil
  | leaf i is hi ih =>
    obtain ⟨d₁, hstep, hrest⟩ := exists_of_walkAll_cons h
    rw [visitsAll_cons hstep, visits_leaf file place d hi, singleton_append,
      occurrencesAll_cons_leaf around hi]
    rw [file.idsOf_cons_leaf hi] at hown
    refine .cons ⟨rfl, hplace, ?_⟩ (ih hfresh.tail hrest (fun id hid => ?_) hplace)
    · rintro o body rfl
      cases o <;> cases hi
    · exact hown id (mem_append_right _ hid)
  | opened o body is hbody ih =>
    obtain ⟨d₁, hstep, hrest⟩ := exists_of_walkAll_cons h
    have hvisits := visitsAll_cons hstep is
    replace hstep := walkAll_of_walk_item hstep
    rw [file.idsOf_cons_item] at hown
    have hsplit : file.Fresh place.scope ([o.item body] ++ is) := hfresh
    have hinside : file.Fresh (file.markId o.mark) body := hfresh.head.inside
    -- no scope of the item is opened again behind it
    have hlater : ∀ id ∈ file.markId o.mark :: file.idsOf body, id ∉ file.idsOf is := by
      intro id hid hid'
      refine hsplit.disjoint id (mem_cons_of_mem _ hid') ?_
      rwa [file.idsOf_item]
    have hmade : own (file.markId o.mark) = (d.made? file place o).map (·.id) := by
      rw [hown _ mem_cons_self, ownerOf?_walkAll hrest (hlater _ mem_cons_self),
        ownerOf?_walkAll hstep hinside.not_mem, ownerOf?_enter]
    have hownBody : ∀ id ∈ file.idsOf body, own id = d₁.ownerOf? id := by
      intro id hid
      rw [hown id (mem_cons_of_mem _ (mem_append_left _ hid)),
        ownerOf?_walkAll hrest (hlater id (mem_cons_of_mem _ hid))]
    rw [hvisits, visits_item, cons_append, occurrencesAll_cons_item]
    refine .cons ⟨rfl, hplace, ?_⟩ (rel_append (hbody ?_ hstep hownBody (hplace.enter hmade))
      (ih hfresh.tail hrest (fun id hid => ?_) hplace))
    · intro o' body' heq
      obtain rfl := Opening.eq_of_item_eq heq
      exact hmade
    · rwa [d.scope_placeIn]
    · exact hown id (mem_cons_of_mem _ (mem_append_right _ hid))

namespace Visit.Meets

variable {file : FileContext} {root : Mark} {own : ScopeId →
  Option DefId} {ws : List Visit} {xs : List Occurrence}

variable (h : List.Forall₂ (Meets file root own) ws xs)
include h

theorem exists_of_mem {x : Occurrence} (hx : x ∈ xs) : ∃ w, Meets file root own w x := by
  induction h with
  | nil => cases hx
  | cons hw _ ih =>
    rcases mem_cons.mp hx with rfl | hx
    · exact ⟨_, hw⟩
    · exact ih hx

theorem map_stop : ws.map Visit.stop = xs.map fun x =>
    ⟨file.markId (x.scopeMark root), (own (file.markId (x.callerMark root))).getD "", x.item⟩ := by
  induction h with
  | nil => rfl
  | @cons w x ws xs hw _ ih =>
    have hcaller : own (file.markId (x.callerMark root)) = some w.place.caller := hw.place.caller
    rw [map_cons, map_cons, ih, hcaller, ← hw.item]
    exact congrArg (· :: _) (congrArg (Stop.mk · w.place.caller w.item) hw.place.scope)

end Visit.Meets

/-! ## Calls of a file -/

namespace Digest

/-- What was made by the item that opened a scope. -/
def ownerOf? (d : Digest) (id : ScopeId) : Option DefId :=
  (d.scopes.get? id).bind (·.owner)

/-- **Calls mirror the outline.** A well-formed file without file bodies inside is digested exactly
if the walk over it fits. Then the items occur in program order. The file's scope is owned by its
module, and the scope of a declaration or lambda by a definition that is named after the owner of
the innermost declaration or lambda around it. Unless a declaration is replaced, there is one record
for each call, in program order: its scope is the innermost around the call, its caller the
definition that owns the scope of the innermost function or lambda around it, or of the file; and it
counts the earlier calls of that caller and tells whether the caller was suspended before. -/
theorem calls_mirror_outline {o : Outline} {mark : Mark} {body : List Item}
    (hcheck : o.check = .ok ()) (hroot : o.root = .fileBody mark body)
    (hflat : ∀ i ∈ preorderAll body, i.isFileBody = false) (version : Int) :
    ((∃ d, ofOutline o version = .ok d) ↔ Fits walkRoom body) ∧
    ∀ d, ofOutline o version = .ok d → d.isFailed = false ∧
      (occurrencesAll [] body).map (·.item) = preorderAll body ∧
      d.ownerOf? ((o.context version).markId mark) = some (idOf o.path o.moduleName) ∧
      (∀ x ∈ occurrencesAll [] body, ∀ (opening : Opening) (inside : List Item),
        x.item = opening.item inside → opening.isNamed = true →
        ∃ outer, d.ownerOf? ((o.context version).markId (x.namedMark mark)) =
          some (idOf o.path outer) ∧ ∃ q ∈ opening.defined outer,
            d.ownerOf? ((o.context version).markId opening.mark) = some (idOf o.path q)) ∧
      ((∀ q path previousPath, .duplicate q path previousPath ∉ d.diagnostics) →
        ∃ caller : Occurrence → DefId,
          (∀ x ∈ occurrencesAll [] body,
            d.ownerOf? ((o.context version).markId (x.callerMark mark)) = some (caller x)) ∧
          d.calls = Stop.recordsAfter o.path [] ((occurrencesAll [] body).map fun x =>
            ⟨(o.context version).markId (x.scopeMark mark), caller x, x.item⟩) ∧
          ∀ c ∈ d.calls, c.caller ∈ d.definitions.keys) := by
  refine ⟨exists_ofOutline_iff_of_flat hcheck hroot hflat version, fun d hd => ?_⟩
  have hwalked := walkedAll_eq_preorderAll hflat
  obtain ⟨_, _, herror, _⟩ | ⟨_, _, _, draft, hroot', hwalk, rfl⟩ := ofOutline_cases hd
  · cases hcheck.symm.trans herror
  cases hroot.symm.trans hroot'
  have hfresh := Outline.fresh_of_check hcheck hroot (o.context version)
  have hmodule : draft.ownerOf? ((o.context version).markId mark) =
      some (idOf o.path o.moduleName) := by
    rw [ownerOf?_walkAll hwalk hfresh.not_mem, ownerOf?_eq, FileContext.opened?_startDraft,
      if_pos rfl]
    rfl
  have hstart :
    ((o.context version).startPlace mark).Inside (o.context version) mark draft.ownerOf? [] :=
    ⟨rfl, hmodule, hmodule⟩
  have hmeets := meets_visitsAll hfresh hwalk (fun _ _ => rfl) hstart
  refine ⟨rfl, ?_, hmodule, fun x hx opening inside hitem hnamed => ?_, fun hquiet => ?_⟩
  · rw [map_item_occurrencesAll, hwalked]
  · obtain ⟨w, hw⟩ := Visit.Meets.exists_of_mem hmeets hx
    obtain ⟨q, hq, hid⟩ := w.draft.exists_made? hnamed
    exact ⟨w.place.qualname, hw.place.named, q, hq, (hw.made opening inside hitem).trans hid⟩
  · have hnone : draft.diagnostics = [] := by
      refine eq_nil_iff_forall_not_mem.mpr fun x hx => ?_
      obtain ⟨q, path, previousPath, rfl⟩ :=
        walkAll_onlyReplaced _ _ (fun x hx => by cases hx) body hwalk x hx
      exact hquiet q path previousPath hx
    have hscope := (o.context version).scope_startPlace mark
    have htally : ((o.context version).startDraft mark).ledger.Tallies [] :=
      ⟨fun _ => rfl, fun _ => rfl⟩
    have hcalls := (calls_walkAll hscope hwalk hnone htally).1
    have hgrounded := (Ledger.walkAll_frames ((o.context version).stands_startDraft mark)
      ((o.context version).grounded_startDraft mark) hfresh).1
    rw [← (ledger_walkAll hscope hwalk).1] at hgrounded
    rw [Visit.Meets.map_stop hmeets] at hcalls
    refine ⟨fun x => (draft.ownerOf? ((o.context version).markId (x.callerMark mark))).getD "",
      fun x hx => ?_, hcalls, fun c hc => ?_⟩
    · obtain ⟨w, hw⟩ := Visit.Meets.exists_of_mem hmeets hx
      have hcaller :
        draft.ownerOf? ((o.context version).markId (x.callerMark mark)) = some w.place.caller :=
        hw.place.caller
      have hget : (draft.ownerOf? ((o.context version).markId (x.callerMark mark))).getD "" =
        w.place.caller := by
        rw [hcaller]
        rfl
      exact hcaller.trans (congrArg some hget.symm)
    · obtain ⟨x, hx⟩ := (hgrounded.called c hc).1
      exact OrderedMap.mem_keys_iff.mpr ⟨x, hx⟩

/-- A file with calls of its module, of an overloaded function, of a class body with a block in it,
and of a method with a lambda in it. -/
def busyFile : Outline :=
  Small.file "m.py" "m"
    [Small.callItem "c1" "f", .functionDecl (Small.mark "f1") ⟨"f", [], ["overload"], false,
        false⟩ [Small.callItem "c2" "g"],
      .functionDecl (Small.mark "f2") ⟨"f", [], [], false, false⟩
        [.suspend (Small.mark "s"), Small.callItem "c3" "g"],
      Small.classItem "C" []
        [Small.callItem "c4" "g", .block (Small.mark "b") [Small.callItem "c5" "g"],
          Small.functionItem "run" "run" false
            [.lambda (Small.mark "fn") [] [Small.callItem "c6" "g"], Small.callItem "c7" "g"]],
      Small.callItem "c8" "g"]

/-- What a record tells but for what is called. -/
def summary (c : PendingCall) : SiteId × DefId × ScopeId × Nat × Bool :=
  (c.site, c.caller, c.scope, c.order, c.isSuspended)

/-- The overloads share a caller, and the class body and the block belong to the module. -/
theorem calls_mirror_busyFile :
    ∃ d, ofOutline busyFile 1 = .ok d ∧ d.diagnostics = [] ∧
      (∃ caller : Occurrence → DefId, (∀ x ∈ occurrencesAll [] busyFile.root.body,
          d.ownerOf? ((busyFile.context 1).markId (x.callerMark (Small.mark "file"))) =
            some (caller x)) ∧
        d.calls = Stop.recordsAfter "m.py" [] ((occurrencesAll [] busyFile.root.body).map fun x =>
          ⟨(busyFile.context 1).markId (x.scopeMark (Small.mark "file")), caller x, x.item⟩)) ∧
      d.calls.map summary =
        [("m.py#c1", "m.py::m", "m.py#file", 0, false),
          ("m.py#c2", "m.py::m.f", "m.py#f1", 0, false),
          ("m.py#c3", "m.py::m.f", "m.py#f2", 1, true), ("m.py#c4", "m.py::m", "m.py#C", 1, false),
          ("m.py#c5", "m.py::m", "m.py#b", 2, false),
          ("m.py#c6", "m.py::m.C.run.<lambda@1:0>", "m.py#fn", 0, false),
          ("m.py#c7", "m.py::m.C.run", "m.py#run", 0, false), ("m.py#c8", "m.py::m", "m.py#file", 3,
            false)] := by
  have hcheck : busyFile.check = .ok () := by decide +kernel
  have hflat : ∀ i ∈ preorderAll busyFile.root.body, i.isFileBody = false := by decide +kernel
  have hfits : Fits walkRoom busyFile.root.body := by decide +kernel
  obtain ⟨hdigest, hall⟩ := calls_mirror_outline hcheck rfl hflat 1
  obtain ⟨d, hd⟩ := hdigest.mpr hfits
  obtain ⟨_, _, _, _, hcalls⟩ := hall d hd
  have hquiet : ((ofOutline busyFile 1).toOption.map (·.diagnostics)) = some [] := by decide +kernel
  have hsummary : ((ofOutline busyFile 1).toOption.map (·.calls.map summary)) = some
      [("m.py#c1", "m.py::m", "m.py#file", 0, false), ("m.py#c2", "m.py::m.f", "m.py#f1", 0, false),
        ("m.py#c3", "m.py::m.f", "m.py#f2", 1, true), ("m.py#c4", "m.py::m", "m.py#C", 1, false),
        ("m.py#c5", "m.py::m", "m.py#b", 2, false),
        ("m.py#c6", "m.py::m.C.run.<lambda@1:0>", "m.py#fn", 0, false),
        ("m.py#c7", "m.py::m.C.run", "m.py#run", 0, false), ("m.py#c8", "m.py::m", "m.py#file", 3,
          false)] := by
    decide +kernel
  rw [hd] at hquiet hsummary
  have hnone : d.diagnostics = [] := Option.some.inj hquiet
  obtain ⟨caller, hcaller, hrecords, _⟩ := hcalls (by simp [hnone])
  exact ⟨d, hd, hnone, ⟨caller, hcaller, hrecords⟩, Option.some.inj hsummary⟩

end Digest

end Xref

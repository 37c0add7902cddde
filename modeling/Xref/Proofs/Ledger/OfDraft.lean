import Xref.Proofs.Ledger.Basic

/-!
# Drafts and their ledgers

What a walk does to a draft, it does to the ledger of the draft: each change of a draft is a change
of its ledger, and a walk that comes to its end leaves the ledger to which the walk on ledgers
comes.
-/

namespace Xref

open List Text OrderedMap Draft Ledger

/-! ## Scopes and bindings -/

namespace Draft

variable (d : Draft) {s : ScopeId} (id : ScopeId) (scope : ScopeId)

/-- Scopes show in a ledger only by the declarations in them. -/
theorem ledger_modifyScope (f : Scope → Scope) :
    (d.modifyScope id f).ledger = { d.ledger with declared :=
      (d.modifyScope id f).ledger.declared } := by
  unfold modifyScope
  split <;> rfl

theorem bindingIn?_modifyScope (f : Scope → Scope) (scope : ScopeId) (name : String) :
    (d.modifyScope id f).bindingIn? scope name =
      if scope = id then (d.scopes.get? id).bind fun s => (f s).bindings.get? name
      else d.bindingIn? scope name := by
  unfold modifyScope bindingIn?
  cases hs : d.scopes.get? id with
  | none =>
    dsimp only
    split
    · next h => rw [h, hs]; rfl
    · rfl
  | some s =>
    rw [get?_insert]
    split <;> rfl

theorem mem_scopes_modifyScope (f : Scope → Scope) (h : s ∈ d.scopes.keys) :
    s ∈ (d.modifyScope id f).scopes.keys := by
  unfold modifyScope
  split
  · exact mem_keys_insert.mpr (.inr h)
  · exact h

theorem ledger_openScope {s : Scope} (hs : s.bindings = ∅) :
    (d.openScope s).ledger = d.ledger.openScope s.id := by
  have hdeclared : (d.openScope s).ledger.declared = (d.ledger.openScope s.id).declared := by
    funext scope name
    show (((d.scopes.insert s.id s).get? scope).bind fun s => s.bindings.get? name).bind _ =
      if scope = s.id then none else d.ledger.declared scope name
    rw [get?_insert]
    split
    · rw [Option.bind_some, hs]
      rfl
    · rfl
  exact congrArg (fun declared => { d.ledger with declared }) hdeclared

theorem ledger_modifyScope_of_bindings {f : Scope → Scope}
    (hf : ∀ s, (f s).bindings = s.bindings) : (d.modifyScope id f).ledger = d.ledger := by
  rw [ledger_modifyScope]
  have hdeclared : (d.modifyScope id f).ledger.declared = d.ledger.declared := by
    funext scope name
    show ((d.modifyScope id f).bindingIn? scope name).bind _ = (d.bindingIn? scope name).bind _
    rw [bindingIn?_modifyScope]
    split
    · next h =>
      simp only [hf]
      rw [h]
      rfl
    · rfl
  rw [hdeclared]

theorem bindingIn?_bind (name : String) (v : BindingValue) (s : ScopeId) (n : String) :
    (d.bind scope name v).bindingIn? s n =
      if s = scope ∧ n = name then (d.scopes.get? scope).map fun o => ⟨name, o.id, v⟩
      else d.bindingIn? s n := by
  rw [bind, bindingIn?_modifyScope]
  by_cases hs : s = scope
  · subst hs
    rw [if_pos rfl]
    by_cases hn : n = name
    · subst hn
      cases d.scopes.get? s <;> simp [Scope.bind]
    · rw [if_neg fun h => hn h.2]
      simp [Scope.bind, hn, bindingIn?]
  · rw [if_neg hs, if_neg fun h => hs h.1]

theorem ledger_bind_of_none (name : String) {v : BindingValue}
    (hv : v.declared? = none) : (d.bind scope name v).ledger = d.ledger.unbind scope [name] := by
  have hdeclared :
    (d.bind scope name v).ledger.declared = (d.ledger.unbind scope [name]).declared := by
    funext s n
    show ((d.bind scope name v).bindingIn? s n).bind _ = if s = scope ∧ n ∈ [name] then none else _
    simp only [bindingIn?_bind, mem_singleton]
    split
    · cases d.scopes.get? scope with
      | none => rfl
      | some o => exact hv
    · rfl
  rw [bind, ledger_modifyScope, ← bind, hdeclared]
  rfl

theorem ledger_bind_declared {scope : ScopeId} (hs : scope ∈ d.scopes.keys) (name : String)
    (id : DefId) : (d.bind scope name (.declared id)).ledger = d.ledger.bind scope name id := by
  have hdeclared : (d.bind scope name (.declared id)).ledger.declared =
      (d.ledger.bind scope name id).declared := by
    funext s n
    show ((d.bind scope name (.declared id)).bindingIn? s n).bind _ = if s = scope ∧
      n = name then _ else _
    rw [bindingIn?_bind]
    split
    · obtain ⟨o, ho⟩ := mem_keys_iff.mp hs
      rw [ho]
      rfl
    · rfl
  rw [bind, ledger_modifyScope, ← bind, hdeclared]
  rfl

theorem mem_scopes_bind (name : String) (v : BindingValue)
    (h : s ∈ d.scopes.keys) : s ∈ (d.bind scope name v).scopes.keys :=
  d.mem_scopes_modifyScope scope _ h

theorem ledger_bindParams (scope seenFrom : ScopeId) (params : List Param) :
    (d.bindParams scope seenFrom params).ledger = d.ledger.unbind scope (params.map (·.name)) := by
  unfold bindParams
  induction params generalizing d with
  | nil => exact (d.ledger.unbind_nil scope).symm
  | cons p ps ih =>
    rw [foldl_cons, ih, d.ledger_bind_of_none scope p.name rfl, unbind_unbind]
    rfl

theorem mem_scopes_bindParams (scope seenFrom : ScopeId) (params : List Param)
    (h : s ∈ d.scopes.keys) : s ∈ (d.bindParams scope seenFrom params).scopes.keys := by
  unfold bindParams
  induction params generalizing d with
  | nil => exact h
  | cons p ps ih => exact ih _ (d.mem_scopes_bind scope p.name _ h)

theorem ledger_bindValue (name : String) (hint source : Option String) (seenFrom : ScopeId) :
    (d.bindValue scope name hint source seenFrom).ledger = d.ledger.unbind scope [name] := by
  unfold bindValue
  extract_lets differs noted
  have hnoted : noted.ledger = d.ledger := by
    unfold noted
    split <;> rfl
  split <;> rw [noted.ledger_bind_of_none scope name rfl, hnoted]

theorem mem_scopes_bindValue (name : String) (hint source : Option String) (seenFrom : ScopeId)
    (h : s ∈ d.scopes.keys) : s ∈ (d.bindValue scope name hint source seenFrom).scopes.keys := by
  unfold bindValue
  extract_lets differs noted
  have hnoted : s ∈ noted.scopes.keys := by
    unfold noted
    split <;> exact h
  split <;> exact noted.mem_scopes_bind scope name _ hnoted

theorem ledger_addImport (file : FileContext) (place : Place) (i : Import) :
    (d.addImport file place i).ledger = d.ledger := by
  have hstar : ∀ base, ∀ s : Scope, (s.addStarImport base).bindings = s.bindings := by
    intro base s
    unfold Scope.addStarImport
    split <;> rfl
  unfold addImport
  dsimp only
  split
  · split
    · rfl
    · exact d.ledger_modifyScope_of_bindings _ (hstar _)
  · split <;> exact d.ledger_modifyScope_of_bindings _ fun _ => rfl
  · exact d.ledger_modifyScope_of_bindings _ fun _ => rfl

theorem mem_scopes_addImport (file : FileContext) (place : Place) (i : Import)
    (h : s ∈ d.scopes.keys) : s ∈ (d.addImport file place i).scopes.keys := by
  unfold addImport
  dsimp only
  split
  · split
    · exact h
    · exact d.mem_scopes_modifyScope _ _ h
  · split <;> exact d.mem_scopes_modifyScope _ _ h
  · exact d.mem_scopes_modifyScope _ _ h

/-- An attribute is bound only where no definition is. -/
theorem ledger_assignMember (place : Place) (a : Assignment) (head member : String) :
    (d.assignMember place a head member).ledger = d.ledger := by
  unfold assignMember
  split
  · rfl
  split
  · split
    · rfl
    next decl _ =>
    split
    · rfl
    · next hnone =>
      rw [ledger_bindValue]
      refine unbind_of_none ?_
      show (d.bindingIn? decl.body member).bind (fun b => b.value.declared?) = none
      cases hb : d.bindingIn? decl.body member with
      | none => rfl
      | some b =>
        rw [hb, Option.bind_some] at hnone
        show b.value.declared? = none
        cases hv : b.value <;> rw [hv] at hnone <;> first | rfl | cases hnone
  · rfl

theorem mem_scopes_assignMember (place : Place) (a : Assignment) (head member : String)
    (h : s ∈ d.scopes.keys) : s ∈ (d.assignMember place a head member).scopes.keys := by
  unfold assignMember
  split
  · exact h
  split
  · split
    · exact h
    split
    · exact h
    · exact d.mem_scopes_bindValue _ _ _ _ _ h
  · exact h

/-! ## Declarations -/

theorem ledger_define (x : Definition) : (d.define x).ledger = d.ledger.define x := by
  have hget : (d.define x).ledger.definitions = (d.ledger.define x).definitions := by
    funext id
    exact get?_insert ..
  exact congrArg (fun definitions => { d.ledger with definitions }) hget

theorem ledger_record (decl : ClassDecl) :
    ledger { d with classes := d.classes.insert decl.id decl } = d.ledger.record decl := by
  have hget : (d.classes.insert decl.id decl).get? = (d.ledger.record decl).classes := by
    funext id
    exact get?_insert ..
  exact congrArg (fun classes => { d.ledger with classes }) hget

theorem ledger_discardBelow (qualname : String) :
    (d.discardBelow qualname).ledger = d.ledger.discardBelow qualname := by
  have hdrops : ∀ id, ((d.definitions.entries.filter fun e =>
      Dotted.isBelow qualname e.2.qualname).map Prod.fst).contains id = d.ledger.drops
        qualname id := by
    intro id
    rw [Bool.eq_iff_iff, contains_iff_mem, mem_map, drops, Option.any_eq_true]
    constructor
    · rintro ⟨⟨id', x⟩, hmem, rfl⟩
      obtain ⟨hentry, hbelow⟩ := mem_filter.mp hmem
      exact ⟨x, get?_eq_some_iff.mpr hentry, hbelow⟩
    · rintro ⟨x, hx, hbelow⟩
      exact ⟨(id, x), mem_filter.mpr ⟨get?_eq_some_iff.mp hx, hbelow⟩, rfl⟩
  have hdefinitions : (d.discardBelow qualname).ledger.definitions =
      (d.ledger.discardBelow qualname).definitions := by
    funext id
    show get? (d.definitions.restrict _) id = if d.ledger.drops qualname id then none else _
    rw [get?_restrict, hdrops]
    cases d.ledger.drops qualname id <;> rfl
  have hclasses : (d.discardBelow qualname).ledger.classes =
      (d.ledger.discardBelow qualname).classes := by
    funext id
    show get? (d.classes.restrict _) id = if d.ledger.drops qualname id then none else _
    rw [get?_restrict, hdrops]
    cases d.ledger.drops qualname id <;> rfl
  have hcalls :
    (d.discardBelow qualname).ledger.calls = (d.ledger.discardBelow qualname).calls := by
    show d.calls.filter _ = d.calls.filter _
    simp only [hdrops]
  exact congr (congr (congrArg (fun definitions classes calls =>
    { d.ledger with definitions, classes, calls }) hdefinitions) hclasses) hcalls

theorem replaced?_ledger (x : Definition) : d.ledger.replaced? scope x = d.replaced? scope x := by
  unfold Ledger.replaced? replaced?
  show (((d.bindingIn? scope x.name).bind fun b => b.value.declared?).bind _) = _
  cases d.bindingIn? scope x.name with
  | none => rfl
  | some b =>
    obtain ⟨name, owner, value⟩ := b
    cases value <;> rfl

theorem ledger_declare {scope : ScopeId} (hs : scope ∈ d.scopes.keys) (x : Definition) :
    (d.declare scope x).ledger = d.ledger.declare scope x := by
  unfold Draft.declare Ledger.declare Ledger.makeRoom
  rw [replaced?_ledger]
  cases d.replaced? scope x with
  | none =>
    rw [ledger_define, d.ledger_bind_declared hs]
  | some previous =>
    let reported : Draft := { d.discardBelow previous.qualname with
      diagnostics := (d.discardBelow previous.qualname).diagnostics ++
        [Diagnostic.duplicate x.qualname x.path x.path] }
    have hreported : reported.ledger = d.ledger.discardBelow previous.qualname :=
      d.ledger_discardBelow previous.qualname
    rw [ledger_define, reported.ledger_bind_declared hs, hreported]

theorem mem_scopes_declare (x : Definition) (h : s ∈ d.scopes.keys) :
    s ∈ (d.declare scope x).scopes.keys := by
  unfold declare
  split <;> exact mem_scopes_bind _ scope x.name _ h

theorem mem_scopes_openScope (o : Scope) (h : s = o.id ∨ s ∈ d.scopes.keys) :
    s ∈ (d.openScope o).scopes.keys :=
  mem_keys_insert.mpr h

/-! ## The walk on drafts and on ledgers -/

section

variable (file : FileContext) (place : Place)

theorem lambdaDefinition_ledger (mark : Mark) (params : List Param) :
    d.ledger.lambdaDefinition file place mark params =
      file.lambdaDefinition place mark params (file.lambdaQualname place mark d) := by
  unfold lambdaDefinition FileContext.lambdaQualname lambdaName
  rfl

theorem placeIn_ledger (o : Opening) : d.ledger.placeIn file place o = d.placeIn file place o := by
  cases o with
  | lambda mark params => rw [Ledger.placeIn, placeIn, lambdaDefinition_ledger]
  | _ => rfl

theorem ledger_openScope_declare {place : Place} (hs : place.scope ∈ d.scopes.keys) (mark : Mark)
    (kind : ScopeKind) (x : Definition) :
    ((d.openScope (file.newScope mark kind (some place.scope) (some x.id))).declare place.scope
      x).ledger = (d.ledger.openScope (file.markId mark)).declare place.scope x := by
  rw [ledger_declare _ (d.mem_scopes_openScope _ (.inr hs)), ledger_openScope _ rfl]
  rfl

theorem ledger_enter {place : Place} (hs : place.scope ∈ d.scopes.keys) (o : Opening) :
    (d.enter file place o).ledger = d.ledger.enter file place o := by
  cases o with
  | classDecl mark head =>
    refine (ledger_record _ ⟨_, _, _⟩).trans ?_
    rw [d.ledger_openScope_declare file hs]
    exact (unbind_nil _ _).symm
  | functionDecl mark head =>
    have hdeclared := d.ledger_openScope_declare file hs mark .function
      (file.functionDefinition place mark head)
    rw [enter, ledger_bindParams]
    unfold Ledger.enter Ledger.paramNames
    cases hreceiver : head.receiver? place.ownerClass with
    | none =>
      dsimp only
      rw [hdeclared, hreceiver]
      rfl
    | some receiver =>
      dsimp only
      rw [ledger_bind_of_none _ _ _ rfl, unbind_unbind, hdeclared, hreceiver]
      rfl
  | lambda mark params =>
    rw [enter, ledger_bindParams]
    show (((d.openScope _).define _).ledger).unbind _ _ = _
    rw [ledger_define, ledger_openScope _ rfl, ← lambdaDefinition_ledger]
    rfl
  | block mark =>
    rw [enter, ledger_openScope _ rfl]
    exact (unbind_nil _ _).symm

theorem mem_scopes_enter {s : ScopeId} (o : Opening)
    (h : s = file.markId o.mark ∨ s ∈ d.scopes.keys) : s ∈ (d.enter file place o).scopes.keys := by
  have hopen : ∀ scope : Scope, scope.id = file.markId o.mark →
    s ∈ (d.openScope scope).scopes.keys :=
    fun scope hid => d.mem_scopes_openScope scope (hid ▸ h)
  cases o with
  | classDecl mark head => exact mem_scopes_declare _ _ _ (hopen _ rfl)
  | functionDecl mark head =>
    refine mem_scopes_bindParams _ _ _ _ ?_
    split
    · exact mem_scopes_bind _ _ _ _ (mem_scopes_declare _ _ _ (hopen _ rfl))
    · exact mem_scopes_declare _ _ _ (hopen _ rfl)
  | lambda mark params =>
    refine mem_scopes_bindParams _ _ _ _ ?_
    exact hopen _ rfl
  | block mark => exact hopen _ rfl

theorem scope_placeIn (o : Opening) : (d.placeIn file place o).scope = file.markId o.mark := by
  cases o <;> rfl

end

variable {d d' : Draft} {file : FileContext} {place : Place}

theorem ledger_addAssignment {mark : Mark} {a : Assignment}
    (h : d.addAssignment file place mark a = .ok d') :
    d'.ledger = d.ledger.step file place (.assign mark a) ∧ ∀ s ∈ d.scopes.keys,
      s ∈ d'.scopes.keys := by
  unfold step
  dsimp only
  obtain ⟨p, hcut, rfl⟩ | ⟨hcut, hplain⟩ := addAssignment_cases h
  · rw [if_pos (by simp [hcut])]
    exact ⟨d.ledger_assignMember .., fun s hs => d.mem_scopes_assignMember _ _ _ _ hs⟩
  rw [if_neg (by simp [hcut])]
  obtain ⟨hother, v, hv, rfl⟩ | ⟨hother, hmakes, rfl⟩ | ⟨_, hmakes, rfl⟩ := hplain
  · have hnone : v.declared? = none := by rcases hv with rfl | ⟨id, _, rfl⟩ <;> rfl
    rw [Bool.or_eq_true, decide_eq_true_iff] at hother
    rw [if_neg (by rcases hother with hloop | hkind <;> simp [Assignment.makesDefinition, *])]
    exact ⟨d.ledger_bind_of_none _ _ hnone, fun s hs => d.mem_scopes_bind _ _ _ hs⟩
  · rw [Bool.or_eq_false_iff] at hother
    rw [if_pos (by simp [hother.1, hmakes]), ledger_bind_of_none _ _ _ rfl, ledger_define]
    exact ⟨rfl, fun s hs => mem_scopes_bind _ _ _ _ hs⟩
  · rw [if_neg (by simp [hmakes])]
    exact ⟨d.ledger_bindValue .., fun s hs => d.mem_scopes_bindValue _ _ _ _ _ hs⟩

theorem ledger_leaf {i : Item} (hi : i.isLeaf) (h : Xref.walk file place d i = .ok d') :
    d'.ledger = d.ledger.step file place i ∧ ∀ s ∈ d.scopes.keys, s ∈ d'.scopes.keys := by
  cases i with
  | classDecl | functionDecl | lambda | block => cases hi
  | assign mark a => exact ledger_addAssignment h
  | importDecl mark target =>
    cases h
    exact ⟨d.ledger_addImport .., fun s hs => d.mem_scopes_addImport _ _ _ hs⟩
  | call mark head =>
    cases h
    refine ⟨?_, fun _ hs => hs⟩
    have hcounts : (d.addCall file place mark head).ledger.counts =
        (d.ledger.addCall file place mark head).counts := by
      funext caller
      show ((d.callCounts.insert place.caller _).get? caller).getD 0 = _
      rw [get?_insert]
      simp only [Ledger.addCall]
      split
      · next hcaller =>
        subst hcaller
        rfl
      · rfl
    exact congrArg (fun counts => { d.ledger.addCall file place mark head with counts }) hcounts
  | suspend mark =>
    cases h
    refine ⟨?_, fun _ hs => hs⟩
    have hsuspended : (fun caller => (place.caller :: d.suspended).contains caller) =
        (d.ledger.suspend place.caller).suspended := by
      funext caller
      simp only [contains_cons, suspend]
      rfl
    exact congrArg (fun suspended => { d.ledger with suspended }) hsuspended
  | _ =>
    cases h
    exact ⟨rfl, fun _ hs => hs⟩

/-- A walk that comes to its end does on the ledger what it does on the draft. -/
theorem ledger_walkAll {is : List Item}
    (hs : place.scope ∈ d.scopes.keys) (h : Xref.walkAll file place d is = .ok d') :
    d'.ledger = d.ledger.walkAll file place is ∧ ∀ s ∈ d.scopes.keys, s ∈ d'.scopes.keys := by
  induction is using Item.induct generalizing place d d' with
  | nil =>
    cases h
    exact ⟨(walkAll_nil ..).symm, fun _ hs => hs⟩
  | leaf i is hi ih =>
    obtain ⟨d₁, hstep, h⟩ := exists_of_walkAll_cons h
    obtain ⟨hledger, hscopes⟩ := ledger_leaf hi hstep
    obtain ⟨hrest, hkept⟩ := ih (hscopes _ hs) h
    rw [walkAll_cons, walk_leaf _ _ _ hi, ← hledger]
    exact ⟨hrest, fun s hs => hkept s (hscopes s hs)⟩
  | opened o body is hbody ih =>
    obtain ⟨d₁, hstep, h⟩ := exists_of_walkAll_cons h
    replace hstep := walkAll_of_walk_item hstep
    have hinner : (d.placeIn file place o).scope ∈ (d.enter file place o).scopes.keys :=
      d.mem_scopes_enter file place o (.inl (d.scope_placeIn file place o))
    obtain ⟨hledger, hscopes⟩ := hbody hinner hstep
    have hkept₁ : ∀ s ∈ d.scopes.keys, s ∈ d₁.scopes.keys :=
      fun s hs => hscopes s (d.mem_scopes_enter file place o (.inr hs))
    obtain ⟨hrest, hkept⟩ := ih (hkept₁ _ hs) h
    rw [Ledger.walkAll_cons, Ledger.walk_item, ← d.ledger_enter file hs, placeIn_ledger, ← hledger]
    exact ⟨hrest, fun s hs => hkept s (hkept₁ s hs)⟩

end Draft

end Xref

import Mathlib.Data.List.Basic
import Xref.Proofs.Digest.Lambdas
import Xref.Proofs.Digest.Local
import Xref.Proofs.Ledger.Basic

/-!
# What a walk can change

A walk changes definitions only under the names that its items may declare, drops calls only of
callers below these names, and adds calls and class records only with the ids of its items. For this
the names in a scope have to be declared as what they are called: a replaced declaration is then
told by its qualified name.
-/

namespace Xref

open Item List Text Definition

/-! ## Names below names -/

namespace Text.Dotted

theorem isBelow_iff {outer name : String} :
    isBelow outer name ↔ ∃ rest, name = outer ++ "." ++ rest := by
  unfold isBelow
  rw [ isPrefixOf_iff_prefix]
  constructor
  · rintro ⟨rest, hrest⟩
    refine ⟨String.ofList rest, String.toList_injective ?_⟩
    rw [← hrest, String.toList_append (s := outer ++ "."), String.toList_ofList]
  · rintro ⟨rest, rfl⟩
    exact ⟨rest.toList, by rw [String.toList_append (s := outer ++ ".")]⟩

theorem isBelow_member (outer name : String) : isBelow outer (outer ++ "." ++ name) :=
  isBelow_iff.mpr ⟨name, rfl⟩

variable {a b : String}

theorem isBelow_trans {c : String} (h : isBelow a b) (h' : isBelow b c) : isBelow a c := by
  obtain ⟨r, rfl⟩ := isBelow_iff.mp h
  obtain ⟨r', rfl⟩ := isBelow_iff.mp h'
  exact isBelow_iff.mpr ⟨r ++ "." ++ r', by simp only [String.append_assoc]⟩

theorem length_lt_of_isBelow (h : isBelow a b) : a.length < b.length := by
  obtain ⟨r, rfl⟩ := isBelow_iff.mp h
  simp only [String.length_append]
  have hdot : ".".length = 1 := rfl
  omega

/-- Of two names above a third one is above the other, or they are the same. -/
theorem isBelow_comparable {c : String} (h : isBelow a c) (h' : isBelow b c) :
    a = b ∨ isBelow a b ∨ isBelow b a := by
  have hsplit : ∀ {a b : String}, (a ++ ".").toList <+: (b ++ ".").toList → a = b ∨
    isBelow a b := by
    intro a b hab
    have hlist : a.toList ++ ['.'] <+: b.toList ++ ['.'] := by
      simpa only [String.toList_append, show ".".toList = ['.'] from rfl] using hab
    rcases prefix_concat_iff.mp hlist with heq | hprefix
    · exact .inl (String.toList_injective (append_cancel_right heq))
    · refine .inr ?_
      rw [isBelow, isPrefixOf_iff_prefix, String.toList_append]
      exact hprefix
  rw [isBelow, isPrefixOf_iff_prefix] at h h'
  rcases prefix_or_prefix_of_prefix h h' with hab | hba
  · exact (hsplit hab).imp_right .inl
  · rcases hsplit hba with rfl | hbelow
    · exact .inl rfl
    · exact .inr (.inr hbelow)

theorem isBelow_append (s a b : String) : isBelow (s ++ a) (s ++ b) = isBelow a b := by
  rw [Bool.eq_iff_iff, isBelow, isBelow, isPrefixOf_iff_prefix, isPrefixOf_iff_prefix]
  simp only [String.toList_append, append_assoc, prefix_append_right_inj]

end Text.Dotted

theorem Definition.isBelow_idOf (path p q : String) :
    Dotted.isBelow (idOf path p) (idOf path q) = Dotted.isBelow p q :=
  Dotted.isBelow_append (path ++ "::") p q

/-! ## What items may declare -/

/-- The qualified names that an item may give to its body. A block has that of what is around it, a
lambda one of two. -/
def Opening.qualnames (outer : String) : Opening → List String
  | .classDecl _ head => [outer ++ "." ++ head.name]
  | .functionDecl _ head => [outer ++ "." ++ head.name]
  | .lambda mark _ => [lambdaName outer mark, lambdaName outer mark ++ "#" ++ mark.id.getD ""]
  | .block _ => [outer]

/-- The qualified names that an item may define itself. -/
def Opening.defined (outer : String) : Opening → List String
  | .block _ => []
  | o => o.qualnames outer

theorem isBelow_lambdaName (outer : String) (mark : Mark) :
    Dotted.isBelow outer (lambdaName outer mark) := by
  refine Dotted.isBelow_iff.mpr ⟨"<lambda@" ++ toString mark.location.line ++ ":" ++
    toString mark.location.column ++ ">", ?_⟩
  rw [lambdaName, show ".<lambda@" = "." ++ "<lambda@" from rfl]
  simp only [String.append_assoc]

theorem Opening.isBelow_of_mem_defined (o : Opening) {outer q : String} (h : q ∈ o.defined outer) :
    Dotted.isBelow outer q := by
  cases o with
  | block m => cases h
  | classDecl m head | functionDecl m head =>
    cases mem_singleton.mp h
    exact Dotted.isBelow_member outer head.name
  | lambda m ps =>
    have hbelow := isBelow_lambdaName outer m
    simp only [defined, qualnames, mem_cons, not_mem_nil, or_false] at h
    rcases h with rfl | rfl
    · exact hbelow
    · obtain ⟨rest, hrest⟩ := Dotted.isBelow_iff.mp hbelow
      refine Dotted.isBelow_iff.mpr ⟨rest ++ "#" ++ m.id.getD "", ?_⟩
      rw [hrest]
      simp only [String.append_assoc]

theorem Opening.eq_or_isBelow_of_mem_qualnames (o : Opening) {outer q : String}
    (h : q ∈ o.qualnames outer) : q = outer ∨ Dotted.isBelow outer q := by
  cases o with
  | block m => exact .inl (mem_singleton.mp h)
  | classDecl m head => exact .inr (isBelow_of_mem_defined (.classDecl m head) h)
  | functionDecl m head => exact .inr (isBelow_of_mem_defined (.functionDecl m head) h)
  | lambda m ps => exact .inr (isBelow_of_mem_defined (.lambda m ps) h)

/-- The name that an item binds in the scope around it. -/
def Opening.bound : Opening → List String
  | .classDecl _ head => [head.name]
  | .functionDecl _ head => [head.name]
  | _ => []

/-- Whether an assignment to a plain name makes a definition in a scope of some kind. -/
def Assignment.defines (a : Assignment) (kind : ScopeKind) : Bool :=
  (Dotted.cut? a.target).isNone && !a.isLoopTarget && a.makesDefinition kind

namespace Item

mutual

/-- The qualified names of what an item may define, in a body of some kind with a qualified name. -/
def names (kind : ScopeKind) (outer : String) : Item → List String
  | classDecl m h b =>
    (Opening.classDecl m h).defined outer ++
      ((Opening.classDecl m h).qualnames outer).flatMap fun q => namesAll .classBody q b
  | functionDecl m h b =>
    (Opening.functionDecl m h).defined outer ++
      ((Opening.functionDecl m h).qualnames outer).flatMap fun q => namesAll .function q b
  | lambda m ps b =>
    (Opening.lambda m ps).defined outer ++
      ((Opening.lambda m ps).qualnames outer).flatMap fun q => namesAll .function q b
  | block m b =>
    (Opening.block m).defined outer ++
      ((Opening.block m).qualnames outer).flatMap fun q => namesAll .block q b
  | assign _ a => if a.defines kind then [outer ++ "." ++ a.target] else []
  | _ => []

/-- The qualified names of what some items may define. -/
def namesAll (kind : ScopeKind) (outer : String) : List Item → List String
  | [] => []
  | i :: is => names kind outer i ++ namesAll kind outer is

end

section

variable (kind : ScopeKind) (outer : String)

theorem names_item (o : Opening) (body : List Item) : (o.item body).names kind outer =
      o.defined outer ++ (o.qualnames outer).flatMap fun q => namesAll o.kind q body := by
  cases o <;> rw [Opening.item, names] <;> rfl

theorem namesAll_nil : namesAll kind outer [] = [] := by
  rw [namesAll]

theorem namesAll_cons (i : Item) (is : List Item) :
    namesAll kind outer (i :: is) = i.names kind outer ++ namesAll kind outer is := by
  rw [namesAll]

theorem namesAll_append (is js : List Item) :
    namesAll kind outer (is ++ js) = namesAll kind outer is ++ namesAll kind outer js := by
  induction is with
  | nil => rw [nil_append, namesAll_nil, nil_append]
  | cons i is ih => rw [cons_append, namesAll_cons, namesAll_cons, ih, append_assoc]

end

theorem forall_names_item {kind : ScopeKind} {outer : String} {o : Opening} {body : List Item}
    {P : String → Prop} :
    (∀ p ∈ (o.item body).names kind outer, P p) ↔
      (∀ p ∈ o.defined outer, P p) ∧ ∀ q ∈ o.qualnames outer,
        ∀ p ∈ namesAll o.kind q body, P p := by
  rw [names_item, forall_mem_append]
  simp only [mem_flatMap]
  exact and_congr_right fun _ => ⟨fun h q hq p hp => h p ⟨q, hq, hp⟩,
    fun h p ⟨q, hq, hp⟩ => h q hq p hp⟩

/-- What items may define lies below the name around them. -/
theorem isBelow_of_mem_namesAll {kind : ScopeKind} {outer p : String} {is : List Item}
    (h : p ∈ namesAll kind outer is) : Dotted.isBelow outer p := by
  induction is using Item.induct generalizing kind outer with
  | nil =>
    rw [namesAll_nil] at h
    cases h
  | leaf i is hi ih =>
    rw [namesAll_cons, mem_append] at h
    rcases h with h | h
    · cases i with
      | assign m a =>
        rw [names] at h
        split at h
        · cases mem_singleton.mp h
          exact Dotted.isBelow_member outer a.target
        · cases h
      | classDecl | functionDecl | lambda | block => cases hi
      | _ => cases h
    · exact ih h
  | opened o body is hbody ih =>
    rw [namesAll_cons, mem_append, names_item, mem_append, mem_flatMap] at h
    rcases h with (h | ⟨q, hq, h⟩) | h
    · exact o.isBelow_of_mem_defined h
    · rcases o.eq_or_isBelow_of_mem_qualnames hq with rfl | hbelow
      · exact hbody h
      · exact Dotted.isBelow_trans hbelow (hbody h)
    · exact ih h

/-- The name that an item binds in its scope. -/
def boundName? : Item → Option String
  | classDecl _ h _ => some h.name
  | functionDecl _ h _ => some h.name
  | assign _ a => if (Dotted.cut? a.target).isNone then some a.target else none
  | _ => none

/-- The names that some items bind in their scope. -/
def boundNames (is : List Item) : List String :=
  is.filterMap boundName?

theorem boundNames_append (is js : List Item) :
    boundNames (is ++ js) = boundNames is ++ boundNames js :=
  filterMap_append ..

theorem boundNames_cons (i : Item) (is : List Item) :
    boundNames (i :: is) = boundNames [i] ++ boundNames is :=
  boundNames_append [i] is

theorem boundNames_item (o : Opening) (body : List Item) : boundNames [o.item body] = o.bound := by
  cases o <;> rfl

def isReference : Item → Bool
  | reference .. => true
  | _ => false

def referenceCount (is : List Item) : Nat :=
  (walkedAll is).countP isReference

theorem referenceCount_append (is js : List Item) :
    referenceCount (is ++ js) = referenceCount is + referenceCount js := by
  rw [referenceCount, walkedAll_append, countP_append]
  rfl

theorem referenceCount_item (o : Opening) (body : List Item) :
    referenceCount [o.item body] = referenceCount body := by
  have ho : (o.item body).isReference = false := by cases o <;> rfl
  rw [referenceCount, walkedAll_cons_item, countP_cons_of_neg (by simp [ho]), walkedAll, append_nil]
  rfl

end Item

namespace FileContext

/-- The id of the scope or call that an item is. -/
def itemId? (file : FileContext) (i : Item) : Option String :=
  i.mark?.map file.markId

/-- The ids of the scopes and calls of some items. -/
def idsOf (file : FileContext) (is : List Item) : List String :=
  (Item.walkedAll is).filterMap file.itemId?

variable (file : FileContext)

theorem idsOf_cons_leaf {i : Item} (hi : i.isLeaf) (is : List Item) :
    file.idsOf (i :: is) = (file.itemId? i).toList ++ file.idsOf is := by
  unfold idsOf
  rw [walkedAll_cons_leaf hi]
  cases h : file.itemId? i <;> simp [h]

theorem idsOf_cons_item (o : Opening) (body is : List Item) :
    file.idsOf (o.item body :: is) = file.markId o.mark :: (file.idsOf body ++ file.idsOf is) := by
  have hid : file.itemId? (o.item body) = some (file.markId o.mark) := by cases o <;> rfl
  unfold idsOf
  rw [walkedAll_cons_item, filterMap_cons_some hid, filterMap_append]

theorem idsOf_append (is js : List Item) :
    file.idsOf (is ++ js) = file.idsOf is ++ file.idsOf js := by
  unfold idsOf
  rw [walkedAll_append, filterMap_append]

theorem idsOf_item (o : Opening) (body : List Item) :
    file.idsOf [o.item body] = file.markId o.mark :: file.idsOf body := by
  rw [idsOf_cons_item]
  exact congrArg _ (append_nil _)

/-- The ids of some items are distinct, and different from that of the scope around them. -/
def Fresh (scope : ScopeId) (is : List Item) : Prop :=
  (scope :: file.idsOf is).Nodup

namespace Fresh

variable {file} {scope : ScopeId} {is js : List Item} {i : Item} {o : Opening} {body : List Item}

theorem left (h : file.Fresh scope (is ++ js)) : file.Fresh scope is := by
  rw [Fresh, idsOf_append] at h
  exact h.sublist ((sublist_append_left _ _).cons_cons _)

theorem right (h : file.Fresh scope (is ++ js)) : file.Fresh scope js := by
  rw [Fresh, idsOf_append] at h
  exact h.sublist ((sublist_append_right _ _).cons_cons _)

theorem head (h : file.Fresh scope (i :: is)) : file.Fresh scope [i] := by
  rw [← singleton_append] at h
  exact h.left

theorem tail (h : file.Fresh scope (i :: is)) : file.Fresh scope is := by
  rw [← singleton_append] at h
  exact h.right

theorem disjoint (h : file.Fresh scope (is ++ js)) :
    ∀ id ∈ scope :: file.idsOf js, id ∉ file.idsOf is := by
  rw [Fresh, idsOf_append, nodup_cons, mem_append, not_or] at h
  exact forall_mem_cons.mpr
    ⟨h.1.1, fun id hid hid' => (nodup_append.mp h.2).2.2 id hid' id hid rfl⟩

theorem not_mem (h : file.Fresh scope is) : scope ∉ file.idsOf is :=
  (nodup_cons.mp h).1

/-- Fresh ids stay so without some of them, and then are different from these. -/
theorem without {omitted : List String} (h : file.Fresh scope is)
    (hperm : (file.idsOf is).Perm (file.idsOf js ++ omitted)) :
    file.Fresh scope js ∧ ∀ id ∈ scope :: file.idsOf js, id ∉ omitted := by
  have hnodup := (hperm.cons scope).nodup h
  refine ⟨hnodup.sublist ((sublist_append_left _ _).cons_cons _), fun id hid hid' => ?_⟩
  rw [← cons_append] at hnodup
  exact (nodup_append.mp hnodup).2.2 id hid id hid' rfl

theorem inside (h : file.Fresh scope [o.item body]) : file.Fresh (file.markId o.mark) body := by
  rw [Fresh, idsOf_item] at h
  exact (nodup_cons.mp h).2

theorem ne_and_not_mem (h : file.Fresh scope [o.item body]) :
    scope ≠ file.markId o.mark ∧ scope ∉ file.idsOf body := by
  have hout := h.not_mem
  rwa [idsOf_item, mem_cons, not_or] at hout

end Fresh

end FileContext

namespace Ledger

/-! ## Ledgers in order -/

/-- Definitions stand under the ids that their qualified names give, and every class record and
every caller has one. A call is numbered below the number of calls of its caller. -/
structure Grounded (file : FileContext) (l : Ledger) : Prop where
  ids : ∀ {id x}, l.definitions id = some x → id = idOf file.path x.qualname
  called : ∀ c ∈ l.calls, (∃ x, l.definitions c.caller = some x) ∧ c.order < l.counts c.caller
  recorded : ∀ {id decl}, l.classes id = some decl → ∃ x, l.definitions id = some x

/-- The walk stands where names are declared as what they are called, on behalf of a caller that is
defined there or further out. -/
structure Stands (file : FileContext) (place : Place) (l : Ledger) : Prop where
  named : ∀ {name id}, l.declared place.scope name = some id →
    id = idOf file.path (place.qualname ++ "." ++ name)
  caller : ∃ x, l.definitions place.caller = some x ∧
    (x.qualname = place.qualname ∨ Dotted.isBelow x.qualname place.qualname)

variable {file : FileContext} {place : Place} {l : Ledger}

namespace Grounded

variable (h : l.Grounded file)
include h

theorem isBelow_of_drops {qualname : String} {id : DefId} (hd : l.drops qualname id) :
    Dotted.isBelow (Definition.idOf file.path qualname) id := by
  rw [drops, Option.any_eq_true] at hd
  obtain ⟨x, hx, hbelow⟩ := hd
  rw [h.ids hx, isBelow_idOf]
  exact hbelow

theorem discardBelow (qualname : String) : (l.discardBelow qualname).Grounded file where
  ids {id x} hx := by
    simp only [Ledger.discardBelow] at hx
    split at hx
    · cases hx
    · exact h.ids hx
  called c hc := by
    obtain ⟨hmem, hkept⟩ := mem_filter.mp hc
    obtain ⟨⟨x, hx⟩, horder⟩ := h.called c hmem
    refine ⟨⟨x, ?_⟩, horder⟩
    simp only [Ledger.discardBelow]
    rw [if_neg (by simpa using hkept), hx]
  recorded {id decl} hdecl := by
    simp only [Ledger.discardBelow] at hdecl ⊢
    split at hdecl
    · cases hdecl
    · next hkept =>
      rw [if_neg hkept]
      exact h.recorded hdecl

section

variable (scope : ScopeId)

theorem openScope : (l.openScope scope).Grounded file :=
  ⟨h.ids, h.called, h.recorded⟩

theorem unbind (names : List String) : (l.unbind scope names).Grounded file :=
  ⟨h.ids, h.called, h.recorded⟩

theorem bind (name : String) (id : DefId) : (l.bind scope name id).Grounded file :=
  ⟨h.ids, h.called, h.recorded⟩

theorem makeRoom (x : Definition) : (l.makeRoom scope x).Grounded file := by
  unfold Ledger.makeRoom
  split
  · exact h.discardBelow _
  · exact h

end

theorem define {x : Definition} (hx : x.id = idOf file.path x.qualname) :
    (l.define x).Grounded file := by
  have hkept : ∀ {id}, (∃ y, l.definitions id = some y) → ∃ y,
    (l.define x).definitions id = some y := by
    rintro id ⟨y, hy⟩
    simp only [Ledger.define]
    split
    · exact ⟨x, rfl⟩
    · exact ⟨y, hy⟩
  refine ⟨fun {id y} hy => ?_, fun c hc => ⟨hkept (h.called c hc).1, (h.called c hc).2⟩,
    fun hdecl => hkept (h.recorded hdecl)⟩
  simp only [Ledger.define] at hy
  split at hy
  · next hid =>
    cases hy
    rw [hid, hx]
  · exact h.ids hy

theorem declare (scope : ScopeId) {x : Definition}
    (hx : x.id = idOf file.path x.qualname) : (l.declare scope x).Grounded file :=
  ((h.makeRoom scope x).bind scope x.name x.id).define hx

theorem record (decl : ClassDecl) (hd : ∃ x, l.definitions decl.id = some x) :
    (l.record decl).Grounded file := by
  refine ⟨h.ids, h.called, fun {id decl'} hdecl => ?_⟩
  simp only [Ledger.record] at hdecl
  split at hdecl
  · next hid => exact hid ▸ hd
  · exact h.recorded hdecl

theorem addCall (hc : ∃ x, l.definitions place.caller = some x) (mark : Mark)
    (head : CallHead) : (l.addCall file place mark head).Grounded file := by
  refine ⟨h.ids, fun c hmem => ?_, h.recorded⟩
  rcases mem_append.mp hmem with hmem | hmem
  · obtain ⟨hx, horder⟩ := h.called c hmem
    refine ⟨hx, ?_⟩
    simp only [Ledger.addCall]
    split <;> omega
  · cases mem_singleton.mp hmem
    simpa [Ledger.addCall, callRecord] using hc

end Grounded

namespace Stands

variable (hs : l.Stands file place)
include hs

variable (hg : l.Grounded file)
include hg

/-- A name below that of the place is not above the caller. -/
theorem caller_apart {p : String} (hp : Dotted.isBelow place.qualname p) :
    place.caller ≠ idOf file.path p ∧ Dotted.isBelow (idOf file.path p) place.caller = false := by
  obtain ⟨x, hx, hq⟩ := hs.caller
  have hlength := Dotted.length_lt_of_isBelow hp
  have hle : x.qualname.length ≤ place.qualname.length := by
    rcases hq with hq | hq
    · exact Nat.le_of_eq (congrArg String.length hq)
    · exact Nat.le_of_lt (Dotted.length_lt_of_isBelow hq)
  rw [hg.ids hx, isBelow_idOf]
  constructor
  · intro heq
    rw [qualname_eq_of_idOf heq] at hle
    omega
  · rw [← Bool.not_eq_true]
    intro hbelow
    have := Dotted.length_lt_of_isBelow hbelow
    omega

theorem qualname_of_replaced? {x previous : Definition}
    (h : l.replaced? place.scope x = some previous) :
    previous.qualname = place.qualname ++ "." ++ x.name := by
  obtain ⟨id, hid, hprevious⟩ := Option.bind_eq_some_iff.mp h
  have hget := (Option.filter_eq_some_iff.mp hprevious).1
  exact qualname_eq_of_idOf ((hg.ids hget).symm.trans (hs.named hid))

theorem makeRoom_cases {x : Definition} (hx : x.qualname = place.qualname ++ "." ++ x.name) :
    l.makeRoom place.scope x = l ∨ l.makeRoom place.scope x = l.discardBelow x.qualname := by
  unfold Ledger.makeRoom
  cases h : l.replaced? place.scope x with
  | none => exact .inl rfl
  | some previous =>
    refine .inr ?_
    rw [hx, ← hs.qualname_of_replaced? hg h]

end Stands

/-! ## Changes -/

/-- A name that can be declared without a change to certain definitions, and without a loss of the
calls and records of certain others. -/
structure Spares (file : FileContext) (calm : DefId → Prop) (kept : DefId → Bool)
    (p : String) : Prop where
  calm : ∀ id, calm id → id ≠ idOf file.path p ∧
    Dotted.isBelow (idOf file.path p) id = false
  kept : ∀ id, kept id → Dotted.isBelow (idOf file.path p) id = false

theorem Spares.nothing (file : FileContext) (p : String) :
    Spares file (fun _ => False) (fun _ => false) p :=
  ⟨fun _ h => h.elim, fun _ h => absurd h Bool.false_ne_true⟩

/-- What may change between two ledgers: not certain definitions, nor the calls and records of
certain others. New calls and records have certain ids, and certain names may be bound. -/
structure Changes (calm : DefId → Prop) (kept : DefId → Bool) (ids : String → Prop)
    (bound : ScopeId → String → Prop) (references : Nat) (l l' : Ledger) : Prop where
  definitions : ∀ id, calm id → l'.definitions id = l.definitions id
  classes : ∀ id, kept id →
    l'.classes id = l.classes id ∨ ∃ decl, l'.classes id = some decl ∧ ids decl.body
  bodies : ∀ id decl, l'.classes id = some decl → l.classes id = some decl ∨ ids decl.body
  sites : ∀ c ∈ l'.calls, c ∈ l.calls ∨ ids c.site
  calls : ∃ new, l'.calls.filter (fun c => kept c.caller) = l.calls.filter (fun c =>
    kept c.caller) ++ new ∧ ∀ c ∈ new, ids c.site
  references : ∃ new, l'.references = l.references ++ new ∧ new.length = references
  counts : ∀ c, l.counts c ≤ l'.counts c
  suspended : ∀ c, l.suspended c → l'.suspended c
  declared : ∀ s name, ¬ bound s name → l'.declared s name = l.declared s name

namespace Changes

variable {calm : DefId → Prop} {kept : DefId → Bool} {ids ids' : String → Prop}
  {bound bound' : ScopeId → String → Prop} {m n : Nat} {l' l'' : Ledger}

theorem refl (calm : DefId → Prop) (kept : DefId → Bool) (ids : String → Prop)
    (bound : ScopeId → String → Prop) (l : Ledger) : Changes calm kept ids bound 0 l l where
  definitions _ _ := rfl
  classes _ _ := .inl rfl
  bodies _ _ h := .inl h
  sites _ h := .inl h
  calls := ⟨[], by rw [append_nil], forall_mem_nil _⟩
  references := ⟨[], by rw [append_nil], rfl⟩
  counts _ := Nat.le_refl _
  suspended _ h := h
  declared _ _ _ := rfl

theorem trans (h : Changes calm kept ids bound m l l') (h' : Changes calm kept ids bound n l' l'') :
    Changes calm kept ids bound (m + n) l l'' where
  definitions id hid := (h'.definitions id hid).trans (h.definitions id hid)
  classes id hid := by
    rcases h'.classes id hid with heq | hnew
    · rw [heq]
      exact h.classes id hid
    · exact .inr hnew
  bodies id decl hdecl := by
    rcases h'.bodies id decl hdecl with hold | hnew
    · exact h.bodies id decl hold
    · exact .inr hnew
  sites c hc := by
    rcases h'.sites c hc with hold | hnew
    · exact h.sites c hold
    · exact .inr hnew
  calls := by
    obtain ⟨new, heq, hnew⟩ := h.calls
    obtain ⟨new', heq', hnew'⟩ := h'.calls
    refine ⟨new ++ new', by rw [heq', heq, append_assoc], fun c hc => ?_⟩
    rcases mem_append.mp hc with hc | hc
    · exact hnew c hc
    · exact hnew' c hc
  references := by
    obtain ⟨new, heq, hlength⟩ := h.references
    obtain ⟨new', heq', hlength'⟩ := h'.references
    exact ⟨new ++ new', by rw [heq', heq, append_assoc], by rw [length_append, hlength, hlength']⟩
  counts c := Nat.le_trans (h.counts c) (h'.counts c)
  suspended c hc := h'.suspended c (h.suspended c hc)
  declared s name hb := (h'.declared s name hb).trans (h.declared s name hb)

theorem mono (h : Changes calm kept ids bound m l l') (hids : ∀ id, ids id → ids' id)
    (hbound : ∀ s name, bound s name → bound' s name) : Changes calm kept ids' bound' m l l' where
  definitions := h.definitions
  classes id hid := (h.classes id hid).imp_right fun ⟨decl, hdecl, hbody⟩ => ⟨decl, hdecl,
    hids _ hbody⟩
  bodies id decl hdecl := (h.bodies id decl hdecl).imp_right (hids _)
  sites c hc := (h.sites c hc).imp_right (hids _)
  calls := by
    obtain ⟨new, heq, hnew⟩ := h.calls
    exact ⟨new, heq, fun c hc => hids _ (hnew c hc)⟩
  references := h.references
  counts := h.counts
  suspended := h.suspended
  declared s name hb := h.declared s name fun hb' => hb (hbound s name hb')

/-- Only what names are declared as changes. -/
theorem ofDeclared {declared : ScopeId → String → Option DefId}
    (h : ∀ s name, ¬ bound s name → declared s name = l.declared s name) :
    Changes calm kept ids bound 0 l { l with declared } :=
  { refl calm kept ids bound l with declared := h }

variable {scope : ScopeId}

theorem openScope (h : ∀ name, bound scope name) :
    Changes calm kept ids bound 0 l (l.openScope scope) := by
  refine ofDeclared fun s name hb => if_neg fun hs => ?_
  subst hs
  exact hb (h name)

theorem unbind {names : List String} (h : ∀ name ∈ names, bound scope name) :
    Changes calm kept ids bound 0 l (l.unbind scope names) := by
  refine ofDeclared fun s name hb => if_neg fun ⟨hs, hname⟩ => ?_
  subst hs
  exact hb (h name hname)

theorem bind {name : String} (id : DefId) (h : bound scope name) :
    Changes calm kept ids bound 0 l (l.bind scope name id) := by
  refine ofDeclared fun s n hb => if_neg fun ⟨hs, hname⟩ => ?_
  subst hs hname
  exact hb h

theorem define {x : Definition} (h : ∀ id, calm id → id ≠ x.id) :
    Changes calm kept ids bound 0 l (l.define x) :=
  { refl calm kept ids bound l with definitions := fun id hid => if_neg (h id hid) }

theorem discardBelow (hg : l.Grounded file) {p : String} (h : Spares file calm kept p) :
    Changes calm kept ids bound 0 l (l.discardBelow p) := by
  have hstays : ∀ id, Dotted.isBelow (Definition.idOf file.path p) id = false →
    l.drops p id = false := by
    intro id hid
    rw [← Bool.not_eq_true]
    intro hdrops
    rw [hg.isBelow_of_drops hdrops] at hid
    cases hid
  refine { refl calm kept ids bound l with
    definitions := fun id hid => ?_, classes := fun id hid => .inl ?_, bodies :=
      fun id decl hdecl => .inl ?_,
    sites := fun c hc => .inl (mem_filter.mp hc).1, calls := ⟨[], ?_, forall_mem_nil _⟩ }
  · simp [Ledger.discardBelow, hstays id (h.calm id hid).2]
  · simp [Ledger.discardBelow, hstays id (h.kept id hid)]
  · simp only [Ledger.discardBelow] at hdecl
    split at hdecl
    · cases hdecl
    · exact hdecl
  · rw [append_nil]
    show (l.calls.filter _).filter _ = _
    rw [filter_filter]
    refine filter_congr fun c _ => ?_
    cases hkept : kept c.caller with
    | false => rfl
    | true => simp [hstays _ (h.kept _ hkept)]

theorem declare (hs : l.Stands file place) (hg : l.Grounded file) {x : Definition}
    (hid : x.id = idOf file.path x.qualname) (hx : x.qualname = place.qualname ++ "." ++ x.name)
    (h : Spares file calm kept x.qualname) (hb : bound place.scope x.name) :
    Changes calm kept ids bound 0 l (l.declare place.scope x) := by
  have hroom : Changes calm kept ids bound 0 l (l.makeRoom place.scope x) := by
    rcases hs.makeRoom_cases hg hx with heq | heq <;> rw [heq]
    · exact .refl ..
    · exact .discardBelow hg h
  refine hroom.trans ((Changes.bind x.id hb).trans (n := 0) (.define fun id hcalm => ?_))
  rw [hid]
  exact (h.calm id hcalm).1

theorem record (decl : ClassDecl) (h : ids decl.body) :
    Changes calm kept ids bound 0 l (l.record decl) := by
  refine { refl calm kept ids bound l with classes := fun id _ => ?_, bodies :=
    fun id decl' hdecl => ?_ }
  · simp only [Ledger.record]
    split
    · exact .inr ⟨decl, rfl, h⟩
    · exact .inl rfl
  · simp only [Ledger.record] at hdecl
    split at hdecl
    · cases hdecl
      exact .inr h
    · exact .inl hdecl

theorem addCall {mark : Mark} (h : ids (file.markId mark)) (place : Place) (head : CallHead) :
    Changes calm kept ids bound 0 l (l.addCall file place mark head) := by
  refine { refl calm kept ids bound l with
    sites := fun c hc => ?_, calls := ?_, counts := fun c => ?_ }
  · rcases mem_append.mp hc with hc | hc
    · exact .inl hc
    · cases mem_singleton.mp hc
      exact .inr h
  · refine ⟨_, filter_append .., fun c hc => ?_⟩
    cases mem_singleton.mp (mem_filter.mp hc).1
    exact h
  · simp only [Ledger.addCall]
    split <;> omega

theorem addReference (r : PendingReference) : Changes calm kept ids bound 1 l (l.addReference r) :=
  { refl calm kept ids bound l with references := ⟨[r], rfl, rfl⟩ }

theorem suspend (caller : DefId) : Changes calm kept ids bound 0 l (l.suspend caller) :=
  { refl calm kept ids bound l with suspended := fun c hc => by simp [Ledger.suspend, hc] }

end Changes

/-! ## Going into a body -/

section Enter

variable (file : FileContext) (place : Place) (l : Ledger) (o : Opening)

theorem scope_placeIn : (l.placeIn file place o).scope = file.markId o.mark := by
  cases o <;> rfl

theorem scopeKind_placeIn : (l.placeIn file place o).scopeKind = o.kind := by
  cases o <;> rfl

theorem qualname_lambdaDefinition (mark : Mark) (params : List Param) :
    (l.lambdaDefinition file place mark params).qualname ∈
      (Opening.lambda mark params).defined place.qualname := by
  simp only [lambdaDefinition, FileContext.lambdaDefinition, Opening.defined, Opening.qualnames]
  split <;> simp

theorem qualname_placeIn : (l.placeIn file place o).qualname ∈ o.qualnames place.qualname := by
  cases o with
  | lambda mark params => exact l.qualname_lambdaDefinition file place mark params
  | classDecl mark head | functionDecl mark head | block mark => exact mem_singleton.mpr rfl

end Enter

namespace Stands

variable (h : l.Stands file place)
include h

theorem openScope {scope : ScopeId} (hne : place.scope ≠ scope) :
    (l.openScope scope).Stands file place :=
  ⟨fun {name id} hid => h.named (by simpa [Ledger.openScope, hne] using hid), h.caller⟩

theorem unbind (scope : ScopeId) (names : List String) :
    (l.unbind scope names).Stands file place := by
  refine ⟨fun {name id} hid => ?_, h.caller⟩
  simp only [Ledger.unbind] at hid
  split at hid
  · cases hid
  · exact h.named hid

theorem define (hg : l.Grounded file) {x : Definition}
    (hid : x.id = Definition.idOf file.path x.qualname)
    (hx : Dotted.isBelow place.qualname x.qualname) : (l.define x).Stands file place := by
  obtain ⟨y, hy, hq⟩ := h.caller
  refine ⟨h.named, y, ?_, hq⟩
  have hne : place.caller ≠ x.id := by
    rw [hid]
    exact (h.caller_apart hg hx).1
  simp only [Ledger.define]
  rw [if_neg hne, hy]

theorem declare (hg : l.Grounded file) {x : Definition} (hid : x.id = idOf file.path x.qualname)
    (hx : x.qualname = place.qualname ++ "." ++ x.name) :
    (l.declare place.scope x).Stands file place := by
  have hbelow : Dotted.isBelow place.qualname x.qualname := hx ▸ Dotted.isBelow_member _ _
  have hroom : (l.makeRoom place.scope x).Stands file place := by
    rcases h.makeRoom_cases hg hx with heq | heq <;> rw [heq]
    · exact h
    · obtain ⟨y, hy, hq⟩ := h.caller
      refine ⟨h.named, y, ?_, hq⟩
      have hstays : l.drops x.qualname place.caller = false := by
        rw [← Bool.not_eq_true]
        intro hdrops
        have hfalse := (h.caller_apart hg hbelow).2
        rw [hg.isBelow_of_drops hdrops] at hfalse
        cases hfalse
      simp only [discardBelow]
      rw [hstays, if_neg Bool.false_ne_true, hy]
  have hbind : ((l.makeRoom place.scope x).bind place.scope x.name x.id).Stands file place := by
    refine ⟨fun {name id} hdeclared => ?_, hroom.caller⟩
    simp only [Ledger.bind] at hdeclared
    split at hdeclared
    · next hname =>
      cases hdeclared
      rw [hname.2, hid, hx]
    · exact hroom.named hdeclared
  exact hbind.define ((hg.makeRoom place.scope x).bind ..) hid hbelow

end Stands

theorem Grounded.enter (hg : l.Grounded file) (place : Place) (o : Opening) :
    (l.enter file place o).Grounded file := by
  have hopen := hg.openScope (file.markId o.mark)
  refine Grounded.unbind ?_ _ _
  cases o with
  | classDecl mark head =>
    exact (hopen.declare place.scope (x := file.classDefinition place mark head) rfl).record
      ⟨_, head.bases, file.markId mark⟩ ⟨file.classDefinition place mark head, if_pos rfl⟩
  | functionDecl mark head =>
    exact hopen.declare place.scope (x := file.functionDefinition place mark head) rfl
  | lambda mark params => exact hopen.define (x := l.lambdaDefinition file place mark params) rfl
  | block mark => exact hopen

variable {o : Opening} {l' : Ledger}

/-- The walk still stands where it stood after it has gone into a body. -/
theorem Stands.enter (hs : l.Stands file place) (hg : l.Grounded file)
    (hne : place.scope ≠ file.markId o.mark) : (l.enter file place o).Stands file place := by
  have hopen := hg.openScope (file.markId o.mark)
  have hstands := hs.openScope hne
  refine Stands.unbind ?_ _ _
  cases o with
  | classDecl mark head =>
    have hdeclare := hstands.declare hopen (x := file.classDefinition place mark head) rfl rfl
    exact ⟨hdeclare.named, hdeclare.caller⟩
  | functionDecl mark head =>
    exact hstands.declare hopen (x := file.functionDefinition place mark head) rfl rfl
  | lambda mark params =>
    refine hstands.define hopen (x := l.lambdaDefinition file place mark params) rfl ?_
    exact Opening.isBelow_of_mem_defined _ (l.qualname_lambdaDefinition file place mark params)
  | block mark => exact hstands

theorem declared_makeRoom (l : Ledger) (scope : ScopeId) (x : Definition) :
    (l.makeRoom scope x).declared = l.declared := by
  unfold makeRoom
  split <;> rfl

/-- Nothing is declared in a body before it is walked. -/
theorem declared_enter (hne : place.scope ≠ file.markId o.mark) (name : String) :
    (l.enter file place o).declared (file.markId o.mark) name = none := by
  have hdeclare : ∀ x :
    Definition, ((l.openScope (file.markId o.mark)).declare place.scope x).declared
      (file.markId o.mark) name = none := by
    intro x
    simp [declare, define, bind, declared_makeRoom, openScope, hne.symm]
  have hunbind : ∀ {l' : Ledger}, l'.declared (file.markId o.mark) name = none → ∀ names,
      (l'.unbind (file.markId o.mark) names).declared (file.markId o.mark) name = none := by
    intro l' hnone names
    simp [unbind, hnone]
  refine hunbind ?_ _
  cases o with
  | classDecl mark head | functionDecl mark head => exact hdeclare _
  | lambda mark params => simp [define, openScope]
  | block mark => simp [openScope]

/-- In a body the walk stands for the caller around it, or for what the body is of. -/
theorem Stands.inside (hs : l.Stands file place) (hg : l.Grounded file)
    (hne : place.scope ≠ file.markId o.mark) :
    (l.enter file place o).Stands file (l.placeIn file place o) := by
  refine ⟨fun {name id} hid => ?_, ?_⟩
  · rw [scope_placeIn, declared_enter hne] at hid
    cases hid
  · obtain ⟨y, hy, hq⟩ := (hs.enter hg hne).caller
    cases o with
    | classDecl mark head =>
      have hbelow := Dotted.isBelow_member place.qualname head.name
      refine ⟨y, hy, .inr ?_⟩
      rcases hq with hq | hq
      · rw [hq]
        exact hbelow
      · exact Dotted.isBelow_trans hq hbelow
    | functionDecl mark head =>
      exact ⟨file.functionDefinition place mark head, if_pos rfl, .inl rfl⟩
    | lambda mark params => exact ⟨l.lambdaDefinition file place mark params, if_pos rfl, .inl rfl⟩
    | block mark => exact ⟨y, hy, hq⟩

theorem Changes.enter (hs : l.Stands file place) (hg : l.Grounded file)
    (hne : place.scope ≠ file.markId o.mark) {calm : DefId → Prop} {kept : DefId → Bool}
    {ids : String → Prop} {bound : ScopeId → String → Prop}
    (hspares : ∀ p ∈ o.defined place.qualname, Spares file calm kept p)
    (hids : ids (file.markId o.mark)) (hinner : ∀ name, bound (file.markId o.mark) name)
    (houter : ∀ name ∈ o.bound, bound place.scope name) :
    Changes calm kept ids bound 0 l (l.enter file place o) := by
  have hopen := hg.openScope (file.markId o.mark)
  have hstands := hs.openScope hne
  have hchange : Changes calm kept ids bound 0 l (l.openScope (file.markId o.mark)) :=
    .openScope hinner
  refine Changes.trans (n := 0) ?_ (.unbind fun name _ => hinner name)
  cases o with
  | classDecl mark head =>
    have hdeclare :
      Changes calm kept ids bound 0 _ ((l.openScope (file.markId mark)).declare place.scope
        (file.classDefinition place mark head)) :=
      .declare hstands hopen rfl rfl (hspares _ (mem_singleton.mpr rfl))
        (houter _ (mem_singleton.mpr rfl))
    exact (hchange.trans hdeclare).trans (.record ⟨_, head.bases, file.markId mark⟩ hids)
  | functionDecl mark head =>
    exact hchange.trans (.declare hstands hopen rfl rfl (hspares _ (mem_singleton.mpr rfl))
      (houter _ (mem_singleton.mpr rfl)))
  | lambda mark params =>
    refine hchange.trans (.define fun id hid => ?_)
    exact ((hspares _ (l.qualname_lambdaDefinition file place mark params)).calm id hid).1
  | block mark => exact hchange

/-! ## The walk -/

/-- What the walk over some items may change: new ids are those of the items, and names are bound in
the scope around them and in the scopes that they open. -/
def Frames (file : FileContext) (place : Place) (is : List Item) (l l' : Ledger) : Prop :=
  ∀ calm kept, (∀ p ∈ Item.namesAll place.scopeKind place.qualname is, Spares file calm kept p) →
    Changes calm kept (· ∈ file.idsOf is)
      (fun s name => s ∈ file.idsOf is ∨ s = place.scope ∧ name ∈ Item.boundNames is)
      (Item.referenceCount is) l l'

theorem step_frames (hs : l.Stands file place) (hg : l.Grounded file) {i : Item} (hi : i.isLeaf) :
    (l.step file place i).Grounded file ∧ (l.step file place i).Stands file place ∧
      Frames file place [i] l (l.step file place i) := by
  cases i with
  | classDecl | functionDecl | lambda | block => cases hi
  | call mark head =>
    obtain ⟨x, hx, hq⟩ := hs.caller
    refine ⟨hg.addCall ⟨x, hx⟩ mark head, ⟨hs.named, x, hx, hq⟩,
      fun calm kept _ => .addCall ?_ place head⟩
    rw [file.idsOf_cons_leaf hi]
    exact mem_cons_self
  | reference mark expression =>
    exact ⟨⟨hg.ids, hg.called, hg.recorded⟩, ⟨hs.named, hs.caller⟩,
      fun calm kept _ => .addReference _⟩
  | suspend mark =>
    exact ⟨⟨hg.ids, hg.called, hg.recorded⟩, ⟨hs.named, hs.caller⟩, fun calm kept _ => .suspend _⟩
  | assign mark a =>
    unfold step
    dsimp only
    cases hcut : (Dotted.cut? a.target).isSome with
    | true => exact ⟨hg, hs, fun calm kept _ => .refl ..⟩
    | false =>
      rw [if_neg Bool.false_ne_true]
      have hbound : a.target ∈ Item.boundNames [.assign mark a] := by
        rw [Option.isSome_eq_false_iff] at hcut
        simp [Item.boundNames, Item.boundName?, hcut]
      have hunbind : ∀ (l' : Ledger) calm kept, Changes calm kept (· ∈ file.idsOf [.assign mark a])
          (fun s name => s ∈ file.idsOf [.assign mark a] ∨
            s = place.scope ∧ name ∈ Item.boundNames [.assign mark a])
          0 l' (l'.unbind place.scope [a.target]) := by
        intro l' calm kept
        refine .unbind fun name hname => .inr ⟨rfl, ?_⟩
        rw [mem_singleton.mp hname]
        exact hbound
      split
      · next hdefines =>
        have hx : (file.boundDefinition place mark a.target).id = idOf file.path
          (file.boundDefinition place mark a.target).qualname := rfl
        refine ⟨(hg.define hx).unbind _ _, (hs.define hg hx
          (Dotted.isBelow_member place.qualname a.target)).unbind _ _, fun calm kept hspares => ?_⟩
        refine Changes.trans (m := 0) (.define fun id hid => ?_) (hunbind _ calm kept)
        refine ((hspares (place.qualname ++ "." ++ a.target) ?_).calm id hid).1
        have hnames : a.defines place.scopeKind := by
          rw [Option.isSome_eq_false_iff] at hcut
          simpa [Assignment.defines, hcut] using hdefines
        simp [Item.namesAll, Item.names, hnames]
      · exact ⟨hg.unbind _ _, hs.unbind _ _, fun calm kept _ => hunbind l calm kept⟩
  | _ => exact ⟨hg, hs, fun calm kept _ => .refl ..⟩

theorem Frames.append {is js : List Item} {l'' : Ledger} (h : Frames file place is l l')
    (h' : Frames file place js l' l'') : Frames file place (is ++ js) l l'' := by
  intro calm kept hspares
  rw [namesAll_append, forall_mem_append] at hspares
  rw [referenceCount_append, file.idsOf_append, boundNames_append]
  have hfirst := h calm kept hspares.1
  have hsecond := h' calm kept hspares.2
  refine (hfirst.mono ?_ ?_).trans (hsecond.mono ?_ ?_)
  · exact fun id hid => mem_append_left _ hid
  · exact fun s name hb => hb.imp (mem_append_left _) fun hb => ⟨hb.1, mem_append_left _ hb.2⟩
  · exact fun id hid => mem_append_right _ hid
  · exact fun s name hb => hb.imp (mem_append_right _) fun hb => ⟨hb.1, mem_append_right _ hb.2⟩

variable (hs : l.Stands file place)
include hs

variable (hg : l.Grounded file)
include hg

/-- An item with a body is framed by its head and its body. -/
theorem Frames.item {body : List Item} (hne : place.scope ≠ file.markId o.mark)
    (h : Frames file (l.placeIn file place o) body (l.enter file place o) l') :
    Frames file place [o.item body] l l' := by
  intro calm kept hspares
  rw [namesAll_cons, namesAll_nil, append_nil, forall_names_item] at hspares
  have hbody := h calm kept
  rw [scopeKind_placeIn, scope_placeIn] at hbody
  rw [referenceCount_item, file.idsOf_cons_item, boundNames_item,
    ← Nat.zero_add (Item.referenceCount body)]
  refine (Changes.enter hs hg hne hspares.1 ?_ ?_ ?_).trans
    ((hbody (hspares.2 _ (l.qualname_placeIn file place o))).mono ?_ ?_)
  · exact mem_cons_self
  · exact fun name => .inl mem_cons_self
  · exact fun name hname => .inr ⟨rfl, hname⟩
  · exact fun id hid => mem_cons_of_mem _ (mem_append_left _ hid)
  · rintro s name (hb | ⟨rfl, _⟩)
    · exact .inl (mem_cons_of_mem _ (mem_append_left _ hb))
    · exact .inl mem_cons_self

/-- After a body the walk stands again where it stood before. -/
theorem Stands.leave {body : List Item} (hne : place.scope ≠ file.markId o.mark)
    (hbody : place.scope ∉ file.idsOf body)
    (h : Frames file (l.placeIn file place o) body (l.enter file place o) l') :
    l'.Stands file place := by
  have henter := hs.enter hg hne
  have hspares : ∀ p ∈ Item.namesAll (l.placeIn file place o).scopeKind
      (l.placeIn file place o).qualname body, Spares file (· = place.caller) (fun _ =>
        false) p := by
    intro p hp
    have hbelow : Dotted.isBelow place.qualname p := by
      have hinner := isBelow_of_mem_namesAll hp
      rcases o.eq_or_isBelow_of_mem_qualnames (l.qualname_placeIn file place o) with heq | houter
      · rwa [heq] at hinner
      · exact Dotted.isBelow_trans houter hinner
    refine ⟨fun id hid => ?_, fun id hid => absurd hid Bool.false_ne_true⟩
    subst hid
    exact hs.caller_apart hg hbelow
  have hchanges := h _ _ hspares
  obtain ⟨x, hx, hq⟩ := henter.caller
  refine ⟨fun {name id} hid => henter.named ?_, x, ?_, hq⟩
  · rw [← hid]
    refine (hchanges.declared place.scope name ?_).symm
    rw [scope_placeIn]
    rintro (hmem | ⟨heq, _⟩)
    · exact hbody hmem
    · exact hne heq
  · rw [hchanges.definitions _ rfl, hx]

/-- A walk keeps a ledger in order and stands at its end where it stood, and its changes are
framed. -/
theorem walkAll_frames {is : List Item} (hfresh : file.Fresh place.scope is) :
    (l.walkAll file place is).Grounded file ∧ (l.walkAll file place is).Stands file place ∧
      Frames file place is l (l.walkAll file place is) := by
  induction is using Item.induct generalizing place l with
  | nil =>
    rw [walkAll_nil]
    exact ⟨hg, hs, fun calm kept _ => .refl ..⟩
  | leaf i is hi ih =>
    obtain ⟨hg', hs', hstep⟩ := step_frames hs hg hi
    obtain ⟨hg'', hs'', hframes⟩ := ih hs' hg' hfresh.tail
    rw [walkAll_cons, walk_leaf _ _ _ hi]
    exact ⟨hg'', hs'', hstep.append hframes⟩
  | opened o body is hbody ih =>
    obtain ⟨hne, hnot⟩ := hfresh.head.ne_and_not_mem
    have hinside := hfresh.head.inside
    rw [← scope_placeIn file place l o] at hinside
    obtain ⟨hg', _, hframes⟩ := hbody (hs.inside hg hne) (hg.enter place o) hinside
    obtain ⟨hg'', hs'', hframes'⟩ := ih (hs.leave hg hne hnot hframes) hg' hfresh.tail
    rw [walkAll_cons, walk_item]
    exact ⟨hg'', hs'', (Frames.item hs hg hne hframes).append hframes'⟩

theorem walk_frames {i : Item} (hfresh : file.Fresh place.scope [i]) :
    (l.walk file place i).Grounded file ∧ (l.walk file place i).Stands file place ∧
      Frames file place [i] l (l.walk file place i) := by
  have h := walkAll_frames hs hg hfresh
  rwa [walkAll_singleton] at h

end Ledger

end Xref

import Xref.Proofs.Ledger.Excess

/-!
# Replaced declarations

A declaration and a later one of the same name that replaces it, walked with the earlier one and
without it. Until the later one comes, the ledgers differ in what the earlier one defines. The later
one drops what lies below the name and takes the name, and from then on the ledgers differ in the
excess of the earlier one only.
-/

namespace Xref

open Item List Text Definition Margin Opening Option

/-! ## Names apart from each other -/

namespace Text.Dotted

/-- Whether two names are different and neither is below the other. -/
def isApart (p q : String) : Bool :=
  p ≠ q && !isBelow p q && !isBelow q p

theorem isApart_iff {p q : String} :
    isApart p q ↔ p ≠ q ∧ isBelow p q = false ∧ isBelow q p = false := by
  simp [isApart, and_assoc]

/-- Nothing is below a name and at or above it. -/
theorem ne_and_isBelow_eq_false {p q : String} (h : isBelow p q) : p ≠ q ∧ isBelow q p = false := by
  have hlength := length_lt_of_isBelow h
  constructor
  · rintro rfl
    omega
  · rw [← Bool.not_eq_true]
    intro hbelow
    have := length_lt_of_isBelow hbelow
    omega

end Text.Dotted

/-- The margin of a declaration that is not replaced yet: what it defines, and what its name is
declared as. -/
def Margin.declaration (path qualname : String) (ids : String → Prop) (scope : ScopeId)
    (name : String) : Margin where
  aside id := id = idOf path qualname ∨ Dotted.isBelow (idOf path qualname) id
  dropped id := Dotted.isBelow (idOf path qualname) id
  off s n := ids s ∨ s = scope ∧ n = name

theorem Margin.clear_declaration {p qualname : String} (h : Dotted.isApart p qualname)
    (path : String) (ids : String → Prop) (scope : ScopeId) (name : String) :
    (declaration path qualname ids scope name).Clear (idOf path p) := by
  obtain ⟨hne, habove, hbelow⟩ := Dotted.isApart_iff.mp h
  have hne' : idOf path p ≠ idOf path qualname := fun heq => hne (qualname_eq_of_idOf heq)
  rw [← isBelow_idOf path] at habove hbelow
  refine ⟨not_or.mpr ⟨hne', by simp [hbelow]⟩, fun other hother => ?_⟩
  rw [← Bool.not_eq_true]
  intro hother'
  rcases hother with rfl | hother
  · rw [hother'] at habove
    cases habove
  · rcases Dotted.isBelow_comparable hother' hother with heq | hcase | hcase
    · exact hne' heq
    · rw [hcase] at habove
      cases habove
    · rw [hcase] at hbelow
      cases hbelow

theorem Margin.Clear.spares {m : Margin} {file : FileContext} {p : String}
    (h : m.Clear (idOf file.path p)) : Ledger.Spares file m.aside (fun _ => false) p := by
  refine ⟨fun id hid => ⟨?_, h.2 id hid⟩, fun id hid => absurd hid Bool.false_ne_true⟩
  rintro rfl
  exact h.1 hid

/-! ## Declarations -/

/-- The definition of a class or function. -/
def Opening.declaration? (file : FileContext) (place : Place) : Opening → Option Definition
  | .classDecl mark head => some (file.classDefinition place mark head)
  | .functionDecl mark head => some (file.functionDefinition place mark head)
  | .lambda .. | .block _ => none

namespace Opening

variable {file : FileContext} {place : Place} {o : Opening} {y : Definition}

variable (h : o.declaration? file place = some y)
include h

theorem qualname_declaration? : y.qualname = place.qualname ++ "." ++ y.name := by
  cases o <;> cases h <;> rfl

theorem id_declaration? : y.id = idOf file.path y.qualname := by
  cases o <;> cases h <;> rfl

theorem qualnames_declaration? : o.qualnames place.qualname = [y.qualname] := by
  cases o <;> cases h <;> rfl

theorem defined_declaration? : o.defined place.qualname = [y.qualname] := by
  cases o <;> cases h <;> rfl

theorem bound_declaration? : o.bound = [y.name] := by
  cases o <;> cases h <;> rfl

theorem placeIn_declaration? (l l' : Ledger) :
    l.placeIn file place o = l'.placeIn file place o := by
  cases o <;> cases h <;> rfl

/-- A declaration defines its name and names below it. -/
theorem eq_or_isBelow_of_mem_namesAll {kind : ScopeKind} {p : String}
    {body : List Item} (hp : p ∈ namesAll kind place.qualname [o.item body]) :
    p = y.qualname ∨ Dotted.isBelow y.qualname p := by
  rw [namesAll_cons, namesAll_nil, append_nil, names_item, defined_declaration? h,
    qualnames_declaration? h, flatMap_singleton, mem_append] at hp
  rcases hp with hp | hp
  · exact .inl (mem_singleton.mp hp)
  · exact .inr (isBelow_of_mem_namesAll hp)

end Opening

namespace Ledger

variable {file : FileContext} {place : Place} {l : Ledger} {o : Opening} {y : Definition}
  {body : List Item}

/-- After a declaration its name is declared as it, and it is defined. -/
theorem declaration_stays (hs : l.Stands file place) (hg : l.Grounded file)
    (ho : o.declaration? file place = some y) (hfresh : file.Fresh place.scope [o.item body]) :
    (l.walk file place (o.item body)).declared place.scope y.name = some y.id ∧
      (l.walk file place (o.item body)).definitions y.id = some y := by
  obtain ⟨hne, hnot⟩ := hfresh.ne_and_not_mem
  have hinside := hfresh.inside
  rw [← scope_placeIn file place l o] at hinside
  have hentered : (l.enter file place o).declared place.scope y.name = some y.id ∧
      (l.enter file place o).definitions y.id = some y := by
    cases o <;> cases ho <;> simp [enter, declare, record, define, bind, unbind, hne]
  obtain ⟨_, _, hframes⟩ := walkAll_frames (hs.inside hg hne) (hg.enter place o) hinside
  have hqualname : (l.placeIn file place o).qualname = y.qualname := by
    have hmem := l.qualname_placeIn file place o
    rwa [qualnames_declaration? ho, mem_singleton] at hmem
  have hchanges := hframes (· = y.id) (fun _ => false) fun p hp => by
    have hbelow := isBelow_of_mem_namesAll hp
    rw [hqualname, ← isBelow_idOf file.path, ← id_declaration? ho] at hbelow
    refine ⟨?_, fun id hid => absurd hid Bool.false_ne_true⟩
    rintro _ rfl
    exact Dotted.ne_and_isBelow_eq_false hbelow
  rw [walk_item, hchanges.definitions _ rfl, hchanges.declared]
  · exact hentered
  · rw [scope_placeIn]
    rintro (hmem | ⟨heq, _⟩)
    · exact hnot hmem
    · exact hne heq

/-- A declaration leaves an excess, with what it defines in the margin. -/
theorem exceeds_walk (hs : l.Stands file place) (hg : l.Grounded file)
    (ho : o.declaration? file place = some y) (hfresh : file.Fresh place.scope [o.item body]) :
    ∃ references : List PendingReference, references.length = referenceCount [o.item body] ∧
      Exceeds
        (.since l (l.walk file place (o.item body)) (· ∈ file.idsOf [o.item body]) references)
        (.declaration file.path y.qualname (· ∈ file.idsOf [o.item body]) place.scope y.name)
        (l.walk file place (o.item body)) l := by
  obtain ⟨_, _, hframes⟩ := walk_frames hs hg hfresh
  refine Exceeds.ofChanges hg ((hframes _ _ fun p hp => ?_).mono (fun _ hid => hid) ?_)
  · -- the names of the declaration are at or below its own, so what they touch is in the margin
    have hbelow : ∀ id, Dotted.isBelow (idOf file.path p) id →
        Dotted.isBelow (idOf file.path y.qualname) id := by
      intro id hid
      rcases eq_or_isBelow_of_mem_namesAll ho hp with rfl | hp
      · exact hid
      · rw [← isBelow_idOf file.path] at hp
        exact Dotted.isBelow_trans hp hid
    refine ⟨fun id hid => ⟨?_, ?_⟩, fun id hid => ?_⟩
    · rintro rfl
      refine hid ?_
      rcases eq_or_isBelow_of_mem_namesAll ho hp with rfl | hp
      · exact .inl rfl
      · exact .inr ((isBelow_idOf ..).trans hp)
    · rw [← Bool.not_eq_true]
      exact fun h => hid (.inr (hbelow id h))
    · rw [← Bool.not_eq_true]
      intro h
      simp [declaration, hbelow id h] at hid
  · rintro s name (hb | ⟨rfl, hb⟩)
    · exact .inl hb
    · rw [boundNames_item, bound_declaration? ho, mem_singleton] at hb
      exact .inr ⟨rfl, hb⟩

/-! ## Replacing a declaration -/

theorem discardBelow_of_drops_eq_false {p : String} (h : ∀ id, l.drops p id = false) :
    l.discardBelow p = l := by
  unfold discardBelow
  simp [h]

/-- A declaration that leaves nothing below its name: it replaces one, or there is nothing. -/
def Clears (l : Ledger) (scope : ScopeId) (x : Definition) : Prop :=
  (l.replaced? scope x).isSome ∨ ∀ id, l.drops x.qualname id = false

theorem Clears.makeRoom_eq (h : l.Clears place.scope y) (hs : l.Stands file place)
    (hg : l.Grounded file) (hy : y.qualname = place.qualname ++ "." ++ y.name) :
    l.makeRoom place.scope y = l.discardBelow y.qualname := by
  unfold makeRoom
  cases hprevious : l.replaced? place.scope y with
  | some previous => rw [hy, ← hs.qualname_of_replaced? hg hprevious]
  | none =>
    rcases h with h | h
    · rw [hprevious] at h
      cases h
    · rw [discardBelow_of_drops_eq_false h]

/-- In a ledger that is in order what lies below a name can be told by the ids. -/
theorem Grounded.discardBelow_eq (hg : l.Grounded file) (p : String) :
    l.discardBelow p = { l with
      definitions := fun id =>
        if Dotted.isBelow (idOf file.path p) id then none else l.definitions id
      classes := fun id => if Dotted.isBelow (idOf file.path p) id then none else l.classes id
      calls := l.calls.filter fun c => !Dotted.isBelow (idOf file.path p) c.caller } := by
  have hdrops : ∀ {id x}, l.definitions id = some x →
      l.drops p id = Dotted.isBelow (idOf file.path p) id := by
    intro id x hx
    rw [drops, hx, any_some, hg.ids hx, isBelow_idOf]
  have hundefined : ∀ {id}, l.definitions id = none → l.drops p id = false ∧
    l.classes id = none := by
    intro id hnone
    refine ⟨by rw [drops, hnone, any_none], ?_⟩
    rw [eq_none_iff_forall_ne_some]
    intro decl hdecl
    obtain ⟨x, hx⟩ := hg.recorded hdecl
    rw [hnone] at hx
    cases hx
  unfold Ledger.discardBelow
  congr 1
  · funext id
    cases hx : l.definitions id with
    | none => simp
    | some x => rw [hdrops hx]
  · funext id
    cases hx : l.definitions id with
    | none => simp [hundefined hx]
    | some x => rw [hdrops hx]
  · refine filter_congr fun c hc => ?_
    obtain ⟨⟨x, hx⟩, _⟩ := hg.called c hc
    rw [hdrops hx]

namespace Exceeds

variable {x : Excess} {ids : String → Prop} {scope : ScopeId} {t u : Ledger}

/-- A declaration of the same name that clears both ledgers ends the margin. -/
theorem declareAgain (h : Exceeds x (.declaration file.path y.qualname ids scope y.name) t u)
    (ht : t.Grounded file) (hu : u.Grounded file)
    (hid : y.id = Definition.idOf file.path y.qualname)
    (htroom : t.makeRoom scope y = t.discardBelow y.qualname)
    (huroom : u.makeRoom scope y = u.discardBelow y.qualname) :
    Exceeds x (.scopes ids) (t.declare scope y) (u.declare scope y) := by
  unfold Ledger.declare
  rw [htroom, huroom, ht.discardBelow_eq, hu.discardBelow_eq]
  refine ⟨fun id _ => ?_, fun id _ => ?_, ?_, h.references, h.counts, h.base, h.suspended,
    fun s name hoff => ?_⟩
  · simp only [Ledger.define, Ledger.bind, hid]
    split
    · rfl
    · next hne =>
      split
      · rfl
      · next hbelow => exact h.definitions id (not_or.mpr ⟨hne, hbelow⟩)
  · simp only [Ledger.define, Ledger.bind]
    split
    · exact .inl rfl
    · next hbelow => exact h.classes id (Bool.not_eq_true _ ▸ hbelow)
  · simpa [Ledger.define, Ledger.bind, Margin.scopes, Margin.declaration] using h.calls
  · simp only [Ledger.define, Ledger.bind]
    split
    · rfl
    · next hname => exact h.declared s name (not_or.mpr ⟨hoff, hname⟩)

/-- Two walks go in step into a declaration that ends the margin. -/
theorem enterAgain (h : Exceeds x (.declaration file.path y.qualname ids place.scope y.name) t u)
    (hts : t.Stands file place) (htg : t.Grounded file) (hus : u.Stands file place)
    (hug : u.Grounded file) (ho : o.declaration? file place = some y)
    (hne : place.scope ≠ file.markId o.mark) (ht : t.Clears place.scope y)
    (hu : u.Clears place.scope y) :
    Exceeds x (.scopes ids) (t.enter file place o) (u.enter file place o) := by
  have hroom : ∀ {l : Ledger}, l.Stands file place → l.Grounded file → l.Clears place.scope y →
      (l.openScope (file.markId o.mark)).makeRoom place.scope y =
        (l.openScope (file.markId o.mark)).discardBelow y.qualname := by
    intro l hs hg hl
    refine Clears.makeRoom_eq ?_ (hs.openScope hne) (hg.openScope _)
      (qualname_declaration? ho)
    refine hl.imp_left fun hsome => ?_
    simpa [replaced?, Ledger.openScope, hne] using hsome
  have hdeclare : Exceeds x (.scopes ids) ((t.openScope (file.markId o.mark)).declare place.scope y)
      ((u.openScope (file.markId o.mark)).declare place.scope y) :=
    (h.openScope _).declareAgain (htg.openScope _) (hug.openScope _) (id_declaration? ho)
      (hroom hts htg ht) (hroom hus hug hu)
  refine Exceeds.unbind ?_ _ _
  cases o with
  | classDecl mark head =>
    cases ho
    exact hdeclare.record _
  | functionDecl mark head =>
    cases ho
    exact hdeclare
  | lambda | block => cases ho

end Exceeds

/-- Items that neither bind a name nor declare anything at, above or below it leave it as it is. -/
theorem walkAll_apart (hs : l.Stands file place) (hg : l.Grounded file) {is : List Item}
    (hfresh : file.Fresh place.scope is) {q name : String}
    (hapart : ∀ p ∈ namesAll place.scopeKind place.qualname is, Dotted.isApart p q)
    (hbound : name ∉ boundNames is) :
    (l.walkAll file place is).declared place.scope name = l.declared place.scope name ∧
      ∀ id, id = idOf file.path q ∨ Dotted.isBelow (idOf file.path q) id →
        (l.walkAll file place is).definitions id = l.definitions id := by
  obtain ⟨_, _, hframes⟩ := walkAll_frames hs hg hfresh
  have hchanges := hframes _ _ fun p hp =>
    (clear_declaration (hapart p hp) file.path (fun _ => False) place.scope name).spares
  refine ⟨hchanges.declared _ _ ?_, hchanges.definitions⟩
  rintro (hmem | ⟨_, hmem⟩)
  · exact hfresh.not_mem hmem
  · exact hbound hmem

/-- Where nothing at, above or below a name is touched, it is replaced or cleared as before. -/
theorem Clears.walkAll (h : l.Clears place.scope y) (hs : l.Stands file place)
    (hg : l.Grounded file) (hy : y.qualname = place.qualname ++ "." ++ y.name) {is : List Item}
    (hfresh : file.Fresh place.scope is)
    (hapart : ∀ p ∈ namesAll place.scopeKind place.qualname is, Dotted.isApart p y.qualname)
    (hbound : y.name ∉ boundNames is) : (l.walkAll file place is).Clears place.scope y := by
  obtain ⟨hdeclared, hdefinitions⟩ := walkAll_apart hs hg hfresh hapart hbound
  refine h.imp (fun hsome => ?_) fun hnone id => ?_
  · rw [replaced?, hdeclared]
    rw [replaced?] at hsome
    cases hid : l.declared place.scope y.name with
    | none =>
      rw [hid] at hsome
      cases hsome
    | some id =>
      rw [hid, bind_some] at hsome
      rw [bind_some, hdefinitions id (.inl ?_)]
      · exact hsome
      · rw [hs.named hid, hy]
  · rw [← Bool.not_eq_true]
    intro hdrops
    have hbelow := (walkAll_frames hs hg hfresh).1.isBelow_of_drops hdrops
    rw [drops, hdefinitions id (.inr hbelow), ← drops, hnone id] at hdrops
    cases hdrops

/-- Two walks over a declaration that ends the margin and what follows, one with an earlier
declaration of the name and one without. -/
theorem Exceeds.walkAgain {x : Excess} {ids : String → Prop} {t u : Ledger}
    (h : Exceeds x (.declaration file.path y.qualname ids place.scope y.name) t u)
    (hts : t.Stands file place) (htg : t.Grounded file) (hus : u.Stands file place)
    (hug : u.Grounded file) (ho : o.declaration? file place = some y) (ht : t.Clears place.scope y)
    (hu : u.Clears place.scope y) (hfresh : file.Fresh place.scope [o.item body])
    (hout : ∀ id ∈ place.scope :: file.idsOf [o.item body], ¬ ids id) :
    Exceeds x (.scopes ids) (t.walk file place (o.item body))
      (u.walk file place (o.item body)) := by
  have hne := hfresh.ne_and_not_mem.1
  have hplace := placeIn_declaration? ho t u
  have htin := hts.inside htg hne
  rw [walk_item, walk_item, hplace]
  rw [hplace] at htin
  refine (h.enterAgain hts htg hus hug ho hne ht hu).walkAll_scopes htin (htg.enter place o)
    (hus.inside hug hne) (hug.enter place o) ?_ ?_
  · rw [scope_placeIn]
    exact hfresh.inside
  · rw [scope_placeIn, ← file.idsOf_item]
    exact (forall_mem_cons.mp hout).2

/-- **A replaced declaration leaves its excess.** A declaration, items that leave its name alone,
and a declaration of that name that replaces it are walked as without the first one, but for the
excess of the first one. -/
theorem exceeds_redeclaration (hs : l.Stands file place) (hg : l.Grounded file)
    {earlier later : Opening} {y' : Definition}
    (hearlier : earlier.declaration? file place = some y)
    (hlater : later.declaration? file place = some y') (hname : y.name = y'.name)
    (hreplaces : supersedes y.decorators y'.name y'.decorators = false)
    {between body' after : List Item}
    (hfresh : file.Fresh place.scope
      ([earlier.item body] ++ (between ++ ([later.item body'] ++ after))))
    (hapart : ∀ p ∈ namesAll place.scopeKind place.qualname between, Dotted.isApart p y'.qualname)
    (hbound : y'.name ∉ boundNames between) (hclears : l.Clears place.scope y') :
    ∃ references : List PendingReference, references.length = referenceCount [earlier.item body] ∧
      Exceeds
        (.since l (l.walk file place (earlier.item body)) (· ∈ file.idsOf [earlier.item body])
          references)
        (.scopes (· ∈ file.idsOf [earlier.item body]))
        (l.walkAll file place ([earlier.item body] ++ (between ++ ([later.item body'] ++ after))))
        (l.walkAll file place (between ++ ([later.item body'] ++ after))) := by
  have hq : y.qualname = y'.qualname := by
    rw [qualname_declaration? hearlier, qualname_declaration? hlater, hname]
  have hout := hfresh.disjoint
  rw [file.idsOf_append, file.idsOf_append, forall_mem_cons, forall_mem_append,
    forall_mem_append] at hout
  obtain ⟨houtScope, houtBetween, houtLater, houtAfter⟩ := hout
  have hfreshBetween := hfresh.right.left
  have hfreshLater := hfresh.right.right.left
  -- up to the earlier declaration
  obtain ⟨references, hlength, hexceeds⟩ := exceeds_walk hs hg hearlier hfresh.left
  obtain ⟨hgEarlier, hsEarlier, _⟩ := walk_frames hs hg hfresh.left
  obtain ⟨hdeclared, hdefined⟩ := declaration_stays hs hg hearlier hfresh.left
  have hclearsEarlier : (l.walk file place (earlier.item body)).Clears place.scope y' := by
    refine .inl ?_
    rw [replaced?, ← hname, hdeclared, bind_some, hdefined, filter_some, hname, hreplaces]
    rfl
  rw [hq, hname] at hexceeds
  -- up to the later one
  have hqLater := qualname_declaration? hlater
  have hexceedsBetween := hexceeds.walkAll hsEarlier hgEarlier hs hg hfreshBetween
    (fun p hp => clear_declaration (hapart p hp) ..)
    (fun name hmem => not_or.mpr ⟨houtScope, fun h => hbound (h.2 ▸ hmem)⟩)
    (fun id hid name => not_or.mpr ⟨houtBetween id hid, fun h =>
      hfreshBetween.not_mem (h.1 ▸ hid)⟩)
  obtain ⟨htg, hts, _⟩ := walkAll_frames hsEarlier hgEarlier hfreshBetween
  obtain ⟨hug, hus, _⟩ := walkAll_frames hs hg hfreshBetween
  have htclears := hclearsEarlier.walkAll hsEarlier hgEarlier hqLater hfreshBetween hapart hbound
  have huclears := hclears.walkAll hs hg hqLater hfreshBetween hapart hbound
  -- the later one and what follows
  have hexceedsLater :=
    hexceedsBetween.walkAgain hts htg hus hug hlater htclears huclears hfreshLater
    (forall_mem_cons.mpr ⟨houtScope, houtLater⟩)
  obtain ⟨htg', hts', _⟩ := walk_frames hts htg hfreshLater
  obtain ⟨hug', hus', _⟩ := walk_frames hus hug hfreshLater
  refine ⟨references, hlength, ?_⟩
  simp only [walkAll_append, walkAll_singleton]
  exact hexceedsLater.walkAll_scopes hts' htg' hus' hug' hfresh.right.right.right
    (forall_mem_cons.mpr ⟨houtScope, houtAfter⟩)

end Ledger

end Xref

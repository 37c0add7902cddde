import Xref.Proofs.Call.Targets
import Xref.Proofs.Hierarchy.Orders
import Xref.Proofs.Index.Assemble

/-!
# Calls on the parent

A member of the parent is looked for behind the class of the method, in the order of every class
that the object may have; these orders may put classes in between that the class itself does not
know. Where all that is found are functions, the call runs exactly those of them that are not
abstract.
-/

namespace Xref

open List Option Hierarchy Outcome BindingValue Xref.Small

theorem Catalog.memberAlong?_eq_some_iff {c : Catalog} {order : List DefId} {member : String}
    {giver : DefId} {b : Binding} :
    c.memberAlong? order member = some (giver, b) ↔
      ∃ between rest, order = between ++ giver :: rest ∧ c.ownMember? giver member = some b ∧
        ∀ k ∈ between, c.ownMember? k member = none := by
  simp [memberAlong?, List.findSome?_eq_some_iff]

namespace Hierarchy

/-! ## The rest of an order -/

theorem after?_eq_some_iff {start : DefId} {order rest : List DefId} :
    after? start order = some rest ↔ ∃ before, order = before ++ start :: rest ∧
      start ∉ before := by
  induction order with
  | nil => simp [after?]
  | cons id ids ih =>
    by_cases hid : id = start
    · subst hid
      rw [after?, if_pos rfl]
      constructor
      · intro h
        exact ⟨[], by rw [Option.some.inj h]; rfl, not_mem_nil⟩
      · rintro ⟨before, heq, hnot⟩
        cases before with
        | nil => rw [(List.cons.inj heq).2]
        | cons k ks => exact absurd ((List.cons.inj heq).1 ▸ mem_cons_self) hnot
    · rw [after?, if_neg hid, ih]
      constructor
      · rintro ⟨before, rfl, hnot⟩
        exact ⟨id :: before, rfl, fun hmem => (mem_cons.mp hmem).elim (fun h => hid h.symm) hnot⟩
      · rintro ⟨before, heq, hnot⟩
        cases before with
        | nil => exact absurd (List.cons.inj heq).1 hid
        | cons k ks => exact ⟨ks, (List.cons.inj heq).2, fun hmem => hnot (mem_cons_of_mem _ hmem)⟩

/-- In the order of a class, another class is the first behind an owner that binds a member. -/
structure NextBinds (h : Hierarchy) (c : Catalog) (owner : DefId) (member : String)
    (id giver : DefId) (b : Binding) : Prop where
  order : ∃ before between rest,
    h.order? id = some (before ++ owner :: (between ++ giver :: rest)) ∧
    owner ∉ before ∧ ∀ k ∈ between, c.ownMember? k member = none
  binds : c.ownMember? giver member = some b

variable {h : Hierarchy} {c : Catalog} {owner id : DefId}

theorem lookup?_after_eq_some_iff {giver : DefId} {member : String} {b : Binding} :
    h.lookup? c id member (some owner) = some (giver, b) ↔
      h.NextBinds c owner member id giver b := by
  simp only [lookup?, bind_eq_bind, bind_eq_some_iff, after?_eq_some_iff,
    Catalog.memberAlong?_eq_some_iff]
  constructor
  · rintro ⟨order, horder, rest, ⟨before, rfl, hbefore⟩, between, rest', rfl, hb, hbetween⟩
    exact ⟨⟨before, between, rest', horder, hbefore, hbetween⟩, hb⟩
  · rintro ⟨⟨before, between, rest, horder, hbefore, hbetween⟩, hb⟩
    exact ⟨_, horder, _, ⟨before, rfl, hbefore⟩, between, rest, rfl, hb, hbetween⟩

/-- The order of a class has an owner and no repeats, and what it gives of a member behind the owner
is given neither by the owner nor by a class before it. -/
def GivesBehind (h : Hierarchy) (c : Catalog) (owner : DefId) (member : String)
    (id : DefId) : Prop :=
  ∃ before rest, h.order? id = some (before ++ owner :: rest) ∧ (before ++ owner :: rest).Nodup ∧
    ∀ giver b, h.NextBinds c owner member id giver b → giver ∈ rest ∧ giver ≠ owner ∧ giver ∉ before

/-- The order of every class derived from a class that is free of cycles has that class in it,
once. -/
theorem exists_order_of_subtree? {reports : List Diagnostic} (hs : c.Sound)
    (hb : build c = .ok (h, reports)) {below : List DefId} (hfree : h.isCyclic owner = false)
    (hbelow : h.subtree? owner = some below) (hid : id ∈ below) :
    ∃ order, h.order? id = some order ∧ order.Nodup ∧ owner ∈ order := by
  have hk := keyed_of_build hb
  have hkey := hk.mem_keys_of_subtree? hbelow hid
  have hderives : h.Derives owner id := by
    have hcontains : owner ∈ h.entries.keys := by
      refine OrderedMap.contains_eq_true_iff.mp ?_
      by_contra hno
      simp [subtree?, hno] at hbelow
    obtain ⟨below', hbelow', _, _, hmem⟩ := hk.subtree hcontains
    cases hbelow.symm.trans hbelow'
    exact (hmem id).mp hid
  have hidFree : h.isCyclic id = false := by
    rcases Relation.ReflTransGen.cases_tail hderives with rfl | ⟨_, _, e, he, _, hfree'⟩
    · exact hfree
    · simp [isCyclic, he, hfree']
  obtain ⟨warned, _, _, _, horders⟩ := ordersClasses_of_build hs hb
  obtain ⟨order, hlinear⟩ := horders id ((mem_keys_of_build hb).mp hkey) hidFree
  refine ⟨order, hlinear.found, hlinear.nodup, (hlinear.mem_iff owner).mpr ?_⟩
  have hstep : ∀ base d, h.DirectlyDerives base d → base ∈ h.namedBases d := by
    rintro base d ⟨e, he, hbase, _⟩
    simpa [namedBases, he] using hbase
  exact Relation.reflTransGen_swap.mp (Relation.ReflTransGen.mono hstep _ _ hderives)

theorem givesBehind_of_subtree? {reports : List Diagnostic} (hs : c.Sound)
    (hb : build c = .ok (h, reports)) {below : List DefId} (hfree : h.isCyclic owner = false)
    (hbelow : h.subtree? owner = some below) {member : String} (hid : id ∈ below) :
    h.GivesBehind c owner member id := by
  obtain ⟨order, horder, hnodup, hin⟩ := exists_order_of_subtree? hs hb hfree hbelow hid
  obtain ⟨before, rest, rfl, hfirst⟩ := eq_append_cons_of_mem hin
  refine ⟨before, rest, horder, hnodup, fun giver b hnext => ?_⟩
  have hdisjoint := nodup_append.mp hnodup
  have hrest : giver ∈ rest := by
    -- both cuts of the order at its first owner are the same
    obtain ⟨⟨before', between, rest', horder', hfirst', _⟩, _⟩ := hnext
    rw [horder] at horder'
    have hcut : after? owner (before ++ owner :: rest) = some rest :=
      after?_eq_some_iff.mpr ⟨before, rfl, hfirst⟩
    rw [after?_eq_some_iff.mpr ⟨before', Option.some.inj horder', hfirst'⟩] at hcut
    rw [← Option.some.inj hcut]
    simp
  refine ⟨hrest, ?_, fun hmem => ?_⟩
  · rintro rfl
    exact (nodup_cons.mp hdisjoint.2.1).1 hrest
  · exact hdisjoint.2.2 giver hmem giver (mem_cons_of_mem _ hrest) rfl

end Hierarchy

namespace Resolver

open Text

variable {r : Resolver} {c : PendingCall} {owner : DefId} {member : String}

/-! ## Bindings behind a class -/

/-- What is collected after some classes: the bindings that their orders give behind the owner, one
for each class that gives one. -/
structure Collected (r : Resolver) (owner : DefId) (member : String) (seen : List DefId)
    (found : List (DefId × Binding)) : Prop where
  nodup : (found.map Prod.fst).Nodup
  mem_iff : ∀ f, f ∈ found ↔ ∃ id ∈ seen, r.hierarchy.NextBinds r.catalog owner member id f.1 f.2

variable {seen below : List DefId} {found : List (DefId × Binding)} {id : DefId} {b : Binding}

section

variable (h : Collected r owner member seen found)
include h

/-- Whatever order it is found by, a class gives one binding. -/
theorem Collected.mem_of_fst {f g : DefId × Binding} (hf : f ∈ found)
    (hg : r.hierarchy.NextBinds r.catalog owner member id g.1 g.2) (heq : f.1 = g.1) :
    g ∈ found := by
  obtain ⟨_, _, hbinds⟩ := (h.mem_iff f).mp hf
  have hsame : f.2 = g.2 := Option.some.inj (hbinds.binds.symm.trans (heq ▸ hg.binds))
  have hfg : f = g := Prod.ext heq hsame
  exact hfg ▸ hf

theorem Collected.exists_iff (id : DefId) (f : DefId × Binding) :
    (∃ k ∈ seen ++ [id], r.hierarchy.NextBinds r.catalog owner member k f.1 f.2) ↔
      f ∈ found ∨ r.hierarchy.lookup? r.catalog id member (some owner) = some f := by
  rw [h.mem_iff, lookup?_after_eq_some_iff]
  simp only [mem_append, mem_singleton, or_and_right, exists_or, exists_eq_left]

theorem Collected.pass (hl : r.hierarchy.lookup? r.catalog id member (some owner) = none) :
    Collected r owner member (seen ++ [id]) found := by
  refine ⟨h.nodup, fun f => ?_⟩
  rw [h.exists_iff, hl]
  simp

/-- One more class, whose order gives a binding. -/
theorem Collected.hit {hit : DefId × Binding}
    (hl : r.hierarchy.lookup? r.catalog id member (some owner) = some hit) :
    Collected r owner member (seen ++ [id])
      (if found.any fun f => f.1 = hit.1 then found else found ++ [hit]) := by
  have hiff : ∀ f, (∃ k ∈ seen ++ [id], r.hierarchy.NextBinds r.catalog owner member k f.1 f.2) ↔
      f ∈ found ∨ f = hit := by
    intro f
    rw [h.exists_iff, hl, Option.some.injEq, eq_comm]
  split
  · next hany =>
    obtain ⟨g, hg, heq⟩ := any_eq_true.mp hany
    have hin : hit ∈ found :=
      h.mem_of_fst hg (lookup?_after_eq_some_iff.mp hl) (of_decide_eq_true heq)
    refine ⟨h.nodup, fun f => ?_⟩
    rw [hiff]
    constructor
    · exact .inl
    · rintro (hf | rfl)
      · exact hf
      · exact hin
  · next hany =>
    have hnew : hit.1 ∉ found.map Prod.fst := by
      intro hmem
      obtain ⟨g, hg, heq⟩ := mem_map.mp hmem
      exact hany (any_eq_true.mpr ⟨g, hg, decide_eq_true heq⟩)
    refine ⟨?_, fun f => ?_⟩
    · rw [map_append, map_singleton]
      exact h.nodup.append (nodup_singleton _) (disjoint_singleton.mpr hnew)
    · rw [hiff, mem_append, mem_singleton]

end

theorem Collected.foldl {step : List (DefId × Binding) → DefId → List (DefId × Binding)}
    (hstep : ∀ {seen found}, Collected r owner member seen found → ∀ id,
      Collected r owner member (seen ++ [id]) (step found id))
    (h : Collected r owner member seen found) (related : List DefId) :
    Collected r owner member (seen ++ related) (related.foldl step found) := by
  induction related generalizing seen found with
  | nil =>
    rw [append_nil]
    exact h
  | cons id related ih =>
    rw [append_cons, foldl_cons]
    exact ih (hstep h id)

theorem collected_bindingsAfter (r : Resolver) (owner : DefId) (member : String)
    (related : List DefId) :
    Collected r owner member related (r.bindingsAfter owner member related) := by
  have hnil : Collected r owner member [] [] := ⟨nodup_nil, by simp⟩
  unfold bindingsAfter
  refine Collected.foldl (fun h id => ?_) hnil related
  split
  · next hit hl => exact h.hit hl
  · next hl => exact h.pass hl

/-! ## Calling what is found -/

/-- Calling what a binding refers to, if that is run when it is called. -/
def alone (r : Resolver) (b : Binding) : Outcome :=
  ((definitionOf? r.catalog b).map fun f =>
    if f.isAbstract then .unknown (some (.isAbstract f.qualname))
      else .exact [f.id]).getD (.unknown none)

theorem mem_targets_alone {t : DefId} :
    t ∈ (r.alone b).targets ↔
      ∃ f, definitionOf? r.catalog b = some f ∧ f.isAbstract = false ∧ f.id = t := by
  unfold alone
  cases definitionOf? r.catalog b with
  | none => simp [unknown]
  | some f =>
    cases hf : f.isAbstract
    · simp [exact, hf, eq_comm (a := t)]
    · simp [unknown, hf]

variable {f : Definition}

/-- A binding that refers to a definition means it, and consults its name only. -/
theorem binding_of_definitionOf? (hf : definitionOf? r.catalog b = some f)
    (hk : f.kind ≠ .boundValue) :
    r.view.binding b = (do mention f.qualname return Resolved.bound b (.definition f.id none)) := by
  obtain ⟨id, hid, hget⟩ := bind_eq_some_iff.mp hf
  have hview : r.view.catalog.definitions.get? id = some f := hget
  have hhops : View.hops = 19 + 1 := rfl
  rw [View.binding, hhops, View.bindingAt, if_neg (by decide)]
  cases hv : b.value with
  | declared id' | literal id' =>
    cases hid.symm.trans (congrArg definition? hv)
    simp only [hview]
  | built id' maker seenFrom =>
    cases hid.symm.trans (congrArg definition? hv)
    simp only [hview]
    split
    · next hkind => exact absurd hkind hk
    · rfl
  | imported _ | receiver _ _ | assigned _ _ _ | parameter _ _ | loop =>
    cases hid.symm.trans (congrArg definition? hv)

theorem read_binding (hf : definitionOf? r.catalog b = some f) (hk : f.kind ≠ .boundValue) :
    read (r.view.binding b) = .ok (.bound b (.definition f.id none)) := by
  rw [binding_of_definitionOf? hf hk, read, denoted]
  unfold mention
  split <;> rfl

theorem gives_callBinding (hs : r.catalog.Sound) (c : PendingCall)
    (hf : definitionOf? r.catalog b = some f) (hk : f.kind ∈ [.function, .method, .lambda]) :
    Gives (r.callBinding c b) (.ok (r.alone b)) := by
  have hne : f.kind ≠ .boundValue := by
    intro heq
    rw [heq] at hk
    simp at hk
  obtain ⟨id, _, hget⟩ := bind_eq_some_iff.mp hf
  have hid : f.id = id := hs.id_eq hget
  unfold callBinding
  refine (read_binding hf hne ▸ gives_traced (r.view.binding b)).bind_ok ?_
  unfold call invoke definition
  simp only [Resolved.bound, hid, hget]
  refine (Gives.pure f).bind_ok ?_
  have hkind : f.kind = .function ∨ f.kind = .method ∨ f.kind = .lambda := by simpa using hk
  rw [alone, hf, map_some, getD_some]
  unfold invokeDefinition
  rcases hkind with hkind | hkind | hkind <;> simp only [hkind] <;> split <;> exact .pure _

theorem gives_mapM {f : α → Resolving β} {g : α → β} {xs : List α}
    (h : ∀ x ∈ xs, Gives (f x) (.ok (g x))) : Gives (xs.mapM f) (.ok (xs.map g)) := by
  induction xs with
  | nil => exact .pure []
  | cons x xs ih =>
    rw [mapM_cons]
    obtain ⟨hx, hxs⟩ := forall_mem_cons.mp h
    exact hx.bind_ok ((ih hxs).bind_ok (.pure _))

/-- A definition that the call may run: a class of the subtree has in its order, behind the owner, a
first class that binds the member, and this class binds it to the definition. -/
def ParentGives (r : Resolver) (owner : DefId) (member : String) (below : List DefId)
    (giver : DefId) (f : Definition) : Prop :=
  ∃ id ∈ below, ∃ b, r.hierarchy.NextBinds r.catalog owner member id giver b ∧
    definitionOf? r.catalog b = some f

/-- An outcome covers what a call on the parent may run: it has each concrete definition once, is
certain if one class gives them all, depends on the class of the object if several do, and is
unknown if all are abstract. -/
structure CoversParents (r : Resolver) (owner : DefId) (member : String) (below : List DefId)
    (targets : List DefId) (confidence : Confidence) (dispatch : Dispatch) : Prop where
  nodup : targets.Nodup
  mem_iff : ∀ t, t ∈ targets ↔
    ∃ giver f, r.ParentGives owner member below giver f ∧ f.isAbstract = false ∧ f.id = t
  one : (∃ giver f, r.ParentGives owner member below giver f ∧ f.isAbstract = false ∧
      ∀ giver' f', r.ParentGives owner member below giver' f' → giver' = giver) →
    confidence = .exact ∧ dispatch = .static
  several : (∃ giver f giver' f', r.ParentGives owner member below giver f ∧ f.isAbstract = false ∧
      r.ParentGives owner member below giver' f' ∧ giver' ≠ giver) →
    confidence = .ambiguous ∧ dispatch = .virtual
  none : (∀ giver f, r.ParentGives owner member below giver f → f.isAbstract) →
    confidence = .unknown ∧ targets = []

/-- What is given behind the owner, told by the bindings that are found. -/
def Found (r : Resolver) (owner : DefId) (member : String) (below : List DefId)
    (found : List (DefId × Binding)) : Prop :=
  ∀ giver f, r.ParentGives owner member below giver f ↔
    ∃ b, (giver, b) ∈ found ∧ definitionOf? r.catalog b = some f

theorem Found.mem_flatMap_alone (h : r.Found owner member below found) {t : DefId} :
    t ∈ found.flatMap (fun x => (r.alone x.2).targets) ↔
      ∃ giver f, r.ParentGives owner member below giver f ∧ f.isAbstract = false ∧ f.id = t := by
  simp only [mem_flatMap, mem_targets_alone, Prod.exists, h _ _]
  constructor
  · rintro ⟨giver, b, hb, f, hf, hconcrete⟩
    exact ⟨giver, f, ⟨b, hb, hf⟩, hconcrete⟩
  · rintro ⟨giver, f, ⟨b, hb, hf⟩, hconcrete⟩
    exact ⟨giver, b, hb, f, hf, hconcrete⟩

/-- Nothing is found. -/
theorem Found.covers_nil (h : r.Found owner member below []) :
    r.CoversParents owner member below [] .unknown .static := by
  have hnone : ∀ giver f, ¬ r.ParentGives owner member below giver f := by
    intro giver f
    simp [h giver f]
  constructor
  case nodup => exact nodup_nil
  case mem_iff => simp [hnone]
  case one => simp [hnone]
  case several => simp [hnone]
  case none => simp

/-- One class gives the member. -/
theorem Found.covers_singleton {giver : DefId} (h : r.Found owner member below [(giver, b)])
    (hf : definitionOf? r.catalog b = some f) :
    r.CoversParents owner member below (r.alone b).targets (r.alone b).confidence
      (r.alone b).dispatch := by
  have honly : ∀ giver' f', r.ParentGives owner member below giver' f' ↔ giver' = giver ∧
    f' = f := by
    intro giver' f'
    simp only [h giver' f', mem_singleton, Prod.mk.injEq]
    constructor
    · rintro ⟨_, ⟨rfl, rfl⟩, hf'⟩
      exact ⟨rfl, Option.some.inj (hf'.symm.trans hf)⟩
    · rintro ⟨rfl, rfl⟩
      exact ⟨b, ⟨rfl, rfl⟩, hf⟩
  have hmem := fun t => h.mem_flatMap_alone (t := t)
  rw [flatMap_singleton] at hmem
  have halone : r.alone b =
      if f.isAbstract then .unknown (some (.isAbstract f.qualname)) else .exact [f.id] := by
    rw [alone, hf, map_some, getD_some]
  cases habs : f.isAbstract with
  | true =>
    rw [habs, if_pos rfl] at halone
    rw [halone] at hmem ⊢
    refine ⟨nodup_nil, hmem, ?_, ?_, fun _ => ⟨rfl, rfl⟩⟩
    · rintro ⟨giver', f', hgives, hconcrete, _⟩
      rw [((honly _ _).mp hgives).2, habs] at hconcrete
      cases hconcrete
    · rintro ⟨giver', f', _, _, hgives, hconcrete, _⟩
      rw [((honly _ _).mp hgives).2, habs] at hconcrete
      cases hconcrete
  | false =>
    rw [habs, if_neg Bool.false_ne_true] at halone
    rw [halone] at hmem ⊢
    refine ⟨nodup_singleton _, hmem, fun _ => ⟨rfl, rfl⟩, ?_, fun hnone => ?_⟩
    · rintro ⟨giver₁, f₁, giver₂, f₂, h₁, _, h₂, hne⟩
      exact absurd (((honly _ _).mp h₂).1.trans ((honly _ _).mp h₁).1.symm) hne
    · have := hnone giver f ((honly _ _).mpr ⟨rfl, rfl⟩)
      rw [habs] at this
      cases this

/-- Two classes at least give the member. -/
theorem Found.covers_several {x y : DefId × Binding} {rest : List (DefId × Binding)}
    (h : r.Found owner member below (x :: y :: rest)) (hne : x.1 ≠ y.1)
    (hx : (definitionOf? r.catalog x.2).isSome) (hy : (definitionOf? r.catalog y.2).isSome)
    {targets : List DefId}
    (ht : targets = ((x :: y :: rest).flatMap fun x => (r.alone x.2).targets).eraseDups) :
    r.CoversParents owner member below targets (if targets = [] then .unknown else .ambiguous)
      (if targets = [] then .static else .virtual) := by
  have hmem : ∀ t, t ∈ targets ↔
      ∃ giver f, r.ParentGives owner member below giver f ∧ f.isAbstract = false ∧ f.id = t := by
    intro t
    rw [ht, mem_eraseDups]
    exact h.mem_flatMap_alone
  have hsome : ∀ {giver f}, r.ParentGives owner member below giver f → f.isAbstract = false →
    targets ≠ [] :=
    fun hgives hconcrete => ne_nil_of_mem ((hmem _).mpr ⟨_, _, hgives, hconcrete, rfl⟩)
  obtain ⟨f, hf⟩ := isSome_iff_exists.mp hx
  obtain ⟨g, hg⟩ := isSome_iff_exists.mp hy
  have hfirst : r.ParentGives owner member below x.1 f := (h _ _).mpr ⟨x.2, by simp, hf⟩
  have hsecond : r.ParentGives owner member below y.1 g := (h _ _).mpr ⟨y.2, by simp, hg⟩
  refine ⟨ht ▸ Graph.nodup_eraseDups _, hmem, ?_, ?_, fun hnone => ?_⟩
  · rintro ⟨giver, _, _, _, hone⟩
    exact absurd ((hone _ _ hfirst).trans (hone _ _ hsecond).symm) hne
  · rintro ⟨_, _, _, _, hgives, hconcrete, _⟩
    have := hsome hgives hconcrete
    simp [this]
  · have hnil : targets = [] := by
      refine eq_nil_iff_forall_not_mem.mpr fun t hmemt => ?_
      obtain ⟨giver, f', hgives, hconcrete, _⟩ := (hmem t).mp hmemt
      rw [hnone giver f' hgives] at hconcrete
      cases hconcrete
    simp [hnil]

/-- A call on the parent goes on with the subtree of a class that is free of cycles. -/
theorem gives_with_subtree {inCycle : Resolving Outcome} {next : List DefId → Resolving Outcome}
    {x : Except Fault Outcome} (hfree : r.hierarchy.isCyclic owner = false)
    (hbelow : r.hierarchy.subtree? owner = some below) (h : Gives (next below) x) :
    Gives (do
      r.noteClass owner
      if r.hierarchy.isCyclic owner then inCycle
      else
        let related ← r.notedSubtree owner
        next related) x := by
  have hsubtree : r.hierarchy.subtree owner = .ok below := (subtree_eq_ok_iff ..).mpr hbelow
  refine (Gives.modify _).bind_ok ?_
  rw [hfree, if_neg Bool.false_ne_true]
  exact (hsubtree ▸ r.gives_notedSubtree owner).bind_ok h

theorem exists_covers_callOnParent (hs : r.catalog.Sound)
    (hfree : r.hierarchy.isCyclic owner = false) (hbelow : r.hierarchy.subtree? owner = some below)
    (hall : ∀ id ∈ below, ∀ giver b, r.hierarchy.NextBinds r.catalog owner c.callee id giver b →
      ∃ f, definitionOf? r.catalog b = some f ∧ f.kind ∈ [.function, .method, .lambda]) :
    ∃ o, Gives (r.callOnParent c owner) (.ok o) ∧
      r.CoversParents owner c.callee below o.targets o.confidence o.dispatch := by
  have hfound := r.collected_bindingsAfter owner c.callee below
  have hgives : ∀ x ∈ r.bindingsAfter owner c.callee below,
    Gives (r.callBinding c x.2) (.ok (r.alone x.2)) := by
    intro x hx
    obtain ⟨id, hid, hnext⟩ := (hfound.mem_iff x).mp hx
    obtain ⟨f, hf, hk⟩ := hall id hid x.1 x.2 hnext
    exact gives_callBinding hs c hf hk
  have htold : r.Found owner c.callee below (r.bindingsAfter owner c.callee below) := by
    intro giver f
    constructor
    · rintro ⟨id, hid, b, hnext, hf⟩
      exact ⟨b, (hfound.mem_iff _).mpr ⟨id, hid, hnext⟩, hf⟩
    · rintro ⟨b, hb, hf⟩
      obtain ⟨id, hid, hnext⟩ := (hfound.mem_iff _).mp hb
      exact ⟨id, hid, b, hnext, hf⟩
  have hdefined : ∀ x ∈ r.bindingsAfter owner c.callee below,
      (definitionOf? r.catalog x.2).isSome := by
    intro x hx
    obtain ⟨id, hid, hnext⟩ := (hfound.mem_iff x).mp hx
    obtain ⟨f, hf, _⟩ := hall id hid x.1 x.2 hnext
    exact isSome_iff_exists.mpr ⟨f, hf⟩
  have hnodup := hfound.nodup
  unfold callOnParent
  cases hcase : r.bindingsAfter owner c.callee below with
  | nil =>
    rw [hcase] at htold
    refine ⟨.unknown (if r.hierarchy.hasExternalBase owner then none
      else some (.noBaseDefines (r.catalog.qualnameOf owner) c.callee)),
        gives_with_subtree hfree hbelow ?_,
      htold.covers_nil⟩
    simp only [hcase]
    split <;> exact .pure _
  | cons x rest =>
    rw [hcase] at htold hgives hdefined hnodup
    cases rest with
    | nil =>
      obtain ⟨f, hf⟩ := isSome_iff_exists.mp (hdefined x mem_cons_self)
      refine ⟨r.alone x.2, gives_with_subtree hfree hbelow ?_, htold.covers_singleton hf⟩
      simp only [hcase]
      exact hgives x mem_cons_self
    | cons y rest =>
      have hne : x.1 ≠ y.1 := by
        intro heq
        simp [heq] at hnodup
      have hcovers := htold.covers_several hne (hdefined x (by simp)) (hdefined y (by simp)) rfl
      have hmap := gives_mapM hgives
      have hflat : ((x :: y :: rest).map fun x => r.alone x.2).flatMap (·.targets) =
          (x :: y :: rest).flatMap fun x => (r.alone x.2).targets := by
        rw [flatMap_map]
      cases htargets : ((x :: y :: rest).flatMap fun x => (r.alone x.2).targets).eraseDups with
      | nil =>
        rw [htargets] at hcovers
        refine ⟨.unknown (some (.noConcreteAfter c.callee (r.catalog.qualnameOf owner))),
          gives_with_subtree hfree hbelow ?_, hcovers⟩
        simp only [hcase]
        refine hmap.bind_ok ?_
        simp only [hflat, htargets]
        exact .pure _
      | cons t ts =>
        rw [htargets] at hcovers
        refine ⟨.ambiguous (t :: ts) .virtual, gives_with_subtree hfree hbelow ?_, hcovers⟩
        simp only [hcase]
        refine hmap.bind_ok ?_
        simp only [hflat, htargets]
        exact .pure _

/-! ## Resolved calls -/

/-- A call whose outcome has definitions for targets is resolved. -/
theorem exists_resolve_of_gives {kind : ReceiverKind} {o : Outcome}
    (h : Gives (r.outcome c) (.ok (kind, o)))
    (ht : ∀ t ∈ o.targets, t ∈ r.catalog.definitions.keys) :
    ∃ site ws, r.resolve c = .ok (site, ws) ∧ site.targets = o.targets ∧
      site.confidence = o.confidence ∧ site.dispatch = o.dispatch := by
  obtain ⟨x, hx, hfails⟩ := r.fails_targetDefinitions o.targets
  have hok : ∃ ds, x = .ok ds := by
    cases x with
    | error e =>
      obtain ⟨_, t, hmem, hnone⟩ := (hfails e).mp rfl
      exact absurd (ht t hmem) (OrderedMap.get?_eq_none_iff.mp hnone)
    | ok ds => exact ⟨ds, rfl⟩
  obtain ⟨ds, rfl⟩ := hok
  unfold resolve
  extract_lets steps
  have hsteps : Gives steps (.ok (kind, o, ds)) :=
    h.bind_ok (hx.bind_ok ((Gives.forM fun d => .modify _).bind_ok (.pure _)))
  obtain ⟨trail, hrun⟩ := hsteps.exists_run []
  rw [hrun]
  exact ⟨_, _, rfl, rfl, rfl, rfl⟩

theorem CallsParent.gives_outcome {o : Outcome} (h : r.CallsParent c owner)
    (ho : Gives (r.callOnParent c owner) (.ok o)) : Gives (r.outcome c) (.ok (.selfMember, o)) := by
  unfold outcome
  simp only [h.receiver_eq, h.plain, h.owner_eq]
  exact ho.bind_ok (.pure _)

/-- A call of what is no plain name on something. -/
theorem gives_outcome_of_not_plain {receiver : String} (hreceiver : c.receiver = some receiver)
    (hplain : isName c.callee.toList = false) :
    Gives (r.outcome c) (.ok (.instanceMember, .unknown none)) := by
  unfold outcome
  simp only [hreceiver, hplain]
  exact .pure _

/-- Calls of a member of the parent, in a method of a class that is free of cycles, in an index of
some files. Suppose that in the order of each class of the subtree the first binding of the member
behind the owner, if there is one, refers to a function, method or lambda. Then the call is
resolved. If the name of the member is a letter of ASCII or an underscore with characters of words
behind it, the call covers what these bindings refer to; each is given by a class that, in an order
that has the owner and no repeats, is neither the owner nor before it. With any other name nothing
is known of the call. -/
theorem parent_call_covers {digests : List Digest}
    (hd : ∀ d ∈ digests, ∃ o version, Digest.ofOutline o version = .ok d)
    (hm : r.catalog = (Catalog.merge digests).1) {reports : List Diagnostic}
    (hb : build r.catalog = .ok (r.hierarchy, reports)) (c : PendingCall)
    (hreceiver : c.receiver = some "super()")
    (howner : (r.catalog.definitions.get? c.caller).bind (·.ownerClass) = some owner)
    {below : List DefId} (hfree : r.hierarchy.isCyclic owner = false)
    (hbelow : r.hierarchy.subtree? owner = some below)
    (hall : ∀ id ∈ below, ∀ giver b, r.hierarchy.NextBinds r.catalog owner c.callee id giver b →
      ∃ f, definitionOf? r.catalog b = some f ∧ f.kind ∈ [.function, .method, .lambda]) :
    ∃ site ws, r.resolve c = .ok (site, ws) ∧
      (isName c.callee.toList = true →
        r.CoversParents owner c.callee below site.targets site.confidence site.dispatch ∧
          ∀ id ∈ below, r.hierarchy.GivesBehind r.catalog owner c.callee id) ∧
      (isName c.callee.toList = false → site.confidence = .unknown ∧ site.targets = []) := by
  have hs : r.catalog.Sound := hm ▸ Catalog.sound_merge_of_outlines hd
  cases hplain : isName c.callee.toList with
  | false =>
    obtain ⟨site, ws, hsite, htargets, hconfidence, _⟩ :=
      exists_resolve_of_gives (r :=
        r) (gives_outcome_of_not_plain hreceiver hplain) (by simp [unknown])
    exact ⟨site, ws, hsite, by simp, fun _ => ⟨hconfidence, htargets⟩⟩
  | true =>
    have hcalls : r.CallsParent c owner := ⟨hreceiver, hplain, howner⟩
    obtain ⟨o, ho, hcovers⟩ := exists_covers_callOnParent hs hfree hbelow hall
    obtain ⟨trail, hrun⟩ := ho.exists_run []
    have hdefined :=
      ensures_callOnParent (Defined.closed ⟨hs, reports, hb⟩) hreceiver howner _ _ _ hrun
    obtain ⟨site, ws, hsite, htargets, hconfidence, hdispatch⟩ :=
      exists_resolve_of_gives (hcalls.gives_outcome ho) hdefined
    refine ⟨site, ws, hsite, fun _ => ⟨?_, fun id hid => ?_⟩, by simp⟩
    · rw [htargets, hconfidence, hdispatch]
      exact hcovers
    · exact givesBehind_of_subtree? hs hb hfree hbelow hid

/-! ## A class in between -/

/-- A class, two that derive from it, and one that derives from both. The first and the third have a
member, and a method of the second calls it on the parent. -/
def cooperating (member : String) : Resolver :=
  standard (catalogOf [file "m.py" "m"
    [classItem "A" [] [functionItem "a" member false []],
     classItem "B" ["A"] [functionItem "b" "run" false []],
     classItem "C" ["A"] [functionItem "c" member false []],
     classItem "D" ["B", "C"] []]])

def parentCall (member : String) : PendingCall :=
  ⟨"m.py#up", "m.py::m.B.run", "m.py#b", "m.py", ⟨4, 8⟩, 0, member, some "super()", some 0, false⟩

/-- The call runs what the first class gives, or what the third does for an object of the last. -/
theorem parent_call_covers_cooperating :
    ∃ site ws, (cooperating "save").resolve (parentCall "save") = .ok (site, ws) ∧
      site.targets = ["m.py::m.A.save", "m.py::m.C.save"] ∧
      site.confidence = .ambiguous ∧ site.dispatch = .virtual ∧
      (cooperating "save").CoversParents "m.py::m.B" "save" ["m.py::m.B", "m.py::m.D"] site.targets
        site.confidence site.dispatch := by
  have hbuild : Hierarchy.build (cooperating "save").catalog =
      .ok ((cooperating "save").hierarchy, (Hierarchy.built (cooperating "save").catalog).2) := by
    decide +kernel
  have hfound : ["m.py::m.B", "m.py::m.D"].all (fun id =>
      ((cooperating "save").hierarchy.lookup? (cooperating "save").catalog id "save"
        (some "m.py::m.B")).all fun hit =>
          (Hierarchy.definitionOf? (cooperating "save").catalog hit.2).any fun f =>
            [DefinitionKind.function, .method, .lambda].contains f.kind) := by
    decide +kernel
  have hsite : ((cooperating "save").resolve (parentCall "save")).toOption.any (fun p =>
      p.1.targets = ["m.py::m.A.save", "m.py::m.C.save"] && p.1.confidence = .ambiguous &&
        p.1.dispatch = .virtual) := by
    decide +kernel
  have howner : ((cooperating "save").catalog.definitions.get? (parentCall "save").caller).bind
      (·.ownerClass) = some "m.py::m.B" := by
    decide +kernel
  have hbelow : (cooperating "save").hierarchy.subtree? "m.py::m.B" = some ["m.py::m.B",
    "m.py::m.D"] := by
    decide +kernel
  have hall : ∀ id ∈ ["m.py::m.B", "m.py::m.D"], ∀ giver b,
      (cooperating "save").hierarchy.NextBinds (cooperating "save").catalog "m.py::m.B" "save"
        id giver b →
      ∃ f, Hierarchy.definitionOf? (cooperating "save").catalog b = some f ∧
        f.kind ∈ [.function, .method, .lambda] := by
    intro id hid giver b hnext
    have hhit := all_eq_true.mp hfound id hid
    rw [Hierarchy.lookup?_after_eq_some_iff.mpr hnext] at hhit
    simpa [Option.any_eq_true] using hhit
  obtain ⟨site, ws, hresolve, hplain, _⟩ :=
    parent_call_covers (fun _ => Small.exists_outline_of_mem_digestsOf) rfl hbuild
      (parentCall "save") rfl howner
      (by decide +kernel) hbelow hall
  rw [hresolve] at hsite
  simp only [Except.toOption, Option.any_some, Bool.and_eq_true, decide_eq_true_eq] at hsite
  exact ⟨site, ws, hresolve, hsite.1.1, hsite.1.2, hsite.2, (hplain (by decide)).1⟩

/-- A member whose name starts with another letter is given by the first class, but nothing is known
of the call. -/
theorem parent_call_misses_accented_name :
    (∃ f, (cooperating "é").ParentGives "m.py::m.B" "é" ["m.py::m.B", "m.py::m.D"] "m.py::m.A" f ∧
      f.kind = .method ∧ f.isAbstract = false) ∧
      ∃ site ws, (cooperating "é").resolve (parentCall "é") = .ok (site, ws) ∧
        site.confidence = .unknown ∧ site.targets = [] := by
  have hlookup : (cooperating "é").hierarchy.lookup? (cooperating "é").catalog "m.py::m.B" "é"
      (some "m.py::m.B") = some ("m.py::m.A", ⟨"é", "m.py#A", .declared "m.py::m.A.é"⟩) := by
    decide +kernel
  have hmethod : (definitionOf? (cooperating "é").catalog
      ⟨"é", "m.py#A", .declared "m.py::m.A.é"⟩).any (fun f =>
        f.kind = .method && !f.isAbstract) := by
    decide +kernel
  have hsite : ((cooperating "é").resolve (parentCall "é")).toOption.any (fun p =>
      p.1.confidence = .unknown && p.1.targets = []) := by
    decide +kernel
  obtain ⟨f, hf, hkind⟩ := (any_eq_true _ _).mp hmethod
  obtain ⟨⟨site, ws⟩, hresolve, hunknown⟩ := exists_of_any hsite
  simp only [Bool.and_eq_true, decide_eq_true_eq, Bool.not_eq_true'] at hkind hunknown
  refine ⟨⟨f, ⟨"m.py::m.B", by simp, _, lookup?_after_eq_some_iff.mp hlookup, hf⟩, hkind⟩, ?_⟩
  exact ⟨site, ws, hresolve, hunknown⟩

end Resolver

end Xref

import Xref.Proofs.Digest.Omitted
import Xref.Proofs.Ledger.OfDraft
import Xref.Proofs.Ledger.Replaced
import Xref.Proofs.SmallFiles

/-!
# Redeclared names

A class or function that is declared again is replaced, and what was declared inside it is dropped.
A file is digested with the replaced declaration and without it: the definitions are the same, but
the replaced declaration leaves more. Its references stay. Calls in it stay where their caller is
not dropped, and the calls that are dropped still count for the calls of callers that are declared
again. A suspended caller stays suspended. The record of a class that a function replaces stays too.
-/

namespace Xref

open List Text Ledger Draft Item Xref.Small

/-! ## The walk down to a declaration -/

/-- Where the walk stands inside some layers, with the draft so far. -/
def Layer.descend (file : FileContext) (place : Place) (d : Draft) :
    List Layer → Except Fault (Place × Draft)
  | [] => .ok (place, d)
  | y :: layers => do
    let d ← walkAll file place d y.before
    descend file (d.placeIn file place y.opening) (d.enter file place y.opening) layers

/-- Where the walk stands inside some layers, with the ledger so far. -/
def Ledger.descend (file : FileContext) (place : Place) (l : Ledger) : List Layer → Place × Ledger
  | [] => (place, l)
  | y :: layers =>
    let l := l.walkAll file place y.before
    descend file (l.placeIn file place y.opening) (l.enter file place y.opening) layers

theorem Draft.ledger_descend {file : FileContext} {layers : List Layer} {place place' : Place}
    {d d' : Draft} (hs : place.scope ∈ d.scopes.keys)
    (h : Layer.descend file place d layers = .ok (place', d')) :
    d.ledger.descend file place layers = (place', d'.ledger) ∧ place'.scope ∈ d'.scopes.keys := by
  induction layers generalizing place d with
  | nil =>
    cases h
    exact ⟨rfl, hs⟩
  | cons y layers ih =>
    obtain ⟨d₁, hd₁, hrest⟩ := bind_eq_ok h
    obtain ⟨hledger, hscopes⟩ := ledger_walkAll hs hd₁
    have hinner :
      (d₁.placeIn file place y.opening).scope ∈ (d₁.enter file place y.opening).scopes.keys :=
      d₁.mem_scopes_enter file place y.opening (.inl (d₁.scope_placeIn file place y.opening))
    rw [descend, ← hledger, placeIn_ledger, ← d₁.ledger_enter file (hscopes _ hs)]
    exact ih hinner hrest

namespace Ledger

variable {file : FileContext} {place : Place} {l : Ledger} {layers : List Layer}
  {inner inner' : List Item}

/-- Inside layers the walk stands in order too, and the ids ahead are fresh. -/
theorem stands_descend (hs : l.Stands file place) (hg : l.Grounded file)
    (hfresh : file.Fresh place.scope (Layer.fill layers inner)) :
    (l.descend file place layers).2.Stands file (l.descend file place layers).1 ∧
      (l.descend file place layers).2.Grounded file ∧
      file.Fresh (l.descend file place layers).1.scope inner := by
  induction layers generalizing place l with
  | nil => exact ⟨hs, hg, hfresh⟩
  | cons y layers ih =>
    rw [Layer.fill_cons] at hfresh
    have hitem := hfresh.right.left
    obtain ⟨hg', hs', _⟩ := walkAll_frames hs hg hfresh.left
    refine ih (hs'.inside hg' hitem.ne_and_not_mem.1) (hg'.enter place y.opening) ?_
    rw [scope_placeIn]
    exact hitem.inside

/-- Around two lists of items that leave an excess between them, the excess stays. -/
theorem Exceeds.fill {x : Excess} {omitted : List String}
    (hperm : (file.idsOf inner).Perm (file.idsOf inner' ++ omitted)) (hs : l.Stands file place)
    (hg : l.Grounded file) (hfresh : file.Fresh place.scope (Layer.fill layers inner))
    (h : Exceeds x (.scopes (· ∈ omitted))
      ((l.descend file place layers).2.walkAll file (l.descend file place layers).1 inner)
      ((l.descend file place layers).2.walkAll file (l.descend file place layers).1 inner')) :
    Exceeds x (.scopes (· ∈ omitted)) (l.walkAll file place (Layer.fill layers inner))
      (l.walkAll file place (Layer.fill layers inner')) := by
  induction layers generalizing place l with
  | nil => exact h
  | cons y layers ih =>
    have hitemPerm : (file.idsOf [y.opening.item (Layer.fill layers inner)]).Perm
        (file.idsOf [y.opening.item (Layer.fill layers inner')] ++ omitted) := by
      rw [file.idsOf_item, file.idsOf_item]
      exact (file.idsOf_fill_perm layers hperm).cons _
    rw [Layer.fill_cons] at hfresh
    have hitem := hfresh.right.left
    have hout : ∀ id ∈ place.scope :: file.idsOf y.after, id ∉ omitted := fun id hid hid' =>
      hfresh.right.disjoint id hid (hitemPerm.mem_iff.mpr (mem_append_right _ hid'))
    obtain ⟨hg', hs', _⟩ := walkAll_frames hs hg hfresh.left
    obtain ⟨htg, hts, _⟩ := walk_frames hs' hg' hitem
    obtain ⟨hug, hus, _⟩ := walk_frames hs' hg' (hitem.without hitemPerm).1
    have hinside := hitem.inside
    rw [← scope_placeIn file place (l.walkAll file place y.before) y.opening] at hinside
    have hinner := ih (hs'.inside hg' hitem.ne_and_not_mem.1) (hg'.enter place y.opening) hinside h
    rw [← walk_item, ← walk_item] at hinner
    rw [Layer.fill_cons, Layer.fill_cons]
    simp only [walkAll_append, walkAll_singleton]
    exact hinner.walkAll_scopes hts htg hus hug hfresh.right.right hout

end Ledger

/-! ## Files -/

namespace FileContext

variable (file : FileContext) (mark : Mark)

theorem scope_startPlace : (file.startPlace mark).scope ∈ (file.startDraft mark).scopes.keys :=
  OrderedMap.mem_keys_insert.mpr (.inl rfl)

theorem ledger_startDraft : (file.startDraft mark).ledger =
    (empty.ledger.openScope (file.markId mark)).define (file.fileDefinition mark) := by
  rw [startDraft, ledger_define, ledger_openScope _ rfl]
  rfl

theorem grounded_startDraft : (file.startDraft mark).ledger.Grounded file := by
  rw [ledger_startDraft]
  refine Grounded.define ⟨fun h => ?_, fun c hc => ?_, fun h => ?_⟩ rfl
  · cases h
  · cases hc
  · cases h

theorem stands_startDraft : (file.startDraft mark).ledger.Stands file (file.startPlace mark) := by
  rw [ledger_startDraft]
  refine ⟨fun {name id} h => ?_, file.fileDefinition mark, if_pos rfl, .inl rfl⟩
  have hnone : Draft.empty.ledger.declared (file.startPlace mark).scope name = none := rfl
  simp [Ledger.define, Ledger.openScope, hnone] at h

end FileContext

/-- The ledger of a digested file is that of a walk over its items. -/
theorem Digest.ledger_draftOf {o : Outline} {mark : Mark} {body : List Item}
    (hroot : o.root = .fileBody mark body) {version : Int} {d : Draft}
    (h : draftOf o version = .ok d) :
    d.ledger = ((o.context version).startDraft mark).ledger.walkAll (o.context version)
      ((o.context version).startPlace mark) body := by
  rw [draftOf_eq hroot] at h
  exact (ledger_walkAll (FileContext.scope_startPlace _ mark) h).1

/-! ## Redeclarations -/

def Draft.callCount (d : Draft) (caller : DefId) : Nat :=
  (d.callCounts.get? caller).getD 0

/-- Two declarations in the same scope, somewhere in a file. -/
structure Redeclaration where
  layers : List Layer
  before : List Item
  earlier : Opening
  earlierBody : List Item
  between : List Item
  later : Opening
  laterBody : List Item
  after : List Item

namespace Redeclaration

/-- What the walk over a file knows at the earlier declaration: where it stands, and the drafts
before and after the declaration. -/
structure Survey where
  place : Place
  before : Draft
  after : Draft

/-- A call that the earlier declaration leaves as it is: the call comes before the declaration, or
its caller has no more calls and is not suspended sooner for it. -/
def Survey.Keeps (s : Survey) (c : PendingCall) : Prop :=
  s.before.callCount c.caller ≤ c.order →
    s.after.callCount c.caller = s.before.callCount c.caller ∧
    (c.caller ∈ s.after.suspended → c.isSuspended)

instance (s : Survey) (c : PendingCall) : Decidable (s.Keeps c) :=
  inferInstanceAs (Decidable (_ → _))

variable (r : Redeclaration)

def earlierItem : Item :=
  r.earlier.item r.earlierBody

/-- The ids of the earlier declaration and of what is in it. -/
def ids (file : FileContext) : List String :=
  file.idsOf [r.earlierItem]

/-- What follows the earlier declaration in its scope. -/
def rest : List Item :=
  r.between ++ ([r.later.item r.laterBody] ++ r.after)

def items : List Item :=
  Layer.fill r.layers (r.before ++ [r.earlierItem] ++ r.rest)

/-- The items of the file without the earlier declaration. -/
def itemsWithout : List Item :=
  Layer.fill r.layers (r.before ++ r.rest)

/-- Walks over the file as far as the earlier declaration. -/
def survey (file : FileContext) (mark : Mark) : Except Fault Survey := do
  let stand ← Layer.descend file (file.startPlace mark) (file.startDraft mark) r.layers
  let before ← walkAll file stand.1 stand.2 r.before
  let after ← walk file stand.1 before r.earlierItem
  return ⟨stand.1, before, after⟩

/-- The later declaration replaces the earlier one: they have one name, do not stand beside each
other, and nothing between them binds the name or defines anything at, above or below it. What lies
below the name from before goes without the earlier declaration too. -/
structure Replaces (file : FileContext) (s : Survey) (x y : Definition) : Prop where
  earlier : r.earlier.declaration? file s.place = some x
  later : r.later.declaration? file s.place = some y
  name_eq : x.name = y.name
  notBeside : supersedes x.decorators y.name y.decorators = false
  apart : ∀ p ∈ namesAll s.place.scopeKind s.place.qualname r.between,
    Dotted.isApart p y.qualname
  unbound : y.name ∉ boundNames r.between
  clears : (s.before.replaced? s.place.scope y).isSome ∨
    ∀ z ∈ s.before.definitions.values, Dotted.isBelow y.qualname z.qualname = false

variable {r} {file : FileContext} {mark : Mark} {s : Survey} {x y : Definition}

instance : Decidable (r.Replaces file s x y) :=
  decidable_of_iff (r.earlier.declaration? file s.place = some x ∧
    r.later.declaration? file s.place = some y ∧
      x.name = y.name ∧ supersedes x.decorators y.name y.decorators = false ∧
      (∀ p ∈ namesAll s.place.scopeKind s.place.qualname r.between, Dotted.isApart p y.qualname) ∧
      y.name ∉ boundNames r.between ∧
      ((s.before.replaced? s.place.scope y).isSome ∨
        ∀ z ∈ s.before.definitions.values, Dotted.isBelow y.qualname z.qualname = false))
    ⟨fun h => ⟨h.1, h.2.1, h.2.2.1, h.2.2.2.1, h.2.2.2.2.1, h.2.2.2.2.2.1, h.2.2.2.2.2.2⟩,
      fun h => ⟨h.earlier, h.later, h.name_eq, h.notBeside, h.apart, h.unbound, h.clears⟩⟩

theorem idsOf_inner_perm (r : Redeclaration) (file : FileContext) :
    (file.idsOf (r.before ++ [r.earlierItem] ++ r.rest)).Perm
      (file.idsOf (r.before ++ r.rest) ++ r.ids file) := by
  rw [file.idsOf_append, file.idsOf_append, file.idsOf_append, append_assoc, append_assoc]
  exact List.Perm.append_left _ perm_append_comm

theorem idsOf_items_perm (r : Redeclaration) (file : FileContext) :
    (file.idsOf r.items).Perm (file.idsOf r.itemsWithout ++ r.ids file) :=
  file.idsOf_fill_perm r.layers (r.idsOf_inner_perm file)

theorem Replaces.ledger_clears (h : r.Replaces file s x y) :
    s.before.ledger.Clears s.place.scope y := by
  refine h.clears.imp (fun hsome => ?_) fun hnone id => ?_
  · rwa [replaced?_ledger]
  · rw [← Bool.not_eq_true, drops, Option.any_eq_true]
    rintro ⟨z, hz, hbelow⟩
    rw [hnone z (OrderedMap.mem_values_of_get? hz)] at hbelow
    cases hbelow

variable (hfresh : file.Fresh (file.markId mark) r.items)
include hfresh

section

variable (hsurvey : r.survey file mark = .ok s)
include hsurvey

/-- A survey stands in order, before fresh ids, and its drafts are those of the walk over the
file. -/
theorem survey_spec :
    s.before.ledger.Stands file s.place ∧ s.before.ledger.Grounded file ∧
      file.Fresh s.place.scope ([r.earlierItem] ++ r.rest) ∧
      s.after.ledger = s.before.ledger.walk file s.place r.earlierItem ∧
      ∃ l, (file.startDraft mark).ledger.descend file (file.startPlace mark) r.layers =
        (s.place, l) ∧
        ∀ is, l.walkAll file s.place (r.before ++ is) = s.before.ledger.walkAll file
          s.place is := by
  obtain ⟨⟨place, d⟩, hstand, hsurvey⟩ := bind_eq_ok hsurvey
  obtain ⟨before, hbefore, hsurvey⟩ := bind_eq_ok hsurvey
  obtain ⟨after, hafter, hsurvey⟩ := bind_eq_ok hsurvey
  cases hsurvey
  obtain ⟨hdescend, hscope⟩ := ledger_descend (file.scope_startPlace mark) hstand
  obtain ⟨hs, hg, hinner⟩ :=
    stands_descend (file.stands_startDraft mark) (file.grounded_startDraft mark) hfresh
  rw [hdescend] at hs hg hinner
  rw [append_assoc] at hinner
  obtain ⟨hledger, hscopes⟩ := ledger_walkAll hscope hbefore
  obtain ⟨hg', hs', _⟩ := walkAll_frames hs hg hinner.left
  rw [← hledger] at hg' hs'
  have hwalk : walkAll file place before [r.earlierItem] = .ok after := by
    rw [walkAll, hafter]
    rfl
  have hearlier := (ledger_walkAll (hscopes _ hscope) hwalk).1
  rw [Ledger.walkAll_singleton] at hearlier
  refine ⟨hs', hg', hinner.right, hearlier, d.ledger, hdescend, fun is => ?_⟩
  rw [Ledger.walkAll_append, hledger]

/-- The walk over the file exceeds the walk without the earlier declaration by what that one
adds. -/
theorem exceeds (hr : r.Replaces file s x y) :
    ∃ references : List PendingReference, references.length = referenceCount [r.earlierItem] ∧
      Exceeds
        (.since s.before.ledger s.after.ledger (· ∈ r.ids file) references)
        (.scopes (· ∈ r.ids file))
        ((file.startDraft mark).ledger.walkAll file (file.startPlace mark) r.items)
        ((file.startDraft mark).ledger.walkAll file (file.startPlace mark) r.itemsWithout) := by
  obtain ⟨hs, hg, hrest, hafter, l, hdescend, hwalk⟩ := survey_spec hfresh hsurvey
  obtain ⟨references, hlength, hexceeds⟩ :=
    exceeds_redeclaration hs hg hr.earlier hr.later hr.name_eq
    hr.notBeside hrest hr.apart hr.unbound hr.ledger_clears
  refine ⟨references, hlength, ?_⟩
  rw [hafter]
  refine Exceeds.fill (r.idsOf_inner_perm file) (file.stands_startDraft mark)
    (file.grounded_startDraft mark) hfresh ?_
  rw [hdescend, append_assoc]
  rw [hwalk, hwalk]
  exact hexceeds

theorem callCount_le (caller : DefId) : s.before.callCount caller ≤ s.after.callCount caller := by
  obtain ⟨hs, hg, hrest, hafter, _⟩ := survey_spec hfresh hsurvey
  obtain ⟨_, _, hframes⟩ := walk_frames hs hg hrest.left
  rw [← hafter] at hframes
  exact (hframes _ _ fun p _ => .nothing file p).counts caller

end

/-- Without the earlier declaration nothing has an id of it. -/
theorem not_mem_of_itemsWithout :
    let l := (file.startDraft mark).ledger.walkAll file (file.startPlace mark) r.itemsWithout
    (∀ id decl, l.classes id = some decl → decl.body ∉ r.ids file) ∧
      ∀ c ∈ l.calls, c.site ∉ r.ids file := by
  intro l
  obtain ⟨hfresh', hapart⟩ := hfresh.without (r.idsOf_items_perm file)
  rw [forall_mem_cons] at hapart
  obtain ⟨_, _, hframes⟩ :=
    walkAll_frames (file.stands_startDraft mark) (file.grounded_startDraft mark) hfresh'
  have hchanges := hframes _ _ fun p _ => .nothing file p
  refine ⟨fun id decl hdecl => ?_, fun c hc => ?_⟩
  · rcases hchanges.bodies id decl hdecl with hstart | hbody
    · cases hstart
    · exact hapart.2 _ hbody
  · rcases hchanges.sites c hc with hstart | hsite
    · cases hstart
    · exact hapart.2 _ hsite

end Redeclaration

namespace Digest

open Redeclaration

variable {o : Outline} {mark : Mark} {r : Redeclaration}

/-- A file that can be digested can be digested without a declaration, unless something else names a
lambda of it. -/
theorem exists_draftOf_without (version : Int) (hcheck : o.check = .ok ())
    (hroot : o.root = .fileBody mark r.items) (hdigests : ¬ o.Indigestible)
    (hnamed : ∀ i ∈ preorderAll r.itemsWithout, ∀ id, i.namedLambda? = some id →
      id ∉ lambdaIds (preorderAll [r.earlierItem])) :
    (o.withItems mark r.itemsWithout).check = .ok () ∧ (∃ d, draftOf o version = .ok d) ∧
      ∃ d, draftOf (o.withItems mark r.itemsWithout) version = .ok d := by
  have hcheck' := Outline.check_omit hcheck hroot hnamed
  obtain ⟨a, ha⟩ := (exists_ofOutline_iff o version).mpr hdigests
  rw [ofOutline, hcheck] at ha
  obtain ⟨d, hd, _⟩ := map_eq_ok ha
  obtain ⟨hfits, hcovered⟩ := (exists_draftOf_iff hcheck).mp ⟨d, hd⟩
  rw [hroot] at hfits hcovered
  refine ⟨hcheck', ⟨d, hd⟩, (exists_draftOf_iff hcheck').mpr
    ⟨fits_omit hfits, covered_omit hcovered ?_⟩⟩
  intro i hi id hid hmem
  refine hnamed i ((walkedAll_sublist _).subset hi) id (namedLambda?_of_assigned? hid) ?_
  exact ((walkedAll_sublist [r.earlierItem]).filterMap lambdaId?).subset hmem

/-- **What a replaced declaration leaves behind.** A file is digested with a declaration that is
replaced and without it. The definitions are the same. The class records are the same exactly if
none is left from the declaration, the references exactly if it has none, and the calls exactly if
none is left from it and it neither adds to the calls of the callers of later calls nor is the first
to suspend them. -/
theorem agree_without_replaced_iff {s : Survey} {x y : Definition} {version : Int}
    (hcheck : o.check = .ok ()) (hroot : o.root = .fileBody mark r.items)
    (hdigests : ¬ o.Indigestible)
    (hnamed : ∀ i ∈ preorderAll r.itemsWithout, ∀ id,
      i.namedLambda? = some id → id ∉ lambdaIds (preorderAll [r.earlierItem]))
    (hsurvey : r.survey (o.context version) mark = .ok s)
    (hr : r.Replaces (o.context version) s x y) :
    ∃ a b, ofOutline o version = .ok a ∧
      ofOutline (o.withItems mark r.itemsWithout) version = .ok b ∧
      (∀ id, a.definitions.get? id = b.definitions.get? id) ∧
      ((∀ id, a.classes.get? id = b.classes.get? id) ↔
        ∀ id decl, a.classes.get? id = some decl → decl.body ∉ r.ids (o.context version)) ∧
      (a.references = b.references ↔ referenceCount [r.earlierItem] = 0) ∧
      (a.calls = b.calls ↔
        (∀ c ∈ a.calls, c.site ∉ r.ids (o.context version)) ∧ ∀ c ∈ b.calls, s.Keeps c) := by
  obtain ⟨hcheck', ⟨d, hd⟩, d', hd'⟩ := exists_draftOf_without version hcheck hroot hdigests hnamed
  have hfresh := Outline.fresh_of_check hcheck hroot (o.context version)
  obtain ⟨references, hlength, hexceeds⟩ := exceeds hfresh hsurvey hr
  obtain ⟨hbodies, hsites⟩ := not_mem_of_itemsWithout hfresh
  have hledger' :
    d'.ledger = ((o.context version).startDraft mark).ledger.walkAll (o.context version)
      ((o.context version).startPlace mark) r.itemsWithout :=
    ledger_draftOf (o := o.withItems mark r.itemsWithout) rfl hd'
  rw [← ledger_draftOf hroot hd, ← hledger'] at hexceeds
  rw [← hledger'] at hbodies hsites
  refine ⟨ofDraft o d, ofDraft (o.withItems mark r.itemsWithout) d', ?_, ?_,
    fun id => hexceeds.definitions id not_false, ?_, ?_, ?_⟩
  · rw [ofOutline, hcheck, hd]
    rfl
  · rw [ofOutline, hcheck', hd']
    rfl
  · exact funext_iff.symm.trans (hexceeds.classes_eq_iff hbodies)
  · rw [← hlength]
    exact hexceeds.references_eq_iff.trans length_eq_zero_iff.symm
  · refine (hexceeds.calls_eq_iff hsites).trans (and_congr_right fun _ =>
      forall₂_congr fun c _ => ?_)
    refine imp_congr_right fun _ => ?_
    have hle := callCount_le hfresh hsurvey c.caller
    have hcalls : s.after.ledger.counts c.caller - s.before.ledger.counts c.caller = 0 ↔
        s.after.callCount c.caller = s.before.callCount c.caller := by
      show s.after.callCount c.caller - s.before.callCount c.caller = 0 ↔ _
      omega
    exact and_congr hcalls (imp_congr_left contains_iff_mem)

/-- A method without parameters. -/
def runHead : FunctionHead :=
  ⟨"run", [], [], false, false⟩

/-- A method with a nested function, declared again without it. -/
def methodTwice : Redeclaration where
  layers := [⟨[Small.callItem "start" "boot"], .classDecl (Small.mark "K") ⟨"K", [], []⟩, []⟩]
  before := []
  earlier := .functionDecl (Small.mark "first") runHead
  earlierBody := [functionItem "helper" "helper" false [callItem "inner" "f"]]
  between := [functionItem "stop" "stop" false []]
  later := .functionDecl (Small.mark "second") runHead
  laterBody := [callItem "outer" "g"]
  after := []

def methodFile : Outline :=
  file "m.py" "m" methodTwice.items

/-- A replaced method whose only call is in a nested function leaves nothing behind. -/
theorem agree_without_replaced_method :
    ∃ a b, ofOutline methodFile 1 = .ok a ∧
      ofOutline (methodFile.withItems (Small.mark "file") methodTwice.itemsWithout) 1 = .ok b ∧
      (∀ id, a.definitions.get? id = b.definitions.get? id) ∧
      (∀ id, a.classes.get? id = b.classes.get? id) ∧ a.references = b.references ∧
        a.calls = b.calls := by
  have hrun : (do
      let s ← methodTwice.survey (methodFile.context 1) (Small.mark "file")
      let a ← ofOutline methodFile 1
      let b ← ofOutline (methodFile.withItems (Small.mark "file") methodTwice.itemsWithout) 1
      pure (s, a, b) : Except Fault (Survey × Digest × Digest)).toOption.any (fun run =>
        decide (methodTwice.Replaces (methodFile.context 1) run.1
          ((methodFile.context 1).functionDefinition run.1.place (Small.mark "first") runHead)
          ((methodFile.context 1).functionDefinition run.1.place (Small.mark "second") runHead)) &&
        decide (∀ decl ∈ run.2.1.classes.values,
          decl.body ∉ methodTwice.ids (methodFile.context 1)) &&
        decide (∀ c ∈ run.2.1.calls, c.site ∉ methodTwice.ids (methodFile.context 1)) &&
        decide (∀ c ∈ run.2.2.calls, run.1.Keeps c)) := by
    decide +kernel
  obtain ⟨⟨s, a, b⟩, hrun, hshown⟩ := exists_of_any hrun
  obtain ⟨_, hs, hrun⟩ := bind_eq_ok hrun
  obtain ⟨_, ha, hrun⟩ := bind_eq_ok hrun
  obtain ⟨_, hb, hrun⟩ := bind_eq_ok hrun
  cases hrun
  simp only [Bool.and_eq_true, decide_eq_true_eq] at hshown
  obtain ⟨⟨⟨hr, hbodies⟩, hsites⟩, hlater⟩ := hshown
  have hnone : ∀ i ∈ Item.preorderAll methodTwice.itemsWithout, i.namedLambda? = none := by
    decide +kernel
  obtain ⟨a', b', ha', hb', hdefinitions, hclasses, hreferences, hcalls⟩ :=
    agree_without_replaced_iff (o := methodFile) rfl rfl ((exists_ofOutline_iff _ 1).mp ⟨a, ha⟩)
      (fun i hi id hid => by simp [hnone i hi] at hid) hs hr
  cases Except.ok.inj (ha.symm.trans ha')
  cases Except.ok.inj (hb.symm.trans hb')
  refine ⟨a, b, ha, hb, hdefinitions, hclasses.mpr fun id decl hdecl => ?_,
    hreferences.mpr (by decide +kernel), hcalls.mpr ⟨hsites, hlater⟩⟩
  exact hbodies decl (OrderedMap.mem_values_of_get? hdecl)

/-- A class with a call, a reference and a method that is suspended, and a function of the same name
with a nested function that is called as the method. -/
def classThenFunction : Redeclaration where
  layers := []
  before := []
  earlier := .classDecl (Small.mark "first") ⟨"C", [], []⟩
  earlierBody := [Small.callItem "setup" "f", .reference (Small.mark "use") "x",
    Small.functionItem "method" "m" false [.suspend (Small.mark "wait"),
      Small.callItem "inner" "f"]]
  between := []
  later := .functionDecl (Small.mark "second") ⟨"C", [], [], false, false⟩
  laterBody := [functionItem "nested" "m" false [callItem "outer" "g"]]
  after := []

/-- A replaced class leaves its record, its reference and its call behind, and changes the number
and the suspension of a later call. -/
theorem replaced_class_leaves_excess :
    ∃ a b, ofOutline (Small.file "m.py" "m" classThenFunction.items) 1 = .ok a ∧
      ofOutline (Small.file "m.py" "m" classThenFunction.itemsWithout) 1 = .ok b ∧
      a.classes.keys = ["m.py::m.C"] ∧ b.classes.keys = [] ∧ a.references.length = 1 ∧
        b.references = [] ∧
      (a.calls.map fun c => (c.site, c.caller, c.order, c.isSuspended)) =
        [("m.py#setup", "m.py::m", 0, false), ("m.py#outer", "m.py::m.C.m", 1, true)] ∧
      (b.calls.map fun c => (c.site, c.caller, c.order, c.isSuspended)) =
        [("m.py#outer", "m.py::m.C.m", 0, false)] := by
  have hwith : (ofOutline (Small.file "m.py" "m" classThenFunction.items) 1).toOption.any (fun a =>
      decide (a.classes.keys = ["m.py::m.C"] ∧ a.references.length = 1 ∧
        (a.calls.map fun c => (c.site, c.caller, c.order, c.isSuspended)) =
          [("m.py#setup", "m.py::m", 0, false), ("m.py#outer", "m.py::m.C.m", 1, true)])) := by
    decide +kernel
  have hwithout :
    (ofOutline (Small.file "m.py" "m" classThenFunction.itemsWithout) 1).toOption.any (fun b =>
      decide (b.classes.keys = [] ∧ b.references = [] ∧
        (b.calls.map fun c => (c.site, c.caller, c.order, c.isSuspended)) =
          [("m.py#outer", "m.py::m.C.m", 0, false)])) := by
    decide +kernel
  obtain ⟨a, ha, haleft⟩ := exists_of_any hwith
  obtain ⟨b, hb, hbleft⟩ := exists_of_any hwithout
  obtain ⟨haclasses, hareferences, hacalls⟩ := of_decide_eq_true haleft
  obtain ⟨hbclasses, hbreferences, hbcalls⟩ := of_decide_eq_true hbleft
  exact ⟨a, b, ha, hb, haclasses, hbclasses, hareferences, hbreferences, hacalls, hbcalls⟩

end Digest

end Xref

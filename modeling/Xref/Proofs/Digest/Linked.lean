import Xref.Proofs.Digest.Classes
import Xref.Proofs.Digest.Conflicts

/-!
# Linked digests

The tables of a digest refer to each other by ids. A walk over a file may replace definitions and
drop what was declared inside them at any time, but the scopes that it opened stay, and what it
drops goes from all tables at once: so at its end every id in a table leads to an entry of another.
-/

namespace Xref

open Text Definition Ledger OrderedMap

/-! ## What a step can add -/

namespace Ledger

variable {l : Ledger} {file : FileContext} {place : Place} {id : DefId} {x : Definition}

theorem path_of_define (l : Ledger) {y : Definition} (hy : y.path = file.path)
    (h : (l.define y).definitions id = some x) :
    x.path = file.path ∨ l.definitions id = some x := by
  change (if id = y.id then some y else l.definitions id) = some x at h
  split at h
  · cases h
    exact .inl hy
  · exact .inr h

theorem path_of_declare (l : Ledger) (scope : ScopeId) {y : Definition} (hy : y.path = file.path)
    (h : (l.declare scope y).definitions id = some x) :
    x.path = file.path ∨ l.definitions id = some x := by
  have hroom := path_of_define ((l.makeRoom scope y).bind scope y.name y.id) hy h
  exact hroom.imp_right (l.partOf_makeRoom scope y).definitions

/-- The definitions after an item is entered: one of the file, and some of those before. -/
theorem path_of_enter {o : Opening} (h : (l.enter file place o).definitions id = some x) :
    x.path = file.path ∨ l.definitions id = some x := by
  cases o with
  | classDecl mark head =>
    exact path_of_declare (y :=
      file.classDefinition place mark head) (l.openScope (file.markId mark))
      place.scope rfl h
  | functionDecl mark head =>
    exact path_of_declare (y :=
      file.functionDefinition place mark head) (l.openScope (file.markId mark))
      place.scope rfl h
  | lambda mark params =>
    exact path_of_define (y :=
      l.lambdaDefinition file place mark params) (l.openScope (file.markId mark)) rfl h
  | block mark => exact .inr h

theorem calls_enter {o : Opening} {c : PendingCall} (h : c ∈ (l.enter file place o).calls) :
    c ∈ l.calls := by
  cases o with
  | classDecl mark head =>
    exact ((l.openScope (file.markId mark)).partOf_makeRoom place.scope
      (file.classDefinition place mark head)).calls c h
  | functionDecl mark head =>
    exact ((l.openScope (file.markId mark)).partOf_makeRoom place.scope
      (file.functionDefinition place mark head)).calls c h
  | lambda mark params | block mark => exact h

theorem path_of_step {i : Item} (h : (l.step file place i).definitions id = some x) :
    x.path = file.path ∨ l.definitions id = some x := by
  cases i with
  | assign mark a =>
    unfold step at h
    dsimp only at h
    split at h
    · exact .inr h
    split at h
    · exact path_of_define (y := file.boundDefinition place mark a.target) l rfl h
    · exact .inr h
  | _ => exact .inr h

theorem calls_step {i : Item} {c : PendingCall} (h : c ∈ (l.step file place i).calls) :
    c.scope = place.scope ∨ c ∈ l.calls := by
  cases i with
  | call mark head =>
    rcases List.mem_append.mp h with hold | hnew
    · exact .inr hold
    · rw [List.mem_singleton.mp hnew]
      exact .inl rfl
  | assign mark a =>
    unfold step at h
    dsimp only at h
    split at h
    · exact .inr h
    · split at h <;> exact .inr h
  | _ => exact .inr h

/-- The definition of a file stays as it is: everything in the file is declared below it. -/
theorem definitions_walkAll_module (hs : l.Stands file place) (hg : l.Grounded file)
    {is : List Item} (hfresh : file.Fresh place.scope is) :
    (l.walkAll file place is).definitions (idOf file.path place.qualname) =
      l.definitions (idOf file.path place.qualname) := by
  obtain ⟨_, _, hframes⟩ := walkAll_frames hs hg hfresh
  refine (hframes (· = idOf file.path place.qualname) (fun _ => false) ?_).definitions _ rfl
  intro p hp
  have hlength := Dotted.length_lt_of_isBelow (Item.isBelow_of_mem_namesAll hp)
  refine ⟨?_, fun _ hkept => absurd hkept Bool.false_ne_true⟩
  rintro id rfl
  constructor
  · intro heq
    rw [qualname_eq_of_idOf heq] at hlength
    omega
  · rw [isBelow_idOf, ← Bool.not_eq_true]
    intro hbelow
    have := Dotted.length_lt_of_isBelow hbelow
    omega

end Ledger

/-! ## Walks -/

namespace Draft

/-- Scopes are open under their own ids, inside scopes that are open too; calls are made in open
scopes; and the record of a class has an open body, which the class owns. -/
structure Housed (file : FileContext) (d : Draft) : Prop where
  definitions : ∀ {id x}, d.definitions.get? id = some x → x.path = file.path
  scopes : ∀ {id s}, d.opened? id = some s → s.id = id ∧ s.path = file.path ∧
    ∀ parent, s.parent = some parent → ∃ p, d.opened? parent = some p
  calls : ∀ c ∈ d.calls, ∃ s, d.opened? c.scope = some s
  classes : ∀ {id decl}, d.classes.get? id = some decl → decl.id = id ∧
    ∃ s, d.opened? decl.body = some s ∧ s.kind = .classBody ∧ s.owner = some id

namespace Housed

variable {file : FileContext} {place : Place} {d d' : Draft}

variable (h : d.Housed file)
include h

theorem leaf (hopen : ∃ s, d.opened? place.scope = some s) {i : Item}
    (hi : i.isLeaf) (hw : walk file place d i = .ok d') : d'.Housed file := by
  have hopened : d'.opened? = d.opened? := opened?_leaf hi hw
  have hledger : d'.ledger = d.ledger.step file place i := (ledger_leaf hi hw).1
  refine ⟨fun {id x} hx => ?_, fun {id s} hs => ?_, fun c hc => ?_, fun {id decl} hdecl => ?_⟩
  · have hstep : (d.ledger.step file place i).definitions id = some x := hledger ▸ hx
    rcases path_of_step hstep with hpath | hold
    · exact hpath
    · exact h.definitions hold
  · rw [hopened] at hs ⊢
    exact h.scopes hs
  · have hstep : c ∈ (d.ledger.step file place i).calls := hledger ▸ hc
    rw [hopened]
    rcases calls_step hstep with hscope | hold
    · rw [hscope]
      exact hopen
    · exact h.calls c hold
  · have hstep : (d.ledger.step file place i).classes id = some decl := hledger ▸ hdecl
    rw [classes_step] at hstep
    rw [hopened]
    exact h.classes hstep

theorem enter {o : Opening} {body is : List Item}
    (hready : Ready file place (o.item body :: is) d) : (d.enter file place o).Housed file := by
  have hledger : (d.enter file place o).ledger = d.ledger.enter file place o :=
    d.ledger_enter file hready.scope_mem o
  have hnew : (d.enter file place o).opened? (file.markId o.mark) =
      some (file.newScope o.mark o.kind (some place.scope)
        ((d.made? file place o).map (·.id))) := by
    rw [d.opened?_enter, if_pos rfl]
  refine ⟨fun {id x} hx => ?_, fun {id s} hs => ?_, fun c hc => ?_, fun {id decl} hdecl => ?_⟩
  · have henter : (d.ledger.enter file place o).definitions id = some x := hledger ▸ hx
    rcases path_of_enter henter with hpath | hold
    · exact hpath
    · exact h.definitions hold
  · rw [d.opened?_enter] at hs
    split at hs
    · next hid =>
      cases hs
      refine ⟨hid.symm, rfl, fun parent hparent => ?_⟩
      cases hparent
      obtain ⟨p, hp⟩ := hready.exists_opened?
      exact ⟨p, hready.opened?_enter_of_some hp⟩
    · obtain ⟨hid, hpath, hparent⟩ := h.scopes hs
      refine ⟨hid, hpath, fun parent heq => ?_⟩
      obtain ⟨p, hp⟩ := hparent parent heq
      exact ⟨p, hready.opened?_enter_of_some hp⟩
  · have henter : c ∈ (d.ledger.enter file place o).calls := hledger ▸ hc
    obtain ⟨s, hs⟩ := h.calls c (calls_enter henter)
    exact ⟨s, hready.opened?_enter_of_some hs⟩
  · have henter : (d.ledger.enter file place o).classes id = some decl := hledger ▸ hdecl
    obtain ⟨mark, head, rfl, rfl, rfl⟩ | hold := classes_enter henter
    · exact ⟨rfl, _, hnew, rfl, rfl⟩
    · obtain ⟨hid, s, hs, hclass⟩ := h.classes hold
      exact ⟨hid, s, hready.opened?_enter_of_some hs, hclass⟩

theorem walkAll {is : List Item} (hready : Ready file place is d)
    (hw : Xref.walkAll file place d is = .ok d') : d'.Housed file :=
  hready.walkAll_keeps (fun hready hi hstep h => h.leaf hready.exists_opened? hi hstep)
    (fun hready h => h.enter hready) h hw

end Housed

theorem housed_startDraft (file : FileContext) (mark : Mark) :
    (file.startDraft mark).Housed file := by
  refine ⟨fun {id x} hx => ?_, fun {id s} hs => ?_, fun c hc => ?_, fun {id decl} hdecl => ?_⟩
  · have hstart : (file.startDraft mark).ledger.definitions id = some x := hx
    rw [file.ledger_startDraft] at hstart
    rcases path_of_define _ rfl hstart with hpath | hold
    · exact hpath
    · cases hold
  · rw [file.opened?_startDraft] at hs
    split at hs
    · next hid =>
      cases hs
      exact ⟨hid.symm, rfl, fun parent hparent => by cases hparent⟩
    · cases hs
  · cases hc
  · cases hdecl

end Draft

/-! ## Digests -/

namespace Digest

/-- Every entry of a digest stands under its own id, and what it refers to is there: the caller and
the scope of a call, the scope around a scope, and for a class its record, its definition and its
body. -/
structure Linked (d : Digest) : Prop where
  definition : ∀ {id x}, d.definitions.get? id = some x →
    x.id = id ∧ x.path = d.path ∧ id = idOf x.path x.qualname
  call : ∀ c ∈ d.calls, c.caller ∈ d.definitions.keys ∧ c.scope ∈ d.scopes.keys
  scope : ∀ {id s}, d.scopes.get? id = some s →
    s.id = id ∧ s.path = d.path ∧ ∀ parent, s.parent = some parent → parent ∈ d.scopes.keys
  recorded : ∀ {id x}, d.definitions.get? id = some x → x.kind = .classBody → id ∈ d.classes.keys
  record : ∀ {id decl}, d.classes.get? id = some decl → decl.id = id ∧ id ∈ d.definitions.keys ∧
    ∃ s, d.scopes.get? decl.body = some s ∧ s.kind = .classBody ∧ s.owner = some id

/-- A linked digest with the definition of its file. -/
structure Whole (d : Digest) : Prop extends d.Linked where
  fileBody : ∃ x, d.definitions.get? (idOf d.path d.moduleName) = some x ∧ x.kind = .fileBody

variable {d : Digest} {o : Outline} {version : Int}

theorem Linked.sound (h : d.Linked) : d.Sound where
  id_eq hx := (h.definition hx).1
  mem_classes := h.recorded
  mem_definitions hid := by
    obtain ⟨decl, hdecl⟩ := mem_keys_iff.mp hid
    exact (h.record hdecl).2.1

/-- A digest that has not failed is that of a walk over the file. -/
theorem exists_walk_of_ofOutline (h : ofOutline o version = .ok d) (hd : d.isFailed = false) :
    o.check = .ok () ∧ ∃ mark body draft, o.root = .fileBody mark body ∧
      walkAll (o.context version) ((o.context version).startPlace mark)
        ((o.context version).startDraft mark) body = .ok draft ∧ d = ofDraft o draft := by
  obtain ⟨_, _, _, rfl⟩ | hwalk := ofOutline_cases h
  · cases hd
  · exact hwalk

/-- The definition of a file stays to the end of the walk over it. -/
theorem definitions_of_walk {mark : Mark} {body : List Item} {draft : Draft}
    (hcheck : o.check = .ok ()) (hroot : o.root = .fileBody mark body)
    (hwalk : walkAll (o.context version) ((o.context version).startPlace mark)
      ((o.context version).startDraft mark) body = .ok draft) :
    draft.ledger.Grounded (o.context version) ∧
      draft.definitions.get? (idOf o.path o.moduleName) =
        some ((o.context version).fileDefinition mark) := by
  have hfresh := Outline.fresh_of_check hcheck hroot (o.context version)
  have hstands := (o.context version).stands_startDraft mark
  have hstart := (o.context version).grounded_startDraft mark
  have hgrounded := (walkAll_frames hstands hstart hfresh).1
  have hmodule := definitions_walkAll_module hstands hstart hfresh
  rw [← (Draft.ledger_walkAll ((o.context version).scope_startPlace mark) hwalk).1]
    at hgrounded hmodule
  refine ⟨hgrounded, hmodule.trans ?_⟩
  rw [FileContext.ledger_startDraft]
  exact if_pos rfl

theorem whole_ofOutline (h : ofOutline o version = .ok d) (hd : d.isFailed = false) : d.Whole := by
  obtain ⟨hcheck, mark, body, draft, hroot, hwalk, rfl⟩ := exists_walk_of_ofOutline h hd
  have hfresh := Outline.fresh_of_check hcheck hroot (o.context version)
  have hhoused :=
    (Draft.housed_startDraft _ mark).walkAll (FileContext.ready_startDraft hfresh) hwalk
  obtain ⟨hgrounded, hmodule⟩ := definitions_of_walk hcheck hroot hwalk
  have hopen : ∀ {id s}, draft.opened? id = some s → ∃ s', draft.scopes.get? id = some s' ∧
    s'.bare = s :=
    fun hs => Option.map_eq_some_iff.mp hs
  have hkeys : ∀ {id}, (∃ s, draft.opened? id = some s) → id ∈ draft.scopes.keys := by
    rintro id ⟨s, hs⟩
    obtain ⟨s', hs', _⟩ := hopen hs
    exact mem_keys_iff.mpr ⟨s', hs'⟩
  refine ⟨⟨fun {id x} hx => ?_, fun c hc => ?_, fun {id s} hs => ?_, ?_,
    fun {id decl} hdecl => ?_⟩, ?_⟩
  · have hpath : x.path = o.path := hhoused.definitions hx
    have hid := (local_ofOutline h).definition hx
    exact ⟨hid.1, hpath, hpath.symm ▸ hid.2.1⟩
  · exact ⟨mem_keys_iff.mpr (hgrounded.called c hc).1, hkeys (hhoused.calls c hc)⟩
  · have hbare : draft.opened? id = some s.bare := congrArg (Option.map Scope.bare) hs
    obtain ⟨hid, hpath, hparent⟩ := hhoused.scopes hbare
    exact ⟨hid, hpath, fun parent heq => hkeys (hparent parent heq)⟩
  · exact (sound_ofOutline h).mem_classes
  · obtain ⟨hid, s, hs, hkind, howner⟩ := hhoused.classes hdecl
    obtain ⟨s', hs', rfl⟩ := hopen hs
    exact ⟨hid, mem_keys_iff.mpr (hgrounded.recorded hdecl), s', hs', hkind, howner⟩
  · exact ⟨_, hmodule, rfl⟩

theorem linked_failed (o : Outline) (defect : Defect) (item : Option String) :
    (failed o defect item).Linked where
  definition hx := by cases hx
  call c hc := by cases hc
  scope hs := by cases hs
  recorded hx := by cases hx
  record hdecl := by cases hdecl

theorem linked_ofOutline (h : ofOutline o version = .ok d) : d.Linked := by
  obtain ⟨_, _, _, rfl⟩ | ⟨_, _, _, _, _, _, hd⟩ := ofOutline_cases h
  · exact linked_failed ..
  · exact (whole_ofOutline h (by rw [hd]; rfl)).toLinked

end Digest

end Xref

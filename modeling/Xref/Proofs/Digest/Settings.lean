import Xref.Proofs.Digest.Opened

/-!
# What sets a name

A walk over items is followed visit by visit. An assignment sets one name in one scope: a plain name
in the scope around it, and an attribute of a receiver in the body of the receiver's class. What a
draft remembers of a name that nothing else binds is then told by the settings of that name alone,
in their order.
-/

namespace Xref

open List Text

/-! ## What is remembered of a name -/

/-- What a draft remembers of a name: its value, and whether assignments to it differed. -/
structure Memory where
  value : Option BindingValue
  isDisputed : Bool
  deriving DecidableEq

def BindingValue.clues? : BindingValue → Option (Option String × Option String)
  | assigned hint source _ => some (hint, source)
  | _ => none

/-- What a draft remembers of a name in a scope. -/
def Draft.memory (d : Draft) (scope : ScopeId) (name : String) : Memory :=
  ⟨(d.bindingIn? scope name).map Binding.value, d.conflicts.contains (scope, name)⟩

namespace Memory

def isDefinition (m : Memory) : Bool :=
  (m.value.bind BindingValue.definition?).isSome

/-- Whether an assignment with some clues makes the name disputed, or leaves it so. -/
def disputes (m : Memory) (clues : Option String × Option String) : Bool :=
  m.isDisputed || (m.value.bind BindingValue.clues?).any (· ≠ clues)

/-- The memory of a name after an assignment with some clues, which are read from a scope. -/
def assign (m : Memory) (clues : Option String × Option String) (seenFrom : ScopeId) : Memory :=
  let known := if m.disputes clues then (none, none) else clues
  ⟨some (.assigned known.1 known.2 seenFrom), m.disputes clues⟩

end Memory

namespace Draft

variable (d : Draft)

theorem isDefinition_memory (scope : ScopeId) (name : String) :
    (d.memory scope name).isDefinition = d.isDefinitionIn scope name := by
  unfold memory Memory.isDefinition isDefinitionIn
  rw [Option.bind_map]
  rfl

theorem conflicts_modifyScope (id : ScopeId) (f : Scope → Scope) :
    (d.modifyScope id f).conflicts = d.conflicts := by
  unfold modifyScope
  split <;> rfl

variable {scope s : ScopeId} {n : String}

/-- A name that is bound in an open scope has its value. -/
theorem memory_bind_self (hs : (d.kindOf? scope).isSome) (name : String) (v : BindingValue) :
    (d.bind scope name v).memory scope name = ⟨some v, (d.memory scope name).isDisputed⟩ := by
  unfold memory
  rw [bindingIn?_bind, if_pos ⟨rfl, rfl⟩, Draft.bind, conflicts_modifyScope]
  unfold kindOf? at hs
  obtain ⟨s, hs⟩ := Option.isSome_iff_exists.mp (Option.isSome_map ▸ hs)
  rw [hs]
  rfl

theorem memory_bind_of_ne {name : String} (h : (s, n) ≠ (scope, name)) (v : BindingValue) :
    (d.bind scope name v).memory s n = d.memory s n := by
  unfold memory
  rw [bindingIn?_bind, if_neg fun heq => h (Prod.ext heq.1 heq.2), Draft.bind,
    conflicts_modifyScope]

theorem memory_bindValue_self (hs : (d.kindOf? scope).isSome) (name : String)
    (hint source : Option String) (seenFrom : ScopeId) :
    (d.bindValue scope name hint source seenFrom).memory scope name =
      (d.memory scope name).assign (hint, source) seenFrom := by
  unfold bindValue
  extract_lets differs noted
  have hdiffers : differs = ((d.memory scope name).value.bind BindingValue.clues?).any (· ≠ (hint,
    source)) := by
    unfold differs memory
    cases (d.bindingIn? scope name).map Binding.value with
    | none => rfl
    | some v => cases v <;> rfl
  have hopen : (noted.kindOf? scope).isSome := by
    unfold noted
    split <;> exact hs
  have hdisputed : noted.conflicts.contains (scope, name) = (d.memory scope name).disputes (hint,
    source) := by
    rw [Memory.disputes, ← hdiffers]
    unfold noted
    cases differs
    · exact (Bool.or_false _).symm
    · simp
  rw [hdisputed]
  unfold Memory.assign
  have hnoted : (noted.memory scope name).isDisputed = (d.memory scope name).disputes (hint,
    source) := hdisputed
  split <;> rw [noted.memory_bind_self hopen, hnoted]

theorem memory_bindValue_of_ne {name : String} (h : (s, n) ≠ (scope, name))
    (hint source : Option String) (seenFrom : ScopeId) :
    (d.bindValue scope name hint source seenFrom).memory s n = d.memory s n := by
  unfold bindValue
  extract_lets differs noted
  have hnoted : noted.memory s n = d.memory s n := by
    unfold noted
    split
    · have hdisputed :
        ((scope, name) :: d.conflicts).contains (s, n) = d.conflicts.contains (s, n) := by
        rw [contains_cons, beq_eq_false_iff_ne.mpr h, Bool.false_or]
      exact congrArg (Memory.mk _) hdisputed
    · rfl
  split <;> rw [noted.memory_bind_of_ne h, hnoted]

theorem memory_bindParams_of_not_mem {params : List Param}
    (h : (s, n) ∉ params.map fun p => (scope, p.name)) (seenFrom : ScopeId) :
    (d.bindParams scope seenFrom params).memory s n = d.memory s n := by
  unfold bindParams
  induction params generalizing d with
  | nil => rfl
  | cons p ps ih =>
    rw [map_cons, mem_cons, not_or] at h
    rw [foldl_cons, ih _ h.2, memory_bind_of_ne _ h.1]

theorem memory_addImport (file : FileContext) (place : Place) (i : Import) (s : ScopeId)
    (n : String) : (d.addImport file place i).memory s n = d.memory s n := by
  refine d.addImport_induct (P := fun d' => d'.memory s n = d.memory s n) file place i rfl
    fun f hf => ?_
  unfold memory
  rw [bindingIn?_modifyScope, conflicts_modifyScope]
  simp only [hf]
  split
  · next heq =>
    rw [heq]
    rfl
  · rfl

theorem memory_declare_of_ne {x : Definition} (h : (s, n) ≠ (scope, x.name)) :
    (d.declare scope x).memory s n = d.memory s n := by
  unfold declare
  split <;> exact memory_bind_of_ne _ h _

end Draft

/-! ## Visits and settings -/

/-- An item that a walk comes to, with the place and the draft with which it does. -/
structure Visit where
  place : Place
  draft : Draft
  item : Item

mutual

def visits (file : FileContext) (place : Place) (d : Draft) : Item → List Visit
  | .classDecl mark head body =>
    ⟨place, d, .classDecl mark head body⟩ :: visitsAll file
      (d.placeIn file place (.classDecl mark head))
      (d.enter file place (.classDecl mark head)) body
  | .functionDecl mark head body =>
    ⟨place, d, .functionDecl mark head body⟩ :: visitsAll file
      (d.placeIn file place (.functionDecl mark head))
      (d.enter file place (.functionDecl mark head)) body
  | .lambda mark params body =>
    ⟨place, d, .lambda mark params body⟩ :: visitsAll file
      (d.placeIn file place (.lambda mark params))
      (d.enter file place (.lambda mark params)) body
  | .block mark body =>
    ⟨place, d, .block mark body⟩ :: visitsAll file (d.placeIn file place (.block mark))
      (d.enter file place (.block mark)) body
  | i => [⟨place, d, i⟩]

/-- The visits of a walk over items in order. -/
def visitsAll (file : FileContext) (place : Place) (d : Draft) : List Item → List Visit
  | [] => []
  | i :: is =>
    visits file place d i ++ (walk file place d i).toOption.elim [] fun d' =>
      visitsAll file place d' is

end

variable (file : FileContext)

theorem visits_leaf (place : Place) (d : Draft) {i : Item} (hi : i.isLeaf) :
    visits file place d i = [⟨place, d, i⟩] := by
  cases i with
  | classDecl | functionDecl | lambda | block => cases hi
  | _ => rw [visits] <;> simp

theorem visits_item (place : Place) (d : Draft) (o : Opening) (body : List Item) :
    visits file place d (o.item body) =
      ⟨place, d, o.item body⟩ :: visitsAll file (d.placeIn file place o) (d.enter file place o)
        body := by
  cases o <;> rw [Opening.item, visits]

theorem visitsAll_nil (place : Place) (d : Draft) : visitsAll file place d [] = [] := by
  rw [visitsAll]

theorem visitsAll_cons {file : FileContext} {place : Place} {d d₁ : Draft} {i : Item}
    (h : walk file place d i = .ok d₁) (is : List Item) :
    visitsAll file place d (i :: is) = visits file place d i ++ visitsAll file place d₁ is := by
  rw [visitsAll, h]
  rfl

/-- An assignment that sets a name in a scope, and where it stands. -/
structure Setting where
  place : Place
  mark : Mark
  assignment : Assignment
  scope : ScopeId
  name : String

namespace Setting

/-- Whether the name is an attribute of a receiver. -/
def isMember (e : Setting) : Bool :=
  (Dotted.cut? e.assignment.target).isSome

/-- Whether the name becomes a definition of its own. -/
def defines (e : Setting) : Bool :=
  !e.isMember && e.assignment.makesDefinition e.place.scopeKind

/-- The type that is given to the name, or the name it copies. -/
def clues (e : Setting) : Option String × Option String :=
  e.assignment.clues

/-- What the name is bound to by this assignment alone. -/
def value (file : FileContext) (e : Setting) : BindingValue :=
  if e.defines then
    .built (file.boundDefinition e.place e.mark e.assignment.target).id e.clues.1 e.place.scope
  else .assigned e.clues.1 e.clues.2 e.place.scope

end Setting

/-- The mark and the assignment of an item that is one. -/
def Item.assignment? : Item → Option (Mark × Assignment)
  | assign mark a => some (mark, a)
  | _ => none

/-- The head of an item that the walk goes into. -/
def Item.opening? : Item → Option Opening
  | classDecl mark head _ => some (.classDecl mark head)
  | functionDecl mark head _ => some (.functionDecl mark head)
  | lambda mark params _ => some (.lambda mark params)
  | block mark _ => some (.block mark)
  | _ => none

/-- The scope and the name that an assignment sets. The variable of a loop and the name of a
function literal are bound, but not set. -/
def Draft.targetOf? (d : Draft) (place : Place) (a : Assignment) : Option (ScopeId × String) :=
  (Dotted.cut? a.target).elim
    (if a.isLoopTarget || a.kind = .lambda then none else some (place.scope, a.target))
    fun p => if Dotted.hasDot p.2 then none else (d.receiverBody? place.scope p.1).map (·, p.2)

namespace Visit

def setting? (w : Visit) : Option Setting :=
  w.item.assignment?.bind fun p =>
    (w.draft.targetOf? w.place p.2).map fun t => ⟨w.place, p.1, p.2, t.1, t.2⟩

/-- The setting of one name in one scope that an item is. -/
def settingOf? (scope : ScopeId) (name : String) (w : Visit) : Option Setting :=
  w.setting?.filter fun e => (e.scope, e.name) = (scope, name)

/-- The names that an item binds without setting them, each with its scope: declarations,
parameters, the variables of loops and the names of function literals. -/
def binds (file : FileContext) (w : Visit) : List (ScopeId × String) :=
  (w.item.opening?.elim [] fun o =>
      o.bound.map (w.place.scope, ·) ++ (Ledger.paramNames w.place o).map (file.markId o.mark,
        ·)) ++
    w.item.assignment?.elim [] fun p =>
      if (Dotted.cut? p.2.target).isNone && (p.2.isLoopTarget || p.2.kind = .lambda) then
        [(w.place.scope, p.2.target)]
      else []

end Visit

/-- The settings of a name in a scope, along some visits. -/
def settings (scope : ScopeId) (name : String) (ws : List Visit) : List Setting :=
  ws.filterMap (Visit.settingOf? scope name)

/-- The memory of a name after it is set. A definition stays when an attribute is assigned. -/
def Memory.set (file : FileContext) (m : Memory) (e : Setting) : Memory :=
  if e.defines then ⟨some (e.value file), m.isDisputed⟩
  else if e.isMember && m.isDefinition then m
  else m.assign e.clues e.place.scope

/-! ## Steps and runs -/

namespace Visit

variable {file : FileContext} {place : Place} {d : Draft} {mark : Mark} {a : Assignment}
  {scope : ScopeId}
  {name : String}

theorem settingOf?_assign (h : d.targetOf? place a = some (scope, name)) :
    settingOf? scope name ⟨place, d, .assign mark a⟩ = some ⟨place, mark, a, scope, name⟩ := by
  simp [settingOf?, setting?, Item.assignment?, h]

theorem settingOf?_assign_of_ne (h : d.targetOf? place a ≠ some (scope, name)) :
    settingOf? scope name ⟨place, d, .assign mark a⟩ = none := by
  simp only [settingOf?, setting?, Item.assignment?, Option.bind_some]
  cases ht : d.targetOf? place a with
  | none => rfl
  | some t =>
    have hne : (t.1, t.2) ≠ (scope, name) := fun heq => h (ht.trans (congrArg some heq))
    rw [Option.map_some]
    exact Option.filter_some_neg (by simpa using hne)

theorem settingOf?_of_not_assign {i : Item} (h : i.assignment? = none) :
    settingOf? scope name ⟨place, d, i⟩ = none := by
  simp [settingOf?, setting?, h]

end Visit

namespace Draft

variable {file : FileContext} {place : Place} {d d' : Draft} {i : Item} {is : List Item}
  {scope : ScopeId}
  {name : String}

theorem Ready.kindOf?_receiverBody? (h : Ready file place is d) {seenFrom body : ScopeId}
    {head : String} (hbody : d.receiverBody? seenFrom head = some body) :
    d.kindOf? body = some .classBody := by
  obtain ⟨owner, _, hdecl⟩ := Option.bind_eq_some_iff.mp hbody
  obtain ⟨decl, hdecl', rfl⟩ := Option.map_eq_some_iff.mp hdecl
  exact h.bodies owner decl hdecl'

section

variable {mark : Mark} {a : Assignment}

/-- What an assignment does to its target and to no other name, in terms of settings. -/
theorem memory_of_target {t : ScopeId × String} (htarget : d.targetOf? place a = some t)
    (hself : d'.memory t.1 t.2 = (d.memory t.1 t.2).set file ⟨place, mark, a, t.1, t.2⟩)
    (hframe : ∀ s n, (s, n) ≠ t → d'.memory s n = d.memory s n) :
    d'.memory scope name = (Visit.settingOf? scope name ⟨place, d, .assign mark a⟩).elim
      (d.memory scope name) ((d.memory scope name).set file) := by
  by_cases heq : (scope, name) = t
  · subst heq
    rw [Visit.settingOf?_assign htarget]
    exact hself
  · rw [Visit.settingOf?_assign_of_ne fun hsame => heq (Option.some.inj (hsame.symm.trans htarget))]
    exact hframe _ _ heq

theorem memory_assignMember (hr : Ready file place is d) {p : String × String}
    (hcut : Dotted.cut? a.target = some p) :
    (d.assignMember place a p.1 p.2).memory scope name =
      (Visit.settingOf? scope name ⟨place, d, .assign mark a⟩).elim (d.memory scope name)
        ((d.memory scope name).set file) := by
  have htarget : d.targetOf? place a =
      (if Dotted.hasDot p.2 then none else d.receiverBody? place.scope p.1).map (·, p.2) := by
    rw [targetOf?, hcut, Option.elim_some]
    split <;> rfl
  rw [assignMember_eq]
  cases hbody : if Dotted.hasDot p.2 then none else d.receiverBody? place.scope p.1 with
  | none =>
    rw [hbody] at htarget
    rw [Visit.settingOf?_assign_of_ne (by simp [htarget])]
    rfl
  | some body =>
    rw [hbody, Option.map_some] at htarget
    have hopen : (d.kindOf? body).isSome := by
      split at hbody
      · cases hbody
      · rw [hr.kindOf?_receiverBody? hbody]
        rfl
    have hmember : (⟨place, mark, a, body, p.2⟩ : Setting).isMember := by
      simp [Setting.isMember, hcut]
    rw [Option.elim_some]
    refine memory_of_target htarget ?_ fun s n hne => ?_
    · rw [Memory.set, Setting.defines, hmember, isDefinition_memory, Bool.not_true, Bool.false_and,
        if_neg Bool.false_ne_true, Bool.true_and]
      split
      · rfl
      · exact d.memory_bindValue_self hopen ..
    · split
      · rfl
      · exact d.memory_bindValue_of_ne hne ..

/-- An assignment changes the memory of the name that it sets, as it is set, and of no other name,
unless it binds it otherwise. -/
theorem memory_addAssignment (hr : Ready file place is d)
    (h : d.addAssignment file place mark a = .ok d')
    (hbinds : (scope, name) ∉ (⟨place, d, .assign mark a⟩ : Visit).binds file) :
    d'.memory scope name = (Visit.settingOf? scope name ⟨place, d, .assign mark a⟩).elim
      (d.memory scope name) ((d.memory scope name).set file) := by
  have hhere : (d.kindOf? place.scope).isSome := by
    rw [hr.here]
    rfl
  obtain ⟨p, hcut, rfl⟩ | ⟨hcut, hplain⟩ := addAssignment_cases h
  · exact memory_assignMember hr hcut
  have hmember : (⟨place, mark, a, place.scope, a.target⟩ : Setting).isMember = false := by
    simp [Setting.isMember, hcut]
  obtain ⟨hother, v, _, rfl⟩ | ⟨hother, hmakes, rfl⟩ | ⟨hother, hmakes, rfl⟩ := hplain
  · have hne : (scope, name) ≠ (place.scope, a.target) := by
      intro heq
      refine hbinds (mem_append_right _ ?_)
      dsimp only [Item.assignment?, Option.elim_some]
      rw [if_pos (by rw [hcut, hother]; rfl), heq]
      exact mem_singleton_self _
    rw [Visit.settingOf?_assign_of_ne, Option.elim_none, d.memory_bind_of_ne hne]
    rw [targetOf?, hcut, Option.elim_none, if_pos hother]
    exact Option.some_ne_none _ ∘ Eq.symm
  · have hdefines : (⟨place, mark, a, place.scope, a.target⟩ : Setting).defines := by
      rw [Setting.defines, hmember, hmakes]
      rfl
    refine memory_of_target (t := (place.scope, a.target)) ?_ ?_ fun s n hne =>
      memory_bind_of_ne _ hne _
    · rw [targetOf?, hcut, Option.elim_none, if_neg (Bool.eq_false_iff.mp hother)]
    · rw [Memory.set, if_pos hdefines, Setting.value, if_pos hdefines]
      exact memory_bind_self (d.define (file.boundDefinition place mark a.target)) hhere ..
  · have hdefines : (⟨place, mark, a, place.scope, a.target⟩ : Setting).defines = false := by
      rw [Setting.defines, hmakes, Bool.and_false]
    refine memory_of_target (t := (place.scope, a.target)) ?_ ?_ fun s n hne =>
      d.memory_bindValue_of_ne hne ..
    · rw [targetOf?, hcut, Option.elim_none, if_neg (Bool.eq_false_iff.mp hother)]
    · rw [Memory.set, hdefines, hmember]
      exact d.memory_bindValue_self hhere ..

end

/-- What a leaf does to the memory of a name that it does not bind otherwise. -/
theorem memory_leaf (hr : Ready file place is d) (hi : i.isLeaf) (h : walk file place d i = .ok d')
    (hbinds : (scope, name) ∉ (⟨place, d, i⟩ : Visit).binds file) :
    d'.memory scope name = (Visit.settingOf? scope name ⟨place, d, i⟩).elim (d.memory scope name)
      ((d.memory scope name).set file) := by
  cases i with
  | classDecl | functionDecl | lambda | block => cases hi
  | assign mark a => exact memory_addAssignment hr h hbinds
  | importDecl mark target =>
    cases h
    exact d.memory_addImport ..
  | _ =>
    cases h
    rfl

/-- Going into an item changes no memory of a name that the item does not bind. -/
theorem memory_enter {o : Opening} {body : List Item} (hnew : d.kindOf? (file.markId o.mark) = none)
    (hbinds : (scope, name) ∉ (⟨place, d, o.item body⟩ : Visit).binds file) :
    (d.enter file place o).memory scope name = d.memory scope name := by
  have hopened : ∀ s : Scope, s.id = file.markId o.mark → s.bindings = ∅ →
      (d.openScope s).memory scope name = d.memory scope name := by
    intro s hid hempty
    -- the scope was not open, so it had no names before, and has none when it is empty
    have hbinding : (d.openScope s).bindingIn? scope name = d.bindingIn? scope name := by
      unfold bindingIn? openScope
      rw [OrderedMap.get?_insert]
      split
      · next heq =>
        rw [heq, hid, Option.map_eq_none_iff.mp hnew, Option.bind_some, hempty]
        rfl
      · rfl
    exact congrArg (Memory.mk · _) (congrArg _ hbinding)
  have hitem : (o.item body).opening? = some o := by cases o <;> rfl
  have hnot : (scope, name) ∉ o.bound.map (place.scope, ·) ∧
      (scope, name) ∉ (Ledger.paramNames place o).map (file.markId o.mark, ·) := by
    refine ⟨fun hmem => hbinds (mem_append_left _ ?_), fun hmem => hbinds (mem_append_left _ ?_)⟩
    all_goals
      rw [hitem, Option.elim_some]
    · exact mem_append_left _ hmem
    · exact mem_append_right _ hmem
  cases o with
  | classDecl mark head =>
    refine (memory_declare_of_ne _ fun heq => hnot.1 ?_).trans (hopened _ rfl rfl)
    exact mem_singleton.mpr heq
  | functionDecl mark head =>
    have hdeclared : ((d.openScope (file.newScope mark .function (some place.scope)
        (some (file.functionDefinition place mark head).id))).declare place.scope
        (file.functionDefinition place mark head)).memory scope name = d.memory scope name :=
      (memory_declare_of_ne _ fun heq => hnot.1 (mem_singleton.mpr heq)).trans (hopened _ rfl rfl)
    have hparams := hnot.2
    rw [Ledger.paramNames, map_append, mem_append, not_or, map_map, map_map] at hparams
    refine (memory_bindParams_of_not_mem _ hparams.2 _).trans ?_
    cases hreceiver : head.receiver? place.ownerClass with
    | none => exact hdeclared
    | some receiver =>
      rw [hreceiver] at hparams
      refine (memory_bind_of_ne _ (fun heq => hparams.1 ?_) _).trans hdeclared
      exact mem_singleton.mpr heq
  | lambda mark params =>
    have hparams := hnot.2
    rw [Ledger.paramNames, map_map] at hparams
    refine (memory_bindParams_of_not_mem _ hparams _).trans ?_
    exact hopened _ rfl rfl
  | block mark => exact hopened _ rfl rfl

/-- **What a walk remembers of a name.** The settings of a name that nothing else binds, in their
order, tell what the walk remembers of it. -/
theorem memory_walkAll (hr : Ready file place is d) (h : walkAll file place d is = .ok d')
    (hbinds : ∀ w ∈ visitsAll file place d is, (scope, name) ∉ w.binds file) :
    d'.memory scope name = (settings scope name (visitsAll file place d is)).foldl (Memory.set file)
      (d.memory scope name) := by
  -- a leaf adds its own setting, and an item with a body those of the body, from the draft that
  -- enters it
  induction is using Item.induct generalizing place d d' with
  | nil =>
    cases h
    rw [visitsAll_nil]
    rfl
  | leaf i is hi ih =>
    obtain ⟨d₁, hstep, hrest⟩ := exists_of_walkAll_cons h
    rw [visitsAll_cons hstep, visits_leaf _ _ _ hi, singleton_append, forall_mem_cons] at hbinds
    rw [visitsAll_cons hstep, visits_leaf _ _ _ hi, singleton_append,
      ih (hr.leaf hi hstep) hrest hbinds.2, memory_leaf hr hi hstep hbinds.1]
    unfold settings
    rw [filterMap_cons]
    cases Visit.settingOf? scope name ⟨place, d, i⟩ <;> rfl
  | opened o body is hbody ih =>
    obtain ⟨d₁, hstep, hrest⟩ := exists_of_walkAll_cons h
    rw [visitsAll_cons hstep, visits_item, cons_append, forall_mem_cons,
      forall_mem_append] at hbinds
    rw [visitsAll_cons hstep, visits_item]
    replace hstep := walkAll_of_walk_item hstep
    have hnone : Visit.settingOf? scope name ⟨place, d, o.item body⟩ = none :=
      Visit.settingOf?_of_not_assign (by cases o <;> rfl)
    rw [ih (hr.leave hstep) hrest hbinds.2.2, hbody hr.enter hstep hbinds.2.1,
      memory_enter hr.notOpen hbinds.1]
    unfold settings
    rw [cons_append, filterMap_cons_none hnone, filterMap_append, foldl_append]

end Draft

/-! ## Where settings stand -/

/-- An attribute is set in the body of a class, and a plain name in the scope where the assignment
stands. -/
structure Setting.Placed (kindOf? : ScopeId → Option ScopeKind) (e : Setting) : Prop where
  member : e.isMember → kindOf? e.scope = some .classBody
  plain : e.isMember = false → e.scope = e.place.scope ∧ kindOf? e.scope = some e.place.scopeKind

namespace Draft

variable {file : FileContext} {place : Place} {d d' : Draft} {i : Item} {is : List Item}
  {scope : ScopeId}
  {name : String}

variable (hr : Ready file place is d)
include hr

theorem Ready.kindOf?_kept (h : walkAll file place d is = .ok d') {id : ScopeId}
    {kind : ScopeKind} (hid : d.kindOf? id = some kind) : d'.kindOf? id = some kind := by
  have hout : id ∉ file.idsOf is := by
    intro hmem
    rw [hr.unopened id hmem] at hid
    cases hid
  rw [(hr.after_walkAll h).1 id hout, hid]

theorem Ready.placed_kept (h : walkAll file place d is = .ok d') {e : Setting}
    (he : e.Placed d.kindOf?) : e.Placed d'.kindOf? :=
  ⟨fun hm => hr.kindOf?_kept h (he.member hm),
    fun hm => ⟨(he.plain hm).1, hr.kindOf?_kept h (he.plain hm).2⟩⟩

theorem Ready.placed_setting? {e : Setting}
    (h : (⟨place, d, i⟩ : Visit).setting? = some e) : e.Placed d.kindOf? := by
  obtain ⟨⟨mark, a⟩, _, ht⟩ := Option.bind_eq_some_iff.mp h
  obtain ⟨t, htarget, rfl⟩ := Option.map_eq_some_iff.mp ht
  dsimp only [targetOf?] at htarget
  cases hcut : Dotted.cut? a.target with
  | none =>
    rw [hcut, Option.elim_none] at htarget
    split at htarget
    · cases htarget
    · cases htarget
      refine ⟨fun hm => ?_, fun _ => ⟨rfl, hr.here⟩⟩
      simp [Setting.isMember, hcut] at hm
  | some p =>
    rw [hcut, Option.elim_some] at htarget
    split at htarget
    · cases htarget
    · obtain ⟨body, hbody, rfl⟩ := Option.map_eq_some_iff.mp htarget
      refine ⟨fun _ => hr.kindOf?_receiverBody? hbody, fun hm => ?_⟩
      simp [Setting.isMember, hcut] at hm

theorem placed_of_mem_settings (h : walkAll file place d is = .ok d') :
    ∀ w ∈ visitsAll file place d is, ∀ e, w.setting? = some e → e.Placed d'.kindOf? := by
  induction is using Item.induct generalizing place d d' with
  | nil =>
    rw [visitsAll_nil]
    exact fun w hw => absurd hw not_mem_nil
  | leaf i is hi ih =>
    obtain ⟨d₁, hstep, hrest⟩ := exists_of_walkAll_cons h
    rw [visitsAll_cons hstep, visits_leaf _ _ _ hi, singleton_append, forall_mem_cons]
    refine ⟨fun e he => ?_, ih (hr.leaf hi hstep) hrest⟩
    exact hr.placed_kept h (hr.placed_setting? he)
  | opened o body is hbody ih =>
    obtain ⟨d₁, hstep, hrest⟩ := exists_of_walkAll_cons h
    rw [visitsAll_cons hstep, visits_item, cons_append, forall_mem_cons, forall_mem_append]
    replace hstep := walkAll_of_walk_item hstep
    refine ⟨fun e he => hr.placed_kept h (hr.placed_setting? he), fun w hw e he => ?_,
      ih (hr.leave hstep) hrest⟩
    exact (hr.leave hstep).placed_kept hrest (hbody hr.enter hstep w hw e he)

end Draft

theorem exists_visit_of_mem_settings {scope : ScopeId} {name : String} {ws : List Visit}
    {e : Setting} (h : e ∈ settings scope name ws) :
    ∃ w ∈ ws, w.setting? = some e ∧ e.scope = scope ∧ e.name = name := by
  obtain ⟨w, hw, he⟩ := mem_filterMap.mp h
  obtain ⟨he, hkey⟩ := Option.filter_eq_some_iff.mp he
  have hkey' : (e.scope, e.name) = (scope, name) := of_decide_eq_true hkey
  exact ⟨w, hw, he, congrArg Prod.fst hkey', congrArg Prod.snd hkey'⟩

end Xref

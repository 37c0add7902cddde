import Mathlib.Data.List.Chain
import Mathlib.Data.List.Induction
import Xref.Proofs.Digest.Redeclared
import Xref.Proofs.Digest.Settings
import Xref.Proofs.Hierarchy.Overrides

/-!
# Assignments that conflict

A name that is set several times is known to hold an object of a class only as far as its
assignments agree. They are compared by what they are written as, in pairs that follow each other,
and only where the name does not become a definition of its own: then the last assignment counts
alone.
-/

namespace Xref

open List Text Option Setting Memory Draft Outline Digest Xref.Small

/-! ## The settings that count -/

namespace Setting

/-- The settings that have an effect on a name, which is a definition before them or not: an
attribute that is a definition is not assigned. -/
def effective : Bool → List Setting → List Setting
  | _, [] => []
  | isDefinition, e :: es =>
    if e.isMember && isDefinition then effective isDefinition es else e :: effective e.defines es

/-- Two settings that follow each other are not told apart: one makes a definition, or both are
written alike. -/
def Agrees (x y : Setting) : Prop :=
  x.defines ∨ y.defines ∨ x.clues = y.clues

/-- The value that is left when settings do not agree. -/
def unknown (e : Setting) : BindingValue :=
  .assigned none none e.place.scope

theorem value_of_not_defines (file : FileContext) (e : Setting) (h : e.defines = false) :
    e.value file = .assigned e.clues.1 e.clues.2 e.place.scope := by
  rw [value, h, if_neg Bool.false_ne_true]

theorem clues?_value (file : FileContext) (e : Setting) :
    (e.value file).clues? = if e.defines then none else some e.clues := by
  unfold value
  split <;> rfl

theorem effective_sublist (isDefinition : Bool) (es : List Setting) :
    (effective isDefinition es).Sublist es := by
  induction es generalizing isDefinition with
  | nil => exact Sublist.slnil
  | cons e es ih =>
    rw [effective]
    split
    · exact (ih _).cons e
    · exact (ih _).cons_cons e

variable {es : List Setting}

theorem effective_of_forall_not_defines (h : ∀ e ∈ es, e.defines = false) :
    effective false es = es := by
  induction es with
  | nil => rfl
  | cons e es ih =>
    rw [forall_mem_cons] at h
    rw [effective, Bool.and_false, if_neg Bool.false_ne_true, h.1, ih h.2]

theorem effective_ne_nil (h : es ≠ []) : effective false es ≠ [] := by
  cases es with
  | nil => exact absurd rfl h
  | cons e es =>
    rw [effective, Bool.and_false, if_neg Bool.false_ne_true]
    exact cons_ne_nil _ _

/-- Settings that make no definition agree one after the other exactly if all are written alike. -/
theorem isChain_agrees_iff (h : ∀ e ∈ es, e.defines = false) :
    es.IsChain Agrees ↔ ∀ x ∈ es, ∀ y ∈ es, x.clues = y.clues := by
  induction es with
  | nil => simp
  | cons e es ih =>
    rw [forall_mem_cons] at h
    rw [isChain_cons, ih h.2]
    cases es with
    | nil => simp
    | cons x xs =>
      have hagrees : e.Agrees x ↔ e.clues = x.clues := by simp [Agrees, h.1, h.2 x mem_cons_self]
      simp only [head?_cons, mem_some_iff, forall_eq', hagrees]
      constructor
      · rintro ⟨hhead, hrest⟩
        have hall : ∀ y ∈ x :: xs, e.clues = y.clues :=
          fun y hy => hhead.trans (hrest x mem_cons_self y hy)
        refine forall_mem_cons.mpr ⟨forall_mem_cons.mpr ⟨rfl, hall⟩, fun y hy => ?_⟩
        exact forall_mem_cons.mpr ⟨(hall y hy).symm, hrest y hy⟩
      · intro hall
        refine ⟨hall e mem_cons_self x (mem_cons_of_mem _ mem_cons_self), fun y hy z hz => ?_⟩
        exact hall y (mem_cons_of_mem _ hy) z (mem_cons_of_mem _ hz)

theorem isChain_agrees_concat (es : List Setting) (e : Setting) :
    (es ++ [e]).IsChain Agrees ↔ es.IsChain Agrees ∧ ∀ x ∈ es.getLast?, x.Agrees e := by
  rw [isChain_append]
  simp

end Setting

namespace Memory

open Setting

variable (file : FileContext)

/-- The memory of a name after a setting that has an effect. -/
def put (m : Memory) (e : Setting) : Memory :=
  if e.defines then ⟨some (e.value file), m.isDisputed⟩ else m.assign e.clues e.place.scope

theorem isDefinition_put (m : Memory) (e : Setting) : (m.put file e).isDefinition = e.defines := by
  unfold put
  split
  · next h =>
    rw [h, isDefinition, Option.bind_some, Setting.value, if_pos h]
    rfl
  · next h =>
    rw [Bool.eq_false_iff.mpr h]
    rfl

theorem foldl_set (m : Memory) (es : List Setting) :
    es.foldl (set file) m = (effective m.isDefinition es).foldl (put file) m := by
  induction es generalizing m with
  | nil => rfl
  | cons e es ih =>
    rw [foldl_cons, ih, effective]
    unfold set
    by_cases hskip : (e.isMember && m.isDefinition)
    -- an attribute makes no definition, so that a skipped setting leaves the memory as it is
    · have hdefines : e.defines = false := by
        rw [defines, (Bool.and_eq_true_iff.mp hskip).1]
        rfl
      rw [if_pos hskip, hdefines]
      simp [hskip]
    · have hput : (if e.defines then ⟨some (e.value file), m.isDisputed⟩
          else if e.isMember && m.isDefinition then m else m.assign e.clues e.place.scope) =
            m.put file e := by
        rw [if_neg hskip]
        rfl
      rw [hput, isDefinition_put, if_neg hskip, foldl_cons]

/-- What settings that have an effect leave: the last of them, unless it makes no definition and two
that follow each other do not agree. -/
structure Reached (es : List Setting) (m : Memory) : Prop where
  disputed : m.isDisputed ↔ ¬ es.IsChain Agrees
  untouched : es = [] → m.value = none
  last : ∀ e ∈ es.getLast?,
    m.value = some (if e.defines || !m.isDisputed then e.value file else e.unknown)

namespace Reached

variable {file} {es : List Setting} {m : Memory}

/-- An assignment disputes the name exactly if it, or one before, does not agree with the one it
follows. -/
theorem disputes_iff (h : Reached file es m) {e : Setting} (he : e.defines = false) :
    m.disputes e.clues ↔ ¬ (es ++ [e]).IsChain Agrees := by
  rw [isChain_agrees_concat, not_and_or, ← h.disputed, disputes, Bool.or_eq_true_iff]
  -- once disputed a name stays so; until then its value is that of the last setting
  by_cases hdisputed : m.isDisputed
  · simp [hdisputed]
  refine or_congr_right ?_
  cases hlast : es.getLast? with
  | none =>
    rw [h.untouched (getLast?_eq_none_iff.mp hlast)]
    simp
  | some x =>
    rw [h.last x hlast, Bool.eq_false_iff.mpr hdisputed, Bool.not_false, Bool.or_true, if_pos rfl,
      bind_some, clues?_value]
    cases hx : x.defines <;> simp [Agrees, hx, he]

theorem put (h : Reached file es m) (e : Setting) : Reached file (es ++ [e]) (m.put file e) := by
  have hnil : es ++ [e] ≠ [] := append_ne_nil_of_right_ne_nil _ (cons_ne_nil _ _)
  unfold Memory.put
  cases he : e.defines with
  | true =>
    refine ⟨?_, fun heq => absurd heq hnil, ?_⟩
    · have hagrees : ∀ x ∈ es.getLast?, x.Agrees e := fun _ _ => .inr (.inl he)
      rw [isChain_agrees_concat, and_iff_left hagrees]
      exact h.disputed
    · intro x hx
      rw [getLast?_concat, mem_some_iff] at hx
      rw [← hx, he]
      rfl
  | false =>
    refine ⟨h.disputes_iff he, fun heq => absurd heq hnil, ?_⟩
    intro x hx
    rw [getLast?_concat, mem_some_iff] at hx
    rw [← hx, he, e.value_of_not_defines file he]
    unfold assign
    cases m.disputes e.clues <;> rfl

end Reached

theorem reached_foldl (es : List Setting) :
    Reached file es (es.foldl (put file) ⟨none, false⟩) := by
  induction es using reverseRecOn with
  | nil => exact ⟨by simp, fun _ => rfl, by simp⟩
  | append_singleton es e ih =>
    rw [foldl_append]
    exact ih.put e

end Memory

/-! ## Names of a file -/

theorem FileContext.opened?_startDraft (file : FileContext) (mark : Mark) (id : ScopeId) :
    (file.startDraft mark).opened? id =
      if id = file.markId mark then some
        (file.newScope mark .fileBody none (some (file.fileDefinition mark).id))
      else none :=
  empty.opened?_openScope _ id

theorem FileContext.ready_startDraft {file : FileContext} {mark : Mark} {body : List Item}
    (h : file.Fresh (file.markId mark) body) :
    Ready file (file.startPlace mark) body (file.startDraft mark) := by
  have hkinds : ∀ id, (file.startDraft mark).kindOf? id =
      if id = file.markId mark then some .fileBody else none := by
    intro id
    rw [kindOf?_eq, file.opened?_startDraft]
    split <;> rfl
  refine ⟨h, fun id hid => ?_, ?_, fun owner decl hdecl => ?_⟩
  · rw [hkinds, if_neg]
    rintro rfl
    exact h.not_mem hid
  · exact (hkinds _).trans (if_pos rfl)
  · cases hdecl

theorem FileContext.memory_startDraft (file : FileContext) (mark : Mark) (scope : ScopeId)
    (name : String) : (file.startDraft mark).memory scope name = ⟨none, false⟩ := by
  have hbinding : (file.startDraft mark).bindingIn? scope name = none := by
    show (OrderedMap.get? (OrderedMap.insert ∅ _ _) scope).bind _ = none
    rw [OrderedMap.get?_insert]
    split <;> rfl
  exact congrArg (Memory.mk · false) (congrArg (Option.map Binding.value) hbinding)

namespace Outline

def visits (o : Outline) (version : Int) : List Visit :=
  o.root.mark?.elim [] fun mark =>
    visitsAll (o.context version) ((o.context version).startPlace mark)
      ((o.context version).startDraft mark)
      o.root.body

/-- The settings of a name in a scope of a file, in their order. -/
def settings (o : Outline) (version : Int) (scope : ScopeId) (name : String) : List Setting :=
  Xref.settings scope name (o.visits version)

/-- A name in a scope of a file is bound by nothing else than settings. -/
def OnlySets (o : Outline) (version : Int) (scope : ScopeId) (name : String) : Prop :=
  ∀ w ∈ o.visits version, (scope, name) ∉ w.binds (o.context version)

instance (o : Outline) (version : Int) (scope : ScopeId) (name : String) :
    Decidable (o.OnlySets version scope name) :=
  inferInstanceAs (Decidable (∀ w ∈ o.visits version, (scope, name) ∉ w.binds (o.context version)))

end Outline

namespace Digest

def bindingIn? (d : Digest) (scope : ScopeId) (name : String) : Option Binding :=
  (d.scopes.get? scope).bind fun s => s.bindings.get? name

def kindOf? (d : Digest) (scope : ScopeId) : Option ScopeKind :=
  (d.scopes.get? scope).map Scope.kind

/-- What a digest tells of a name that is only set, and of its settings. -/
theorem reached_ofOutline {o : Outline} {version : Int} {d : Digest} {scope : ScopeId}
    {name : String} (hcheck : o.check = .ok ()) (hd : ofOutline o version = .ok d)
    (honly : o.OnlySets version scope name) :
    (∃ isDisputed, Reached (o.context version) (effective false (o.settings version scope name))
      ⟨(d.bindingIn? scope name).map Binding.value, isDisputed⟩) ∧
    ∀ e ∈ o.settings version scope name, e.scope = scope ∧ e.Placed d.kindOf? := by
  obtain ⟨mark, body, s, hroot, hs⟩ := checkItems_of_check hcheck
  have hfresh := fresh_of_check hcheck hroot (o.context version)
  have hready := FileContext.ready_startDraft hfresh
  have hvisits :
    o.visits version = visitsAll (o.context version) ((o.context version).startPlace mark)
      ((o.context version).startDraft mark) body := by
    rw [Outline.visits, hroot]
    rfl
  rw [ofOutline, hcheck] at hd
  dsimp only at hd
  cases hdraft : draftOf o version with
  | error e =>
    rw [hdraft] at hd
    cases hd
  | ok draft =>
    rw [hdraft] at hd
    cases hd
    have hwalk : walkAll (o.context version) ((o.context version).startPlace mark)
        ((o.context version).startDraft mark) body = .ok draft := by
      rw [← hdraft, draftOf, hroot]
      rfl
    unfold OnlySets at honly
    rw [hvisits] at honly
    unfold Outline.settings
    rw [hvisits]
    refine ⟨⟨draft.conflicts.contains (scope, name), ?_⟩, fun e he => ?_⟩
    · have hmemory := memory_walkAll hready hwalk honly
      rw [FileContext.memory_startDraft, foldl_set] at hmemory
      show Reached _ _ (draft.memory scope name)
      rw [hmemory]
      exact reached_foldl _ _
    · obtain ⟨w, hw, hsetting, hscope, _⟩ := exists_visit_of_mem_settings he
      exact ⟨hscope, placed_of_mem_settings hready hwalk w hw e hsetting⟩

end Digest

/-! ## Objects of classes -/

def View.IsObjectOf (v : View) (b : Binding) (c : DefId) : Prop :=
  ∃ holder, ((v.binding b).run []).1.meaning = .object c holder

theorem View.not_isObjectOf_unknown (v : View) {b : Binding} {e : Setting} (h : b.value = e.unknown)
    (c : DefId) : ¬ v.IsObjectOf b c := by
  rintro ⟨holder, hmeaning⟩
  have hhops : View.hops = 19 + 1 := rfl
  rw [View.binding, hhops, View.bindingAt, h] at hmeaning
  cases hmeaning

def Setting.alone (file : FileContext) (b : Binding) (e : Setting) : Binding :=
  { b with value := e.value file }

/-- If a binding denotes an object of a class, so does each of some settings of its name alone. -/
def View.Backs (v : View) (file : FileContext) (b : Binding) (es : List Setting) : Prop :=
  ∀ c, v.IsObjectOf b c → ∀ e ∈ es, v.IsObjectOf (e.alone file b) c

namespace Memory.Reached

variable {file : FileContext} {es : List Setting} {b : Binding} {isDisputed : Bool} {last : Setting}

variable (h : Reached file es ⟨some b.value, isDisputed⟩)
include h

variable (hlast : es.getLast? = some last)
include hlast

/-- The last setting tells the value, unless it makes no definition and settings do not agree. -/
theorem value_cases : (b.value = last.value file ∧ (last.defines ∨ es.IsChain Agrees)) ∨
      (b.value = last.unknown ∧ last.defines = false ∧ ¬ es.IsChain Agrees) := by
  have hvalue := Option.some.inj (h.last last hlast)
  have hdisputed : isDisputed ↔ ¬ es.IsChain Agrees := h.disputed
  dsimp only at hvalue
  cases hcase : last.defines || !isDisputed with
  | true =>
    rw [hcase, if_pos rfl] at hvalue
    rw [Bool.or_eq_true_iff, Bool.not_eq_true', ← Bool.not_eq_true, hdisputed, not_not] at hcase
    exact .inl ⟨hvalue, hcase⟩
  | false =>
    rw [hcase, if_neg Bool.false_ne_true] at hvalue
    rw [Bool.or_eq_false_iff, Bool.not_eq_false', hdisputed] at hcase
    exact .inr ⟨hvalue, hcase⟩

/-- Settings that make no definition and leave an object of a class are all written alike. -/
theorem clues_eq (hdefines : ∀ e ∈ es, e.defines = false) {v : View} {c : DefId}
    (hb : v.IsObjectOf b c) : b.value = last.value file ∧ ∀ e ∈ es, e.clues = last.clues := by
  have hmem := mem_of_getLast? hlast
  obtain ⟨hvalue, hagree⟩ | ⟨hvalue, _⟩ := h.value_cases hlast
  · have hchain := hagree.resolve_left (Bool.eq_false_iff.mp (hdefines last hmem))
    exact ⟨hvalue, fun e he => (isChain_agrees_iff hdefines).mp hchain e he last hmem⟩
  · exact absurd hb (v.not_isObjectOf_unknown hvalue c)

/-- The binding that settings leave is backed by them exactly if they withhold its type, or the last
setting alone is. -/
theorem backs_iff (v : View) (all : List Setting) : v.Backs file b all ↔
      (last.defines = false ∧ ¬ es.IsChain Agrees) ∨ v.Backs file (last.alone file b) all := by
  obtain ⟨hvalue, hagree⟩ | ⟨hvalue, hwithheld⟩ := h.value_cases hlast
  · have hshown : ¬ (last.defines = false ∧ ¬ es.IsChain Agrees) := by
      rintro ⟨hdefines, hnot⟩
      exact hagree.elim (Bool.eq_false_iff.mp hdefines) hnot
    have halone : last.alone file b = b := by rw [alone, ← hvalue]
    rw [halone, or_iff_right hshown]
  · exact iff_of_true (fun c hc => absurd hc (v.not_isObjectOf_unknown hvalue c)) (.inl hwithheld)

end Memory.Reached

/-- In a function or a block no setting makes a definition, and all stand in the scope where they
set the name. -/
theorem Setting.Placed.of_local {kindOf? : ScopeId → Option ScopeKind} {e : Setting}
    (h : e.Placed kindOf?)
    (hkind : kindOf? e.scope = some .function ∨ kindOf? e.scope = some .block) :
    e.defines = false ∧ e.scope = e.place.scope := by
  have hplain : e.isMember = false := by
    rw [← Bool.not_eq_true]
    intro hmember
    rw [h.member hmember] at hkind
    obtain hkind | hkind := hkind <;> cases hkind
  obtain ⟨hscope, hhere⟩ := h.plain hplain
  refine ⟨?_, hscope⟩
  rw [hhere, Option.some.injEq, Option.some.injEq] at hkind
  unfold defines Assignment.makesDefinition
  obtain hkind | hkind := hkind <;> simp [hkind]

/-- **What conflicting assignments leave.** A name in a scope that is bound by assignments only, of
any number and in any order, is bound if there is one. It is bound as the last that counts binds it
alone, or, where that makes no definition and two that follow each other differ, to what is unknown.
So if its binding denotes an object of a class, all assignments alone do, exactly if it is unknown
or they do where the last one does. Where none makes a definition, assignments that leave an object
are all written alike, and where they also stand in one scope, as all do in a function or a block,
each denotes the object. -/
theorem object_of_all_assignments_iff {o : Outline} {version : Int} {d : Digest} {scope : ScopeId}
    {name : String} (hcheck : o.check = .ok ()) (hd : ofOutline o version = .ok d)
    (honly : o.OnlySets version scope name) :
    (d.bindingIn? scope name = none ↔ o.settings version scope name = []) ∧
    ∀ b, d.bindingIn? scope name = some b → ∃ last,
      (effective false (o.settings version scope name)).getLast? = some last ∧
      ((b.value = last.value (o.context version) ∧ (last.defines = true ∨
          (effective false (o.settings version scope name)).IsChain Agrees)) ∨
        (b.value = last.unknown ∧ last.defines = false ∧
          ¬ (effective false (o.settings version scope name)).IsChain Agrees)) ∧
      ∀ v : View,
        (v.Backs (o.context version) b (o.settings version scope name) ↔
          (last.defines = false ∧
            ¬ (effective false (o.settings version scope name)).IsChain Agrees) ∨
          v.Backs (o.context version) (last.alone (o.context version) b)
            (o.settings version scope name)) ∧
        ((∀ e ∈ o.settings version scope name, e.defines = false) →
          ∀ c, v.IsObjectOf b c → ∀ e ∈ o.settings version scope name, e.clues = last.clues) ∧
        ((∀ e ∈ o.settings version scope name,
          e.defines = false ∧ e.place.scope = last.place.scope) →
          v.Backs (o.context version) b (o.settings version scope name)) ∧
        (d.kindOf? scope = some .function ∨ d.kindOf? scope = some .block →
          v.Backs (o.context version) b (o.settings version scope name)) := by
  obtain ⟨⟨isDisputed, hreached⟩, hplaced⟩ := reached_ofOutline hcheck hd honly
  generalize o.settings version scope name = es at hreached hplaced ⊢
  have hbound : es ≠ [] → ∃ last, (effective false es).getLast? = some last := fun hes =>
    ne_none_iff_exists'.mp (mt getLast?_eq_none_iff.mp (effective_ne_nil hes))
  have hnone : d.bindingIn? scope name = none ↔ es = [] := by
    constructor
    · intro hfree
      by_contra hes
      obtain ⟨last, hlast⟩ := hbound hes
      have hvalue := hreached.last last hlast
      rw [hfree] at hvalue
      cases hvalue
    · rintro rfl
      exact map_eq_none_iff.mp (hreached.untouched rfl)
  refine ⟨hnone, fun b hb => ?_⟩
  rw [hb, map_some] at hreached
  have hes : es ≠ [] := fun heq => by rw [hnone.mpr heq] at hb; cases hb
  obtain ⟨last, hlast⟩ := hbound hes
  refine ⟨last, hlast, hreached.value_cases hlast, fun v => ?_⟩
  have halike : (∀ e ∈ es, e.defines = false) → ∀ c, v.IsObjectOf b c →
      b.value = last.value (o.context version) ∧ ∀ e ∈ es, e.clues = last.clues := by
    intro hdefines c hc
    rw [effective_of_forall_not_defines hdefines] at hreached hlast
    exact hreached.clues_eq hlast hdefines hc
  have hone : (∀ e ∈ es, e.defines = false ∧ e.place.scope = last.place.scope) →
      v.Backs (o.context version) b es := by
    intro hall c hc e he
    obtain ⟨hvalue, hclues⟩ := halike (fun e he => (hall e he).1) c hc
    have hmem := (effective_sublist false es).subset (mem_of_getLast? hlast)
    have hsame : e.value (o.context version) = b.value := by
      rw [hvalue, e.value_of_not_defines _ (hall e he).1,
        last.value_of_not_defines _ (hall last hmem).1, hclues e he, (hall e he).2]
    rwa [alone, hsame]
  refine ⟨hreached.backs_iff hlast v es, fun hdefines c hc => (halike hdefines c hc).2, hone,
    fun hkind => ?_⟩
  have hlocal : ∀ e ∈ es, e.defines = false ∧ scope = e.place.scope := by
    intro e he
    obtain ⟨rfl, hstands⟩ := hplaced e he
    exact hstands.of_local hkind
  have hmem := (effective_sublist false es).subset (mem_of_getLast? hlast)
  exact hone fun e he => ⟨(hlocal e he).1, (hlocal e he).2.symm.trans (hlocal last hmem).2⟩

/-- Two classes, and a third whose methods set one attribute to an object of each. -/
def attributeFile : Outline :=
  file "m.py" "m" [classItem "A" [] [], classItem "B" [] [], classItem "C" [] [
      functionItem "one" "one" false [assignItem "first" "self.x" .call "A"],
      functionItem "two" "two" false [assignItem "second" "self.x" .call "B"]]]

/-- The attribute is bound, and known to hold an object of neither class. -/
theorem object_of_all_assignments_in_methods :
    attributeFile.check = .ok () ∧ attributeFile.OnlySets 1 "m.py#C" "x" ∧
      ∃ d b, ofOutline attributeFile 1 = .ok d ∧ d.bindingIn? "m.py#C" "x" = some b ∧
        ∀ (v : View) (c : DefId), ¬ v.IsObjectOf b c := by
  have hcheck : attributeFile.check = .ok () := by decide +kernel
  have honly : attributeFile.OnlySets 1 "m.py#C" "x" := by decide +kernel
  have hclues : (attributeFile.settings 1 "m.py#C" "x").map (fun e => (e.defines, e.clues)) =
      [(false, some "A", none), (false, some "B", none)] := by
    decide +kernel
  have hbound : (ofOutline attributeFile 1).toOption.any
      (fun d => (d.bindingIn? "m.py#C" "x").isSome) := by
    decide +kernel
  obtain ⟨d, hd, hsome⟩ := exists_of_any hbound
  obtain ⟨b, hb⟩ := isSome_iff_exists.mp hsome
  obtain ⟨last, _, _, hall⟩ := (object_of_all_assignments_iff hcheck hd honly).2 b hb
  refine ⟨hcheck, honly, d, b, hd, hb, fun v c hc => ?_⟩
  obtain ⟨e₁, rest, hcons, h₁, hrest⟩ := map_eq_cons_iff.mp hclues
  obtain ⟨e₂, none, hcons', h₂, hnil⟩ := map_eq_cons_iff.mp hrest
  rw [hcons, hcons', map_eq_nil_iff.mp hnil] at hall
  have hdefines : ∀ e ∈ [e₁, e₂], e.defines = false := by
    simp [(Prod.mk.inj h₁).1, (Prod.mk.inj h₂).1]
  have hsame := (hall v).2.1 hdefines c hc
  have hequal : e₁.clues = e₂.clues := (hsame e₁ (by simp)).trans (hsame e₂ (by simp)).symm
  rw [(Prod.mk.inj h₁).2, (Prod.mk.inj h₂).2] at hequal
  simp at hequal

/-- Two classes, and a name of the file that is set to an object of each. -/
def valueFile : Outline :=
  file "m.py" "m" [classItem "A" [] [], classItem "B" [] [],
    assignItem "first" "x" .call "A", assignItem "second" "x" .call "B"]

/-- The index of the file. -/
def valueView : View :=
  ⟨catalogOf [valueFile], some (Hierarchy.built (catalogOf [valueFile])).1⟩

/-- The name denotes an object of the second class, and not by its first assignment. -/
theorem object_of_last_assignment_only :
    valueFile.OnlySets 1 "m.py#file" "x" ∧
      ∃ d b, ofOutline valueFile 1 = .ok d ∧ d.bindingIn? "m.py#file" "x" = some b ∧
        valueView.IsObjectOf b "m.py::m.B" ∧
        ¬ valueView.Backs (valueFile.context 1) b (valueFile.settings 1 "m.py#file" "x") := by
  have honly : valueFile.OnlySets 1 "m.py#file" "x" := by decide +kernel
  have hbound : (ofOutline valueFile 1).toOption.any (fun d =>
      (d.bindingIn? "m.py#file" "x") =
        some ⟨"x", "m.py#file", .built "m.py::m.x" (some "B") "m.py#file"⟩) := by
    decide +kernel
  have hsettings :
    (valueFile.settings 1 "m.py#file" "x").map (fun e => e.value (valueFile.context 1)) =
      [.built "m.py::m.x" (some "A") "m.py#file", .built "m.py::m.x" (some "B") "m.py#file"] := by
    decide +kernel
  have hobject : ∀ p ∈ [("A", "m.py::m.A"), ("B", "m.py::m.B")],
      ((valueView.binding ⟨"x", "m.py#file", .built "m.py::m.x" (some p.1) "m.py#file"⟩).run
        []).1.meaning = .object p.2 (some "m.py::m.x") := by
    decide +kernel
  obtain ⟨d, hd, hb⟩ := exists_of_any hbound
  obtain ⟨e, rest, hcons, he, _⟩ := map_eq_cons_iff.mp hsettings
  have hlast : valueView.IsObjectOf ⟨"x", "m.py#file",
    .built "m.py::m.x" (some "B") "m.py#file"⟩ "m.py::m.B" :=
    ⟨_, hobject ("B", "m.py::m.B") (by simp)⟩
  refine ⟨honly, d, _, hd, of_decide_eq_true hb, hlast, fun hbacks => ?_⟩
  obtain ⟨holder, hmeaning⟩ := hbacks "m.py::m.B" hlast e (by simp [hcons])
  rw [alone, he, hobject ("A", "m.py::m.A") (by simp)] at hmeaning
  simp at hmeaning

end Xref

import Xref.Proofs.Digest.Walk

/-!
# The ids of a digest

Everything that a digest refers to by an id is of its own file: definitions, scopes, and what its
bindings and calls stand for. The ids tell the file by its path, so that nothing in the digest of
one file leads to another file but a name.
-/

namespace Xref

/-- An id that a file gives to a definition. -/
def Definition.OfFile (path : String) (id : DefId) : Prop :=
  ∃ qualname, id = Definition.idOf path qualname

theorem Definition.qualname_eq_of_idOf {path q q' : String}
    (h : idOf path q = idOf path q') : q = q' := by
  have hlist := congrArg String.toList h
  simp only [idOf, String.toList_append] at hlist
  exact String.toList_injective (List.append_cancel_left hlist)

/-- An id that a file gives to a scope or a call. -/
def Scope.OfFile (path : String) (id : ScopeId) : Prop :=
  ∃ mark, id = Scope.idOf path mark

namespace BindingValue

/-- The definitions that a binding refers to. -/
@[simp]
def ids : BindingValue → List DefId
  | declared id | literal id | built id _ _ => [id]
  | receiver _ owner => [owner]
  | assigned _ _ _ | parameter _ _ | loop | imported _ => []

/-- The scopes from which the texts of a binding are read. -/
@[simp]
def scopes : BindingValue → List ScopeId
  | built _ _ seenFrom | assigned _ _ seenFrom | parameter _ seenFrom => [seenFrom]
  | declared _ | literal _ | receiver _ _ | loop | imported _ => []

/-- A binding refers to certain definitions and scopes only. -/
def Within (known : DefId → Prop) (own : ScopeId → Prop) (v : BindingValue) : Prop :=
  (∀ id ∈ v.ids, known id) ∧ ∀ s ∈ v.scopes, own s

variable {known known' : DefId → Prop} {own own' : ScopeId → Prop} {v : BindingValue}

theorem mem_ids_of_definition? {id : DefId} (h : v.definition? = some id) : id ∈ v.ids := by
  cases v <;> cases h <;> exact List.mem_cons_self

theorem Within.mono (h : v.Within known own) (hk : ∀ id, known id → known' id)
    (ho : ∀ s, own s → own' s) : v.Within known' own' :=
  ⟨fun id hid => hk id (h.1 id hid), fun s hs => ho s (h.2 s hs)⟩

end BindingValue

/-! ## Scopes -/

/-- The bindings of a scope, its parent and its owner are among certain definitions and scopes. -/
structure Scope.Within (known : DefId → Prop) (own : ScopeId → Prop) (s : Scope) : Prop where
  parent : ∀ id, s.parent = some id → own id
  owner : ∀ id, s.owner = some id → known id
  binding : ∀ {name b}, s.bindings.get? name = some b → b.value.Within known own
  imported : ∀ {name b}, s.imports.get? name = some b → b.value.Within known own

namespace Scope.Within

variable {known known' : DefId → Prop} {own own' : ScopeId → Prop} {s : Scope}

variable (h : s.Within known own)
include h

theorem mono (hk : ∀ id, known id → known' id) (ho : ∀ s, own s → own' s) :
    s.Within known' own' where
  parent id hid := ho id (h.parent id hid)
  owner id hid := hk id (h.owner id hid)
  binding hb := (h.binding hb).mono hk ho
  imported hb := (h.imported hb).mono hk ho

theorem bind (name : String) {v : BindingValue} (hv : v.Within known own) :
    (s.bind name v).Within known own where
  parent := h.parent
  owner := h.owner
  binding hb := by
    rw [Scope.bind, OrderedMap.get?_insert] at hb
    split at hb
    · cases hb
      exact hv
    · exact h.binding hb
  imported := h.imported

theorem addImport (name qualname : String) : (s.addImport name qualname).Within known own where
  parent := h.parent
  owner := h.owner
  binding := h.binding
  imported hb := by
    rw [Scope.addImport, OrderedMap.get?_insert] at hb
    split at hb
    · cases hb
      simp [BindingValue.Within]
    · exact h.imported hb

theorem addStarImport (source : String) : (s.addStarImport source).Within known own := by
  unfold Scope.addStarImport
  split
  · exact h
  · exact ⟨h.parent, h.owner, h.binding, h.imported⟩

end Scope.Within

/-- A scope of a file, with nothing in it of another file. -/
structure Scope.Local (path : String) (s : Scope) : Prop
    extends s.Within (Definition.OfFile path) (Scope.OfFile path) where
  path_eq : s.path = path

namespace Scope.Local

variable {path : String} {s : Scope}

theorem bind (h : s.Local path) (name : String) {v : BindingValue}
    (hv : v.Within (Definition.OfFile path) (Scope.OfFile path)) : (s.bind name v).Local path :=
  ⟨h.toWithin.bind name hv, h.path_eq⟩

theorem addImport (h : s.Local path) (name qualname : String) :
    (s.addImport name qualname).Local path :=
  ⟨h.toWithin.addImport name qualname, h.path_eq⟩

theorem addStarImport (h : s.Local path) (source : String) :
    (s.addStarImport source).Local path := by
  refine ⟨h.toWithin.addStarImport source, ?_⟩
  unfold Scope.addStarImport
  split <;> exact h.path_eq

end Scope.Local

/-! ## Drafts -/

namespace Draft

/-- All ids in a draft are of a file. -/
structure Local (d : Draft) (path : String) : Prop where
  definition : ∀ {id x}, d.definitions.get? id = some x → x.id = id ∧
    id = Definition.idOf path x.qualname ∧
    (∀ owner, x.ownerClass = some owner → Definition.OfFile path owner)
  scope : ∀ {id s}, d.scopes.get? id = some s → Scope.OfFile path id ∧ s.Local path
  decl : ∀ {id c}, d.classes.get? id = some c → Definition.OfFile path id ∧ Scope.OfFile path c.body
  call : ∀ c ∈ d.calls, c.path = path ∧ Definition.OfFile path c.caller ∧ Scope.OfFile path c.scope
  literal : ∀ {mark id}, d.lambdas.get? mark = some id → Definition.OfFile path id

namespace Local

variable {d : Draft} {path : String}

theorem empty (path : String) : Draft.empty.Local path where
  definition h := by cases h
  scope h := by cases h
  decl h := by cases h
  call c hc := by cases hc
  literal h := by cases h

variable (h : d.Local path) (scope : ScopeId)
include h

theorem openScope {s : Scope} (hid : Scope.OfFile path s.id) (hs : s.Local path) :
    (d.openScope s).Local path where
  definition := h.definition
  scope hget := by
    rw [Draft.openScope, OrderedMap.get?_insert] at hget
    split at hget
    · next heq =>
      cases hget
      exact ⟨heq ▸ hid, hs⟩
    · exact h.scope hget
  decl := h.decl
  call := h.call
  literal := h.literal

theorem modifyScope (id : ScopeId) {f : Scope → Scope}
    (hf : ∀ s, s.Local path → (f s).Local path) : (d.modifyScope id f).Local path := by
  unfold Draft.modifyScope
  split
  · next s hs =>
    refine ⟨h.definition, fun {id' s'} hget => ?_, h.decl, h.call, h.literal⟩
    rw [OrderedMap.get?_insert] at hget
    split at hget
    · next heq =>
      cases hget
      exact ⟨heq ▸ (h.scope hs).1, hf s (h.scope hs).2⟩
    · exact h.scope hget
  · exact h

theorem bind (name : String) {v : BindingValue}
    (hv : v.Within (Definition.OfFile path) (Scope.OfFile path)) :
    (d.bind scope name v).Local path :=
  h.modifyScope scope fun _ hs => hs.bind name hv

theorem define {x : Definition} (hid : x.id = Definition.idOf path x.qualname)
    (howner : ∀ owner, x.ownerClass = some owner → Definition.OfFile path owner) :
    (d.define x).Local path where
  definition hget := by
    rw [Draft.define, OrderedMap.get?_insert] at hget
    split at hget
    · next heq =>
      cases hget
      exact ⟨heq.symm, heq.trans hid, howner⟩
    · exact h.definition hget
  scope := h.scope
  decl := h.decl
  call := h.call
  literal := h.literal

theorem discardBelow (qualname : String) : (d.discardBelow qualname).Local path where
  definition hget := by
    simp only [Draft.discardBelow, OrderedMap.get?_restrict] at hget
    split at hget
    · exact h.definition hget
    · cases hget
  scope := h.scope
  decl hget := by
    simp only [Draft.discardBelow, OrderedMap.get?_restrict] at hget
    split at hget
    · exact h.decl hget
    · cases hget
  call c hc := h.call c (List.mem_filter.mp hc).1
  literal := h.literal

theorem declare {x : Definition} (hid : x.id = Definition.idOf path x.qualname)
    (howner : ∀ owner, x.ownerClass = some owner → Definition.OfFile path owner) :
    (d.declare scope x).Local path := by
  have hv : (BindingValue.declared x.id).Within (Definition.OfFile path) (Scope.OfFile path) := by
    simpa [BindingValue.Within] using ⟨x.qualname, hid⟩
  unfold Draft.declare
  split
  · next previous _ =>
    have hd := h.discardBelow previous.qualname
    refine Local.define (Local.bind ?_ _ _ hv) hid howner
    exact ⟨hd.definition, hd.scope, hd.decl, hd.call, hd.literal⟩
  · exact (h.bind scope _ hv).define hid howner

theorem bindParams {seenFrom : ScopeId} (hs : Scope.OfFile path seenFrom) (params : List Param) :
    (d.bindParams scope seenFrom params).Local path := by
  unfold Draft.bindParams
  induction params generalizing d with
  | nil => exact h
  | cons p ps ih =>
    rw [List.foldl_cons]
    exact ih (h.bind scope p.name (by simpa [BindingValue.Within] using hs))

theorem bindValue (name : String) (hint source : Option String)
    {seenFrom : ScopeId} (hs : Scope.OfFile path seenFrom) :
    (d.bindValue scope name hint source seenFrom).Local path := by
  unfold Draft.bindValue
  extract_lets differs noted
  have hnoted : noted.Local path := by
    unfold noted
    split
    · exact ⟨h.definition, h.scope, h.decl, h.call, h.literal⟩
    · exact h
  split <;> exact hnoted.bind _ _ (by simpa [BindingValue.Within] using hs)

theorem addImport (file : FileContext) (place : Place) (i : Import) :
    (d.addImport file place i).Local path := by
  unfold Draft.addImport
  dsimp only
  split
  · split
    · exact h
    · exact h.modifyScope _ fun _ hs => hs.addStarImport _
  · split <;> exact h.modifyScope _ fun _ hs => hs.addImport _ _
  · exact h.modifyScope _ fun _ hs => hs.addImport _ _

theorem assignMember {place : Place} (hp : Scope.OfFile path place.scope)
    (a : Assignment) (head member : String) : (d.assignMember place a head member).Local path := by
  unfold Draft.assignMember
  split
  · exact h
  · split
    · split
      · exact h
      · split
        · exact h
        · exact h.bindValue _ _ _ _ hp
    · exact h

end Local

end Draft

/-- The walk stands in a scope, and for a caller, of its file. -/
structure Place.Local (place : Place) (path : String) : Prop where
  scope : Scope.OfFile path place.scope
  caller : Definition.OfFile path place.caller
  ownerClass : ∀ owner, place.ownerClass = some owner → Definition.OfFile path owner

theorem FileContext.ofFile_markId (file : FileContext) (mark : Mark) :
    Scope.OfFile file.path (file.markId mark) :=
  ⟨_, rfl⟩

theorem FileContext.local_newScope (file : FileContext) (mark : Mark) (kind : ScopeKind)
    {parent : Option ScopeId} {owner : Option DefId}
    (hp : ∀ id, parent = some id → Scope.OfFile file.path id)
    (ho : ∀ id, owner = some id → Definition.OfFile file.path id) :
    (file.newScope mark kind parent owner).Local file.path :=
  ⟨⟨hp, ho, fun hb => (nomatch hb), fun hb => (nomatch hb)⟩, rfl⟩

theorem FunctionHead.owner_of_receiver? (head : FunctionHead) {ownerClass : Option DefId}
    {p : Param} {owner : DefId} (h : head.receiver? ownerClass = some (p, owner)) :
    ownerClass = some owner := by
  unfold receiver? at h
  split at h
  · split at h
    · cases h
    · cases h
      rfl
  · cases h

namespace Draft.Local

variable {d : Draft} {file : FileContext} {place : Place}

theorem addClass {path : String} (h : d.Local path) {id : DefId} (hid : Definition.OfFile path id)
    {decl : ClassDecl} (hbody : Scope.OfFile path decl.body) :
    Local { d with classes := d.classes.insert id decl } path where
  definition := h.definition
  scope := h.scope
  decl hget := by
    rw [OrderedMap.get?_insert] at hget
    split at hget
    · next heq =>
      cases hget
      exact ⟨heq ▸ hid, hbody⟩
    · exact h.decl hget
  call := h.call
  literal := h.literal

theorem addLambda {path : String} (h : d.Local path) {mark : String} {id : DefId}
    (hid : Definition.OfFile path id) :
    Local { d with lambdas := d.lambdas.insert mark id } path where
  definition := h.definition
  scope := h.scope
  decl := h.decl
  call := h.call
  literal hget := by
    rw [OrderedMap.get?_insert] at hget
    split at hget
    · cases hget
      exact hid
    · exact h.literal hget

theorem addCall (h : d.Local file.path) (hp : place.Local file.path) (mark : Mark)
    (head : CallHead) : (d.addCall file place mark head).Local file.path where
  definition := h.definition
  scope := h.scope
  decl := h.decl
  call c hc := by
    rcases List.mem_append.mp hc with hc | hc
    · exact h.call c hc
    · cases List.mem_singleton.mp hc
      exact ⟨rfl, hp.caller, hp.scope⟩
  literal := h.literal

variable {d' : Draft} {i : Item}

variable (h : d.Local file.path)
include h

variable (hp : place.Local file.path)
include hp

theorem addAssignment {mark : Mark} {a : Assignment}
    (hr : d.addAssignment file place mark a = .ok d') : d'.Local file.path := by
  obtain ⟨p, _, rfl⟩ | ⟨_, ⟨_, v, hv, rfl⟩ | ⟨_, _, rfl⟩ | ⟨_, _, rfl⟩⟩ := addAssignment_cases hr
  · exact h.assignMember hp.scope _ _ _
  · refine h.bind _ _ ?_
    rcases hv with rfl | ⟨id, hid, rfl⟩
    · simp [BindingValue.Within]
    · simpa [BindingValue.Within] using h.literal hid
  · refine (h.define rfl hp.ownerClass).bind _ _ ?_
    simpa [BindingValue.Within] using ⟨⟨_, rfl⟩, hp.scope⟩
  · exact h.bindValue _ _ _ _ hp.scope

/-- A step of the walk adds ids of the file only. -/
theorem leaf (hi : i.isLeaf) (hr : walk file place d i = .ok d') : d'.Local file.path := by
  cases i with
  | classDecl | functionDecl | lambda | block => cases hi
  | call mark head =>
    cases hr
    exact h.addCall hp mark head
  | assign mark a => exact h.addAssignment hp hr
  | importDecl mark target =>
    cases hr
    exact h.addImport file place target
  | _ =>
    cases hr
    exact ⟨h.definition, h.scope, h.decl, h.call, h.literal⟩

theorem enter (o : Opening) :
    (d.placeIn file place o).Local file.path ∧ (d.enter file place o).Local file.path := by
  have hparent : ∀ id, some place.scope = some id → Scope.OfFile file.path id :=
    fun id hid => Option.some.inj hid ▸ hp.scope
  have hsome : ∀ {x : DefId}, Definition.OfFile file.path x → ∀ id, some x = some id →
      Definition.OfFile file.path id := fun hx id hid => Option.some.inj hid ▸ hx
  cases o with
  | classDecl mark head =>
    have hclass : Definition.OfFile file.path (file.classDefinition place mark head).id := ⟨_, rfl⟩
    refine ⟨⟨file.ofFile_markId mark, hp.caller, hsome hclass⟩, ?_⟩
    refine addClass (declare ?_ _ rfl hp.ownerClass) hclass (file.ofFile_markId mark)
    exact h.openScope (file.ofFile_markId mark) (file.local_newScope mark _ hparent (hsome hclass))
  | functionDecl mark head =>
    have hfunction : Definition.OfFile file.path (file.functionDefinition place mark head).id :=
      ⟨_, rfl⟩
    refine ⟨⟨file.ofFile_markId mark, hfunction, fun _ hid => nomatch hid⟩,
      bindParams ?_ _ hp.scope _⟩
    have hdecl := (h.openScope (file.ofFile_markId mark) (file.local_newScope mark .function hparent
      (hsome hfunction))).declare place.scope (x := file.functionDefinition place mark head) rfl
      hp.ownerClass
    split
    · next p owner hreceiver =>
      refine hdecl.bind _ _ ?_
      have howner : Definition.OfFile file.path owner :=
        hp.ownerClass owner (head.owner_of_receiver? hreceiver)
      simpa [BindingValue.Within] using howner
    · exact hdecl
  | lambda mark params =>
    refine ⟨⟨file.ofFile_markId mark, ⟨_, rfl⟩, fun _ hid => nomatch hid⟩,
      bindParams ?_ _ hp.scope _⟩
    refine addLambda (define ?_ rfl ?_) ⟨_, rfl⟩
    · exact h.openScope (file.ofFile_markId mark)
        (file.local_newScope mark _ hparent (hsome ⟨_, rfl⟩))
    · exact fun _ hid => nomatch hid
  | block mark =>
    refine ⟨⟨file.ofFile_markId mark, hp.caller, fun _ hid => nomatch hid⟩, ?_⟩
    exact h.openScope (file.ofFile_markId mark)
      (file.local_newScope mark _ hparent fun _ hid => nomatch hid)

end Draft.Local

namespace Digest

/-- All ids in a digest are of its file. -/
structure Local (d : Digest) : Prop where
  definition : ∀ {id x}, d.definitions.get? id = some x → x.id = id ∧
    id = Definition.idOf d.path x.qualname ∧
    (∀ owner, x.ownerClass = some owner → Definition.OfFile d.path owner)
  scope : ∀ {id s}, d.scopes.get? id = some s → Scope.OfFile d.path id ∧ s.Local d.path
  decl : ∀ {id c}, d.classes.get? id = some c → Definition.OfFile d.path id ∧
    Scope.OfFile d.path c.body
  call : ∀ c ∈ d.calls, c.path = d.path ∧ Definition.OfFile d.path c.caller ∧
    Scope.OfFile d.path c.scope

theorem local_ofOutline {o : Outline} {version : Int} {d : Digest}
    (h : ofOutline o version = .ok d) : d.Local := by
  obtain ⟨_, _, _, rfl⟩ | ⟨_, mark, body, draft, _, hwalk, rfl⟩ := ofOutline_cases h
  · exact ⟨fun hx => (nomatch hx), fun hx => (nomatch hx), fun hx => (nomatch hx),
      fun _ hc => (nomatch hc)⟩
  · let file := o.context version
    have hplace : (file.startPlace mark).Local file.path :=
      ⟨file.ofFile_markId mark, ⟨_, rfl⟩, fun _ hid => nomatch hid⟩
    have hstart : (file.startDraft mark).Local file.path := by
      refine Draft.Local.define ?_ rfl fun _ hid => nomatch hid
      refine (Draft.Local.empty file.path).openScope (file.ofFile_markId mark)
        (file.local_newScope mark _ (fun _ hid => nomatch hid) fun id hid => ?_)
      exact ⟨_, (Option.some.inj hid).symm⟩
    have hlocal : draft.Local file.path := walkAll_keeps (A := (·.Local file.path)) (P :=
      (·.Local file.path))
      (fun hp hd hi hw => hd.leaf hp hi hw) (fun o' hp hd => hd.enter hp o') hplace hstart hwalk
    exact ⟨hlocal.definition, hlocal.scope, hlocal.decl, hlocal.call⟩

end Digest

end Xref

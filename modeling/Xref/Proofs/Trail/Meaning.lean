import Xref.Call.Site
import Xref.Proofs.Digest.Local

/-!
# What a trail tells of a meaning

Two resolvers are compared: one before and one after a change of their catalog. They agree on all
that is not in a set of names, as far as ids and scopes are concerned that lie apart from the
change. When the trail that leads to a meaning avoids the set, the other resolver comes to the same
meaning along the same trail.
-/

namespace Xref

open List

/-- An entry of a trail that is a name outside a set, and no fault. -/
def Mention.Avoids (bad : String → Prop) : Mention → Prop
  | key text => ¬ bad text
  | lost _ => False
  | tooDeep => False

/-- Provided that `p` holds: when a computation ends with a trail that avoids a set of names,
another one ends as it does, with a result that has a property. That the trail avoided the set
before does not depend on `p`. -/
def Follows (bad : String → Prop) (p : Prop) (t t' : Tracing α) (Q : α → Prop) : Prop :=
  ∀ trail, (∀ m ∈ (t.run trail).2, m.Avoids bad) →
    (∀ m ∈ trail, m.Avoids bad) ∧ (p → t'.run trail = t.run trail ∧ Q (t.run trail).1)

namespace Follows

variable {bad : String → Prop} {p p' : Prop} {P Q : α → Prop} {R : β → Prop}

protected theorem pure {a : α} (h : p → Q a) : Follows bad p (pure a) (pure a) Q :=
  fun _ htrail => ⟨htrail, fun hp => ⟨rfl, h hp⟩⟩

protected theorem bind {t t' : Tracing α} {f f' : α → Tracing β} (ht : Follows bad p t t' P)
    (hf : ∀ a, Follows bad (p ∧ P a) (f a) (f' a) R) : Follows bad p (t >>= f) (t' >>= f') R := by
  intro trail hend
  -- a trail only grows, so that one outside the set at the end was outside it in the middle
  obtain ⟨hmid, hlater⟩ := hf (t.run trail).1 (t.run trail).2 hend
  obtain ⟨hstart, hfirst⟩ := ht trail hmid
  refine ⟨hstart, fun hp => ?_⟩
  obtain ⟨heq, ha⟩ := hfirst hp
  obtain ⟨heq', hr⟩ := hlater ⟨hp, ha⟩
  refine ⟨?_, hr⟩
  show (f' (t'.run trail).1).run (t'.run trail).2 = _
  rw [heq]
  exact heq'

/-- The second computation may be another way to write one. -/
theorem congr {t t' t'' : Tracing α} (h : Follows bad p t t'' Q) (he : p → t' = t'') :
    Follows bad p t t' Q := by
  intro trail hend
  obtain ⟨hstart, hsame⟩ := h trail hend
  exact ⟨hstart, fun hp => he hp ▸ hsame hp⟩

theorem weaken {t t' : Tracing α} (h : Follows bad p t t' Q) (hp : p' → p) :
    Follows bad p' t t' Q := by
  intro trail hend
  obtain ⟨hstart, hsame⟩ := h trail hend
  exact ⟨hstart, fun h' => hsame (hp h')⟩

/-- After a name is recorded it may be taken to lie outside the set, also to see how the second
computation begins. -/
theorem mention {q : String} (hempty : ¬ bad "") {f f' : Unit → Tracing α} {t' : Tracing α}
    (he : p → ¬ bad q → t' = Xref.mention q >>= f')
    (hf : Follows bad (p ∧ ¬ bad q) (f ()) (f' ()) Q) :
    Follows bad p (Xref.mention q >>= f) t' Q := by
  intro trail hend
  by_cases hq : q = ""
  -- the empty name is not recorded
  · subst hq
    obtain ⟨hstart, hsame⟩ := hf trail hend
    refine ⟨hstart, fun hp => ?_⟩
    rw [he hp hempty]
    exact hsame ⟨hp, hempty⟩
  · have hrun : ∀ g : Unit → Tracing α,
        (Xref.mention q >>= g).run trail = (g ()).run (.key q :: trail) := by
      intro g
      rw [Xref.mention, if_neg hq]
      rfl
    rw [hrun f] at hend ⊢
    obtain ⟨hmid, hsame⟩ := hf _ hend
    have hfree : ¬ bad q := hmid _ mem_cons_self
    refine ⟨fun m hm => hmid m (mem_cons_of_mem _ hm), fun hp => ?_⟩
    rw [he hp hfree, hrun f']
    exact hsame ⟨hp, hfree⟩

theorem foldlM {f f' : α → β → Tracing α} (hf : ∀ a b, Follows bad (p ∧ P a) (f a b) (f' a b) P)
    (bs : List β) {a : α} (ha : p → P a) : Follows bad p (bs.foldlM f a) (bs.foldlM f' a) P := by
  induction bs generalizing a p with
  | nil => exact .pure ha
  | cons b bs ih =>
    rw [foldlM_cons, foldlM_cons]
    refine ((hf a b).weaken (fun hp => ⟨hp, ha hp⟩)).bind fun a' => ?_
    exact ih (fun a b => (hf a b).weaken (fun h => ⟨h.1.1, h.2⟩)) And.right

end Follows

/-! ## What two resolvers agree on -/

/-- What a module binds the last part of a qualified name to, if there is the module. -/
def Catalog.moduleBinding? (c : Catalog) (qualname : String) : Option (Option Binding) :=
  (c.moduleScopes.get? (Text.Dotted.init qualname)).map fun s =>
    (c.lookup? s (Text.Dotted.last qualname)).map Prod.fst

/-- Two catalogs agree on all but a set of names, as far as definitions and scopes apart from a
change are concerned. From those one comes to others apart from the change, unless by a name in the
set. -/
structure Catalog.Agrees (c c' : Catalog) (bad : String → Prop) (known : DefId → Prop)
    (own : ScopeId → Prop) : Prop where
  id_eq : ∀ {id d}, c.definitions.get? id = some d → d.id = id
  definition_eq : ∀ {id}, known id → c'.definitions.get? id = c.definitions.get? id
  known_of_definition : ∀ {id d}, c.definitions.get? id = some d → ¬ bad d.qualname → known id
  known_of_owner : ∀ {id d owner}, known id → c.definitions.get? id = some d →
    d.ownerClass = some owner → known owner
  find_eq : ∀ {q}, ¬ bad q → c'.find? q = c.find? q
  known_of_find : ∀ {q d}, ¬ bad q → c.find? q = some d → known d.id
  named_eq : ∀ {name}, ¬ bad (nameKey name) → c'.named name = c.named name
  package_eq : ∀ {q}, ¬ bad q → c'.isPackage q = c.isPackage q
  module_eq : ∀ {q}, ¬ bad q → c'.moduleBinding? q = c.moduleBinding? q ∨
    c.moduleBinding? q = none ∧ bad (Text.Dotted.init q)
  within_of_module : ∀ {q b}, ¬ bad q → c.moduleBinding? q = some (some b) →
    b.value.Within known own
  scope_eq : ∀ {s}, own s → c'.scopes.contains s = c.scopes.contains s
  lookup_eq : ∀ {s} name, own s → c'.lookup? s name = c.lookup? s name ∨
    c.lookup? s name = none ∧ bad (nameKey name)
  within_of_lookup : ∀ {s name b o}, own s → c.lookup? s name = some (b, o) →
    b.value.Within known own ∧ ∀ owner, o.owner = some owner → known owner
  member_eq : ∀ {id} name, known id → c'.ownMember? id name = c.ownMember? id name
  within_of_member : ∀ {id name b}, known id → c.ownMember? id name = some b →
    b.value.Within known own

namespace Resolver

/-- A class has the same place in two hierarchies, next to classes apart from a change. What its
members may run is the same but for the members named in the change. -/
structure SamePlace (r r' : Resolver) (renamed : String → Prop) (known : DefId → Prop)
    (id : DefId) : Prop where
  order_eq : r'.hierarchy.order? id = r.hierarchy.order? id
  known_of_order : ∀ {order}, r.hierarchy.order? id = some order → ∀ c ∈ order, known c
  isCyclic_eq : r'.hierarchy.isCyclic id = r.hierarchy.isCyclic id
  hasExternalBase_eq : r'.hierarchy.hasExternalBase id = r.hierarchy.hasExternalBase id
  targets_eq : ∀ {member}, ¬ renamed member →
    r'.hierarchy.dispatchTargets id member = r.hierarchy.dispatchTargets id member

/-- Two resolvers agree on all but a set of names, as far as definitions and scopes apart from a
change are concerned. -/
structure Agrees (r r' : Resolver) (bad renamed : String → Prop) (known : DefId → Prop)
    (own : ScopeId → Prop) : Prop extends r.catalog.Agrees r'.catalog bad known own where
  empty : ¬ bad ""
  policy_eq : r'.policy = r.policy
  bound_le : r.bound ≤ r'.bound
  mem_order : ∀ {id order}, r.hierarchy.order? id = some order → id ∈ order
  place : ∀ {id}, known id → ¬ bad (r.catalog.qualnameOf id) → SamePlace r r' renamed known id
  known_of_subtree : ∀ {id below}, r.hierarchy.subtree? id = some below → ∀ c ∈ below,
    ¬ bad (r.catalog.qualnameOf c) → known c
  subtree_eq : ∀ {id below}, r.hierarchy.subtree? id = some below →
    (∀ c ∈ below, ¬ bad (r.catalog.qualnameOf c)) → r'.hierarchy.subtree? id = some below ∧
      ∀ member, r'.hierarchy.dispatchTargets id member = r.hierarchy.dispatchTargets id member

end Resolver

/-- The definition or class that a meaning leads to is one of some. -/
def Meaning.Known (known : DefId → Prop) : Meaning → Prop
  | definition id _ => known id
  | object type _ => known type
  | external _ | package _ | unresolved _ => True

namespace Resolver

variable {r r' : Resolver} {bad renamed : String → Prop} {known : DefId →
  Prop} {own : ScopeId → Prop}

namespace Agrees

variable {id : DefId} {ids : List DefId} {b : Binding} {p : Prop} {q : String}

section

variable (h : Agrees r r' bad renamed known own)
include h

theorem known_id {d : Definition}
    (hd : r.catalog.definitions.get? id = some d) (hk : known id) : known d.id := by
  rw [h.id_eq hd]
  exact hk

/-- Members given along classes apart from the change are bound alike. -/
theorem memberAlong_eq (hids : ∀ c ∈ ids, known c) (name : String) :
    r'.catalog.memberAlong? ids name = r.catalog.memberAlong? ids name := by
  unfold Catalog.memberAlong?
  induction ids with
  | nil => rfl
  | cons c ids ih =>
    rw [List.findSome?_cons, List.findSome?_cons, h.member_eq name (hids c mem_cons_self),
      ih fun c' hc' => hids c' (mem_cons_of_mem _ hc')]

theorem within_of_memberAlong (hids : ∀ c ∈ ids, known c) {name : String} {giver : DefId}
    (hb : r.catalog.memberAlong? ids name = some (giver, b)) : b.value.Within known own := by
  obtain ⟨c, hc, hmem⟩ := exists_of_findSome?_eq_some hb
  obtain ⟨b', hb', heq⟩ := Option.map_eq_some_iff.mp hmem
  cases heq
  exact h.within_of_member (hids giver hc) hb'

end

theorem mem_of_after {start : DefId} {rest : List DefId}
    (h : Hierarchy.after? start ids = some rest) : ∀ c ∈ rest, c ∈ ids := by
  induction ids with
  | nil => cases h
  | cons id ids ih =>
    rw [Hierarchy.after?] at h
    split at h
    · cases h
      exact fun c hc => mem_cons_of_mem _ hc
    · exact fun c hc => mem_cons_of_mem _ (ih h c hc)

/-- A member of a class is found alike where the class has the same place. -/
theorem lookup_member_eq (h : Agrees r r' bad renamed known own)
    (hp : SamePlace r r' renamed known id) (name : String) (start : Option DefId) :
    r'.hierarchy.lookup? r'.catalog id name start = r.hierarchy.lookup? r.catalog id name start ∧
      ∀ giver b, r.hierarchy.lookup? r.catalog id name start = some (giver, b) →
        b.value.Within known own := by
  unfold Hierarchy.lookup?
  rw [hp.order_eq]
  cases ho : r.hierarchy.order? id with
  | none => exact ⟨rfl, fun _ _ hb => by cases hb⟩
  | some order =>
    have hknown := hp.known_of_order ho
    cases start with
    | none =>
      exact ⟨h.memberAlong_eq hknown name, fun giver b hb => h.within_of_memberAlong hknown hb⟩
    | some start =>
      cases hafter : Hierarchy.after? start order with
      | none =>
        simp [hafter]
      | some rest =>
        have hrest : ∀ c ∈ rest, known c := fun c hc => hknown c (mem_of_after hafter c hc)
        simp only [hafter, Option.bind_eq_bind, Option.bind_some]
        exact ⟨h.memberAlong_eq hrest name, fun giver b hb => h.within_of_memberAlong hrest hb⟩

theorem findMember_eq (h : Agrees r r' bad renamed known own) (hk : known id)
    (hp : SamePlace r r' renamed known id) (name : String) :
    r'.view.findMember? id name = r.view.findMember? id name ∧
      ∀ giver b, r.view.findMember? id name = some (giver, b) → b.value.Within known own := by
  have horder : r'.view.order? id = r.view.order? id := hp.order_eq
  unfold View.findMember?
  rw [horder]
  cases ho : r.view.order? id with
  | some order =>
    have hknown := hp.known_of_order ho
    exact ⟨h.memberAlong_eq hknown name, fun giver b hb => h.within_of_memberAlong hknown hb⟩
  | none =>
    refine ⟨congrArg (Option.map _) (h.member_eq name hk), fun giver b hb => ?_⟩
    obtain ⟨b', hb', heq⟩ := Option.map_eq_some_iff.mp hb
    cases heq
    exact h.within_of_member hk hb'

/-- A walk along classes records each of them. -/
theorem get?_of_mentionClasses {v : View} {trail : List Mention}
    (hend : ∀ m ∈ ((ids.forM v.mentionClass).run trail).2, m.Avoids bad) (hempty : ¬ bad "") :
    (∀ m ∈ trail, m.Avoids bad) ∧
      ∀ id ∈ ids, ∃ d, v.catalog.definitions.get? id = some d ∧ ¬ bad d.qualname := by
  induction ids generalizing trail with
  | nil => exact ⟨hend, fun id hid => by cases hid⟩
  | cons id ids ih =>
    have hstep : ((id :: ids).forM v.mentionClass).run trail =
        (ids.forM v.mentionClass).run ((v.mentionClass id).run trail).2 := rfl
    rw [hstep] at hend
    obtain ⟨hmid, hrest⟩ := ih hend
    unfold View.mentionClass at hmid
    cases hd : v.catalog.definitions.get? id with
    | none =>
      rw [hd] at hmid
      exact (hmid _ mem_cons_self).elim
    | some d =>
      rw [hd] at hmid
      dsimp only at hmid
      by_cases hq : d.qualname = ""
      · rw [mention, if_pos hq] at hmid
        refine ⟨hmid, fun id' hid' => ?_⟩
        rcases mem_cons.mp hid' with rfl | hid'
        · exact ⟨d, hd, hq ▸ hempty⟩
        · exact hrest id' hid'
      · rw [mention, if_neg hq] at hmid
        refine ⟨fun m hm => hmid m (mem_cons_of_mem _ hm), fun id' hid' => ?_⟩
        rcases mem_cons.mp hid' with rfl | hid'
        · exact ⟨d, hd, hmid _ mem_cons_self⟩
        · exact hrest id' hid'

/-- Looking for a member records the class itself, so that it has the same place in both
hierarchies. -/
theorem follows_mentionOrder (h : Agrees r r' bad renamed known own) (id : DefId) :
    Follows bad (known id) (r.view.mentionOrder id) (r'.view.mentionOrder id)
      fun _ => ¬ bad (r.catalog.qualnameOf id) := by
  intro trail hend
  have hend' : ∀ m ∈ ((((r.hierarchy.order? id).getD [id]).forM r.view.mentionClass).run trail).2,
      m.Avoids bad := hend
  obtain ⟨hstart, hall⟩ := get?_of_mentionClasses hend' h.empty
  refine ⟨hstart, fun hk => ?_⟩
  -- the class stands in its own order
  have hmem : id ∈ (r.hierarchy.order? id).getD [id] := by
    cases ho : r.hierarchy.order? id with
    | none => exact mem_singleton_self id
    | some order => exact h.mem_order ho
  obtain ⟨d, hd, hq⟩ : ∃ d, r.catalog.definitions.get? id = some d ∧ ¬ bad d.qualname :=
    hall id hmem
  have hname : ¬ bad (r.catalog.qualnameOf id) := by
    rw [Catalog.qualnameOf, hd]
    exact hq
  refine ⟨?_, hname⟩
  have horder : r'.hierarchy.order? id = r.hierarchy.order? id := (h.place hk hname).order_eq
  have hsame : ∀ (ids : List DefId),
      (∀ a ∈ ids, ∃ d, r.catalog.definitions.get? a = some d ∧ ¬ bad d.qualname) →
      ids.forM r'.view.mentionClass = ids.forM r.view.mentionClass := by
    intro ids
    induction ids with
    | nil => exact fun _ => rfl
    | cons a ids ih =>
      intro hids
      obtain ⟨d, hd, hq⟩ := hids a mem_cons_self
      have hclass : r'.view.mentionClass a = r.view.mentionClass a := by
        have hget : r'.view.catalog.definitions.get? a = r.view.catalog.definitions.get? a :=
          h.definition_eq (h.known_of_definition hd hq)
        rw [View.mentionClass, View.mentionClass, hget]
      show r'.view.mentionClass a >>= _ = r.view.mentionClass a >>= _
      rw [hclass]
      exact congrArg _ (funext fun _ => ih fun a' ha' => hids a' (mem_cons_of_mem _ ha'))
  show (((r'.hierarchy.order? id).getD [id]).forM r'.view.mentionClass).run trail = _
  rw [horder, hsame _ hall]
  rfl

/-! ## Meanings -/

/-- A binding with a written type is followed when its type and what lies outside the index are. -/
theorem follows_hinted {type type' : Tracing (Option DefId)}
    {external external' : Tracing (Option String)}
    (ht : Follows bad p type type' fun found => ∀ id ∈ found, known id)
    (he : Follows bad p external external' fun _ => True) :
    Follows bad p (View.hinted b type external) (View.hinted b type' external')
      fun value => value.meaning.Known known := by
  unfold View.hinted
  refine ht.bind fun found => ?_
  cases found with
  | some type => exact .pure fun hp => hp.2 type rfl
  | none =>
    refine (he.weaken And.left).bind fun qualname => ?_
    cases qualname with
    | some qualname | none => exact .pure fun _ => trivial

theorem follows_built {type type' : Tracing (Option DefId)}
    {external external' : Tracing (Option String)} (hid : p → known id)
    (ht : Follows bad p type type' fun found => ∀ id ∈ found, known id)
    (he : Follows bad p external external' fun _ => True) :
    Follows bad p (View.built b id type external) (View.built b id type' external')
      fun value => value.meaning.Known known := by
  unfold View.built
  refine ht.bind fun found => ?_
  cases found with
  | some type => exact .pure fun hp => hp.2 type rfl
  | none =>
    refine (he.weaken And.left).bind fun maker => ?_
    exact .pure fun hp => hid hp.1.1

theorem follows_mentionHint (hint : String) :
    Follows bad p (View.mentionHint hint) (View.mentionHint hint) fun _ => True := by
  unfold View.mentionHint
  split
  · intro trail hend
    exact (hend _ mem_cons_self).elim
  · exact .pure fun _ => trivial

section

variable (h : Agrees r r' bad renamed known own)
include h

theorem view_definition_eq (hk : known id) :
    r'.view.catalog.definitions.get? id = r.view.catalog.definitions.get? id :=
  h.definition_eq hk

theorem view_find_eq (hq : ¬ bad q) : r'.view.catalog.find? q = r.view.catalog.find? q :=
  h.find_eq hq

theorem view_package_eq (hq : ¬ bad q) : r'.view.catalog.isPackage q = r.view.catalog.isPackage q :=
  h.package_eq hq

theorem hintName_eq {s : ScopeId} (hs : own s) (hint : String) :
    r'.view.hintName? hint s = r.view.hintName? hint s := by
  have hscope : r'.view.catalog.scopes.contains s = r.view.catalog.scopes.contains s :=
    h.scope_eq hs
  rw [View.hintName?, View.hintName?, hscope]

end

/-- With a number of hops the other resolver comes to the same meanings along a trail that avoids
the names on which they differ. A qualified name is recorded first, so that the other resolver need
not begin alike when the name is in the set. -/
structure FollowsAt (r r' : Resolver) (bad : String → Prop) (known : DefId → Prop)
    (own : ScopeId → Prop) (hops : Nat) : Prop where
  name : ∀ s dotted,
    Follows bad (own s) (r.view.nameAt hops s dotted) (r'.view.nameAt hops s dotted)
    fun value => value.meaning.Known known
  binding : ∀ b : Binding, Follows bad (b.value.Within known own) (r.view.bindingAt hops b)
    (r'.view.bindingAt hops b) fun value => value.meaning.Known known
  qualname : ∀ {p : Prop} {q : String} {f f' : Resolved → Tracing Resolved} {t' : Tracing Resolved},
    (p → ¬ bad q → t' = r'.view.qualnameAt hops q >>= f') →
    (∀ value, Follows bad (p ∧ value.meaning.Known known) (f value) (f' value)
      fun value => value.meaning.Known known) →
    Follows bad p (r.view.qualnameAt hops q >>= f) t'
      fun value => value.meaning.Known known
  member : ∀ (owner : Resolved) name, Follows bad (owner.meaning.Known known)
    (r.view.memberAt hops owner name) (r'.view.memberAt hops owner name)
      fun value => value.meaning.Known known
  type : ∀ hint s, Follows bad (own s) (r.view.typeAt hops hint s) (r'.view.typeAt hops hint s)
    fun found => ∀ id ∈ found, known id

theorem followsAt_zero (h : Agrees r r' bad renamed known own) :
    FollowsAt r r' bad known own 0 where
  name _ _ := .pure fun _ => trivial
  binding _ := .pure fun _ => trivial
  qualname he hf := by
    rw [View.qualnameAt, bind_assoc]
    refine .mention h.empty (fun hp hq => by rw [he hp hq, View.qualnameAt, bind_assoc]) ?_
    exact (hf _).weaken (fun hp => ⟨hp.1, trivial⟩)
  member _ _ := .pure fun _ => trivial
  type _ _ := .pure fun _ id hid => by cases hid

variable {hops : Nat}

variable (h : Agrees r r' bad renamed known own)
include h

theorem follows_name_succ (ih : FollowsAt r r' bad known own hops) (s : ScopeId) (dotted : String) :
    Follows bad (own s) (r.view.nameAt (hops + 1) s dotted) (r'.view.nameAt (hops + 1) s dotted)
      fun value => value.meaning.Known known := by
  rw [View.nameAt, View.nameAt]
  generalize (Text.Dotted.parts dotted).headD "" = head
  generalize (Text.Dotted.parts dotted).tail = rest
  -- the members after the first name are followed one by one
  have hrest : ∀ (p : Prop) (first : Resolved), (p → first.meaning.Known known) →
      Follows bad p (rest.foldlM (fun value member => r.view.memberAt hops value member) first)
        (rest.foldlM (fun value member => r'.view.memberAt hops value member) first)
        fun value => value.meaning.Known known :=
    fun p first hfirst => .foldlM (fun value member => (ih.member value member).weaken And.right)
      rest hfirst
  cases hl : r.view.catalog.lookup? s head with
  | none =>
    have hnone : own s → ¬ bad (nameKey head) → r'.view.catalog.lookup? s head = none := by
      intro hs hfree
      rcases h.lookup_eq head hs with heq | ⟨_, hbad⟩
      · exact heq.trans hl
      · exact absurd hbad hfree
    refine .mention h.empty (fun hs hfree => by rw [hnone hs hfree]) ?_
    exact hrest _ _ fun _ => trivial
  | some found =>
    obtain ⟨b, o⟩ := found
    have hl' : own s → r'.view.catalog.lookup? s head = some (b, o) := by
      intro hs
      rcases h.lookup_eq head hs with heq | ⟨hnone, _⟩
      · exact heq.trans hl
      · cases hl.symm.trans hnone
    refine Follows.congr ?_ fun hs => by rw [hl' hs]
    refine ((ih.binding b).weaken (fun hs => (h.within_of_lookup hs hl).1)).bind ?_
    intro value
    refine hrest _ _ fun hp => ?_
    split <;> exact hp.2

theorem follows_binding_succ (ih : FollowsAt r r' bad known own hops) (b : Binding) :
    Follows bad (b.value.Within known own) (r.view.bindingAt (hops + 1) b)
      (r'.view.bindingAt (hops + 1) b) fun value => value.meaning.Known known := by
  rw [View.bindingAt, View.bindingAt]
  split
  · exact .pure fun _ => trivial
  extract_lets external external'
  have hexternal : ∀ {p : Prop} {s : ScopeId} (hint : String), (p → own s) →
      Follows bad p (external hint s) (external' hint s) fun _ => True := by
    intro p s hint hs
    unfold external external'
    refine Follows.congr ?_ fun hp => by rw [h.hintName_eq (hs hp)]
    cases r.view.hintName? hint s with
    | none => exact .pure fun _ => trivial
    | some name =>
      refine ((ih.name s name).weaken hs).bind fun value => ?_
      exact .pure fun _ => trivial
  have htype : ∀ {p : Prop} {s : ScopeId} (hint : String), (p → own s) →
      Follows bad p (r.view.typeAt hops hint s) (r'.view.typeAt hops hint s)
        fun found => ∀ id ∈ found, known id :=
    fun hint hs => (ih.type hint _).weaken hs
  cases b.value with
  | declared id | literal id =>
    dsimp only
    refine Follows.congr ?_ fun hb => by rw [h.view_definition_eq (hb.1 id mem_cons_self)]
    cases hd : r.view.catalog.definitions.get? id with
    | none => exact .pure fun _ => trivial
    | some d =>
      refine .mention h.empty (fun _ _ => rfl) (.pure fun hp => ?_)
      exact h.known_id hd (hp.1.1 id mem_cons_self)
  | built id maker seenFrom =>
    have hid : (BindingValue.built id maker seenFrom).Within known own → known id :=
      fun hb => hb.1 id mem_cons_self
    have hs : (BindingValue.built id maker seenFrom).Within known own → own seenFrom :=
      fun hb => hb.2 seenFrom mem_cons_self
    dsimp only
    refine Follows.congr ?_ fun hb => by rw [h.view_definition_eq (hid hb)]
    cases hd : r.view.catalog.definitions.get? id with
    | none => exact .pure fun _ => trivial
    | some d =>
      refine .mention h.empty (fun _ _ => rfl) ?_
      split
      · exact follows_built (fun hp => h.known_id hd (hid hp.1)) (htype _ fun hp => hs hp.1)
          (hexternal _ fun hp => hs hp.1)
      · exact .pure fun hp => h.known_id hd (hid hp.1)
  | imported qualname => exact ih.qualname (fun _ _ => rfl) fun value => .pure fun hp => hp.2
  | receiver role owner =>
    have hid : (BindingValue.receiver role owner).Within known own → known owner :=
      fun hb => hb.1 owner mem_cons_self
    dsimp only
    refine Follows.congr ?_ fun hb => by rw [h.view_definition_eq (hid hb)]
    cases hd : r.view.catalog.definitions.get? owner with
    | none => cases role <;> exact .pure hid
    | some d =>
      refine .mention h.empty (fun _ _ => rfl) ?_
      cases role <;> exact .pure fun hp => hid hp.1
  | assigned hint source seenFrom =>
    have hs : (BindingValue.assigned hint source seenFrom).Within known own → own seenFrom :=
      fun hb => hb.2 seenFrom mem_cons_self
    dsimp only
    split
    · exact follows_hinted (htype _ hs) (hexternal _ hs)
    · exact ((ih.name seenFrom _).weaken hs).bind fun value => .pure And.right
    · exact .pure fun _ => trivial
  | parameter hint seenFrom =>
    have hs : (BindingValue.parameter hint seenFrom).Within known own → own seenFrom :=
      fun hb => hb.2 seenFrom mem_cons_self
    dsimp only
    split
    · exact follows_hinted (htype _ hs) (hexternal _ hs)
    · exact .pure fun _ => trivial
  | loop => exact .pure fun _ => trivial

/-- A module that is not there is not there after the change either, unless it is recorded. -/
theorem module_none (hq : ¬ bad q) (houter : ¬ bad (Text.Dotted.init q))
    (hm : r.view.catalog.moduleScopes.get? (Text.Dotted.init q) = none) :
    r'.view.catalog.moduleScopes.get? (Text.Dotted.init q) = none := by
  have hnone : r.catalog.moduleBinding? q = none := Option.map_eq_none_iff.mpr hm
  rcases h.module_eq hq with heq | ⟨_, hbad⟩
  · exact Option.map_eq_none_iff.mp (heq.trans hnone)
  · exact absurd hbad houter

theorem module_some (hq : ¬ bad q) {s : ScopeId}
    (hm : r.view.catalog.moduleScopes.get? (Text.Dotted.init q) = some s) :
    ∃ s', r'.view.catalog.moduleScopes.get? (Text.Dotted.init q) = some s' ∧
      (r'.catalog.lookup? s' (Text.Dotted.last q)).map Prod.fst =
        (r.catalog.lookup? s (Text.Dotted.last q)).map Prod.fst := by
  have hsome : r.catalog.moduleBinding? q =
      some ((r.catalog.lookup? s (Text.Dotted.last q)).map Prod.fst) :=
    Option.map_eq_some_iff.mpr ⟨s, hm, rfl⟩
  rcases h.module_eq hq with heq | ⟨hnone, _⟩
  · exact Option.map_eq_some_iff.mp (heq.trans hsome)
  · cases hsome.symm.trans hnone

theorem follows_qualname_succ (ih : FollowsAt r r' bad known own hops)
    {f f' : Resolved → Tracing Resolved} {t' : Tracing Resolved}
    (he : p → ¬ bad q → t' = r'.view.qualnameAt (hops + 1) q >>= f')
    (hf : ∀ value, Follows bad (p ∧ value.meaning.Known known) (f value) (f' value)
      fun value => value.meaning.Known known) :
    Follows bad p (r.view.qualnameAt (hops + 1) q >>= f) t'
      fun value => value.meaning.Known known := by
  rw [View.qualnameAt, bind_assoc]
  refine .mention h.empty (fun hp hq => by rw [he hp hq, View.qualnameAt, bind_assoc]) ?_
  refine Follows.bind (P := fun value => value.meaning.Known known) ?_ fun value =>
    (hf value).weaken (fun hp => ⟨hp.1.1, hp.2⟩)
  split
  · exact .pure fun _ => trivial
  refine Follows.congr ?_ fun hp => by rw [h.view_find_eq hp.2, h.view_package_eq hp.2]
  cases hd : r.view.catalog.find? q with
  | some d =>
    exact .pure fun hp => h.known_of_find hp.2 hd
  | none =>
    dsimp only
    split
    · exact .pure fun _ => trivial
    split
    · exact .pure fun _ => trivial
    cases hm : r.view.catalog.moduleScopes.get? (Text.Dotted.init q) with
    | none =>
      -- what stands before the last dot is recorded next, so that no module has come for it
      refine ih.qualname (fun hp hq => ?_) fun value => (ih.member value _).weaken And.right
      rw [h.module_none hp.2 hq hm]
    | some s =>
      dsimp only
      cases hl : r.view.catalog.lookup? s (Text.Dotted.last q) with
      | none =>
        refine Follows.congr (.pure fun _ => trivial) fun hp => ?_
        obtain ⟨s', hm', hl'⟩ := h.module_some hp.2 hm
        rw [show r.catalog.lookup? s _ = _ from hl] at hl'
        have hnone : r'.view.catalog.lookup? s' (Text.Dotted.last q) = none :=
          Option.map_eq_none_iff.mp hl'
        rw [hm']
        dsimp only
        rw [hnone]
      | some found =>
        obtain ⟨b, o⟩ := found
        have hmodule : r.catalog.moduleBinding? q = some (some b) :=
          Option.map_eq_some_iff.mpr ⟨s, hm, by rw [show r.catalog.lookup? s _ = _ from hl]; rfl⟩
        refine ((ih.binding b).weaken (fun hp => h.within_of_module hp.2 hmodule)).congr ?_
        intro hp
        obtain ⟨s', hm', hl'⟩ := h.module_some hp.2 hm
        rw [show r.catalog.lookup? s _ = _ from hl] at hl'
        obtain ⟨⟨b', o'⟩, hsome, hb⟩ := Option.map_eq_some_iff.mp hl'
        rw [hm']
        dsimp only
        rw [show r'.view.catalog.lookup? s' _ = _ from hsome]
        cases hb
        rfl

theorem follows_member_object (ih : FollowsAt r r' bad known own hops) (id : DefId)
    (name : String) :
    Follows bad (known id) (r.view.memberAt (hops + 1) (.plain (.object id none)) name)
      (r'.view.memberAt (hops + 1) (.plain (.object id none)) name)
      fun value => value.meaning.Known known := by
  rw [View.memberAt, View.memberAt]
  refine (h.follows_mentionOrder id).bind fun _ => ?_
  have hfound := fun hp : known id ∧ ¬ bad (r.catalog.qualnameOf id) =>
    h.findMember_eq hp.1 (h.place hp.1 hp.2) name
  refine Follows.congr ?_ fun hp => by rw [(hfound hp).1]
  cases hm : r.view.findMember? id name with
  | none => exact .pure fun _ => trivial
  | some found =>
    obtain ⟨giver, b⟩ := found
    exact (ih.binding b).weaken (fun hp => (hfound hp).2 giver b hm)

theorem follows_member_succ (ih : FollowsAt r r' bad known own hops) (owner : Resolved)
    (name : String) :
    Follows bad (owner.meaning.Known known) (r.view.memberAt (hops + 1) owner name)
      (r'.view.memberAt (hops + 1) owner name) fun value => value.meaning.Known known := by
  have hclass := fun id => h.follows_member_object ih id name
  simp only [View.memberAt, Resolved.plain] at hclass
  rw [View.memberAt, View.memberAt]
  cases hv : owner.meaning with
  | external q | unresolved q => exact .pure fun _ => trivial
  | object type holder => exact hclass type
  | package outer =>
    dsimp only
    split
    · next hnew =>
      refine .mention h.empty (fun _ hq =>
        by rw [h.view_find_eq hq, h.view_package_eq hq, if_pos hnew]) ?_
      exact .pure fun _ => trivial
    · next hknown =>
      rw [← bind_pure (r.view.qualnameAt hops (outer ++ "." ++ name))]
      refine ih.qualname (fun _ hq => ?_) fun value => .pure And.right
      rw [h.view_find_eq hq, h.view_package_eq hq, if_neg hknown, bind_pure]
  | definition id maker =>
    dsimp only
    refine Follows.congr ?_ fun hp => by rw [h.view_definition_eq hp]
    cases hd : r.view.catalog.definitions.get? id with
    | none => exact .pure fun _ => trivial
    | some d =>
      dsimp only
      split
      · rw [← bind_pure (r.view.qualnameAt hops _)]
        exact ih.qualname (fun _ _ => (bind_pure _).symm) fun value => .pure And.right
      · exact (hclass d.id).weaken (h.known_id hd)
      · exact .pure fun _ => trivial
      · exact .pure fun _ => trivial

theorem classOf_eq {value : Resolved} (hv : value.meaning.Known known) :
    r'.view.classOf? value = r.view.classOf? value ∧ ∀ id ∈ r.view.classOf? value, known id := by
  unfold View.classOf?
  split
  · next id _ hm _ =>
    have hk : known id := by simpa [hm, Meaning.Known] using hv
    rw [h.view_definition_eq hk]
    refine ⟨rfl, fun id' hid' => ?_⟩
    obtain ⟨d, hd, rfl⟩ := Option.map_eq_some_iff.mp hid'
    exact h.known_id (Option.filter_eq_some_iff.mp hd).1 hk
  · exact ⟨rfl, fun id hid => by cases hid⟩

theorem follows_type_succ (ih : FollowsAt r r' bad known own hops) (hint : String) (s : ScopeId) :
    Follows bad (own s) (r.view.typeAt (hops + 1) hint s) (r'.view.typeAt (hops + 1) hint s)
      fun found => ∀ id ∈ found, known id := by
  rw [View.typeAt, View.typeAt]
  refine (follows_mentionHint hint).bind fun _ => ?_
  refine Follows.congr ?_ fun hp => by rw [h.hintName_eq hp.1]
  cases r.view.hintName? hint s with
  | none => exact .pure fun _ id hid => by cases hid
  | some name =>
    refine ((ih.name s name).weaken And.left).bind fun value => ?_
    refine Follows.congr (.pure fun hp => ?_) fun hp => by rw [(h.classOf_eq hp.2).1]
    exact (h.classOf_eq hp.2).2

/-- The other resolver follows however many hops there are. -/
theorem followsAt (hops : Nat) : FollowsAt r r' bad known own hops := by
  induction hops with
  | zero => exact h.followsAt_zero
  | succ hops ih =>
    exact ⟨h.follows_name_succ ih, h.follows_binding_succ ih, h.follows_qualname_succ ih,
      h.follows_member_succ ih, h.follows_type_succ ih⟩

end Agrees

end Resolver

end Xref

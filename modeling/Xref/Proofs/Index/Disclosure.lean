import Xref.Proofs.Catalog.Apart
import Xref.Proofs.Index.Update
import Xref.Proofs.Trail.Calls

/-!
# What an edit discloses

The trail of a call lists the names that its resolution consulted, and an edit lists the names of
what its file defines, of the packages around it and of the classes related to its own. An edit may
change more than that: what a module passes on from elsewhere, what a name means where whole modules
are imported, and the place of classes in the hierarchy. When it does not, every call taken over is
resolved as before.
-/

namespace Xref.Index

open List OrderedMap Text Catalog Hierarchy
open Catalog (merge Beside moduleBinding?)

/-- A binding refers to nothing of the file with a path. -/
def Foreign (path : String) (b : Binding) : Prop :=
  b.value.Within (fun id => ¬ Definition.OfFile path id) fun s => ¬ Scope.OfFile path s

/-- Outside of its file an edit changes only what it lists. -/
structure Edit.Discloses (e : Edit) (x y : Index) : Prop where
  /-- The ids of different files differ. -/
  plain : PlainPath e.path ∧ ∀ path ∈ x.catalog.files.keys, PlainPath path
  /-- No two calls have one id. -/
  sites : (x.calls.map (·.site)).Nodup
  /-- What the file defines has a name. -/
  named : "" ∉ (e.change x y.hierarchy).keys
  /-- Call operators are followed as far as before. -/
  bound : x.resolver.bound ≤ y.resolver.bound
  /-- A name of a module is bound as before, unless it is listed, or there was no such module and
  that is listed. -/
  module : ∀ q ∉ (e.change x y.hierarchy).keys,
    (y.catalog.moduleBinding? q = x.catalog.moduleBinding? q ∧
      ∀ b, x.catalog.moduleBinding? q = some (some b) → Foreign e.path b) ∨
    x.catalog.moduleBinding? q = none ∧ Dotted.init q ∈ (e.change x y.hierarchy).keys
  /-- A bare name seen from another file is bound as before, unless it was not bound and is
  listed. -/
  lookup : ∀ s, ¬ Scope.OfFile e.path s → ∀ name,
    y.catalog.lookup? s name = x.catalog.lookup? s name ∨
      x.catalog.lookup? s name = none ∧ nameKey name ∈ (e.change x y.hierarchy).keys
  /-- A class that is not listed keeps its place, and what its members may run but for members that
  the file defines. -/
  place : ∀ id ∈ x.hierarchy.entries.keys, x.catalog.qualnameOf id ∉ (e.change x y.hierarchy).keys →
    Resolver.SamePlace x.resolver y.resolver (· ∈ (e.change x y.hierarchy).names)
      (fun c => ¬ Definition.OfFile e.path c) id
  /-- A class with no listed class below it keeps the classes below it, and what all its members may
  run. -/
  subtree : ∀ id below, x.hierarchy.subtree? id = some below →
    (∀ c ∈ below, x.catalog.qualnameOf c ∉ (e.change x y.hierarchy).keys) →
    y.hierarchy.subtree? id = some below ∧
      ∀ member, y.hierarchy.dispatchTargets id member = x.hierarchy.dispatchTargets id member

/-! ## What is listed -/

section

variable {e : Edit} {x : Index} {h : Hierarchy} {d : Digest}

theorem qualname_mem_keys (hd : d ∈ e.changed x) {q : Definition} (hq : q ∈ d.definitions.values) :
    q.qualname ∈ (e.change x h).keys := by
  have hmem : q ∈ (e.changed x).flatMap (·.definitions.values) := mem_flatMap.mpr ⟨d, hd, hq⟩
  simp only [Edit.change, changeOf, mem_append]
  exact .inl (.inl (.inl (.inl (mem_map_of_mem hmem))))

theorem name_mem_names (hd : d ∈ e.changed x) {q : Definition} (hq : q ∈ d.definitions.values) :
    q.name ∈ (e.change x h).names :=
  mem_map_of_mem (mem_flatMap.mpr ⟨d, hd, hq⟩)

theorem nameKey_mem_keys {name : String} (hn : name ∈ (e.change x h).names) :
    nameKey name ∈ (e.change x h).keys := by
  simp only [Edit.change, changeOf, mem_append]
  exact .inl (.inl (.inl (.inr (mem_map_of_mem hn))))

theorem enclosing_mem_keys (hd : d ∈ e.changed x) {q : String}
    (hq : q ∈ Dotted.enclosing d.moduleName) : q ∈ (e.change x h).keys := by
  simp only [Edit.change, changeOf, mem_append]
  exact .inl (.inl (.inr (mem_flatMap.mpr ⟨d, hd, hq⟩)))

theorem related_mem_keys (hd : d ∈ e.changed x) {id : DefId} (hid : id ∈ d.classes.keys)
    {q : String} (hq : q ∈ relatedNames x.hierarchy id) : q ∈ (e.change x h).keys := by
  have hmem : id ∈ (e.changed x).flatMap (·.classes.keys) := mem_flatMap.mpr ⟨d, hd, hid⟩
  simp only [Edit.change, changeOf, mem_append]
  exact .inl (.inr (mem_flatMap.mpr ⟨id, hmem, hq⟩))

end

/-! ## The catalogs before and after -/

section

variable {outlines : List Outline} {policy : Policy} {t₀ t₁ : Token} {m₀ m₁ : Made} {e : Edit}

/-- An index and the index after an edit are merged from digests that have all files but one in
common. The digests of that file are those which the edit lists the names of. -/
theorem exists_beside (h₀ : build outlines policy t₀ = .ok m₀) (h₁ : e.apply m₀.index t₁ = .ok m₁)
    (hplain : PlainPath e.path ∧ ∀ path ∈ m₀.index.catalog.files.keys, PlainPath path) :
    ∃ ds es, m₀.index.catalog = (merge ds).1 ∧ m₁.index.catalog = (merge es).1 ∧
      Beside e.path (e.changed m₀.index) ds es := by
  obtain ⟨_, ds, _, hds, hm₀⟩ := exists_assembled_of_build h₀
  obtain ⟨new, hnew, _, h₁⟩ := exists_assemble_of_apply h₁
  obtain ⟨_, _, hm₁⟩ := exists_assembled h₁
  have hfiles : m₀.index.catalog.files = filesOf ds := by rw [hm₀.catalog_eq]; rfl
  rw [hfiles] at hplain hm₁
  have hbefore : ∀ d ∈ (filesOf ds).values,
      d.Local ∧ PlainPath d.path ∧ (d.path = e.path → d ∈ e.changed m₀.index) := by
    intro d hd
    obtain ⟨o, _, ho⟩ := exists_of_mem_map_ok hds (mem_of_mem_filesOf hd)
    have hget := get?_filesOf_of_mem hd
    refine ⟨Digest.local_ofOutline ho, ?_, fun hp => mem_append_left _ ?_⟩
    · exact hplain.2 d.path (mem_keys_iff.mpr ⟨d, hget⟩)
    · rw [← hp, hfiles, hget]
      exact mem_singleton_self _
  have hadded : ∀ d ∈ new, d.Local ∧ d.path = e.path ∧ d ∈ e.changed m₀.index := by
    intro d hd
    obtain ⟨o, ho, hd⟩ := exists_of_mem_map_ok hnew hd
    refine ⟨Digest.local_ofOutline hd, ?_, ?_⟩
    · rw [Digest.path_ofOutline hd]
      exact Edit.path_of_mem_added ho
    · refine mem_append_right _ (mem_filterMap.mpr ⟨o, ho, ?_⟩)
      rw [hd]
      rfl
  refine ⟨ds, _, hm₀.catalog_eq, hm₁.catalog_eq, hplain.1, ?_, hbefore, fun d hd => ?_⟩
  · have hnone : new.filter (fun d => d.path ≠ e.path) = [] := by
      refine filter_eq_nil_iff.mpr fun d hd => ?_
      simpa using (hadded d hd).2.1
    have hkept := filesOf_filter_values_append ds [] e.path
    rw [append_nil, append_nil] at hkept
    unfold SameBut
    rw [filter_values_filesOf (_ ++ new), filter_append, hnone, append_nil,
      filter_filter, Catalog.filter_values_filesOf ds, ← hkept]
    simp
  · rcases mem_append.mp (mem_of_mem_filesOf hd) with hd | hd
    · exact hbefore d (mem_filter.mp hd).1
    · obtain ⟨hlocal, hpath, hmem⟩ := hadded d hd
      exact ⟨hlocal, hpath ▸ hplain.1, fun _ => hmem⟩

end

/-! ## Agreement -/

section

variable {e : Edit} {x y : Index} {ds es : List Digest}

/-- When an edit discloses what it changes, the catalogs before and after it agree on all but what
it lists. -/
theorem Edit.Discloses.catalogAgrees (hd : e.Discloses x y) (hx : x.catalog = (merge ds).1)
    (hy : y.catalog = (merge es).1) (hb : Beside e.path (e.changed x) ds es) :
    x.catalog.Agrees y.catalog (· ∈ (e.change x y.hierarchy).keys)
      (fun id => ¬ Definition.OfFile e.path id) fun s => ¬ Scope.OfFile e.path s := by
  -- a name that is not listed is none that the file defines
  have hfree : ∀ {q}, q ∉ (e.change x y.hierarchy).keys → ∀ d ∈ e.changed x,
      ∀ a ∈ d.definitions.values, a.qualname ≠ q :=
    fun hq d hmem a ha heq => hq (heq ▸ qualname_mem_keys hmem ha)
  have hmodule := hd.module
  have hlookup := hd.lookup
  rw [hx, hy] at hmodule hlookup ⊢
  constructor
  case id_eq => exact fun ha => (Catalog.exists_digest_of_get?_merge ha).1
  case definition_eq => exact hb.get?_definitions
  case known_of_definition =>
    intro id a ha hq
    rcases hb.of_get?_definitions ha with ⟨⟨d, hmem, had⟩, _⟩ | ⟨hid, _⟩
    · exact absurd (qualname_mem_keys hmem had) hq
    · exact hid
  case known_of_owner =>
    intro id a owner hid ha ho
    rcases hb.of_get?_definitions ha with ⟨_, hof⟩ | ⟨_, howner⟩
    · exact absurd hof hid
    · exact howner owner ho
  case find_eq => exact fun hq => (hb.find?_eq (hfree hq)).1
  case known_of_find =>
    intro q a hq ha
    obtain ⟨id, hid, ha⟩ := Option.bind_eq_some_iff.mp ha
    rw [(Catalog.exists_digest_of_get?_merge ha).1]
    exact (hb.find?_eq (hfree hq)).2 id hid
  case named_eq =>
    intro name hn
    exact hb.named_eq fun d hmem a ha heq =>
      hn (nameKey_mem_keys (heq ▸ name_mem_names hmem ha))
  case package_eq =>
    intro q hq
    exact hb.isPackage_eq fun d hmem =>
      ⟨fun hencl => hq (enclosing_mem_keys hmem hencl), hfree hq d hmem⟩
  case module_eq => exact fun {q} hq => (hmodule q hq).imp And.left id
  case within_of_module =>
    intro q b hq hget
    rcases hmodule q hq with ⟨_, hforeign⟩ | ⟨hnone, _⟩
    · exact hforeign b hget
    · cases hnone.symm.trans hget
  case scope_eq =>
    intro s hs
    rw [OrderedMap.contains, OrderedMap.contains, hb.get?_scopes hs]
  case lookup_eq => exact fun name hs => hlookup _ hs name
  case within_of_lookup => exact fun hs hget => hb.within_of_lookup? hs hget
  case member_eq => exact fun name hid => (hb.ownMember?_eq hid name).1
  case within_of_member => exact fun hid hget => (hb.ownMember?_eq hid _).2 _ hget

/-- What is not a class before or after the edit has no place to lose. -/
theorem samePlace_of_not_mem {r r' : Resolver} {renamed : String → Prop} {known : DefId → Prop}
    {id : DefId} (h : id ∉ r.hierarchy.entries.keys) (h' : id ∉ r'.hierarchy.entries.keys) :
    r.SamePlace r' renamed known id := by
  rw [← OrderedMap.get?_eq_none_iff] at h h'
  have horder : r.hierarchy.order? id = none := by rw [order?, h]; rfl
  have horder' : r'.hierarchy.order? id = none := by rw [order?, h']; rfl
  refine ⟨?_, ?_, ?_, ?_, ?_⟩
  · rw [horder, horder']
  · intro order ho
    cases horder.symm.trans ho
  · rw [isCyclic, isCyclic, h, h']
  · simp [hasExternalBase, horder, horder', h, h']
  · intro member _
    rw [dispatchTargets, dispatchTargets, h, h']

/-- The classes of the file are listed themselves. -/
theorem qualnameOf_mem_keys {reports : List Diagnostic}
    (hbuild : Hierarchy.build x.catalog = .ok (x.hierarchy, reports)) {id : DefId}
    (hid : id ∈ x.hierarchy.entries.keys) {d : Digest} (hd : d ∈ e.changed x)
    (hc : id ∈ d.classes.keys) (h : Hierarchy) : x.catalog.qualnameOf id ∈ (e.change x h).keys := by
  obtain ⟨entry, hentry⟩ := mem_keys_iff.mp hid
  obtain ⟨below, hbelow, hhead, _⟩ := (Hierarchy.keyed_of_build hbuild).subtree hid
  refine related_mem_keys hd hc ?_
  rw [relatedNames, hbelow]
  refine mem_filterMap.mpr ⟨id, mem_append_left _ (mem_of_mem_head? hhead), ?_⟩
  rw [hentry, Option.map_some, (Hierarchy.fields_of_build hbuild hentry).1]

/-- When an edit discloses what it changes, the resolvers before and after it agree on all but what
it lists. -/
theorem Edit.Discloses.agrees (hd : e.Discloses x y) (hx : x.catalog = (merge ds).1)
    (hy : y.catalog = (merge es).1) (hb : Beside e.path (e.changed x) ds es)
    (hpolicy : y.policy = x.policy) {reports reports' : List Diagnostic}
    (hbuild : Hierarchy.build x.catalog = .ok (x.hierarchy, reports))
    (hbuild' : Hierarchy.build y.catalog = .ok (y.hierarchy, reports')) :
    Resolver.Agrees x.resolver y.resolver (· ∈ (e.change x y.hierarchy).keys)
      (· ∈ (e.change x y.hierarchy).names) (fun id => ¬ Definition.OfFile e.path id)
      fun s => ¬ Scope.OfFile e.path s := by
  refine ⟨hd.catalogAgrees hx hy hb, hd.named, hpolicy, hd.bound, ?_, ?_, ?_, hd.subtree _ _⟩
  · exact fun ho => mem_of_mem_head? (Hierarchy.head?_order hbuild ho)
  · intro id hid hq
    by_cases hmem : id ∈ x.hierarchy.entries.keys
    · exact hd.place id hmem hq
    -- what is no class of another file before the edit is none after it
    · have hmem' : id ∉ y.hierarchy.entries.keys := by
        rw [Hierarchy.mem_keys_of_build hbuild', mem_keys_iff, hy, hb.get?_classes hid, ← hx,
          ← mem_keys_iff, ← Hierarchy.mem_keys_of_build hbuild]
        exact hmem
      exact samePlace_of_not_mem hmem hmem'
  · intro id below hbelow c hc hq
    have hmem := (Hierarchy.keyed_of_build hbuild).mem_keys_of_subtree? hbelow hc
    obtain ⟨decl, hdecl⟩ := mem_keys_iff.mp ((Hierarchy.mem_keys_of_build hbuild).mp hmem)
    rw [hx] at hdecl
    rcases hb.of_get?_classes hdecl with ⟨⟨d, hchanged, hclass⟩, _⟩ | ⟨hforeign, _⟩
    · exact absurd (qualnameOf_mem_keys hbuild hmem hchanged hclass _) hq
    · exact hforeign

end

/-! ## Files added -/

/-- An edit adds a file, with a module of its own, to files that have no classes and import no
module as a whole; the scopes around each of their scopes stay as they are. -/
def Edit.Adds (e : Edit) (x y : Index) : Prop :=
  (PlainPath e.path ∧ ∀ path ∈ x.catalog.files.keys, PlainPath path) ∧
    (x.calls.map (·.site)).Nodup ∧
    "" ∉ (e.change x y.hierarchy).keys ∧ e.path ∉ x.catalog.files.keys ∧
    x.hierarchy.entries.keys = [] ∧
    (∀ s ∈ x.catalog.scopes.keys, y.catalog.scopeChain s = x.catalog.scopeChain s ∧
      ∀ o ∈ x.catalog.scopeChain s, o.starImports = [] ∧
        y.catalog.hasImplicitMembers o = x.catalog.hasImplicitMembers o) ∧
    (∀ m ∈ x.catalog.moduleScopes.keys ++ y.catalog.moduleScopes.keys,
      y.catalog.moduleScopes.get? m = x.catalog.moduleScopes.get? m ∨
        x.catalog.moduleScopes.get? m = none ∧ m ∈ (e.change x y.hierarchy).keys) ∧
    ∀ s ∈ x.catalog.moduleScopes.values, s ∈ x.catalog.scopes.keys

instance (e : Edit) (x y : Index) : Decidable (e.Adds x y) :=
  inferInstanceAs (Decidable (_ ∧ _))

/-- An edit that adds a file discloses what it changes. -/
theorem Edit.Adds.discloses {e : Edit} {x y : Index} {ds es : List Digest} (h : e.Adds x y)
    (hx : x.catalog = (merge ds).1) (hy : y.catalog = (merge es).1)
    (hb : Beside e.path (e.changed x) ds es) : e.Discloses x y := by
  obtain ⟨hplain, hsites, hnamed, hnew, hclasses, hscopes, hmodules, hmodule⟩ := h
  -- there are no scopes of the file before
  have hforeign : ∀ s ∈ x.catalog.scopes.keys, ¬ Scope.OfFile e.path s := by
    intro s hs
    rw [hx] at hs hnew
    obtain ⟨scope, hscope⟩ := mem_keys_iff.mp hs
    rcases hb.of_get?_scopes hscope with ⟨hfile, _⟩ | ⟨hof, _⟩
    · exact absurd hfile hnew
    · exact hof
  have hlookup : ∀ s, ¬ Scope.OfFile e.path s → ∀ name,
      y.catalog.lookup? s name = x.catalog.lookup? s name := by
    intro s hs name
    by_cases hmem : s ∈ x.catalog.scopes.keys
    · exact Catalog.lookup?_congr (hscopes s hmem).1 (hscopes s hmem).2 name
    · rw [← OrderedMap.get?_eq_none_iff] at hmem
      have hmem' : y.catalog.scopes.get? s = none := by rw [hy, hb.get?_scopes hs, ← hx, hmem]
      rw [Catalog.lookup?_of_not_mem hmem, Catalog.lookup?_of_not_mem hmem']
  have hempty : x.hierarchy.entries.entries = [] := map_eq_nil_iff.mp hclasses
  refine ⟨hplain, hsites, hnamed, ?_, fun q hq => ?_,
    fun s hs name => .inl (hlookup s hs name), ?_, ?_⟩
  · have hsize : x.resolver.hierarchy.entries.size = 0 := by
      show x.hierarchy.entries.entries.length = 0
      rw [hempty, length_nil]
    unfold Resolver.bound
    omega
  · by_cases hmem : Dotted.init q ∈ x.catalog.moduleScopes.keys ++ y.catalog.moduleScopes.keys
    · rcases hmodules _ hmem with hsame | ⟨hnone, hlisted⟩
      · left
        unfold moduleBinding?
        rw [hsame]
        cases hs : x.catalog.moduleScopes.get? (Dotted.init q) with
        | none => exact ⟨rfl, fun b hget => by cases hget⟩
        | some s =>
          have hof := hforeign s (hmodule s (mem_values_of_get? hs))
          refine ⟨by rw [Option.map_some, Option.map_some, hlookup s hof], fun b hget => ?_⟩
          obtain ⟨⟨b', o⟩, hfound, hb'⟩ := Option.map_eq_some_iff.mp (Option.some.inj hget)
          cases hb'
          rw [hx] at hfound
          exact (hb.within_of_lookup? hof hfound).1
      · exact .inr ⟨Option.map_eq_none_iff.mpr hnone, hlisted⟩
    · rw [mem_append, not_or, ← OrderedMap.get?_eq_none_iff, ← OrderedMap.get?_eq_none_iff] at hmem
      left
      rw [moduleBinding?, moduleBinding?, hmem.1, hmem.2]
      exact ⟨rfl, fun b hget => by cases hget⟩
  · intro id hid
    rw [hclasses] at hid
    cases hid
  · intro id below hbelow
    have hnone : x.hierarchy.subtree? id = none := by
      rw [Hierarchy.subtree?, if_neg]
      rw [contains_eq_true_iff, hclasses]
      exact not_mem_nil
    cases hnone.symm.trans hbelow

/-! ## Calls taken over -/

/-- A call whose result is taken over is touched neither in its file, nor in its callee, nor in what
its trail mentions. -/
theorem untouched_of_reusable {x : Index} {change : Change} {c : PendingCall} {s : Site}
    {ws : List Diagnostic} (h : x.reusable change c = some (s, ws)) :
    c.path ∉ change.paths ∧ c.callee ∉ change.names ∧ ∀ q ∈ s.dependencies, q ∉ change.keys := by
  unfold reusable at h
  split at h
  · cases h
  · split at h
    · cases h
    · next htouched =>
      cases h
      simpa [and_assoc] using htouched

/-- A call is the last one with its id when no two calls have one id. -/
theorem lastCall?_eq_of_nodup {cs : List PendingCall} (hn : (cs.map (·.site)).Nodup)
    {c c₀ : PendingCall} (hc : c ∈ cs) (h : lastCall? cs c.site = some c₀) : c₀ = c :=
  inj_on_of_nodup_map hn (mem_of_lastCall? h) hc (site_of_lastCall? h)

section

variable {outlines : List Outline} {policy : Policy} {t₀ t₁ : Token} {m₀ m₁ : Made} {e : Edit}

/-- When an edit discloses what it changes, every call taken over keeps its meaning. -/
theorem keeps_of_discloses (h₀ : build outlines policy t₀ = .ok m₀)
    (h₁ : e.apply m₀.index t₁ = .ok m₁) (hd : e.Discloses m₀.index m₁.index) {c : PendingCall}
    (hc : c ∈ m₁.index.calls) (ht : (m₀.index.takenOver e m₁.index.hierarchy c).isSome) :
    m₀.index.Keeps m₁.index c := by
  obtain ⟨⟨s, ws⟩, ht⟩ := Option.isSome_iff_exists.mp ht
  obtain ⟨hpath, hcallee, htrail⟩ := untouched_of_reusable ht
  obtain ⟨ds, es, hx, hy, hb⟩ := exists_beside h₀ h₁ hd.plain
  obtain ⟨_, _, _, _, hm₀⟩ := exists_assembled_of_build h₀
  obtain ⟨_, _, _, hm₁, _⟩ := exists_assembled_of_apply h₀ h₁
  obtain ⟨_, hbuild⟩ := hm₀.hierarchy_eq
  obtain ⟨_, hbuild'⟩ := hm₁.hierarchy_eq
  have hagrees := hd.agrees hx hy hb (hm₁.policy_eq.trans hm₀.policy_eq.symm) hbuild hbuild'
  -- the call is in another file, and so was there before
  rw [calls, hy] at hc
  obtain ⟨d, hdigest, hcall⟩ := mem_flatMap.mp hc
  obtain ⟨hlocal, _, hchanged⟩ := hb.after d hdigest
  obtain ⟨hcpath, hcaller, hscope⟩ := hlocal.call c hcall
  have hother : d.path ≠ e.path := fun hp =>
    hpath (hcpath ▸ mem_map_of_mem (hchanged hp))
  have hc₀ : c ∈ m₀.index.calls := by
    rw [calls, hx]
    exact mem_flatMap.mpr ⟨d, hb.symm.same.mem hdigest hother, hcall⟩
  -- no other call has its id, so that it is this call which the result is of
  obtain ⟨_, c₀, hlast, hresolve⟩ := exists_lastCall_of_takenOver h₀ ht
  cases lastCall?_eq_of_nodup hd.sites hc₀ hlast
  have hresolve' := hagrees.resolve_eq (hb.symm.not_ofFile hdigest hother hcaller)
    (hb.symm.not_scope_ofFile hdigest hother hscope) hcallee hresolve htrail
  exact ⟨c, hlast, (s, ws), mem_toOption.mpr hresolve, (s, ws), mem_toOption.mpr hresolve', rfl,
    ⟨rfl, rfl, rfl, rfl, rfl⟩, fun _ => rfl⟩

end

end Xref.Index

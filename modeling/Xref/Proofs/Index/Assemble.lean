import Xref.Index.Build
import Xref.Proofs.Digest.Walk

/-!
# What an index is assembled from

Whatever checks pass while an index is made, it consists of the merged catalog, its hierarchy, and
one settled result for every call. Of the calls with one id the last counts.
-/

namespace Xref

open List
open OrderedMap (ofList get?_mapValues keys_mapValues)
open Catalog (merge)

/-! ## Lists of results -/

theorem map_eq_error {x : Except ε α} {f : α → β} {e : ε} (h : x.map f = .error e) :
    x = .error e := by
  cases x with
  | error e' =>
    cases h
    rfl
  | ok a => cases h

theorem exists_of_any {x : Except ε α} {p : α → Bool} (h : x.toOption.any p) :
    ∃ a, x = .ok a ∧ p a := by
  cases x with
  | error e => cases h
  | ok a => exact ⟨a, rfl, h⟩

variable {f : α → Except ε β} {xs : List α} {ys : List β}

theorem mapM_eq_ok_iff : xs.mapM f = .ok ys ↔ xs.map f = ys.map .ok := by
  induction xs generalizing ys with
  | nil =>
    cases ys with
    | nil => exact ⟨fun _ => rfl, fun _ => rfl⟩
    | cons y ys => exact ⟨fun h => (by cases h), fun h => (by cases h)⟩
  | cons x xs ih =>
    rw [mapM_cons]
    constructor
    · intro h
      obtain ⟨y, hy, h⟩ := bind_eq_ok h
      obtain ⟨ys', hys, h⟩ := bind_eq_ok h
      cases h
      rw [map_cons, map_cons, hy, ih.mp hys]
    · intro h
      cases ys with
      | nil => cases h
      | cons y ys =>
        rw [map_cons, map_cons, List.cons.injEq] at h
        rw [h.1, ih.mpr h.2]
        rfl

/-- Results can be chosen along with what they are results of. -/
theorem filter_map_ok {p : α → Bool} {q : β → Bool} (hpq : ∀ x y, f x = .ok y → q y = p x)
    (h : xs.map f = ys.map .ok) : (xs.filter p).map f = (ys.filter q).map .ok := by
  induction xs generalizing ys with
  | nil =>
    cases ys with
    | nil => rfl
    | cons y ys => cases h
  | cons x xs ih =>
    cases ys with
    | nil => cases h
    | cons y ys =>
      rw [map_cons, map_cons, List.cons.injEq] at h
      rw [filter_cons, filter_cons, hpq x y h.1]
      cases p x with
      | false => exact ih h.2
      | true => simp [h.1, ih h.2]

theorem exists_mapM_eq_ok (h : ∀ x ∈ xs, ∃ y, f x = .ok y) : ∃ ys, xs.mapM f = .ok ys := by
  induction xs with
  | nil => exact ⟨[], rfl⟩
  | cons x xs ih =>
    obtain ⟨y, hy⟩ := h x mem_cons_self
    obtain ⟨ys, hys⟩ := ih fun x' hx' => h x' (mem_cons_of_mem _ hx')
    exact ⟨y :: ys, by rw [mapM_cons, hy, hys]; rfl⟩

/-- Every element has a result where the results of all are listed. -/
theorem exists_of_map_eq_map_ok     (h : xs.map f = ys.map .ok) {x : α} (hx : x ∈ xs) :
    ∃ y ∈ ys, f x = .ok y := by
  have hmem : f x ∈ ys.map .ok := h ▸ mem_map_of_mem hx
  obtain ⟨y, hy, he⟩ := mem_map.mp hmem
  exact ⟨y, hy, he.symm⟩

theorem exists_of_mem_map_ok     (h : xs.map f = ys.map .ok) {y : β} (hy : y ∈ ys) :
    ∃ x ∈ xs, f x = .ok y := by
  have hmem : Except.ok y ∈ xs.map f := h ▸ mem_map_of_mem hy
  exact mem_map.mp hmem

/-- An element that has a result makes no other difference to the results than to add its own. -/
theorem mapM_insert {x : α} {y : β} (hx : f x = .ok y) (as bs : List α) :
    (∃ e, (as ++ bs).mapM f = .error e ∧ (as ++ x :: bs).mapM f = .error e) ∨
      ∃ ys zs, (as ++ bs).mapM f = .ok (ys ++ zs) ∧
        (as ++ x :: bs).mapM f = .ok (ys ++ y :: zs) := by
  rw [mapM_append, mapM_append, mapM_cons, hx]
  cases as.mapM f with
  | error e => exact .inl ⟨e, rfl, rfl⟩
  | ok ys =>
    cases bs.mapM f with
    | error e => exact .inl ⟨e, rfl, rfl⟩
    | ok zs => exact .inr ⟨ys, zs, rfl, rfl⟩

namespace Token

theorem mapM_of_eachFile {f : α → Except Fault β} {total done : Nat} {token token' : Token}
    {xs : List α} {ys : List β} (h : eachFile f total done token xs = .ok (ys, token')) :
    xs.mapM f = .ok ys := by
  induction xs generalizing ys done token with
  | nil =>
    cases h
    rfl
  | cons x xs ih =>
    rw [eachFile] at h
    obtain ⟨_, _, h⟩ := bind_eq_ok h
    obtain ⟨y, hy, h⟩ := bind_eq_ok h
    obtain ⟨⟨ys', _⟩, hys, h⟩ := bind_eq_ok h
    cases h
    rw [mapM_cons, hy, ih hys]
    rfl

/-- Without a token, files are handled one by one and nothing else happens. -/
theorem eachFile_none_eq (f : α → Except Fault β) (total done : Nat) (xs : List α) :
    eachFile f total done none xs = (xs.mapM f).map fun ys => (ys, none) := by
  induction xs generalizing done with
  | nil => rfl
  | cons x xs ih =>
    rw [eachFile, mapM_cons]
    cases f x with
    | error e => rfl
    | ok y =>
      show eachFile f total (done + 1) none xs >>= _ = (xs.mapM f >>= _).map _
      rw [ih]
      cases xs.mapM f <;> rfl

theorem eachFile_none {f : α → Except Fault β} {total done : Nat} {xs : List α} {ys : List β}
    (h : xs.mapM f = .ok ys) : eachFile f total done none xs = .ok (ys, none) := by
  rw [eachFile_none_eq, h]
  rfl

end Token

namespace Index

/-! ## Calls -/

/-- What the calls of an index are resolved against. -/
def resolver (x : Index) : Resolver :=
  ⟨x.catalog, x.hierarchy, x.policy⟩

/-- The calls of all files, in order. -/
def calls (x : Index) : List PendingCall :=
  x.catalog.files.values.flatMap (·.calls)

def lastCall? (cs : List PendingCall) (id : SiteId) : Option PendingCall :=
  (cs.filter fun c => c.site = id).getLast?

variable {cs : List PendingCall} {c : PendingCall} {r : Resolver} {digests : List Digest}
  {policy : Policy} {generation : Nat} {reuse : Hierarchy → Reuse}

theorem site_of_lastCall? {id : SiteId} (h : lastCall? cs id = some c) : c.site = id := by
  simpa using (mem_filter.mp (mem_of_getLast? h)).2

theorem mem_of_lastCall? {id : SiteId} (h : lastCall? cs id = some c) : c ∈ cs :=
  (mem_filter.mp (mem_of_getLast? h)).1

/-- Results that keep the ids of their calls: under an id stands the result of the last call with
it. -/
theorem get?_ofList_settled {f : PendingCall → Except Fault Settled} {settled : List Settled}
    (h : cs.map f = settled.map .ok) (hid : ∀ c s, f c = .ok s → s.site.id = c.site) (id : SiteId) :
    (ofList (settled.map fun s => (s.site.id, s))).get? id =
      (lastCall? cs id).bind fun c => (f c).toOption := by
  -- calls and results with the id are chosen alike, so the last ones belong together
  have hfilter : (cs.filter fun c => c.site = id).map f =
      (settled.filter fun s => s.site.id = id).map .ok :=
    filter_map_ok (fun c s hc => by rw [hid c s hc]) h
  have hpairs : (settled.map fun s => (s.site.id, s)).filter (fun e => e.1 = id) =
      (settled.filter fun s => s.site.id = id).map fun s => (s.site.id, s) := by
    rw [filter_map]
    rfl
  have hlast : ((cs.filter fun c => c.site = id).getLast?).map f =
      ((settled.filter fun s => s.site.id = id).getLast?).map .ok := by
    rw [← List.getLast?_map, ← List.getLast?_map, hfilter]
  rw [OrderedMap.get?_ofList_eq_getLast?, hpairs, List.getLast?_map, Option.map_map, lastCall?]
  cases hs : (settled.filter fun s => s.site.id = id).getLast? with
  | none =>
    rw [hs] at hlast
    cases hc : (cs.filter fun c => c.site = id).getLast? with
    | none => rfl
    | some c => simp [hc] at hlast
  | some s =>
    rw [hs] at hlast
    cases hc : (cs.filter fun c => c.site = id).getLast? with
    | none => simp [hc] at hlast
    | some c =>
      rw [hc] at hlast
      have hfc : f c = .ok s := by simpa using hlast
      simp [hfc, Except.toOption]

/-! ## Assembled indexes -/

/-- The references of all files, in order. -/
def pendingReferences (x : Index) : List PendingReference :=
  x.catalog.files.values.flatMap (·.references)

/-- How an index consists of the merged digests and of settled calls. -/
structure Assembled (digests : List Digest) (policy : Policy) (reuse : Hierarchy → Reuse) (m : Made)
    (settled : List Settled) : Prop where
  catalog_eq : m.index.catalog = (merge digests).1
  policy_eq : m.index.policy = policy
  hierarchy_eq : ∃ faults, Hierarchy.build m.index.catalog = .ok (m.index.hierarchy, faults)
  calls_eq : m.index.calls.map (settle m.index.resolver (reuse m.index.hierarchy)) = settled.map .ok
  references_eq : m.index.pendingReferences.map m.index.view.reference = m.index.references.map .ok
  sites_eq : m.index.sites =
    (ofList (settled.map fun s => (s.site.id, s))).mapValues fun _ s => s.site
  warnings_eq : m.index.warnings =
    (ofList (settled.map fun s => (s.site.id, s))).mapValues fun _ s => s.warnings
  mem_reused_iff : ∀ id, id ∈ m.reused ↔
    ∃ s, (ofList (settled.map fun s => (s.site.id, s))).get? id = some s ∧ s.isReused

/-- The calls and references of files that are settled, from the results file by file. -/
theorem settled_of_results {reuse : Reuse} {files : List Digest} {results : List FileResult}
    (h : files.mapM (resolveFile r reuse) = .ok results) :
    (files.flatMap (·.calls)).map (settle r reuse) = (results.flatMap (·.calls)).map .ok ∧
      (files.flatMap (·.references)).map r.view.reference =
        (results.flatMap (·.references)).map .ok := by
  induction files generalizing results with
  | nil =>
    cases h
    exact ⟨rfl, rfl⟩
  | cons d ds ih =>
    rw [mapM_cons] at h
    obtain ⟨result, hd, h⟩ := bind_eq_ok h
    obtain ⟨rest, hds, h⟩ := bind_eq_ok h
    cases h
    obtain ⟨hcalls, hrefs⟩ := ih hds
    obtain ⟨calls, hc, hd⟩ := bind_eq_ok hd
    obtain ⟨references, hr, hd⟩ := bind_eq_ok hd
    cases hd
    constructor
    · rw [flatMap_cons, flatMap_cons, map_append, map_append, hcalls, mapM_eq_ok_iff.mp hc]
    · rw [flatMap_cons, flatMap_cons, map_append, map_append, hrefs, mapM_eq_ok_iff.mp hr]

/-- Whatever the token, an index is made of the hierarchy and the results for all files. -/
theorem exists_of_assemble     {token : Token} {m : Made}
    (h : assemble digests policy generation token reuse = .ok m) :
    ∃ built results, Hierarchy.build (merge digests).1 = .ok built ∧
      (merge digests).1.files.values.mapM
        (resolveFile ⟨(merge digests).1, built.1, policy⟩ (reuse built.1)) = .ok results ∧
      m = made (merge digests) built policy generation results := by
  obtain ⟨_, _, h⟩ := bind_eq_ok h
  obtain ⟨built, hb, h⟩ := bind_eq_ok h
  obtain ⟨⟨results, _⟩, hfiles, h⟩ := bind_eq_ok h
  cases h
  exact ⟨built, results, hb, Token.mapM_of_eachFile hfiles, rfl⟩

/-- Without a token, an index is made where the hierarchy can be built and all files have
results. -/
theorem assemble_none_eq (ds : List Digest) (policy : Policy) (generation : Nat)
    (reuse : Hierarchy → Reuse) :
    assemble ds policy generation none reuse = Hierarchy.build (merge ds).1 >>= fun built =>
      ((merge ds).1.files.values.mapM
        (resolveFile ⟨(merge ds).1, built.1, policy⟩ (reuse built.1))).map
        (made (merge ds) built policy generation) := by
  unfold assemble
  refine congrArg (Hierarchy.build (merge ds).1 >>= ·) (funext fun built => ?_)
  dsimp only
  rw [Token.eachFile_none_eq]
  cases (merge ds).1.files.values.mapM
    (resolveFile ⟨(merge ds).1, built.1, policy⟩ (reuse built.1)) <;> rfl

theorem exists_assembled {token : Token} {m : Made}
    (h : assemble digests policy generation token reuse = .ok m) :
    m.index.generation = generation ∧ ∃ settled, Assembled digests policy reuse m settled := by
  obtain ⟨⟨_, faults⟩, results, hb, hresults, rfl⟩ := exists_of_assemble h
  obtain ⟨hcalls, hrefs⟩ := settled_of_results hresults
  refine ⟨rfl, _, rfl, rfl, ⟨faults, hb⟩, hcalls, hrefs, rfl, rfl, fun id => ?_⟩
  simp only [made, mem_sortOn, mem_map, mem_filter, OrderedMap.get?_eq_some_iff]
  constructor
  · rintro ⟨⟨id', s⟩, ⟨hentry, hreused⟩, rfl⟩
    exact ⟨s, hentry, hreused⟩
  · rintro ⟨s, hentry, hreused⟩
    exact ⟨(id, s), ⟨hentry, hreused⟩, rfl⟩

/-- An index can be made when its hierarchy can be built and every call and reference is settled. -/
theorem exists_assemble     {h : Hierarchy} {faults : List Diagnostic}
    (hb : Hierarchy.build (merge digests).1 = .ok (h, faults))
    (hcalls : ∀ c ∈ (merge digests).1.files.values.flatMap (·.calls),
      ∃ s, settle ⟨(merge digests).1, h, policy⟩ (reuse h) c = .ok s)
    (hrefs : ∀ p ∈ (merge digests).1.files.values.flatMap (·.references),
      ∃ q, View.reference ⟨(merge digests).1, some h⟩ p = .ok q) :
    ∃ m, assemble digests policy generation none reuse = .ok m := by
  have hfile : ∀ d ∈ (merge digests).1.files.values,
      ∃ result, resolveFile ⟨(merge digests).1, h, policy⟩ (reuse h) d = .ok result := by
    intro d hd
    obtain ⟨calls, hc⟩ := exists_mapM_eq_ok fun c hc => hcalls c (mem_flatMap.mpr ⟨d, hd, hc⟩)
    obtain ⟨references, hr⟩ := exists_mapM_eq_ok fun p hp => hrefs p (mem_flatMap.mpr ⟨d, hd, hp⟩)
    refine ⟨⟨calls, references⟩, ?_⟩
    rw [resolveFile, hc]
    show d.references.mapM (View.reference ⟨(merge digests).1, some h⟩) >>= _ = _
    rw [hr]
    rfl
  obtain ⟨results, hresults⟩ := exists_mapM_eq_ok hfile
  refine ⟨made (merge digests) (h, faults) policy generation results, ?_⟩
  rw [assemble_none_eq, hb]
  exact congrArg (Except.map _) hresults

/-! ## Settled calls under their ids -/

theorem fields_of_resolve {site : Site} {ws : List Diagnostic} (h : r.resolve c = .ok (site, ws)) :
    site.id = c.site ∧ site.caller = c.caller ∧ site.location = c.location ∧ site.order = c.order ∧
      site.callee = c.callee ∧ site.receiver = c.receiver ∧ site.argCount = c.argCount ∧
      site.isSuspended = c.isSuspended := by
  unfold Resolver.resolve at h
  obtain ⟨⟨⟨kind, outcome, definitions⟩, trail⟩, _, h⟩ := bind_eq_ok h
  cases h
  exact ⟨rfl, rfl, rfl, rfl, rfl, rfl, rfl, rfl⟩

/-- What is taken over for a call stands under the id of the call. -/
def Reuse.Keyed (reuse : Reuse) : Prop :=
  ∀ c site ws, reuse c = some (site, ws) → site.id = c.site

theorem id_of_settle {reuse : Reuse} (hk : reuse.Keyed) {s : Settled}
    (h : settle r reuse c = .ok s) : s.site.id = c.site := by
  unfold settle at h
  split at h
  · next site ws hreuse =>
    cases h
    exact hk c site ws hreuse
  · obtain ⟨⟨site, ws⟩, hr, rfl⟩ := map_eq_ok h
    exact (fields_of_resolve hr).1

namespace Assembled

variable {digests : List Digest} {policy : Policy} {reuse : Hierarchy → Reuse} {m : Made}
  {settled : List Settled}

variable (h : Assembled digests policy reuse m settled)
include h

theorem references_ok {p : PendingReference}
    (hp : p ∈ m.index.pendingReferences) : ∃ q, m.index.view.reference p = .ok q := by
  obtain ⟨q, _, hq⟩ := exists_of_map_eq_map_ok h.references_eq hp
  exact ⟨q, hq⟩

variable (hk : (reuse m.index.hierarchy).Keyed)
include hk

theorem get?_sites (id : SiteId) :
    m.index.sites.get? id = (lastCall? m.index.calls id).bind fun c =>
      (settle m.index.resolver (reuse m.index.hierarchy) c).toOption.map (·.site) := by
  rw [h.sites_eq, get?_mapValues,
    get?_ofList_settled h.calls_eq (fun _ _ => id_of_settle hk) id, Option.map_bind]
  rfl

theorem get?_warnings (id : SiteId) :
    m.index.warnings.get? id = (lastCall? m.index.calls id).bind fun c =>
      (settle m.index.resolver (reuse m.index.hierarchy) c).toOption.map (·.warnings) := by
  rw [h.warnings_eq, get?_mapValues,
    get?_ofList_settled h.calls_eq (fun _ _ => id_of_settle hk) id, Option.map_bind]
  rfl

/-- The ids of the call sites come in the order of the calls. -/
theorem keys_sites :
    m.index.sites.keys = (ofList (m.index.calls.map fun c => (c.site, ()))).keys := by
  have hids : ∀ (cs : List PendingCall) (ss : List Settled),
      cs.map (settle m.index.resolver (reuse m.index.hierarchy)) = ss.map .ok →
      ss.map (fun s => s.site.id) = cs.map (·.site) := by
    intro cs
    induction cs with
    | nil =>
      intro ss hss
      cases ss with
      | nil => rfl
      | cons s ss => cases hss
    | cons c cs ih =>
      intro ss hss
      cases ss with
      | nil => cases hss
      | cons s ss =>
        rw [map_cons, map_cons, List.cons.injEq] at hss
        rw [map_cons, map_cons, id_of_settle hk hss.1, ih ss hss.2]
  have hkeys := keys_mapValues
    (ofList (settled.map fun s => (s.site.id, s))) fun _ _ => ()
  rw [OrderedMap.mapValues_ofList, map_map] at hkeys
  rw [h.sites_eq, keys_mapValues, ← hkeys]
  have hpairs := congrArg (List.map fun id => (id, ())) (hids _ _ h.calls_eq)
  rw [map_map, map_map] at hpairs
  exact congrArg (fun es => (ofList es).keys) hpairs

theorem keyedSites {id : SiteId} {s : Site} (hs : m.index.sites.get? id = some s) : s.id = id := by
  rw [h.get?_sites hk] at hs
  obtain ⟨c, hc, hs⟩ := Option.bind_eq_some_iff.mp hs
  cases hsettle : settle m.index.resolver (reuse m.index.hierarchy) c with
  | error e =>
    rw [hsettle] at hs
    cases hs
  | ok settled =>
    rw [hsettle] at hs
    cases hs
    rw [id_of_settle hk hsettle, site_of_lastCall? hc]

end Assembled

end Index

end Xref

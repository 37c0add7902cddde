import Xref.Proofs.Catalog.Merge
import Xref.Proofs.Index.Assemble
import Xref.Proofs.Index.Saved
import Xref.Proofs.Unversioned

/-!
# Changing one file

An index with one file changed takes over the result of an earlier call when the change touches
neither its file, nor its callee, nor what its trail mentions. Everything else is computed anew, so
that the new index is saved as a fresh one is exactly when every call taken over still resolves to
what it did.
-/

namespace Xref.Index

open List OrderedMap
open Digest (ofOutline unversioned)
open Catalog (filesOf merge flatMap_files_congr)

/-! ## Edits -/

/-- A change of one file of an index. -/
inductive Edit
  /-- The file of an outline is added or replaced. -/
  | update (o : Outline)
  /-- The file with a path is removed. -/
  | remove (path : String)

namespace Edit

def apply (x : Index) (token : Token) : Edit → Except Fault Made
  | update o => x.update o token
  | remove path => x.remove path token

def path : Edit → String
  | update o => o.knownPath
  | remove path => path

/-- What is put in the place of the file. -/
def added : Edit → List Outline
  | update o => [o]
  | remove _ => []

theorem path_of_mem_added {e : Edit} {o : Outline} (h : o ∈ e.added) : o.knownPath = e.path := by
  cases e with
  | update o' => rw [mem_singleton.mp h]; rfl
  | remove path => cases h

def files (e : Edit) (outlines : List Outline) : List Outline :=
  outlines.filter (fun o => o.knownPath ≠ e.path) ++ e.added

/-- The digests of the file before and after the change. -/
def changed (e : Edit) (x : Index) : List Digest :=
  (x.catalog.files.get? e.path).toList ++
    e.added.filterMap fun o => (ofOutline o (x.generation + 1)).toOption

/-- What the change touches, given the hierarchy after it. -/
def change (e : Edit) (x : Index) (h : Hierarchy) : Change :=
  changeOf x.hierarchy h (e.changed x)

end Edit

/-- The result that an index with a hierarchy takes over for a call, once the file is changed. -/
def takenOver (x : Index) (e : Edit) (h : Hierarchy) : Reuse :=
  x.reusable (e.change x h)

variable {m : Made} {policy : Policy} {digests : List Digest} {c : PendingCall}
  {ws : List Diagnostic}

/-- A changed index is assembled from the other files and the new digest. -/
theorem exists_assemble_of_apply {x : Index} {e : Edit} {token : Token}
    (h : e.apply x token = .ok m) :
    ∃ new, e.added.map (ofOutline · (x.generation + 1)) = new.map .ok ∧
      x.catalog.files.values.filter (fun d => d.path ≠ e.path) ++ new ≠ [] ∧
      assemble (x.catalog.files.values.filter (fun d => d.path ≠ e.path) ++ new) x.policy
        (x.generation + 1) token (x.takenOver e) = .ok m := by
  cases e with
  | update o =>
    obtain ⟨d, hd, h⟩ := bind_eq_ok h
    have hpath : d.path = o.knownPath := Digest.path_ofOutline hd
    refine ⟨[d], by simp [Edit.added, hd], by simp, ?_⟩
    have hchanged : (Edit.update o).changed x = (x.catalog.files.get? d.path).toList ++ [d] := by
      simp [Edit.changed, Edit.added, Edit.path, hd, hpath, Except.toOption]
    unfold takenOver Edit.change
    rw [hchanged]
    show assemble (x.catalog.files.values.filter (fun d => d.path ≠ o.knownPath) ++ [d]) _ _ _ _ = _
    rw [← hpath]
    exact h
  | remove path =>
    have h : x.remove path token = .ok m := h
    unfold remove at h
    split at h
    · cases h
    · next removed hremoved =>
      dsimp only at h
      split at h
      · cases h
      · next hothers =>
        have hchanged : (Edit.remove path).changed x = [removed] := by
          simp [Edit.changed, Edit.added, Edit.path, hremoved]
        refine ⟨[], rfl, ?_, ?_⟩
        · rw [append_nil]
          exact fun hnil => hothers (List.isEmpty_iff.mpr hnil)
        · unfold takenOver Edit.change
          rw [hchanged, append_nil]
          exact h

/-! ## The catalog after a change -/

/-- A fresh index is assembled from the digests of its files. -/
theorem exists_assembled_of_build {outlines : List Outline} {token : Token}
    (h : build outlines policy token = .ok m) :
    m.index.generation = 1 ∧ ∃ digests settled, outlines.map (ofOutline · 1) = digests.map .ok ∧
      Assembled digests policy (fun _ _ => none) m settled := by
  unfold build at h
  dsimp only at h
  split at h
  · cases h
  obtain ⟨⟨digests, token'⟩, hdigests, h⟩ := bind_eq_ok h
  obtain ⟨hgeneration, settled, hassembled⟩ := exists_assembled h
  exact ⟨hgeneration, digests, settled, mapM_eq_ok_iff.mp (Token.mapM_of_eachFile hdigests),
    hassembled⟩

theorem merge_congr {ds es : List Digest} (h : filesOf ds = filesOf es) : merge ds = merge es := by
  unfold Catalog.merge
  rw [h]

/-- The digests of some outlines for two versions are the same but for the versions. -/
theorem exists_digests_unversioned {os : List Outline} {version : Int} (version' : Int)
    {ds : List Digest} (h : os.map (ofOutline · version) = ds.map .ok) :
    ∃ es : List Digest, os.map (ofOutline · version') = es.map .ok ∧
      es.map unversioned = ds.map unversioned := by
  induction os generalizing ds with
  | nil =>
    cases ds with
    | nil => exact ⟨[], rfl, rfl⟩
    | cons d ds => cases h
  | cons o os ih =>
    cases ds with
    | nil => cases h
    | cons d ds =>
      rw [map_cons, map_cons, List.cons.injEq] at h
      obtain ⟨es, hes, heq⟩ := ih h.2
      have hboth : (ofOutline o version').map unversioned = .ok d.unversioned := by
        rw [← Digest.ofOutline_unversioned, Digest.ofOutline_unversioned o version, h.1]
        rfl
      obtain ⟨d', hd', hu⟩ := map_eq_ok hboth
      exact ⟨d' :: es, by rw [map_cons, map_cons, hd', hes], by rw [map_cons, map_cons, hu, heq]⟩

/-- The files after a change can be digested, and merge to the catalog of the changed index but for
versions. -/
theorem exists_fresh_digests {outlines : List Outline} {new : List Digest} {e : Edit}
    {version : Int} (hd : outlines.map (ofOutline · 1) = digests.map .ok)
    (hn : e.added.map (ofOutline · version) = new.map .ok)
    (hne : (merge digests).1.files.values.filter (fun d => d.path ≠ e.path) ++ new ≠ []) :
    ∃ ds, e.files outlines ≠ [] ∧ (e.files outlines).map (ofOutline · 1) = ds.map .ok ∧
      (merge ds).1.unversioned =
        (merge ((merge digests).1.files.values.filter (fun d => d.path ≠ e.path) ++
          new)).1.unversioned := by
  obtain ⟨new', hn', hu⟩ := exists_digests_unversioned 1 hn
  have hkept : (outlines.filter fun o => o.knownPath ≠ e.path).map (ofOutline · 1) =
      (digests.filter fun d => d.path ≠ e.path).map .ok :=
    filter_map_ok (fun o d ho => by rw [Digest.path_ofOutline ho]) hd
  refine ⟨digests.filter (fun d => d.path ≠ e.path) ++ new', ?_, ?_, ?_⟩
  · -- with no file left the changed index could not have been made
    intro hnil
    obtain ⟨hkept', hadded⟩ := append_eq_nil_iff.mp hnil
    rw [hkept', map_nil] at hkept
    rw [hadded, map_nil] at hn
    refine hne (append_eq_nil_iff.mpr ⟨?_, map_eq_nil_iff.mp hn.symm⟩)
    have hnone := filter_eq_nil_iff.mp (map_eq_nil_iff.mp hkept.symm)
    exact filter_eq_nil_iff.mpr fun d hd => hnone d (Catalog.mem_of_mem_filesOf hd)
  · rw [Edit.files, map_append, map_append, hkept, hn']
  · have hfiles : (merge digests).1.files = filesOf digests := rfl
    have hmerge := merge_congr (Catalog.filesOf_filter_values_append digests new e.path)
    have hunversioned := fun ds => congrArg Prod.fst (Catalog.merge_unversioned ds)
    rw [hfiles, hmerge]
    dsimp only at hunversioned
    rw [← hunversioned, ← hunversioned, map_append, map_append, hu]

/-! ## Calls taken over -/

/-- The calls have the same targets and are told of in the same words. -/
def SameOutcome (s t : Site) : Prop :=
  s.targets = t.targets ∧ s.confidence = t.confidence ∧ s.dispatch = t.dispatch ∧
    s.receiverKind = t.receiverKind ∧ s.decorators = t.decorators

/-- What is saved of a call whatever it resolves to. -/
def savedCall (c : PendingCall) : PendingCall :=
  { c with scope := "", path := "" }

/-- What is saved of a resolved call consists of the call and its outcome. -/
theorem saved_eq_iff {r r' : Resolver} {c' : PendingCall} {s s' : Site} {ws' : List Diagnostic}
    (h : r.resolve c = .ok (s, ws)) (h' : r'.resolve c' = .ok (s', ws')) :
    s.saved = s'.saved ↔ SameOutcome s s' ∧ savedCall c = savedCall c' := by
  obtain ⟨hid, hcaller, hlocation, horder, hcallee, hreceiver, hargs, hsuspended⟩ :=
    fields_of_resolve h
  obtain ⟨hid', hcaller', hlocation', horder', hcallee', hreceiver', hargs', hsuspended'⟩ :=
    fields_of_resolve h'
  simp only [Site.saved, SameOutcome, savedCall, Site.mk.injEq, PendingCall.mk.injEq, ← hid,
    ← hcaller,
    ← hlocation, ← horder, ← hcallee, ← hreceiver, ← hargs, ← hsuspended, ← hid', ← hcaller',
    ← hlocation', ← horder', ← hcallee', ← hreceiver', ← hargs', ← hsuspended']
  constructor
  · rintro ⟨h₁, h₂, -, h₃, h₄, h₅, h₆, h₇, h₈, h₉, h₁₀, h₁₁, h₁₂, h₁₃, -⟩
    exact ⟨⟨h₉, h₁₀, h₁₁, h₇, h₁₃⟩, h₁, h₂, trivial, trivial, h₃, h₄, h₅, h₆, h₈, h₁₂⟩
  · rintro ⟨⟨h₉, h₁₀, h₁₁, h₇, h₁₃⟩, h₁, h₂, -, -, h₃, h₄, h₅, h₆, h₈, h₁₂⟩
    exact ⟨h₁, h₂, trivial, h₃, h₄, h₅, h₆, h₇, h₈, h₉, h₁₀, h₁₁, h₁₂, h₁₃, trivial⟩

theorem keyed_none : Reuse.Keyed fun _ => none :=
  fun _ _ _ h => by cases h

/-- In a fresh index the site under an id is what the last call with it resolves to. -/
theorem get?_sites_fresh {settled : List Settled}
    (h : Assembled digests policy (fun _ _ => none) m settled) (id : SiteId) (s : Site)
    (ws : List Diagnostic) :
    (m.index.sites.get? id = some s ∧ m.index.warningsFor id = ws) ↔
      ∃ c, lastCall? m.index.calls id = some c ∧ m.index.resolver.resolve c = .ok (s, ws) := by
  rw [warningsFor, h.get?_sites keyed_none, h.get?_warnings keyed_none]
  cases lastCall? m.index.calls id with
  | none => simp
  | some c =>
    show (((m.index.resolver.resolve c).map _).toOption.map _ = some s ∧
      (((m.index.resolver.resolve c).map _).toOption.map _).getD [] = ws) ↔ _
    cases hresolve : m.index.resolver.resolve c with
    | error fault => simp [hresolve, Except.map, Except.toOption]
    | ok found =>
      obtain ⟨s', ws'⟩ := found
      simp [hresolve, Except.map, Except.toOption]

/-- What an index takes over is the site under the id of a call, and its warnings. -/
theorem get?_sites_of_reusable {x : Index} {change : Change} {s : Site}
    (h : x.reusable change c = some (s, ws)) :
    x.sites.get? c.site = some s ∧ ws = x.warningsFor s.id := by
  unfold reusable at h
  split at h
  · cases h
  · next s' hs =>
    split at h
    · cases h
    · cases h
      exact ⟨hs, rfl⟩

/-- The calls of a changed index that are not taken over resolve. -/
theorem exists_resolve_of_not_taken {reuse : Hierarchy → Reuse} {settled : List Settled}
    (h : Assembled digests policy reuse m settled) (hc : c ∈ m.index.calls)
    (hr : reuse m.index.hierarchy c = none) : ∃ found, m.index.resolver.resolve c = .ok found := by
  obtain ⟨s, _, hs⟩ := exists_of_map_eq_map_ok h.calls_eq hc
  rw [settle, hr] at hs
  obtain ⟨found, hfound, _⟩ := map_eq_ok hs
  exact ⟨found, hfound⟩

/-- A call of a changed index resolves as the call resolved that stood last under its id before;
where it stands last itself, it is also the same call. -/
def Keeps (x y : Index) (c : PendingCall) : Prop :=
  ∃ c₀ ∈ lastCall? x.calls c.site, ∃ found₀ ∈ (x.resolver.resolve c₀).toOption,
    ∃ found ∈ (y.resolver.resolve c).toOption,
      found₀.2 = found.2 ∧ SameOutcome found₀.1 found.1 ∧
        (lastCall? y.calls c.site = some c → savedCall c₀ = savedCall c)

instance (s t : Site) : Decidable (SameOutcome s t) :=
  inferInstanceAs (Decidable (_ ∧ _))

instance (x y : Index) (c : PendingCall) : Decidable (x.Keeps y c) :=
  inferInstanceAs (Decidable (∃ c₀ ∈ lastCall? x.calls c.site, _))

theorem mem_toOption {x : Except ε α} {a : α} : a ∈ x.toOption ↔ x = .ok a := by
  cases x <;> simp [Except.toOption]

/-- For what a call resolved to before, it resolves to the same now. -/
theorem Keeps.exists_resolve {x y : Index} {c₀ : PendingCall} {s₀ : Site} (h : x.Keeps y c)
    (hc₀ : lastCall? x.calls c.site = some c₀) (hs₀ : x.resolver.resolve c₀ = .ok (s₀, ws)) :
    ∃ s, y.resolver.resolve c = .ok (s, ws) ∧ SameOutcome s₀ s ∧
      (lastCall? y.calls c.site = some c → savedCall c₀ = savedCall c) := by
  obtain ⟨c₁, hc₁, found₀, hfound₀, ⟨s, ws'⟩, hfound, hws, hsame, hlast⟩ := h
  cases hc₀.symm.trans hc₁
  cases hs₀.symm.trans (mem_toOption.mp hfound₀)
  cases hws
  exact ⟨s, mem_toOption.mp hfound, hsame, hlast⟩

/-! ## The index of the new files -/

section

variable {outlines : List Outline} {policy : Policy} {t₀ t₁ t₂ : Token} {m₀ m₁ m₂ : Made} {e : Edit}

section

variable (h₀ : build outlines policy t₀ = .ok m₀)
include h₀

variable (h₁ : e.apply m₀.index t₁ = .ok m₁)
include h₁

/-- A changed index is assembled from files that merge to the catalog of the new files, but for
versions. -/
theorem exists_assembled_of_apply :
    ∃ digests settled fresh, Assembled digests policy (m₀.index.takenOver e) m₁ settled ∧
      e.files outlines ≠ [] ∧ (e.files outlines).map (ofOutline · 1) = fresh.map .ok ∧
      (merge fresh).1.unversioned = (merge digests).1.unversioned := by
  obtain ⟨_, digests, _, hdigests, hm₀⟩ := exists_assembled_of_build h₀
  obtain ⟨new, hnew, hne, h₁⟩ := exists_assemble_of_apply h₁
  rw [hm₀.catalog_eq] at hne
  rw [hm₀.catalog_eq, hm₀.policy_eq] at h₁
  obtain ⟨_, settled, hm₁⟩ := exists_assembled h₁
  obtain ⟨fresh, hfiles, hfresh, hmerge⟩ := exists_fresh_digests hdigests hnew hne
  exact ⟨_, settled, fresh, hm₁, hfiles, hfresh, hmerge⟩

/-- The changed index and the index of the new files have the same catalog but for versions, the
same hierarchy, and the same policy. -/
theorem alike_of_apply (h₂ : build (e.files outlines) policy t₂ = .ok m₂) :
    m₁.index.resolver.unversioned = m₂.index.resolver.unversioned := by
  obtain ⟨_, _, fresh, hm₁, _, hfresh, hmerge⟩ := exists_assembled_of_apply h₀ h₁
  obtain ⟨_, fresh', _, hfresh', hm₂⟩ := exists_assembled_of_build h₂
  -- both list what the digests of the new files are
  have hsame : fresh' = fresh :=
    (List.map_inj_right fun a b hab => by injection hab).mp (hfresh'.symm.trans hfresh)
  rw [hsame] at hm₂
  have hcatalog : m₁.index.catalog.unversioned = m₂.index.catalog.unversioned := by
    rw [hm₁.catalog_eq, hm₂.catalog_eq, hmerge]
  obtain ⟨_, hb₁⟩ := hm₁.hierarchy_eq
  obtain ⟨_, hb₂⟩ := hm₂.hierarchy_eq
  rw [← Hierarchy.build_unversioned, hcatalog, Hierarchy.build_unversioned, hb₂] at hb₁
  injection hb₁ with hb
  injection hb with hb _
  simp only [Resolver.unversioned, resolver, hcatalog, hb, hm₁.policy_eq, hm₂.policy_eq]

/-- The index of the new files can be made when every call resolves. -/
theorem exists_build_of_apply
    (h : ∀ c ∈ m₁.index.calls, ∃ found, m₁.index.resolver.resolve c = .ok found) :
    ∃ m₂, build (e.files outlines) policy none = .ok m₂ := by
  obtain ⟨digests, _, fresh, hm₁, hfiles, hfresh, hmerge⟩ := exists_assembled_of_apply h₀ h₁
  obtain ⟨faults, hb⟩ := hm₁.hierarchy_eq
  rw [← hm₁.catalog_eq] at hmerge
  rw [← Hierarchy.build_unversioned, ← hmerge, Hierarchy.build_unversioned] at hb
  have halike : (Resolver.mk (merge fresh).1 m₁.index.hierarchy policy).unversioned =
      m₁.index.resolver.unversioned := by
    simp only [Resolver.unversioned, resolver, hmerge, hm₁.policy_eq]
  have hcalls : ∀ c ∈ (merge fresh).1.files.values.flatMap (·.calls),
      ∃ s, settle ⟨(merge fresh).1, m₁.index.hierarchy, policy⟩ (fun _ => none) c = .ok s := by
    intro c hc
    rw [flatMap_files_congr hmerge _ fun _ => rfl] at hc
    obtain ⟨found, hfound⟩ := h c hc
    rw [← Resolver.resolve_congr halike] at hfound
    exact ⟨_, by rw [settle, hfound]; rfl⟩
  have hreferences : ∀ p ∈ (merge fresh).1.files.values.flatMap (·.references),
      ∃ q, View.reference ⟨(merge fresh).1, some m₁.index.hierarchy⟩ p = .ok q := by
    intro p hp
    rw [flatMap_files_congr hmerge _ fun _ => rfl] at hp
    obtain ⟨q, hq⟩ := hm₁.references_ok hp
    exact ⟨q, (congrFun (Resolver.reference_congr halike) p).trans hq⟩
  have hassemble : ∃ m₂, assemble fresh policy 1 none (fun _ _ => none) = .ok m₂ :=
    exists_assemble hb hcalls hreferences
  obtain ⟨m₂, hm₂⟩ := hassemble
  refine ⟨m₂, ?_⟩
  have hnonempty : (e.files outlines).isEmpty = false := by
    rw [← Bool.not_eq_true, List.isEmpty_iff]
    exact hfiles
  unfold build
  rw [hnonempty, Token.eachFile_none (mapM_eq_ok_iff.mpr hfresh)]
  exact hm₂

end

variable {c : PendingCall} {s : Site} {ws : List Diagnostic}

variable (h₀ : build outlines policy t₀ = .ok m₀)
include h₀

/-- What is taken over for a call is what the call resolved to that stood last under its id. -/
theorem exists_lastCall_of_takenOver {h : Hierarchy}
    (ht : m₀.index.takenOver e h c = some (s, ws)) :
    s.id = c.site ∧ ∃ c₀, lastCall? m₀.index.calls c.site = some c₀ ∧
      m₀.index.resolver.resolve c₀ = .ok (s, ws) := by
  obtain ⟨_, _, _, _, hm₀⟩ := exists_assembled_of_build h₀
  obtain ⟨hs, hws⟩ := get?_sites_of_reusable ht
  have hid : s.id = c.site := hm₀.keyedSites keyed_none hs
  rw [hid] at hws
  exact ⟨hid, (get?_sites_fresh hm₀ c.site s ws).mp ⟨hs, hws.symm⟩⟩

theorem keyed_takenOver (h : Hierarchy) : (m₀.index.takenOver e h).Keyed :=
  fun _ _ _ ht => (exists_lastCall_of_takenOver h₀ ht).1

theorem calls_eq_of_apply (h₁ : e.apply m₀.index t₁ = .ok m₁)
    (h₂ : build (e.files outlines) policy t₂ = .ok m₂) : m₁.index.calls = m₂.index.calls :=
  flatMap_files_congr (congrArg Resolver.catalog (alike_of_apply h₀ h₁ h₂)) _ fun _ => rfl

/-- What is taken over for a call that keeps its meaning is saved as what the call resolves to. -/
theorem saved_of_keeps (ht : m₀.index.takenOver e m₁.index.hierarchy c = some (s, ws))
    (hlast : lastCall? m₁.index.calls c.site = some c) (hk : m₀.index.Keeps m₁.index c) :
    ∃ s', m₁.index.resolver.resolve c = .ok (s', ws) ∧ s.saved = s'.saved := by
  obtain ⟨_, c₀, hc₀, hresolve₀⟩ := exists_lastCall_of_takenOver h₀ ht
  obtain ⟨s', hresolve, houtcome, hsame⟩ := hk.exists_resolve hc₀ hresolve₀
  exact ⟨s', hresolve, (saved_eq_iff hresolve₀ hresolve).mpr ⟨houtcome, hsame hlast⟩⟩

variable (h₁ : e.apply m₀.index t₁ = .ok m₁)
include h₁

section

variable (h₂ : build (e.files outlines) policy t₂ = .ok m₂)
include h₂

/-- When every call taken over keeps its meaning, the sites are saved as those of the index of the
new files. -/
theorem saved_sites_of_keeps
    (h : ∀ c ∈ m₁.index.calls, (m₀.index.takenOver e m₁.index.hierarchy c).isSome →
      m₀.index.Keeps m₁.index c) :
    m₁.index.sites.values.map Site.saved = m₂.index.sites.values.map Site.saved := by
  obtain ⟨_, _, _, hm₁, _⟩ := exists_assembled_of_apply h₀ h₁
  obtain ⟨_, _, _, _, hm₂⟩ := exists_assembled_of_build h₂
  have hcalls := calls_eq_of_apply h₀ h₁ h₂
  have hresolve := Resolver.resolve_congr (alike_of_apply h₀ h₁ h₂)
  have hkeyed := keyed_takenOver (e := e) h₀ m₁.index.hierarchy
  have hmaps : m₁.index.sites.mapValues (fun _ s => s.saved) =
      m₂.index.sites.mapValues fun _ s => s.saved := by
    refine ext_get? ?_ fun id => ?_
    · rw [keys_mapValues, keys_mapValues, hm₁.keys_sites hkeyed, hm₂.keys_sites keyed_none, hcalls]
    · rw [OrderedMap.get?_mapValues, OrderedMap.get?_mapValues, hm₁.get?_sites hkeyed,
        hm₂.get?_sites keyed_none, ← hcalls]
      cases hlast : lastCall? m₁.index.calls id with
      | none => rfl
      | some c =>
        have hid : c.site = id := site_of_lastCall? hlast
        show ((settle _ _ c).toOption.map _).map _ =
          (((m₂.index.resolver.resolve c).map _).toOption.map _).map _
        rw [← hresolve, settle]
        -- of the calls with the id only the last counts, so only it has to be compared
        cases ht : m₀.index.takenOver e m₁.index.hierarchy c with
        | none => rfl
        | some found =>
          obtain ⟨s, ws⟩ := found
          have hk := h c (mem_of_lastCall? hlast) (by rw [ht]; rfl)
          rw [← hid] at hlast
          obtain ⟨s', hs', hsaved⟩ := saved_of_keeps h₀ ht hlast hk
          rw [hs']
          exact congrArg some hsaved
  have hvalues := congrArg OrderedMap.values hmaps
  rw [values_mapValues, values_mapValues] at hvalues
  rw [OrderedMap.values, OrderedMap.values, map_map, map_map]
  exact hvalues

/-- A call whose taken over site is saved as in the index of the new files keeps its meaning. -/
theorem keeps_of_saved (hdata : m₁.index.toData = m₂.index.toData) {s' : Site}
    (ht : m₀.index.takenOver e m₁.index.hierarchy c = some (s, ws))
    (hresolve : m₁.index.resolver.resolve c = .ok (s', ws)) (hsame : SameOutcome s s') :
    m₀.index.Keeps m₁.index c := by
  obtain ⟨_, _, _, hm₁, _⟩ := exists_assembled_of_apply h₀ h₁
  obtain ⟨_, _, _, _, hm₂⟩ := exists_assembled_of_build h₂
  have hkeyed := keyed_takenOver (e := e) h₀ m₁.index.hierarchy
  obtain ⟨hid, c₀, hc₀, hresolve₀⟩ := exists_lastCall_of_takenOver h₀ ht
  refine ⟨c₀, hc₀, (s, ws), mem_toOption.mpr hresolve₀, (s', ws), mem_toOption.mpr hresolve,
    rfl, hsame, fun hlast => ?_⟩
  -- the data tells the site under the id in both indexes, and with it the call
  have hsite : m₁.index.sites.get? c.site = some s := by
    rw [hm₁.get?_sites hkeyed, hlast]
    show (settle _ _ c).toOption.map _ = _
    rw [settle, ht]
    rfl
  obtain ⟨t, ht₂, hsaved⟩ := get?_saved_of_toData (fun _ _ => hm₁.keyedSites hkeyed)
    (fun _ _ => hm₂.keyedSites keyed_none) hdata c.site hsite
  obtain ⟨c', hc', hresolve'⟩ := (get?_sites_fresh hm₂ c.site t _).mp ⟨ht₂, rfl⟩
  rw [← calls_eq_of_apply h₀ h₁ h₂, hlast] at hc'
  injection hc' with hc'
  subst hc'
  exact ((saved_eq_iff hresolve₀ hresolve').mp hsaved).2

end

/-- When every call taken over keeps its meaning, every call resolves. -/
theorem exists_resolve_of_keeps
    (h : ∀ c ∈ m₁.index.calls, (m₀.index.takenOver e m₁.index.hierarchy c).isSome →
      m₀.index.Keeps m₁.index c) :
    ∀ c ∈ m₁.index.calls, ∃ found, m₁.index.resolver.resolve c = .ok found := by
  intro c hc
  obtain ⟨_, _, _, hm₁, _⟩ := exists_assembled_of_apply h₀ h₁
  cases ht : m₀.index.takenOver e m₁.index.hierarchy c with
  | none => exact exists_resolve_of_not_taken hm₁ hc ht
  | some found =>
    obtain ⟨_, _, _, _, found', hfound', _⟩ := h c hc (by rw [ht]; rfl)
    exact ⟨found', mem_toOption.mp hfound'⟩

end

end Xref.Index

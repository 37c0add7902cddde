import Xref.Proofs.Index.Assemble
import Xref.Proofs.Relabelled.Resolution

/-!
# Indexes with other labels

Digests with other labels are assembled into an index with the same call sites, labels apart.
-/

namespace Xref

open List Resolver

/-! ## Results -/

theorem map_map_except (x : Except ε α) (f : α → β) (k : β → γ) :
    (x.map f).map k = x.map (k ∘ f) := by
  cases x <;> rfl

theorem map_bind_except (x : Except ε α) (f : α → Except ε β) (k : β → γ) :
    (x >>= f).map k = x >>= fun a => (f a).map k := by
  cases x <;> rfl

/-- Results that show the same are both faults or both none. -/
theorem alike_of_map_eq {x y : Except ε α} {k : α → β} (h : x.map k = y.map k) :
    (∃ e, x = .error e ∧ y = .error e) ∨ ∃ a b, x = .ok a ∧ y = .ok b ∧ k a = k b := by
  cases x with
  | error e =>
    cases y with
    | error e' =>
      cases h
      exact .inl ⟨e, rfl, rfl⟩
    | ok b => cases h
  | ok a =>
    cases y with
    | error e' => cases h
    | ok b => exact .inr ⟨a, b, rfl, rfl, Except.ok.inj h⟩

/-- What follows such results comes to the same where it sees no more than they show. -/
theorem bind_congr_of_map_eq {x y : Except ε α} {k : α → β} (h : x.map k = y.map k)
    {f f' : α → Except ε γ} (hf : ∀ a b, k a = k b → f a = f' b) : x >>= f = y >>= f' := by
  rcases alike_of_map_eq h with ⟨e, rfl, rfl⟩ | ⟨a, b, rfl, rfl, hab⟩
  · rfl
  · exact hf a b hab

theorem map_mapM_except {f : α → Except ε β} (k : β → γ) (xs : List α) :
    (xs.mapM f).map (List.map k) = xs.mapM fun x => (f x).map k := by
  induction xs with
  | nil => rfl
  | cons x xs ih =>
    rw [mapM_cons, mapM_cons, ← ih]
    cases f x with
    | error e => rfl
    | ok y => cases xs.mapM f <;> rfl

/-- Handling files needs no more of a file than its result. -/
theorem Token.eachFile_congr {f : α → Except Fault γ} {f' : β → Except Fault γ} {as : List α}
    {bs : List β} (h : as.map f = bs.map f') (total done : Nat) (token : Token) :
    eachFile f total done token as = eachFile f' total done token bs := by
  induction as generalizing bs done token with
  | nil =>
    cases bs with
    | nil => rfl
    | cons b bs => cases h
  | cons a as ih =>
    cases bs with
    | nil => cases h
    | cons b bs =>
      rw [map_cons, map_cons, List.cons.injEq] at h
      simp only [eachFile, h.1, ih h.2]

theorem Token.map_eachFile (f : α → Except Fault β) (k : β → γ) (total done : Nat) (token : Token)
    (as : List α) :
    (eachFile f total done token as).map (fun r => (r.1.map k, r.2)) =
      eachFile (fun a => (f a).map k) total done token as := by
  induction as generalizing done token with
  | nil => rfl
  | cons a as ih =>
    rw [eachFile, eachFile]
    cases token.check done total with
    | error e => rfl
    | ok token' =>
      cases f a with
      | error e => rfl
      | ok b =>
        show (eachFile f total (done + 1) token' as >>= _).map _ =
          eachFile _ total (done + 1) token' as >>= _
        rw [← ih]
        cases eachFile f total (done + 1) token' as <;> rfl

/-- The call site without its labels. -/
def Site.unlabelled (s : Site) : Site :=
  { s with isSuspended := false, decorators := [] }

namespace Index

/-- The settled call without the labels of its site. -/
def Settled.unlabelled (s : Settled) : Settled :=
  { s with site := s.site.unlabelled }

/-- The result for a file without the labels of its call sites. -/
def FileResult.unlabelled (r : FileResult) : FileResult :=
  { r with calls := r.calls.map Settled.unlabelled }

/-- The call sites under their ids, without labels. -/
def unlabelledSites (x : Index) : OrderedMap SiteId Site :=
  x.sites.mapValues fun _ => Site.unlabelled

/-- Settled calls under the ids of their sites. -/
def sitesOf (results : List FileResult) : OrderedMap SiteId Site :=
  (OrderedMap.ofList ((results.flatMap (·.calls)).map fun s => (s.site.id, s))).mapValues fun _ s =>
    s.site

theorem mapValues_sitesOf (results : List FileResult) :
    (sitesOf results).mapValues (fun _ => Site.unlabelled) =
      sitesOf (results.map FileResult.unlabelled) := by
  have hcalls : (results.map FileResult.unlabelled).flatMap (·.calls) =
      (results.flatMap (·.calls)).map Settled.unlabelled := by
    rw [flatMap_map, map_flatMap]
    rfl
  unfold sitesOf
  rw [hcalls, OrderedMap.mapValues_ofList, OrderedMap.mapValues_ofList, OrderedMap.mapValues_ofList,
    map_map, map_map, map_map, map_map]
  rfl

end Index

/-! ## Assembling -/

namespace Relabelling

open Index

variable (g : Relabelling)

/-- A call is resolved to the same site, labels apart. -/
theorem resolve_resolver (r : Resolver) (c : PendingCall) :
    ((g.resolver r).resolve (g.call c)).map (fun a => (a.1.unlabelled, a.2)) =
      (r.resolve c).map fun a => (a.1.unlabelled, a.2) := by
  unfold Resolver.resolve
  rw [outcome_resolver]
  simp only [bind_targetDefinitions_resolver, forM_note_map_definition, StateT.run_bind,
    StateT.run_pure, bind_assoc, pure_bind]
  cases (r.outcome c).run [] with
  | error e => rfl
  | ok found =>
    obtain ⟨⟨kind, outcome⟩, trail⟩ := found
    show Except.map _ ((r.targetDefinitions outcome.targets).run trail >>= _) =
      Except.map _ ((r.targetDefinitions outcome.targets).run trail >>= _)
    cases (r.targetDefinitions outcome.targets).run trail with
    | error e => rfl
    | ok found =>
      obtain ⟨ds, trail⟩ := found
      show Except.map _ ((ds.forM fun d => note d.qualname).run trail >>= _) =
        Except.map _ ((ds.forM fun d => note d.qualname).run trail >>= _)
      cases (ds.forM fun d => note d.qualname).run trail <;> rfl

/-- A file has the same results, labels apart. -/
theorem resolveFile_digest (r : Resolver) (d : Digest) :
    (resolveFile (g.resolver r) (fun _ => none) (g.digest d)).map FileResult.unlabelled =
      (resolveFile r (fun _ => none) d).map FileResult.unlabelled := by
  have hsettle : ∀ c, (settle (g.resolver r) (fun _ => none) (g.call c)).map Settled.unlabelled =
      (settle r (fun _ => none) c).map Settled.unlabelled := by
    intro c
    have hresolve :=
      congrArg (Except.map fun a : Site × List Diagnostic => Settled.mk a.1 a.2 false)
      (g.resolve_resolver r c)
    rw [map_map_except, map_map_except] at hresolve
    rw [settle, settle, map_map_except, map_map_except]
    exact hresolve
  have hcalls : ((g.digest d).calls.mapM (settle (g.resolver r) fun _ => none)).map
      (List.map Settled.unlabelled) =
      (d.calls.mapM (settle r fun _ => none)).map (List.map Settled.unlabelled) := by
    rw [map_mapM_except, map_mapM_except, digest, mapM_map]
    exact congrArg (d.calls.mapM ·) (funext hsettle)
  have hreferences : (g.resolver r).view.reference = r.view.reference := g.reference_resolver r
  rw [resolveFile, resolveFile, hreferences, map_bind_except, map_bind_except]
  refine bind_congr_of_map_eq hcalls fun calls calls' hsame => ?_
  rw [map_bind_except, map_bind_except]
  refine congrArg (d.references.mapM r.view.reference >>= ·) (funext fun references => ?_)
  exact congrArg (fun calls => Except.ok (FileResult.mk calls references)) hsame

/-- Digests are assembled into the same sites, labels apart, or fail alike. -/
theorem assemble_map_digest (ds : List Digest) (policy : Policy) (generation : Nat)
    (token : Token) :
    (assemble (ds.map g.digest) policy generation token fun _ _ =>
      none).map (·.index.unlabelledSites) =
      (assemble ds policy generation token fun _ _ => none).map (·.index.unlabelledSites) := by
  unfold assemble
  rw [merge_map_digest, length_map]
  generalize Catalog.merge ds = merged
  obtain ⟨catalog, duplicates⟩ := merged
  dsimp only
  rw [build_catalog, values_files_catalog, length_map, map_bind_except, map_bind_except]
  refine congrArg (token.check ds.length ds.length >>= ·) (funext fun token' => ?_)
  rw [map_bind_except, map_bind_except]
  refine congrArg (Hierarchy.build catalog >>= ·) (funext fun built => ?_)
  rw [map_bind_except, map_bind_except]
  have hfiles : (Token.eachFile (resolveFile ⟨g.catalog catalog, built.1, policy⟩ fun _ => none)
      catalog.files.values.length 0 token' (catalog.files.values.map g.digest)).map
        (fun r => (r.1.map FileResult.unlabelled, r.2)) =
      (Token.eachFile (resolveFile ⟨catalog, built.1, policy⟩ fun _ => none)
        catalog.files.values.length 0 token' catalog.files.values).map
        (fun r => (r.1.map FileResult.unlabelled, r.2)) := by
    rw [Token.map_eachFile, Token.map_eachFile]
    refine Token.eachFile_congr ?_ ..
    rw [map_map]
    exact congrArg (catalog.files.values.map ·)
      (funext fun d => g.resolveFile_digest ⟨catalog, built.1, policy⟩ d)
  refine bind_congr_of_map_eq hfiles fun a b hsame => congrArg Except.ok ?_
  show (sitesOf a.1).mapValues _ = (sitesOf b.1).mapValues _
  rw [mapValues_sitesOf, mapValues_sitesOf, (Prod.mk.inj hsame).1]

end Relabelling

end Xref

import Xref.Proofs.Relabelled.Index
import Xref.Proofs.SmallFiles
import Xref.Proofs.Unannotated.Digest

/-!
# Indexes without annotations

Annotations are shown at the call sites of an index and decide nothing: files that differ in
annotations only have the same call sites with the same targets, or their indexes fail alike.
-/

namespace Xref.Index

open Relabelling Outline List Digest OrderedMap Xref.Small

/-- Outlines that differ in annotations only are built into the same sites, labels apart, or fail
alike. -/
theorem build_unlabelledSites_congr {os ps : List Outline}
    (h : os.map unannotated = ps.map unannotated) (hos : ∀ o ∈ os, o.check = .ok ())
    (hps : ∀ p ∈ ps, p.check = .ok ()) (policy : Policy) (token : Token) :
    (build os policy token).map (·.index.unlabelledSites) =
      (build ps policy token).map (·.index.unlabelledSites) := by
  have hlength : os.length = ps.length := by simpa using congrArg length h
  have hempty : os.isEmpty = ps.isEmpty := by simpa using congrArg isEmpty h
  have hdigests : ∀ os : List Outline, (∀ o ∈ os, o.check = .ok ()) →
      os.map (fun o => (ofOutline o 1).map unannotated.digest) =
        (os.map unannotated).map fun o => (draftOf o 1).map (ofDraft o) := by
    intro os hos
    rw [map_map]
    exact map_congr_left fun o ho => ofOutline_unannotated (hos o ho) 1
  have hfiles : (token.eachFile (fun o => ofOutline o 1) os.length 0 os).map
        (fun r => (r.1.map unannotated.digest, r.2)) =
      (token.eachFile (fun o => ofOutline o 1) ps.length 0 ps).map
        (fun r => (r.1.map unannotated.digest, r.2)) := by
    rw [Token.map_eachFile, Token.map_eachFile, hlength]
    refine Token.eachFile_congr ?_ ..
    rw [hdigests os hos, hdigests ps hps, h]
  unfold build
  rw [hempty]
  split
  · rfl
  · show ((token.eachFile (fun o => ofOutline o 1) os.length 0 os) >>= _).map _ =
      ((token.eachFile (fun o => ofOutline o 1) ps.length 0 ps) >>= _).map _
    rw [map_bind_except, map_bind_except]
    refine bind_congr_of_map_eq hfiles fun a b hsame => ?_
    obtain ⟨hds, htoken⟩ := Prod.mk.inj hsame
    rw [← unannotated.assemble_map_digest a.1, ← unannotated.assemble_map_digest b.1, hds, htoken]

theorem unlabelled_eq {s s' : Site} (h : s'.unlabelled = s.unlabelled) :
    s' = { s with isSuspended := s'.isSuspended, decorators := s'.decorators } := by
  obtain ⟨⟩ := s
  obtain ⟨⟩ := s'
  simpa [Site.unlabelled] using h

/-- Well-formed outlines that differ only in whether functions are asynchronous, in suspensions and
in decorators that only annotate are built into indexes with the same call sites, which differ at
most in whether the caller was suspended and in the decorators of the targets. Where the work on one
is stopped, so is that on the other. -/
theorem build_ignores_annotations {os ps : List Outline}
    (h : os.map unannotated = ps.map unannotated) (hos : ∀ o ∈ os, o.check = .ok ())
    (hps : ∀ p ∈ ps, p.check = .ok ()) (policy : Policy) (token : Token) :
    (∃ e, build os policy token = .error e ∧ build ps policy token = .error e) ∨
      ∃ m m', build os policy token = .ok m ∧ build ps policy token = .ok m' ∧
        m'.index.sites.keys = m.index.sites.keys ∧
        ∀ id s s', m.index.sites.get? id = some s → m'.index.sites.get? id = some s' →
          s' = { s with isSuspended := s'.isSuspended, decorators := s'.decorators } := by
  rcases alike_of_map_eq (build_unlabelledSites_congr h hos hps policy token) with
    hfail | ⟨m, m', hm, hm', hsites⟩
  · exact .inl hfail
  refine .inr ⟨m, m', hm, hm', ?_, fun id s s' hs hs' => ?_⟩
  · simpa [unlabelledSites] using (congrArg OrderedMap.keys hsites).symm
  · have hget := congrArg (get? · id) hsites
    simp only [unlabelledSites, get?_mapValues, hs, hs', Option.map_some, Option.some.injEq] at hget
    exact unlabelled_eq hget.symm

/-- A class with a static method that calls a function after a suspension, with annotations or
without. -/
def jobFile (decorators : List String) (isAsync : Bool) (suspensions : List Item) : Outline :=
  file "m.py" "m"
    [.classDecl (mark "Job") ⟨"Job", [], decorators⟩
      [.functionDecl (mark "run") ⟨"run", [], decorators ++ ["staticmethod"], false, isAsync⟩
        (suspensions ++ [callItem "call" "start"])],
     .functionDecl (mark "start") ⟨"start", [], decorators, false, isAsync⟩ []]

def annotatedJob : Outline :=
  jobFile ["tools.traced"] true [.suspend (mark "wait")]

/-- The call has the same target in both files. With annotations it is suspended and names the
decorator. -/
theorem build_ignores_annotations_of_job :
    annotatedJob.unannotated = (jobFile [] false []).unannotated ∧
      annotatedJob.check = .ok () ∧ (jobFile [] false []).check = .ok () ∧
      ∃ m m', build [annotatedJob] .standard none = .ok m ∧
        build [jobFile [] false []] .standard none = .ok m' ∧
        m'.index.sites.keys = m.index.sites.keys ∧
        ∃ s s', m.index.sites.get? "m.py#call" = some s ∧
          m'.index.sites.get? "m.py#call" = some s' ∧
          s.targets = ["m.py::m.start"] ∧ s.isSuspended = true ∧ s.decorators = ["tools.traced"] ∧
          s' = { s with isSuspended := false, decorators := [] } := by
  have hsame : annotatedJob.unannotated = (jobFile [] false []).unannotated := rfl
  have hcheck : annotatedJob.check = .ok () := rfl
  have hcheck' : (jobFile [] false []).check = .ok () := rfl
  have hbuilt : (build [annotatedJob] .standard none).toOption.any (fun m =>
      (m.index.sites.get? "m.py#call").any fun s => s.targets = ["m.py::m.start"] ∧ s.isSuspended ∧
        s.decorators = ["tools.traced"]) := by decide +kernel
  have hbuilt' : (build [jobFile [] false []] .standard none).toOption.any (fun m =>
      (m.index.sites.get? "m.py#call").any fun s => s.isSuspended = false ∧ s.decorators = []) := by
    decide +kernel
  obtain ⟨m, hm, hsite⟩ := exists_of_any hbuilt
  obtain ⟨m', hm', hsite'⟩ := exists_of_any hbuilt'
  obtain ⟨s, hs, hshown⟩ := (Option.any_eq_true _ _).mp hsite
  obtain ⟨s', hs', hshown'⟩ := (Option.any_eq_true _ _).mp hsite'
  obtain ⟨htargets, hsuspended, hdecorators⟩ := of_decide_eq_true hshown
  obtain ⟨hsuspended', hdecorators'⟩ := of_decide_eq_true hshown'
  refine ⟨hsame, hcheck, hcheck', m, m', hm, hm', ?_⟩
  have hfiles : [annotatedJob].map unannotated = [jobFile [] false []].map unannotated :=
    congrArg ([·]) hsame
  rcases build_ignores_annotations hfiles
    (forall_mem_singleton.mpr hcheck) (forall_mem_singleton.mpr hcheck') .standard none with
    ⟨e, he, _⟩ | ⟨n, n', hn, hn', hkeys, hsites⟩
  · rw [hm] at he
    cases he
  · rw [hm] at hn
    rw [hm'] at hn'
    cases hn
    cases hn'
    have hsite := hsites _ s s' hs hs'
    rw [hsuspended', hdecorators'] at hsite
    exact ⟨hkeys, s, s', hs, hs', htargets, hsuspended, hdecorators, hsite⟩

end Xref.Index

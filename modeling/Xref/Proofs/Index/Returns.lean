import Xref.Proofs.Call.Ending
import Xref.Proofs.Call.Targets
import Xref.Proofs.Digest.Lambdas
import Xref.Proofs.Index.Assemble

/-!
# When an index is built

Malformed files, cycles of bases and names that are not found are reported, and an index is built
all the same. What follows are the conditions under which it is: each stage goes through, and the
calls that are left do not come to a definition that a redeclaration discarded.
-/

namespace Xref

open Catalog Digest Xref.Small

/-- The trail of a reference matters only for types that nest too deeply. -/
theorem View.exists_reference_iff (v : View) (p : PendingReference) :
    (∃ q, v.reference p = .ok q) ↔ .tooDeep ∉ ((v.name p.scope p.expression).run []).2 := by
  unfold View.reference
  generalize (v.name p.scope p.expression).run [] = found
  obtain ⟨r, trail⟩ := found
  by_cases hdeep : .tooDeep ∈ trail
  · refine iff_of_false ?_ (by simpa using hdeep)
    simp [hdeep, throw, throwThe, MonadExceptOf.throw, bind, Except.bind]
  · refine iff_of_true ?_ hdeep
    simp [hdeep, pure, Except.pure]

namespace Index

/-- Every class of a catalog can be ordered, and along any hierarchy of it every call and reference
of its files resolved. -/
structure Resolvable (c : Catalog) (policy : Policy) : Prop where
  /-- No base is given by a type that nests too deeply. -/
  shallow : Hierarchy.hasDeepBase c = false
  /-- Not too many classes wait for their bases. -/
  low : (Hierarchy.Ancestry.ofBases (Hierarchy.allBases c)).isTooHigh = false
  /-- No call comes to a lost definition, an unknown class or a type that nests too deeply, or goes
  on for too long. -/
  calls : ∀ h reports, Hierarchy.build c = .ok (h, reports) →
    ∀ call ∈ c.files.values.flatMap (·.calls), ∀ e, ¬ (Resolver.mk c h policy).CallFails call e
  /-- No reference comes to a type that nests too deeply. -/
  references : ∀ h reports, Hierarchy.build c = .ok (h, reports) →
    ∀ p ∈ c.files.values.flatMap (·.references),
      .tooDeep ∉ (((View.mk c (some h)).name p.scope p.expression).run []).2

/-- Without earlier results a call is settled exactly if it does not fail. -/
theorem exists_settle_iff {r : Resolver} (h : r.OfFiles) (c : PendingCall) :
    (∃ s, settle r (fun _ => none) c = .ok s) ↔ ∀ e, ¬ r.CallFails c e := by
  simp only [← Resolver.resolve_eq_error_iff_callFails h]
  unfold settle
  cases r.resolve c <;> simp [Except.map]

theorem exists_assemble_iff {digests : List Digest} (hs : (merge digests).1.Sound)
    (policy : Policy) (generation : Nat) :
    (∃ m, assemble digests policy generation none (fun _ _ => none) = .ok m) ↔
      Resolvable (Catalog.merge digests).1 policy := by
  constructor
  · rintro ⟨m, hm⟩
    obtain ⟨_, settled, ha⟩ := exists_assembled hm
    obtain ⟨faults, hb⟩ := ha.hierarchy_eq
    obtain ⟨hshallow, hlow, _⟩ := Hierarchy.build_eq_ok_iff.mp hb
    rw [← ha.catalog_eq, ← ha.policy_eq]
    rw [← ha.catalog_eq] at hs
    refine ⟨hshallow, hlow, fun h reports hb' call hcall => ?_, fun h reports hb' p hp => ?_⟩
    · cases hb.symm.trans hb'
      obtain ⟨s, _, hsettle⟩ := exists_of_map_eq_map_ok ha.calls_eq hcall
      exact (exists_settle_iff ⟨hs, faults, hb⟩ call).mp ⟨s, hsettle⟩
    · cases hb.symm.trans hb'
      exact (View.exists_reference_iff _ p).mp (ha.references_ok hp)
  · intro h
    obtain ⟨hierarchy, reports, hb, _⟩ :=
      (Hierarchy.exists_build_iff (P := fun _ _ => True) fun _ _ _ => trivial).mpr ⟨h.shallow,
        h.low⟩
    refine exists_assemble hb (fun call hcall => ?_) fun p hp => ?_
    · exact (exists_settle_iff ⟨hs, reports, hb⟩ call).mpr (h.calls _ _ hb call hcall)
    · exact (View.exists_reference_iff _ p).mpr (h.references _ _ hb p hp)

/-- Without a token, digests are made one by one and assembled. -/
theorem build_none (outlines : List Outline) (policy : Policy) :
    (∃ made, build outlines policy none = .ok made) ↔
      outlines ≠ [] ∧ ∃ digests : List Digest, outlines.map (ofOutline · 1) = digests.map .ok ∧
        ∃ made, assemble digests policy 1 none (fun _ _ => none) = .ok made := by
  unfold build
  cases outlines with
  | nil => simp [throw, throwThe, MonadExceptOf.throw, bind, Except.bind]
  | cons o os =>
    constructor
    · rintro ⟨made, h⟩
      obtain ⟨⟨digests, token⟩, hd, h⟩ := bind_eq_ok h
      have hm := Token.mapM_of_eachFile hd
      rw [Token.eachFile_none hm] at hd
      cases hd
      exact ⟨by simp, digests, mapM_eq_ok_iff.mp hm, made, h⟩
    · rintro ⟨_, digests, hm, made, h⟩
      refine ⟨made, ?_⟩
      rw [Token.eachFile_none (mapM_eq_ok_iff.mpr hm)]
      exact h

/-- An index is built of some files if and only if there are any, each can be digested, and the
merged digests of all can be resolved. A file cannot be digested if its check stops at a value that
no message can show or at an item that nests too deeply, or if it is well formed and the walk over
it needs too many calls, comes to a lambda whose place no text can hold, or to an assignment of a
lambda that stands only in a file body inside it. -/
theorem build_returns_iff (outlines : List Outline) (policy : Policy) :
    (∃ made, build outlines policy none = .ok made) ↔
      outlines ≠ [] ∧ (∀ o ∈ outlines, ¬ o.Indigestible) ∧
        ∀ digests : List Digest, outlines.map (ofOutline · 1) = digests.map .ok →
          Resolvable (Catalog.merge digests).1 policy := by
  have hsound : ∀ digests : List Digest, outlines.map (ofOutline · 1) = digests.map .ok →
      (merge digests).1.Sound := by
    intro digests hd
    refine sound_merge_of_outlines fun d hmem => ?_
    obtain ⟨o, _, ho⟩ := List.mem_map.mp (hd ▸ List.mem_map_of_mem (f := Except.ok) hmem)
    exact ⟨o, 1, ho⟩
  rw [build_none]
  refine and_congr_right fun _ => ⟨?_, ?_⟩
  · rintro ⟨digests, hd, hmade⟩
    refine ⟨fun o ho => ?_, fun digests' hd' => ?_⟩
    · obtain ⟨d, _, hod⟩ := exists_of_map_eq_map_ok hd ho
      exact (exists_ofOutline_iff o 1).mp ⟨d, hod⟩
    · have heq := List.map_injective_iff.mpr (fun a b h => Except.ok.inj h) (hd.symm.trans hd')
      rw [← heq]
      exact (exists_assemble_iff (hsound digests hd) policy 1).mp hmade
  · rintro ⟨hlambdas, hall⟩
    obtain ⟨digests, hm⟩ := exists_mapM_eq_ok fun o ho =>
      (exists_ofOutline_iff o 1).mpr (hlambdas o ho)
    have hd := mapM_eq_ok_iff.mp hm
    exact ⟨digests, hd, (exists_assemble_iff (hsound digests hd) policy 1).mpr (hall digests hd)⟩

/-- A class with a lambda, the class declared again with a member that is the lambda, and a call of
the member. -/
def discardingFile : Outline :=
  file "m.py" "m"
    [.classDecl (mark "first") ⟨"Job", [], []⟩ [.lambda (mark "fn") [] []],
     .classDecl (mark "second") ⟨"Job", [], []⟩ [assignItem "copy" "run" .lambda "fn"],
     .functionDecl (mark "use") ⟨"use", [⟨"job", some "Job", false, .positional⟩], [], false, false⟩
      [.call (mark "call") ⟨"run", some "job", some 0⟩]]

/-- A file with a file body inside it, and an assignment of a lambda that stands there. -/
def nestingFile : Outline :=
  file "m.py" "m"
    [.fileBody (mark "inner") [.lambda (mark "fn") [] []], assignItem "g" "g" .lambda "fn"]

/-- A method with a class in it, the body of which calls one of its members, and the method declared
again without the class. -/
def orphaningFile : Outline :=
  file "m.py" "m"
    [classItem "C" []
      [.functionDecl (mark "first") ⟨"f", [⟨"self", none, false, .positional⟩], [], false, false⟩
        [classItem "Q" []
          [functionItem "helper" "helper" false [],
           .block (mark "inner") [callItem "call" "helper"]]],
       functionItem "second" "f" false []]]

/-- Well-formed files of which no index is built: one with a lambda that is not walked over, one
with a member that is lost, one with a class that is lost, and one with a call that does not end. -/
theorem build_fails_on_discarded :
    nestingFile.check = .ok () ∧ build [nestingFile] .standard none = .error (.unknownLambda "fn") ∧
      discardingFile.check = .ok () ∧
      build [discardingFile] .standard none = .error .lostDefinition ∧
      orphaningFile.check = .ok () ∧
      build [orphaningFile] .standard none = .error (.unknownClass "m.py::m.C.f.Q") ∧
      Resolver.operatorFile.check = .ok () ∧
      build [Resolver.operatorFile] .standard none = .error .endlessCall := by
  refine ⟨by decide +kernel, map_eq_error (f := fun _ => ()) ?_, by decide +kernel,
    map_eq_error (f := fun _ => ()) ?_, by decide +kernel, map_eq_error (f := fun _ => ()) ?_,
    by decide +kernel, map_eq_error (f := fun _ => ()) ?_⟩
  all_goals decide +kernel

end Index

end Xref

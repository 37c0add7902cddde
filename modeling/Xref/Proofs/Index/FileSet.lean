import Xref.Proofs.Index.Returns
import Xref.Proofs.Index.Update

/-!
# Indexes and their files

Of several outlines for one path the last counts, and neither the order of the paths nor the
outlines that do not count show in an index. All outlines are digested, though: one that cannot be
digested stops the build even where it does not count.
-/

namespace Xref.Index

open List Digest Catalog Xref.Small

/-! ## Files -/

def latest? (outlines : List Outline) (path : String) : Option Outline :=
  (outlines.filter fun o => o.knownPath = path).getLast?

/-- For every path the same outline counts. -/
def SameFiles (os ps : List Outline) : Prop :=
  ∀ path, latest? os path = latest? ps path

variable {os ps : List Outline} {ds : List Digest}

theorem SameFiles.symm (h : SameFiles os ps) : SameFiles ps os :=
  fun path => (h path).symm

theorem latest?_eq_none_iff {path : String} :
    latest? os path = none ↔ ∀ o ∈ os, o.knownPath ≠ path := by
  simp [latest?]

theorem SameFiles.eq_nil (h : SameFiles [] ps) : ps = [] := by
  cases ps with
  | nil => rfl
  | cons p ps =>
    have hnone : latest? (p :: ps) p.knownPath = none := (h p.knownPath).symm
    exact absurd rfl (latest?_eq_none_iff.mp hnone p mem_cons_self)

/-- The digest that counts for a path is that of the outline that counts. -/
theorem getLast?_digests {version : Int} (h : os.map (ofOutline · version) = ds.map .ok)
    (path : String) :
    ((ds.filter fun d => d.path = path).getLast?).map Except.ok =
      (latest? os path).map (ofOutline · version) := by
  have hfilter : (os.filter fun o => o.knownPath = path).map (ofOutline · version) =
      (ds.filter fun d => d.path = path).map .ok :=
    filter_map_ok (fun o d ho => by rw [path_ofOutline ho]) h
  rw [latest?, ← getLast?_map, ← getLast?_map, hfilter]

theorem filesOf_congr_of_sameFiles {version : Int} {es : List Digest} (h : SameFiles os ps)
    (hd : os.map (ofOutline · version) = ds.map .ok)
    (he : ps.map (ofOutline · version) = es.map .ok) : filesOf ds = filesOf es := by
  refine filesOf_congr fun path => ?_
  have hboth : ((ds.filter fun d => d.path = path).getLast?).map Except.ok =
      ((es.filter fun d => d.path = path).getLast?).map (Except.ok (ε := Fault)) := by
    rw [getLast?_digests hd, getLast?_digests he, h path]
  exact Option.map_injective (fun a b hab => Except.ok.inj hab) hboth

/-! ## Building -/

theorem assemble_congr {es : List Digest} (h : filesOf ds = filesOf es) (policy : Policy)
    (generation : Nat) (reuse : Hierarchy → Reuse) :
    assemble ds policy generation none reuse = assemble es policy generation none reuse := by
  rw [assemble_none_eq, assemble_none_eq, merge_congr h]

theorem build_eq_bind (hne : os ≠ []) (policy : Policy) :
    build os policy none = os.mapM (ofOutline · 1) >>= fun ds =>
      assemble ds policy 1 none fun _ _ => none := by
  have hnonempty : os.isEmpty = false := by
    rw [← Bool.not_eq_true, List.isEmpty_iff]
    exact hne
  unfold build
  rw [hnonempty, Token.eachFile_none_eq]
  cases os.mapM (ofOutline · 1) <;> rfl

theorem build_eq_assemble (hne : os ≠ []) (h : os.map (ofOutline · 1) = ds.map .ok)
    (policy : Policy) : build os policy none = assemble ds policy 1 none fun _ _ => none := by
  rw [build_eq_bind hne, mapM_eq_ok_iff.mpr h]
  rfl

theorem exists_digests (h : ∀ o ∈ os, ¬ o.Indigestible) :
    ∃ ds : List Digest, os.map (ofOutline · 1) = ds.map .ok := by
  obtain ⟨ds, hds⟩ := exists_mapM_eq_ok fun o ho => (exists_ofOutline_iff o 1).mpr (h o ho)
  exact ⟨ds, mapM_eq_ok_iff.mp hds⟩

theorem digestible_of_build {policy : Policy} {m : Made} (h : build os policy none = .ok m) :
    ∀ o ∈ os, ¬ o.Indigestible := by
  intro o ho
  obtain ⟨_, ds, _, hds, _⟩ := exists_assembled_of_build h
  obtain ⟨d, _, hd⟩ := exists_of_map_eq_map_ok hds ho
  exact (exists_ofOutline_iff o 1).mp ⟨d, hd⟩

/-- Outlines that can all be digested give the same index, or the same fault, where they give the
same files. -/
theorem build_congr (h : SameFiles os ps) (policy : Policy) (hos : ∀ o ∈ os, ¬ o.Indigestible)
    (hps : ∀ o ∈ ps, ¬ o.Indigestible) : build os policy none = build ps policy none := by
  by_cases hnil : os = []
  · subst hnil
    rw [h.eq_nil]
  · have hnil' : ps ≠ [] := by
      intro hps'
      subst hps'
      exact hnil h.symm.eq_nil
    obtain ⟨ds, hd⟩ := exists_digests hos
    obtain ⟨es, he⟩ := exists_digests hps
    rw [build_eq_assemble hnil hd, build_eq_assemble hnil' he]
    exact assemble_congr (filesOf_congr_of_sameFiles h hd he) policy 1 _

/-- Lists of outlines that give the same files are built into the same index with the same
diagnostics exactly if one of them is built at all and every outline of the other, counting or not,
can be digested. Where all can be digested, faults are the same too. -/
theorem build_agrees_iff {os ps : List Outline} (h : SameFiles os ps) (policy : Policy) :
    ((∃ m, build os policy none = .ok m ∧ build ps policy none = .ok m) ↔
      (∃ m, build os policy none = .ok m) ∧ ∀ p ∈ ps, ¬ p.Indigestible) ∧
    ((∀ o ∈ os ++ ps, ¬ o.Indigestible) →
      build os policy none = build ps policy none) := by
  refine ⟨⟨?_, ?_⟩, fun hall => ?_⟩
  · rintro ⟨m, hos, hps⟩
    exact ⟨⟨m, hos⟩, digestible_of_build hps⟩
  · rintro ⟨⟨m, hm⟩, hps⟩
    have hboth := build_congr h policy (digestible_of_build hm) hps
    exact ⟨m, hm, hboth ▸ hm⟩
  · exact build_congr h policy (fun o ho => hall o (mem_append_left _ ho))
      fun p hp => hall p (mem_append_right _ hp)

/-! ## Overridden outlines -/

def callingFile : Outline :=
  file "a.py" "a" [importItem "import" "b" "f", callItem "call" "f"]

def calledFile : Outline :=
  file "b.py" "b" [functionItem "f" "f" false []]

/-- The other file as it was before, without the function. -/
def formerFile : Outline :=
  file "b.py" "b" []

theorem sameFiles_reordered :
    SameFiles [callingFile, calledFile] [formerFile, calledFile, callingFile] := by
  intro path
  have hcalling : callingFile.knownPath = "a.py" := by decide
  have hcalled : calledFile.knownPath = "b.py" := by decide
  have hformer : formerFile.knownPath = "b.py" := by decide
  by_cases ha : path = "a.py"
  · subst ha
    simp [latest?, hcalling, hcalled, hformer]
  · by_cases hb : path = "b.py"
    · subst hb
      simp [latest?, hcalling, hcalled, hformer]
    · simp [latest?, hcalling, hcalled, hformer, Ne.symm ha, Ne.symm hb]

/-- The index is the same with the files in another order and an overridden outline before them. -/
theorem build_agrees_on_reordered :
    SameFiles [callingFile, calledFile] [formerFile, calledFile, callingFile] ∧
      ∃ m, build [callingFile, calledFile] .standard none = .ok m ∧
        build [formerFile, calledFile, callingFile] .standard none = .ok m := by
  have hbuilt : (build [callingFile, calledFile] .standard none).toOption.any (fun _ => true) := by
    decide +kernel
  obtain ⟨m, hm, _⟩ := exists_of_any hbuilt
  have hdigests : ∀ o ∈ [formerFile, calledFile, callingFile],
      (ofOutline o 1).toOption.any (fun _ => true) := by
    decide +kernel
  refine ⟨sameFiles_reordered,
    ((build_agrees_iff sameFiles_reordered .standard).1.mpr ⟨⟨m, hm⟩, ?_⟩)⟩
  intro o ho
  obtain ⟨d, hd, _⟩ := exists_of_any (hdigests o ho)
  exact (exists_ofOutline_iff o 1).mp ⟨d, hd⟩

/-- An outline that cannot be digested stops the build, though another one counts for its path. -/
theorem build_stops_on_overridden :
    nestingFile.check = .ok () ∧ SameFiles [nestingFile, file "m.py" "m" []] [file "m.py" "m" []] ∧
      build [nestingFile, file "m.py" "m" []] .standard none = .error (.unknownLambda "fn") ∧
      ∃ m, build [file "m.py" "m" []] .standard none = .ok m := by
  refine ⟨by decide +kernel, fun path => ?_,
    map_eq_error (f := fun _ => ()) (by decide +kernel), ?_⟩
  · have hnesting : nestingFile.knownPath = "m.py" := by decide
    have hplain : (file "m.py" "m" []).knownPath = "m.py" := by decide
    by_cases hp : path = "m.py"
    · subst hp
      simp [latest?, hnesting, hplain]
    · simp [latest?, hnesting, hplain, Ne.symm hp]
  · have hbuilt : (build [file "m.py" "m" []] .standard none).toOption.any (fun _ => true) := by
      decide +kernel
    obtain ⟨m, hm, _⟩ := exists_of_any hbuilt
    exact ⟨m, hm⟩

end Xref.Index

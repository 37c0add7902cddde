import Mathlib.Data.List.Nodup
import Xref.Proofs.Cst.Items
import Xref.Proofs.Digest.Reports

/-!
# Outlines of syntax trees

The outline of a syntax tree, however damaged the tree is, passes the check and can be digested, as
long as every name in the tree is written and its rows and columns are such that a text can hold
them. The walk over the outline fits, since reading the tree took as much room.
-/

namespace Xref.Cst

open Outline Digest

open Outline (checkItems)

variable {path moduleName : String} {isPackage : Bool} {source : ByteArray} {tree : Cst}
  {o : Outline}

section

variable (h : outline path moduleName isPackage source tree = .ok o)
include h

/-- What an outline is made of: the items of the children of the tree, numbered from two on. -/
theorem exists_of_outline :
    ∃ body stop, (visitAll (visit source tree.height) tree.children).run 1 = .ok (body, stop) ∧
      Item.callsAll body ≤ readRoom ∧
      o = ⟨path, moduleName, .fileBody ⟨some (numbered 1), tree.location⟩ body, isPackage,
        false⟩ := by
  obtain ⟨⟨root, stop⟩, hread, h⟩ := bind_eq_ok h
  simp only [run_bind_eq_ok, run_freshMark_eq_ok] at hread
  obtain ⟨mark, _, ⟨rfl, rfl⟩, body, _, hbody, hread⟩ := hread
  split at hread
  · cases hread
  · next hdepth =>
    obtain ⟨rfl, rfl⟩ := run_pure_eq_ok.mp hread
    cases h
    exact ⟨body, _, hbody, Nat.le_of_not_lt hdepth, rfl⟩

/-- The check sees the ids of an outline as consecutive numbers, and no file body inside it; and a
walk over it fits. -/
theorem checked_outline (hlegible : tree.Legible source) :
    ∃ mark body stop lambdas, o = ⟨path, moduleName, .fileBody mark body, isPackage, false⟩ ∧
      checkItems ⟨[], []⟩ o.root.preorder = .ok ⟨numbers stop, lambdas⟩ ∧
      (∀ i ∈ Item.preorderAll body, i.isFileBody = false) ∧ Item.Fits walkRoom body := by
  obtain ⟨body, stop, hbody, hdepth, rfl⟩ := exists_of_outline h
  have hfits : Fits [] 1 stop body :=
    makes_visitAll (visits_visit tree.height) (fun c hc => hlegible.child hc) 1 body stop hbody
  obtain ⟨lambdas, hrest⟩ := hfits.checked [] (by simp)
  refine ⟨_, body, stop, lambdas, rfl, ?_, fun i hi => (hfits.flat i hi).1, hdepth, fun i hi =>
    (hfits.flat i ((Item.walkedAll_sublist body).subset hi)).2⟩
  have hroot : checkItem ⟨[], []⟩ (.fileBody ⟨some (numbered 1), tree.location⟩ body) =
      .ok ⟨numbers 1, []⟩ := checkItem_numbered (k := 0) rfl rfl
  rw [Item.preorder, checkItems, hroot]
  exact hrest

theorem exists_digest_of_outline (hpath : path ≠ "") (hmodule : moduleName ≠ "")
    (hlegible : tree.Legible source) (version : Int) :
    o.check = .ok () ∧ ∃ d, ofOutline o version = .ok d := by
  obtain ⟨mark, body, stop, lambdas, rfl, hchecked, hflat, hfits⟩ := checked_outline h hlegible
  have hcheck := check_eq_ok_iff.mpr
    ⟨hpath, hmodule, isShallow_of_fits rfl hflat hfits, mark, body, _, rfl, hchecked⟩
  exact ⟨hcheck, (exists_ofOutline_iff_of_flat hcheck rfl hflat version).mpr hfits⟩

end

/-- An outline that is read from a legible syntax tree has distinct ids, names lambdas only after
they were given, imports only what has a target, and is digested without a report that it is
malformed. -/
theorem outline_wellFormed (h : outline path moduleName isPackage source tree = .ok o)
    (hpath : path ≠ "") (hmodule : moduleName ≠ "") (hlegible : tree.Legible source) :
    (∃ ids : List String, (o.root.preorder.map fun i => i.mark?.bind (·.id)) = ids.map some ∧
      ids.Nodup) ∧
    (∀ before mark a after, o.root.preorder = before ++ .assign mark a :: after → a.kind = .lambda →
      ∃ id m params body, a.value = some id ∧ m.id = some id ∧ .lambda m params body ∈ before) ∧
    (∀ mark target, .importDecl mark target ∈ o.root.preorder → target.HasTarget) ∧
    ∀ version, ∃ d, ofOutline o version = .ok d ∧ d.isFailed = false ∧
      ∀ path defect item, .malformed path defect item ∉ d.diagnostics := by
  obtain ⟨_, _, stop, lambdas, _, hchecked, _⟩ := checked_outline h hlegible
  refine ⟨⟨(numbers stop).reverse, ?_, List.nodup_reverse.mpr (nodup_numbers stop)⟩, ?_, ?_, ?_⟩
  · have hids :
      (numbers stop).map some = (o.root.preorder.map fun i => i.mark?.bind (·.id)).reverse := by
      simpa using (seen_of_checkItems hchecked).1
    rw [List.map_reverse, hids, List.reverse_reverse]
  · intro before mark a after hsplit hkind
    exact lambda_before (hsplit ▸ hchecked) hkind
  · intro mark target hmem
    obtain ⟨before, after, hsplit⟩ := List.append_of_mem hmem
    obtain ⟨_, _, _, _, hdefect⟩ := accepted_of_checkItems (hsplit ▸ hchecked)
    exact defect?_importDecl_eq_none_iff.mp hdefect
  · intro version
    obtain ⟨hcheck, d, hd⟩ := exists_digest_of_outline h hpath hmodule hlegible version
    exact ⟨d, hd, not_failed_of_check hcheck hd⟩

/-! ## A short file -/

/-- The text of a file that imports something and names a lambda. -/
def shortSource : ByteArray :=
  "import a\nf = lambda: g()\n".toUTF8

def shortNode (kind : String) (field : Option String) (start stop : Int)
    (children : List Cst) : Cst :=
  node ⟨kind, field, true, start, stop, 0, start⟩ children

def shortTree : Cst :=
  shortNode "module" none 0 25 [
    shortNode "import_statement" none 0 8 [],
    shortNode "assignment" none 9 24 [
      shortNode "identifier" (some "left") 9 10 [],
      shortNode "lambda" (some "right") 13 24 [
        shortNode "call" (some "body") 21 24 [
          shortNode "identifier" (some "function") 21 22 [],
          shortNode "argument_list" (some "arguments") 22 24 []]]]]

/-- The five items of the file, among them an assignment of the lambda, have distinct ids and are
digested. -/
theorem outline_wellFormed_of_shortTree :
    ∃ o, outline "m.py" "m" false shortSource shortTree = .ok o ∧
      (o.root.preorder.length = 5 ∧ o.root.preorder.any (fun i => i.namedLambda?.isSome) = true) ∧
      (∃ ids : List String, (o.root.preorder.map fun i => i.mark?.bind (·.id)) = ids.map some ∧
        ids.Nodup) ∧
      ∃ d, ofOutline o 1 = .ok d ∧ d.isFailed = false := by
  have hread : (outline "m.py" "m" false shortSource shortTree).toOption.any (fun o =>
      o.root.preorder.length = 5 ∧ o.root.preorder.any (fun i => i.namedLambda?.isSome)) := by
    decide +kernel
  obtain ⟨o, ho, hitems⟩ := exists_of_any hread
  have hlegible : shortTree.Legible shortSource := by
    unfold Legible
    decide +kernel
  obtain ⟨hids, _, _, hdigest⟩ := outline_wellFormed ho (by decide) (by decide) hlegible
  obtain ⟨d, hd, hfailed, _⟩ := hdigest 1
  exact ⟨o, ho, of_decide_eq_true hitems, hids, d, hd, hfailed⟩

end Xref.Cst

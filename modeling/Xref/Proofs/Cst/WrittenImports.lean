import Xref.Proofs.Cst.Numbering
import Xref.Proofs.Script.ReadBack

/-!
# Import statements in syntax trees

A node whose text is an import statement adds one item for each name that the statement imports.
-/

namespace Xref.Cst

open Script (Identifier ImportForm Laid)

/-- Import items at one place, with numbers after a given one. -/
def importsFrom (place : Location) : Nat → List Import → List Item
  | _, [] => []
  | k, i :: is => .importDecl ⟨some (numbered (k + 1)), place⟩ i :: importsFrom place (k + 1) is

theorem run_eachImport (n : Cst) (k : Nat) (imports : List Import) :
    (imports.mapM fun i => do return .importDecl (← freshMark n) i : Reading (List Item)).run k =
      .ok (importsFrom n.location k imports, k + imports.length) := by
  induction imports generalizing k with
  | nil => rfl
  | cons i is ih =>
    rw [List.mapM_cons]
    simp only [run_bind_eq_ok, run_pure_eq_ok, run_freshMark_eq_ok]
    refine ⟨_, k + 1, ⟨_, _, ⟨rfl, rfl⟩, rfl, rfl⟩, _, _, ih (k + 1), rfl, ?_⟩
    simp
    omega

variable {source : ByteArray} {n : Cst} {written : String} {form : ImportForm}

theorem run_importItems (htext : text source n = .ok written) (h : form.IsWritten written.toList)
    (k : Nat) :
    (importItems source n).run k = .ok (importsFrom n.location k (form.imports Identifier.name),
        k + (form.imports Identifier.name).length) := by
  have hnul : written.toList.contains '\x00' = false := by simpa using h.2.1
  refine run_bind_eq_ok.mpr ⟨written, k, run_lift_eq_ok.mpr ⟨htext, rfl⟩, ?_⟩
  rw [hnul, if_neg Bool.false_ne_true, h.imports]
  exact run_eachImport n k (form.imports Identifier.name)

/-- However an import statement is written, its node adds one item for each name that it imports, in
order, with the module, the name, the local name and the level of the statement. Identifiers are
read in their normal form: if each is its own, the items have the names that are written. -/
theorem importItems_of_isWritten (htext : text source n = .ok written)
    (h : form.IsWritten written.toList) (k : Nat) :
    (importItems source n).run k = .ok (importsFrom n.location k (form.imports Identifier.name),
        k + (form.imports Identifier.name).length) ∧
      ((∀ i ∈ form.identifiers, i.IsNormal) →
        form.imports Identifier.name = form.imports Identifier.text) :=
  ⟨run_importItems htext h k, form.imports_congr⟩

/-- A statement that imports a name in brackets from the package, with a local name. -/
def localImport : ImportForm :=
  .members 1 [] (.inl Nat.one_pos) (.bracketed
    ⟨[⟨⟨"a", by decide +kernel, by decide⟩, some ⟨"b", by decide +kernel, by decide⟩⟩],
      by simp⟩ true)

/-- The text of that statement, on three lines. -/
def localImportText : String :=
  "from .\\\nimport(a # first\n as b,)"

theorem localImport_isWritten : localImport.IsWritten localImportText.toList := by
  have hbehind : Laid true [.word "as", .word "b", .mark ",", .mark ")"] _ :=
    .cons [' '] (.blank rfl .nil) (by decide) (.cons [] .nil (by decide) (.cons [] .nil (by decide)
      (.cons [] .nil (by decide) .nil)))
  have hbody : Laid false localImport.tokens _ :=
    .cons [' '] (.blank rfl .nil) (by decide) (.cons ['\\', '\n'] (.joined .nil) (by decide)
      (.cons [] .nil (by decide) (.cons [] .nil (by decide)
        (.cons (' ' :: '#' :: (" first".toList ++ ['\n', ' ']))
          (.blank rfl (.comment " first".toList (by simp) rfl (.blank rfl .nil))) (by decide)
            hbehind))))
  have hlast : localImportText.toList.getLast? = some ')' := by decide +kernel
  refine ⟨⟨[], localImportText.toList, .nil, ?_, .refl (by decide +kernel)⟩, by decide +kernel,
    .inl (by simp [hlast])⟩
  exact cast (congrArg (Laid false localImport.tokens) (by decide +kernel)) hbody

def localImportNode : Cst :=
  .node ⟨"import_from_statement", none, true, 0, 32, 0, 0⟩ []

theorem importItems_localImport :
    text localImportText.toUTF8 localImportNode = .ok localImportText ∧
      localImport.IsWritten localImportText.toList ∧
      (∀ i ∈ localImport.identifiers, i.IsNormal) ∧
      (importItems localImportText.toUTF8 localImportNode).run 0 =
        .ok ([.importDecl ⟨some "n1", ⟨1, 1⟩⟩ ⟨"", some "a", some "b", 1⟩], 1) := by
  have htext : text localImportText.toUTF8 localImportNode = .ok localImportText := by
    decide +kernel
  have hnormal : ∀ i ∈ localImport.identifiers, i.IsNormal := by decide +kernel
  obtain ⟨hitems, hwritten⟩ := importItems_of_isWritten htext localImport_isWritten 0
  rw [hwritten hnormal] at hitems
  exact ⟨htext, localImport_isWritten, hnormal, hitems⟩

/-- A statement whose identifier is not its own normal form. -/
def longSImport : ImportForm :=
  .modules ⟨[⟨⟨[⟨"ſys", by decide +kernel, by decide⟩], by simp⟩, none⟩], by simp⟩

def longSImportText : String :=
  "import ſys"

theorem longSImport_isWritten : longSImport.IsWritten longSImportText.toList := by
  have hbody : Laid false longSImport.tokens _ :=
    .cons [' '] (.blank rfl .nil) (by decide) (.cons [] .nil (by decide) .nil)
  have hlast : longSImportText.toList.getLast? = some 's' := by decide +kernel
  refine ⟨⟨[], longSImportText.toList, .nil, ?_, .refl (by decide +kernel)⟩, by decide +kernel,
    .inl (by simp [hlast])⟩
  exact cast (congrArg (Laid false longSImport.tokens) (by decide +kernel)) hbody

def longSImportNode : Cst :=
  .node ⟨"import_statement", none, true, 0, 11, 0, 0⟩ []

/-- The module of such a statement is not the one that is written. -/
theorem long_s_is_not_kept :
    longSImport.IsWritten longSImportText.toList ∧
      longSImport.imports Identifier.text = [⟨"ſys", none, none, 0⟩] ∧
      (importItems longSImportText.toUTF8 longSImportNode).run 0 =
        .ok ([.importDecl ⟨some "n1", ⟨1, 1⟩⟩ ⟨"sys", none, none, 0⟩], 1) := by
  have htext : text longSImportText.toUTF8 longSImportNode = .ok longSImportText := by
    decide +kernel
  have hname : longSImport.imports Identifier.name = [⟨"sys", none, none, 0⟩] := by decide +kernel
  have hitems := run_importItems htext longSImport_isWritten 0
  rw [hname] at hitems
  exact ⟨longSImport_isWritten, by decide +kernel, hitems⟩

end Xref.Cst

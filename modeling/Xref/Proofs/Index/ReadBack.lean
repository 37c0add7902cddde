import Xref.Index.Persisted
import Xref.Proofs.Index.Assemble
import Xref.Proofs.Json.RoundTrip
import Xref.Proofs.SmallFiles

/-!
# A saved index read back

The data of every index has five layers, and every record of it names its fields once, so reading
gives back what was saved. What can fail is only the writing of an integer that is too long, and the
joining of two halves of a surrogate pair that stand next to each other in a text.
-/

namespace Xref

open List

namespace Json

variable {depth : Nat}

theorem layered_texts (ss : List String) : Layered (depth + 1) (texts ss) :=
  .arr (forall_mem_map.mpr fun s _ => .str s)

theorem layered_text? (s : Option String) : Layered depth (text? s) := by
  cases s with
  | none => exact .null
  | some s => exact .str s

theorem layered_int? (n : Option Int) : Layered depth (int? n) := by
  cases n with
  | none => exact .null
  | some n => exact .int n

theorem field?_eq_some_of_mem {fs : List (String × Json)} (hnames : (fs.map Prod.fst).Nodup)
    {f : String × Json} (h : f ∈ fs) : field? f.1 fs = some f.2 := by
  induction fs with
  | nil => simp at h
  | cons g fs ih =>
    rw [map_cons, nodup_cons] at hnames
    obtain rfl | h := mem_cons.mp h
    · simp [field?]
    · have hne : g.1 ≠ f.1 := fun heq => hnames.1 (heq ▸ mem_map_of_mem h)
      rw [field?, List.find?_cons_of_neg (by simpa using hne)]
      exact ih hnames.2 h

end Json

namespace Index

open Json Number

/-! ## The layers of the data -/

theorem layered_definitionRecord (d : Definition) : Layered 3 (definitionRecord d) := by
  refine .obj ?_ (by simp)
  simp only [forall_mem_cons, not_mem_nil, false_implies, implies_true, and_true]
  exact ⟨.str _, .str _, .str _, .str _, .str _, .int _, .int _, layered_text? _, .bool _, .bool _,
    layered_texts _, .int _, layered_int? _⟩

theorem layered_siteFields (s : Site) : Layered 3 (.obj (siteFields s)) := by
  refine .obj ?_ (by simp [siteFields])
  simp only [siteFields, forall_mem_cons, not_mem_nil, false_implies, implies_true, and_true]
  exact ⟨.str _, .str _, .int _, .int _, .int _, .str _, layered_text? _, .str _, layered_int? _,
    layered_texts _, .str _, .str _, .bool _, layered_texts _⟩

theorem layered_edgeRecord (s : Site) (target : DefId) : Layered 3 (edgeRecord s target) := by
  refine .obj ?_ (by simp)
  simp only [forall_mem_cons, not_mem_nil, false_implies, implies_true, and_true]
  exact ⟨.str _, .str _, .str _, .str _⟩

/-- The members of a class are distinct, so the names of their overrides are. -/
theorem layered_overridesRecord (e : ClassEntry) : Layered 2 (overridesRecord e) := by
  refine .obj (forall_mem_map.mpr fun o _ => layered_texts o.2) ?_
  rw [map_map]
  exact e.overrides.distinct

theorem layered_classRecord (e : ClassEntry) : Layered 3 (classRecord e) := by
  have horder : Layered 2 ((e.order.map Json.texts).getD .null) := by
    cases e.order with
    | none => exact .null
    | some order => exact layered_texts order
  refine .obj ?_ (by simp)
  simp only [forall_mem_cons, not_mem_nil, false_implies, implies_true, and_true]
  exact ⟨.str _, .str _, layered_texts _, layered_texts _, layered_texts _, horder, layered_texts _,
    layered_overridesRecord e, .bool _⟩

theorem layered_fileRecord (d : Digest) : Layered 3 (fileRecord d) := by
  refine .obj ?_ (by simp)
  simp only [forall_mem_cons, not_mem_nil, false_implies, implies_true, and_true]
  exact ⟨.str _, .str _, .bool _⟩

theorem layered_toData (x : Index) : Layered 5 x.toData := by
  refine .obj ?_ (by simp)
  simp only [forall_mem_cons, not_mem_nil, false_implies, implies_true, and_true]
  refine ⟨.int _, .arr ?_, .arr ?_, .arr ?_, .arr ?_, .arr ?_⟩
  · exact forall_mem_map.mpr fun d _ => layered_fileRecord d
  · exact forall_mem_map.mpr fun d _ => layered_definitionRecord d
  · exact forall_mem_map.mpr fun e _ => layered_classRecord e
  · exact forall_mem_map.mpr fun s _ => layered_siteFields s
  · intro v hv
    obtain ⟨s, _, hv⟩ := mem_flatMap.mp hv
    obtain ⟨target, _, rfl⟩ := mem_map.mp hv
    exact layered_edgeRecord s target

/-! ## Reading -/

/-- The data of an index names the version of its format. -/
theorem ofText_of_parse {x : Index} {text : String}
    (h : parse maxDepth text = .ok x.toData.sorted) : ofText text = .ok x.toData.sorted := by
  have hlayered := layered_sorted (layered_toData x)
  rw [toData, sorted] at h hlayered ⊢
  cases hlayered with
  | obj _ hnames =>
    have hformat := field?_eq_some_of_mem hnames
      (mem_fields_sorted.mpr ⟨("format", .int formatVersion), mem_cons_self, rfl⟩)
    rw [ofText, h]
    dsimp only
    rw [hformat]
    rfl

theorem parse_of_ofText {text : String} {v : Json} (h : ofText text = .ok v) :
    parse maxDepth text = .ok v := by
  rw [ofText] at h
  split at h
  · cases h
  · next heq =>
    dsimp only at h
    split at h
    · rw [heq, ← Except.ok.inj h]
    · cases h
  · cases h

/-- For every index: saving it gives a text, and reading that text succeeds and gives the data of
the index with the fields of every object sorted, exactly if no integer of the data has more than
the greatest count of digits and every text of it is whole. Sorted data is the data but for the
order of fields. -/
theorem saved_reads_back_iff (x : Index) :
    ((∃ text, x.written = .ok text ∧ ofText text = .ok x.toData.sorted) ↔
      (∀ n ∈ x.toData.integers, n.natAbs < digitLimit) ∧
        ∀ s ∈ x.toData.strings, isWhole s.toList = true) ∧
      Reordered x.toData x.toData.sorted := by
  have hv := layered_toData x
  refine ⟨⟨?_, ?_⟩, reordered_sorted hv⟩
  · rintro ⟨text, hwritten, hread⟩
    obtain ⟨hint, rfl⟩ := write_eq_ok_iff.mp hwritten
    exact ⟨hint, (parse_pretty_eq_iff hv (by decide) hint).mp (parse_of_ofText hread)⟩
  · rintro ⟨hint, hwhole⟩
    have hparse := (parse_pretty_eq_iff hv (by decide : 5 ≤ maxDepth) hint).mpr hwhole
    exact ⟨x.toData.pretty, write_eq_ok_iff.mpr ⟨hint, rfl⟩, ofText_of_parse hparse⟩

/-- A file of so many lines that their count has one digit too many. -/
def tallFile : Outline :=
  ⟨"m.py", "m", .fileBody ⟨some "file", ⟨digitLimit, 1⟩⟩ [], false, true⟩

/-- An index is made of that file, but it cannot be saved. -/
theorem tall_file_is_not_saved :
    ∃ m, build [tallFile] .standard none = .ok m ∧ m.index.written = .error .integerTooLong := by
  have hbuilt : (build [tallFile] .standard none).toOption.any
      (fun m => m.index.toData.integers.any fun n => !decide (n.natAbs < digitLimit)) := by
    decide +kernel
  obtain ⟨m, hm, hlong⟩ := exists_of_any hbuilt
  refine ⟨m, hm, ?_⟩
  rw [written, write, if_neg]
  rw [all_eq_not_any_not, hlong]
  decide

end Index

end Xref

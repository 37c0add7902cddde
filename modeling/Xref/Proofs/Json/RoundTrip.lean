import Mathlib.Data.List.Forall2
import Xref.Proofs.Json.Values

/-!
# Saved values

A value is saved with its fields sorted. `parse_pretty_eq_iff` says which values are read back so:
those whose texts are whole. Sorting changes nothing but the order of fields (`reordered_sorted`).
-/

namespace Xref.Json

open List Number Text

/-! ## The texts of a value -/

mutual

/-- The texts of a value and the names of its fields. -/
def strings : Json → List String
  | str s => [s]
  | arr items => stringsOfItems items
  | obj fields => stringsOfFields fields
  | null | bool _ | int _ | real _ => []

def stringsOfItems : List Json → List String
  | [] => []
  | v :: vs => strings v ++ stringsOfItems vs

/-- The names of some fields and the texts of their values. -/
def stringsOfFields : List (String × Json) → List String
  | [] => []
  | (k, v) :: fs => k :: strings v ++ stringsOfFields fs

end

variable {s : String} {fs : List (String × Json)} {v : Json} {depth : Nat}

theorem mem_stringsOfItems {vs : List Json} : s ∈ stringsOfItems vs ↔ ∃ v ∈ vs, s ∈ strings v := by
  induction vs with
  | nil => simp [stringsOfItems]
  | cons v vs ih => simp [stringsOfItems, ih]

theorem mem_stringsOfFields : s ∈ stringsOfFields fs ↔ ∃ f ∈ fs, s = f.1 ∨ s ∈ strings f.2 := by
  induction fs with
  | nil => simp [stringsOfFields]
  | cons f fs ih => simp [stringsOfFields, ih, or_assoc]

/-! ## Values that stay as they are -/

theorem rejoinItems_eq_map (vs : List Json) : rejoinItems vs = vs.map rejoin := by
  induction vs with
  | nil => rfl
  | cons v vs ih => rw [rejoinItems, ih, map_cons]

def rejoinField (f : String × Json) : String × Json :=
  (String.ofList (rejoined f.1.toList), rejoin f.2)

theorem rejoinFields_cons (done : List (String × Json)) (f : String × Json)
    (fs : List (String × Json)) :
    rejoinFields done (f :: fs) = rejoinFields (setField (rejoinField f).1 (rejoinField f).2 done)
      fs := by
  rw [rejoinFields, rejoinField]

/-- A field that is given for the first time is put at the end. -/
theorem setField_of_not_mem {name : String} (h : name ∉ fs.map Prod.fst) :
    setField name v fs = fs ++ [(name, v)] := by
  induction fs with
  | nil => rfl
  | cons f fs ih =>
    rw [map_cons, mem_cons, not_or] at h
    rw [setField, if_neg (Ne.symm h.1), ih h.2, cons_append]

theorem length_setField_of_mem {name : String} (h : name ∈ fs.map Prod.fst) :
    (setField name v fs).length = fs.length := by
  induction fs with
  | nil => simp at h
  | cons f fs ih =>
    rw [setField]
    split
    · rfl
    · next hne =>
      rw [map_cons, mem_cons] at h
      have hmem := h.resolve_left (Ne.symm hne)
      rw [length_cons, length_cons, ih hmem]

/-- The fields are read one by one, unless two of their names are read as the same. -/
theorem rejoinFields_eq_or_shorter (done fs : List (String × Json)) :
    rejoinFields done fs = done ++ fs.map rejoinField ∨
      (rejoinFields done fs).length < done.length + fs.length := by
  have hle : ∀ (fs done : List (String × Json)),
    (rejoinFields done fs).length ≤ done.length + fs.length := by
    intro fs
    induction fs with
    | nil => exact fun done => Nat.le_refl _
    | cons f fs ih =>
      intro done
      have hstep :
        (setField (rejoinField f).1 (rejoinField f).2 done).length ≤ done.length + 1 := by
        by_cases h : (rejoinField f).1 ∈ done.map Prod.fst
        · rw [length_setField_of_mem h]
          omega
        · rw [setField_of_not_mem h, length_append]
          exact Nat.le_refl _
      have := ih (setField (rejoinField f).1 (rejoinField f).2 done)
      rw [rejoinFields_cons, length_cons]
      omega
  induction fs generalizing done with
  | nil => exact .inl (by simp [rejoinFields])
  | cons f fs ih =>
    rw [rejoinFields_cons, map_cons, length_cons]
    by_cases h : (rejoinField f).1 ∈ done.map Prod.fst
    · have := hle fs (setField (rejoinField f).1 (rejoinField f).2 done)
      rw [length_setField_of_mem h] at this
      exact .inr (by omega)
    · have hset : setField (rejoinField f).1 (rejoinField f).2 done = done ++ [rejoinField f] :=
        setField_of_not_mem h
      rw [hset]
      obtain heq | hlt := ih (done ++ [rejoinField f])
      · left
        rw [heq, append_assoc, singleton_append]
      · right
        rw [length_append, length_singleton] at hlt
        omega

/-- Fields whose names are read as different ones are read one by one. -/
theorem rejoinFields_of_nodup {done : List (String × Json)}
    (hnodup : ((done ++ fs.map rejoinField).map Prod.fst).Nodup) :
    rejoinFields done fs = done ++ fs.map rejoinField := by
  induction fs generalizing done with
  | nil => simp [rejoinFields]
  | cons f fs ih =>
    have hnew : (rejoinField f).1 ∉ done.map Prod.fst := by
      rw [map_append, nodup_append] at hnodup
      intro hmem
      exact hnodup.2.2 (rejoinField f).1 hmem (rejoinField f).1 (by simp) rfl
    have hset : setField (rejoinField f).1 (rejoinField f).2 done = done ++ [rejoinField f] :=
      setField_of_not_mem hnew
    have happend :
      done ++ [rejoinField f] ++ fs.map rejoinField = done ++ (f :: fs).map rejoinField := by simp
    rw [rejoinFields_cons, hset, ih (by rw [happend]; exact hnodup), happend]

theorem rejoinFields_eq_iff (hnodup : (fs.map Prod.fst).Nodup) :
    rejoinFields [] fs = fs ↔ ∀ f ∈ fs, rejoinField f = f := by
  constructor
  · intro heq
    obtain hmap | hlt := rejoinFields_eq_or_shorter [] fs
    · rw [heq, nil_append] at hmap
      have hid : fs.map rejoinField = fs.map id := by rw [← hmap, map_id]
      exact map_inj_left.mp hid
    · rw [heq, length_nil, Nat.zero_add] at hlt
      exact absurd hlt (Nat.lt_irrefl _)
  · intro hfixed
    have hmap : fs.map rejoinField = fs := by rw [map_congr_left hfixed, map_id']
    have hread : rejoinFields [] fs = [] ++ fs.map rejoinField :=
      rejoinFields_of_nodup (by rw [hmap]; exact hnodup)
    rwa [hmap, nil_append] at hread

theorem ofList_rejoined_eq_iff (s : String) :
    String.ofList (rejoined s.toList) = s ↔ isWhole s.toList := by
  rw [← rejoined_eq_iff]
  constructor
  · intro h
    rw [← String.toList_ofList (l := rejoined s.toList), h]
  · intro h
    rw [h, String.ofList_toList]

/-- Exactly the values whose texts are whole are read back as they are. -/
theorem rejoin_eq_iff (hv : Layered depth v) :
    rejoin v = v ↔ ∀ s ∈ v.strings, isWhole s.toList := by
  induction hv with
  | null | bool b | int n => simp [rejoin, strings]
  | str s => simpa [rejoin, strings] using ofList_rejoined_eq_iff s
  | @arr depth items _ ih =>
    have hitems : rejoinItems items = items ↔ ∀ v ∈ items, rejoin v = v := by
      rw [rejoinItems_eq_map]
      nth_rewrite 2 [← map_id items]
      exact map_inj_left
    rw [rejoin, arr.injEq, hitems]
    simp only [strings, mem_stringsOfItems]
    exact ⟨fun h s ⟨v, hv, hs⟩ => (ih v hv).mp (h v hv) s hs,
      fun h v hv => (ih v hv).mpr fun s hs => h s ⟨v, hv, hs⟩⟩
  | @obj depth fields _ hnames ih =>
    rw [rejoin, obj.injEq, rejoinFields_eq_iff hnames]
    simp only [strings, mem_stringsOfFields]
    constructor
    · rintro h s ⟨f, hf, hs⟩
      obtain ⟨hname, hvalue⟩ := Prod.ext_iff.mp (h f hf)
      obtain rfl | hs := hs
      · exact (ofList_rejoined_eq_iff f.1).mp hname
      · exact (ih f hf).mp hvalue s hs
    · intro h f hf
      have hname := (ofList_rejoined_eq_iff f.1).mpr (h f.1 ⟨f, hf, .inl rfl⟩)
      have hvalue := (ih f hf).mpr fun s hs => h s ⟨f, hf, .inr hs⟩
      exact Prod.ext hname hvalue

/-! ## The order of fields -/

/-- Values that differ in nothing but the order of the fields of their objects. -/
inductive Reordered : Json → Json → Prop
  | refl (v : Json) : Reordered v v
  | arr {items items' : List Json} (h : List.Forall₂ Reordered items items') :
      Reordered (arr items) (arr items')
  | obj {fields fields' fields'' : List (String × Json)}
      (hnames : fields'.map Prod.fst = fields.map Prod.fst)
      (h : List.Forall₂ Reordered (fields.map Prod.snd) (fields'.map Prod.snd))
      (hperm : fields'.Perm fields'') :
      Reordered (obj fields) (obj fields'')

theorem sortedItems_eq_map (vs : List Json) : sortedItems vs = vs.map sorted := by
  induction vs with
  | nil => rfl
  | cons v vs ih => rw [sortedItems, ih, map_cons]

theorem sortedFields_eq_map (fs : List (String × Json)) :
    sortedFields fs = fs.map fun f => (f.1, f.2.sorted) := by
  induction fs with
  | nil => rfl
  | cons f fs ih => rw [sortedFields, ih, map_cons]

theorem mem_fields_sorted {g : String × Json} :
    g ∈ sortOn (byText Prod.fst) (sortedFields fs) ↔ ∃ f ∈ fs, g = (f.1, f.2.sorted) := by
  simp [sortedFields_eq_map, eq_comm]

theorem reordered_sorted (hv : Layered depth v) : Reordered v v.sorted := by
  induction hv with
  | null | bool b | int n | str s => exact .refl _
  | arr _ ih =>
    rw [sorted, sortedItems_eq_map]
    exact .arr (forall₂_map_right_iff.mpr (forall₂_same.mpr ih))
  | obj _ _ ih =>
    rw [sorted, sortedFields_eq_map]
    refine .obj (by simp) ?_ (sortOn_perm _ _).symm
    rw [map_map, forall₂_map_left_iff, forall₂_map_right_iff]
    exact forall₂_same.mpr ih

theorem layered_sorted (hv : Layered depth v) : Layered depth v.sorted := by
  induction hv with
  | null => exact .null
  | bool b => exact .bool b
  | int n => exact .int n
  | str s => exact .str s
  | arr _ ih =>
    rw [sorted, sortedItems_eq_map]
    exact .arr (forall_mem_map.mpr ih)
  | @obj depth fields _ hnames ih =>
    rw [sorted]
    refine .obj ?_ ?_
    · intro g hg
      obtain ⟨f, hf, rfl⟩ := mem_fields_sorted.mp hg
      exact ih f hf
    · have hsame : (sortedFields fields).map Prod.fst = fields.map Prod.fst := by
        rw [sortedFields_eq_map, map_map]
        rfl
      have hperm := (sortOn_perm (byText Prod.fst) (sortedFields fields)).map Prod.fst
      rw [hsame] at hperm
      exact hperm.nodup_iff.mpr hnames

/-- What is collected from the items of arrays, and from the names and values of fields, does not
depend on the order of fields. -/
theorem mem_collect_sorted {α : Type} {collect : Json → List α} (isName : α → String → Prop)
    (harr : ∀ {x vs}, x ∈ collect (arr vs) ↔ ∃ v ∈ vs, x ∈ collect v)
    (hobj : ∀ {x fs}, x ∈ collect (obj fs) ↔ ∃ f ∈ fs, isName x f.1 ∨ x ∈ collect f.2)
    (hv : Layered depth v) {x : α} : x ∈ collect v.sorted ↔ x ∈ collect v := by
  induction hv with
  | null | bool b | int n | str s => rfl
  | arr _ ih =>
    simp only [sorted, sortedItems_eq_map, harr, mem_map, exists_exists_and_eq_and]
    exact exists_congr fun v => and_congr_right fun hv => ih v hv
  | obj _ _ ih =>
    simp only [sorted, hobj, mem_fields_sorted]
    constructor
    · rintro ⟨_, ⟨f, hf, rfl⟩, hx⟩
      exact ⟨f, hf, hx.imp id (ih f hf).mp⟩
    · rintro ⟨f, hf, hx⟩
      exact ⟨_, ⟨f, hf, rfl⟩, hx.imp id (ih f hf).mpr⟩

section

variable (hv : Layered depth v)
include hv

theorem mem_integers_sorted {n : Int} : n ∈ v.sorted.integers ↔ n ∈ v.integers :=
  mem_collect_sorted (fun _ _ => False) mem_integersOfItems
    (by simp [integers, mem_integersOfFields]) hv

theorem mem_strings_sorted : s ∈ v.sorted.strings ↔ s ∈ v.strings :=
  mem_collect_sorted (· = ·) mem_stringsOfItems mem_stringsOfFields hv

theorem parse_pretty {maxDepth : Nat} (hdepth : depth ≤ maxDepth)
    (hint : ∀ n ∈ v.integers, n.natAbs < digitLimit) :
    parse maxDepth v.pretty = .ok (rejoin v.sorted) :=
  parse_renderChars (layered_sorted hv) hdepth (fun n hn =>
    hint n ((mem_integers_sorted hv).mp hn)) _

/-- A saved value is read back, but for the order of fields, exactly if its texts are whole. -/
theorem parse_pretty_eq_iff {maxDepth : Nat} (hdepth : depth ≤ maxDepth)
    (hint : ∀ n ∈ v.integers, n.natAbs < digitLimit) :
    parse maxDepth v.pretty = .ok v.sorted ↔ ∀ s ∈ v.strings, isWhole s.toList := by
  rw [parse_pretty hv hdepth hint, Except.ok.injEq, rejoin_eq_iff (layered_sorted hv)]
  exact forall_congr' fun s => imp_congr_left (mem_strings_sorted hv)

end

theorem write_eq_ok_iff {text : String} :
    v.write = .ok text ↔ (∀ n ∈ v.integers, n.natAbs < digitLimit) ∧ text = v.pretty := by
  have hall : (v.integers.all fun n => n.natAbs < digitLimit) ↔
      ∀ n ∈ v.integers, n.natAbs < digitLimit := by
    simp
  rw [write]
  split
  · next h =>
    rw [Except.ok.injEq]
    exact ⟨fun heq => ⟨hall.mp h, heq.symm⟩, fun hv => hv.2.symm⟩
  · next h => exact ⟨by simp, fun hv => absurd (hall.mpr hv.1) h⟩

end Xref.Json

/-!
# Maps in order of arrival

A map whose entries keep the order in which their keys first came. A new value for a known key
takes the place of the old one; a new key goes to the end. `get?` is the view: every operation is
described by what it does to it and to `keys`.
-/

namespace Xref

open List

/-- A finite map with distinct keys, listed in the order of their arrival. -/
structure OrderedMap (κ : Type u) (α : Type v) where
  entries : List (κ × α)
  distinct : (entries.map Prod.fst).Nodup
  deriving DecidableEq, Repr

namespace OrderedMap

variable {κ : Type u} {α : Type v}

section

variable (m : OrderedMap κ α)

@[ext] theorem ext {m n : OrderedMap κ α} (h : m.entries = n.entries) : m = n := by
  cases m
  cases n
  simp_all

def empty : OrderedMap κ α :=
  ⟨[], nodup_nil⟩

instance : EmptyCollection (OrderedMap κ α) := ⟨empty⟩

instance : Inhabited (OrderedMap κ α) := ⟨empty⟩

def keys : List κ :=
  m.entries.map Prod.fst

def values : List α :=
  m.entries.map Prod.snd

/-- The count of entries. -/
def size : Nat :=
  m.entries.length

/-- The entries whose keys `p` holds of. -/
def restrict (p : κ → Bool) : OrderedMap κ α :=
  ⟨m.entries.filter fun e => p e.1,
    (filter_sublist (l := m.entries)).map Prod.fst |>.nodup m.distinct⟩

/-- Every value changed along its key. -/
def mapValues (m : OrderedMap κ α) (f : κ → α → β) : OrderedMap κ β :=
  ⟨m.entries.map fun e => (e.1, f e.1 e.2), by
    have h : Prod.fst ∘ (fun e : κ × α => (e.1, f e.1 e.2)) = Prod.fst := rfl
    rw [map_map, h]
    exact m.distinct⟩

@[simp] theorem keys_mapValues (f : κ → α → β) : (m.mapValues f).keys = m.keys := by
  simp [keys, mapValues]

@[simp] theorem size_mapValues (f : κ → α → β) : (m.mapValues f).size = m.size := by
  simp [size, mapValues]

theorem values_mapValues (f : κ → α → β) :
    (m.mapValues f).values = m.entries.map fun e => f e.1 e.2 := by
  simp [values, mapValues]

theorem mapValues_restrict (f : α → β) (p : κ → Bool) :
    (m.restrict p).mapValues (fun _ => f) = (m.mapValues fun _ => f).restrict p := by
  apply ext
  simp only [mapValues, restrict, filter_map]
  rfl

end

variable [DecidableEq κ] (m : OrderedMap κ α)

/-- The value of the first entry with the given key. -/
def lookupIn (k : κ) : List (κ × α) → Option α
  | [] => none
  | e :: es => if e.1 = k then some e.2 else lookupIn k es

/-- Puts a value in the place of its key, or at the end. -/
def putIn (k : κ) (v : α) : List (κ × α) → List (κ × α)
  | [] => [(k, v)]
  | e :: es => if e.1 = k then (k, v) :: es else e :: putIn k v es

theorem mem_map_fst_putIn {k k' : κ} {v : α} {es : List (κ × α)} :
    k' ∈ (putIn k v es).map Prod.fst ↔ k' = k ∨ k' ∈ es.map Prod.fst := by
  induction es with
  | nil => simp [putIn]
  | cons e es ih =>
    rw [putIn]
    split
    · next h => simp [← h]
    · simp only [map_cons, mem_cons, ih]
      constructor
      · rintro (h | h | h) <;> simp [h]
      · rintro (h | h | h) <;> simp [h]

theorem nodup_putIn {k : κ} {v : α} {es : List (κ × α)} (h : (es.map Prod.fst).Nodup) :
    ((putIn k v es).map Prod.fst).Nodup := by
  induction es with
  | nil => simp [putIn]
  | cons e es ih =>
    rw [map_cons, nodup_cons] at h
    rw [putIn]
    split
    · next hk => simpa [← hk] using h
    · next hk =>
      rw [map_cons, nodup_cons, mem_map_fst_putIn]
      exact ⟨fun hm => hm.elim (fun e => hk e) h.1, ih h.2⟩

def get? (k : κ) : Option α :=
  lookupIn k m.entries

def contains (k : κ) : Bool :=
  (m.get? k).isSome

def insert (k : κ) (v : α) : OrderedMap κ α :=
  ⟨putIn k v m.entries, nodup_putIn m.distinct⟩

/-- Gives every key of a list its value, in order; the last value of a key stays. -/
def insertAll (es : List (κ × α)) : OrderedMap κ α :=
  es.foldl (fun m e => m.insert e.1 e.2) m

/-- The map of a list of entries, the last value of a key staying. -/
def ofList (es : List (κ × α)) : OrderedMap κ α :=
  empty.insertAll es

@[simp] theorem get?_empty (k : κ) : (empty : OrderedMap κ α).get? k = none := rfl

theorem lookupIn_putIn (k k' : κ) (v : α) (es : List (κ × α)) :
    lookupIn k' (putIn k v es) = if k' = k then some v else lookupIn k' es := by
  induction es with
  | nil => simp [putIn, lookupIn, eq_comm]
  | cons e es ih =>
    rw [putIn]
    split
    · next h =>
      by_cases hk : k' = k
      · simp [lookupIn, hk]
      · have : ¬ e.1 = k' := fun he => hk (he.symm.trans h)
        simp [lookupIn, hk, this, Ne.symm hk]
    · next h =>
      rw [lookupIn, ih]
      by_cases hk : k' = k
      · simp [hk, h]
      · simp [lookupIn, hk]

@[simp] theorem get?_insert (k k' : κ) (v : α) :
    (m.insert k v).get? k' = if k' = k then some v else m.get? k' :=
  lookupIn_putIn k k' v m.entries

theorem mem_keys_insert {m : OrderedMap κ α} {k k' : κ} {v : α} :
    k' ∈ (m.insert k v).keys ↔ k' = k ∨ k' ∈ m.keys :=
  mem_map_fst_putIn

theorem lookupIn_isSome {k : κ} {es : List (κ × α)} :
    (lookupIn k es).isSome = true ↔ k ∈ es.map Prod.fst := by
  induction es with
  | nil => simp [lookupIn]
  | cons e es ih =>
    rw [lookupIn]
    split
    · next h => simp [h]
    · next h => simp [ih, Ne.symm h]

@[simp] theorem contains_eq_true_iff {m : OrderedMap κ α} {k : κ} :
    m.contains k = true ↔ k ∈ m.keys :=
  lookupIn_isSome

theorem lookupIn_eq_some_iff {k : κ} {v : α} {es : List (κ × α)}
    (h : (es.map Prod.fst).Nodup) : lookupIn k es = some v ↔ (k, v) ∈ es := by
  induction es with
  | nil => simp [lookupIn]
  | cons e es ih =>
    obtain ⟨k', v'⟩ := e
    rw [map_cons, nodup_cons] at h
    rw [lookupIn]
    split
    · next hk =>
      have hk : k' = k := hk
      have hv : (k, v) ∉ es := fun hm => h.1 (hk ▸ mem_map.2 ⟨(k, v), hm, rfl⟩)
      simp [hk, hv, eq_comm]
    · next hk =>
      have hk : ¬ k' = k := hk
      rw [ih h.2]
      simp [Ne.symm hk]

theorem get?_eq_some_iff {m : OrderedMap κ α} {k : κ} {v : α} :
    m.get? k = some v ↔ (k, v) ∈ m.entries :=
  lookupIn_eq_some_iff m.distinct

theorem lookupIn_map (f : κ → α → β) (k : κ) (es : List (κ × α)) :
    lookupIn k (es.map fun e => (e.1, f e.1 e.2)) = (lookupIn k es).map (f k) := by
  induction es with
  | nil => rfl
  | cons e es ih =>
    rw [map_cons, lookupIn, lookupIn]
    split
    · next h => simp [← h]
    · exact ih

@[simp] theorem get?_mapValues (f : κ → α → β) (k : κ) :
    (m.mapValues f).get? k = (m.get? k).map (f k) :=
  lookupIn_map f k m.entries

theorem lookupIn_filter (p : κ → Bool) (k : κ) (es : List (κ × α)) :
    lookupIn k (es.filter fun e => p e.1) = if p k then lookupIn k es else none := by
  induction es with
  | nil => simp [lookupIn]
  | cons e es ih =>
    rw [filter_cons]
    by_cases hk : e.1 = k
    · cases hp : p k <;> simp [lookupIn, hk, hp, ih]
    · cases hp : p e.1 <;> simp [lookupIn, hk, ih]

@[simp] theorem get?_restrict (p : κ → Bool) (k : κ) :
    (m.restrict p).get? k = if p k then m.get? k else none :=
  lookupIn_filter p k m.entries

theorem lookupIn_append (k : κ) (es fs : List (κ × α)) :
    lookupIn k (es ++ fs) = (lookupIn k es).or (lookupIn k fs) := by
  induction es with
  | nil => rfl
  | cons e es ih =>
    rw [cons_append, lookupIn, lookupIn]
    split
    · rfl
    · exact ih

/-- Of several values for a key the last counts. -/
theorem get?_insertAll (es : List (κ × α)) (k : κ) :
    (m.insertAll es).get? k = (lookupIn k es.reverse).or (m.get? k) := by
  induction es generalizing m with
  | nil => rfl
  | cons e es ih =>
    have hstep : m.insertAll (e :: es) = (m.insert e.1 e.2).insertAll es := rfl
    rw [hstep, ih, reverse_cons, lookupIn_append, get?_insert]
    by_cases hk : k = e.1
    · cases lookupIn k es.reverse <;> simp [lookupIn, hk]
    · cases lookupIn k es.reverse <;> simp [lookupIn, hk, Ne.symm hk]

theorem get?_ofList (es : List (κ × α)) (k : κ) : (ofList es).get? k = lookupIn k es.reverse := by
  rw [ofList, get?_insertAll, get?_empty, Option.or_none]

theorem mem_keys_iff {m : OrderedMap κ α} {k : κ} : k ∈ m.keys ↔ ∃ v, m.get? k = some v := by
  rw [← contains_eq_true_iff, contains, Option.isSome_iff_exists]

theorem mem_values_of_get? {m : OrderedMap κ α} {k : κ} {v : α} (h : m.get? k = some v) :
    v ∈ m.values :=
  mem_map_of_mem (get?_eq_some_iff.mp h)

theorem get?_eq_none_iff {m : OrderedMap κ α} {k : κ} : m.get? k = none ↔ k ∉ m.keys := by
  rw [← contains_eq_true_iff, contains, Option.not_isSome_iff_eq_none]

theorem mem_keys_ofList {es : List (κ × α)} {k : κ} :
    k ∈ (ofList es).keys ↔ k ∈ es.map Prod.fst := by
  rw [← contains_eq_true_iff, contains, get?_ofList, lookupIn_isSome, map_reverse, mem_reverse]

theorem mem_of_get?_ofList {es : List (κ × α)} {k : κ} {v : α} (h : (ofList es).get? k = some v) :
    (k, v) ∈ es := by
  rw [get?_ofList, ← mem_reverse] at *
  generalize es.reverse = rs at h
  induction rs with
  | nil => simp [lookupIn] at h
  | cons e rs ih =>
    rw [lookupIn] at h
    split at h
    · next hk =>
      have he : e = (k, v) := Prod.ext hk (Option.some.inj h)
      simp [he]
    · exact mem_cons_of_mem _ (ih h)

theorem lookupIn_eq_head? (k : κ) (es : List (κ × α)) :
    lookupIn k es = ((es.filter fun e => e.1 = k).head?).map Prod.snd := by
  induction es with
  | nil => rfl
  | cons e es ih =>
    rw [lookupIn, filter_cons]
    by_cases hk : e.1 = k <;> simp [hk, ih]

/-- The value of a key in the map of a list is that of its last entry. -/
theorem get?_ofList_eq_getLast? (es : List (κ × α)) (k : κ) :
    (ofList es).get? k = ((es.filter fun e => e.1 = k).getLast?).map Prod.snd := by
  rw [get?_ofList, lookupIn_eq_head?, filter_reverse, head?_reverse]

/-- The keys of a filled map come in the order in which they are entered. -/
theorem keys_insertAll_sublist (es : List (κ × α)) :
    (m.insertAll es).keys.Sublist (m.keys ++ es.map Prod.fst) := by
  induction es generalizing m with
  | nil => simp [insertAll]
  | cons e es ih =>
    have hput : ∀ fs : List (κ × α),
        ((putIn e.1 e.2 fs).map Prod.fst).Sublist (fs.map Prod.fst ++ [e.1]) := by
      intro fs
      induction fs with
      | nil => simp [putIn]
      | cons f fs ihf =>
        rw [putIn]
        split
        · next hk => simp [hk]
        · simpa using ihf
    refine (ih (m.insert e.1 e.2)).trans ?_
    rw [map_cons, append_cons]
    exact (hput m.entries).append (.refl _)

theorem keys_ofList_sublist (es : List (κ × α)) : (ofList es).keys.Sublist (es.map Prod.fst) :=
  keys_insertAll_sublist empty es

theorem keys_insertAll_of_nodup {es : List (κ × α)} (h : (m.keys ++ es.map Prod.fst).Nodup) :
    (m.insertAll es).keys = m.keys ++ es.map Prod.fst := by
  induction es generalizing m with
  | nil => simp [insertAll]
  | cons e es ih =>
    have hput : ∀ fs : List (κ × α), e.1 ∉ fs.map Prod.fst →
        (putIn e.1 e.2 fs).map Prod.fst = fs.map Prod.fst ++ [e.1] := by
      intro fs
      induction fs with
      | nil => simp [putIn]
      | cons f fs ihf =>
        intro hf
        simp only [map_cons, mem_cons, not_or] at hf
        rw [putIn, if_neg (Ne.symm hf.1), map_cons, ihf hf.2]
        rfl
    rw [map_cons, append_cons] at h
    have hnew : e.1 ∉ m.keys := by
      intro hin
      rw [append_assoc, nodup_append] at h
      exact h.2.2 _ hin _ (by simp) rfl
    have hkeys : (m.insert e.1 e.2).keys = m.keys ++ [e.1] := hput m.entries hnew
    rw [← hkeys] at h
    rw [map_cons, append_cons, ← hkeys]
    exact ih (m.insert e.1 e.2) h

theorem keys_ofList_of_nodup {es : List (κ × α)} (h : (es.map Prod.fst).Nodup) :
    (ofList es).keys = es.map Prod.fst :=
  keys_insertAll_of_nodup empty h

theorem get?_ofList_of_nodup {es : List (κ × α)} (h : (es.map Prod.fst).Nodup) {k : κ} {v : α} :
    (ofList es).get? k = some v ↔ (k, v) ∈ es := by
  have hreverse : (es.reverse.map Prod.fst).Nodup := by
    rw [map_reverse]
    exact pairwise_reverse.mpr (h.imp Ne.symm)
  rw [get?_ofList, lookupIn_eq_some_iff hreverse, mem_reverse]

@[simp] theorem get?_ofList_entries (k : κ) : (ofList m.entries).get? k = m.get? k := by
  refine Option.ext fun v => ?_
  rw [get?_ofList_of_nodup m.distinct, get?_eq_some_iff]

/-- A map is given by its keys in order and their values. -/
theorem ext_get? {m n : OrderedMap κ α} (hk : m.keys = n.keys) (hv : ∀ k, m.get? k = n.get? k) :
    m = n := by
  have hentries : ∀ m : OrderedMap κ α,
      m.entries = m.keys.filterMap fun k => (m.get? k).map fun v => (k, v) := by
    intro m
    have hall : ∀ es : List (κ × α), (∀ e ∈ es, m.get? e.1 = some e.2) →
        es = (es.map Prod.fst).filterMap fun k => (m.get? k).map fun v => (k, v) := by
      intro es
      induction es with
      | nil => exact fun _ => rfl
      | cons e es ih =>
        intro h
        have he := h e mem_cons_self
        have hes := ih fun e' he' => h e' (mem_cons_of_mem _ he')
        rw [map_cons, filterMap_cons, he, Option.map_some, ← hes]
    exact hall m.entries fun e he => get?_eq_some_iff.mpr he
  apply ext
  rw [hentries m, hentries n, hk]
  simp only [hv]

theorem map_putIn (f : α → β) (k : κ) (v : α) (es : List (κ × α)) :
    (putIn k v es).map (fun e => (e.1, f e.2)) = putIn k (f v) (es.map fun e => (e.1, f e.2)) := by
  induction es with
  | nil => rfl
  | cons e es ih =>
    rw [map_cons, putIn, putIn]
    split
    · rfl
    · rw [map_cons, ih]

theorem mapValues_insert (f : α → β) (k : κ) (v : α) :
    (m.insert k v).mapValues (fun _ => f) = (m.mapValues fun _ => f).insert k (f v) :=
  ext (map_putIn f k v m.entries)

theorem mapValues_insertAll (f : α → β) (es : List (κ × α)) :
    (m.insertAll es).mapValues (fun _ => f) =
      (m.mapValues fun _ => f).insertAll (es.map fun e => (e.1, f e.2)) := by
  induction es generalizing m with
  | nil => rfl
  | cons e es ih =>
    have hstep : m.insertAll (e :: es) = (m.insert e.1 e.2).insertAll es := rfl
    rw [hstep, ih, mapValues_insert]
    rfl

theorem mapValues_ofList (f : α → β) (es : List (κ × α)) :
    (ofList es).mapValues (fun _ => f) = ofList (es.map fun e => (e.1, f e.2)) :=
  mapValues_insertAll empty f es

theorem get?_ofList_map (ks : List κ) (f : κ → α) (k : κ) :
    (ofList (ks.map fun k => (k, f k))).get? k = if k ∈ ks then some (f k) else none := by
  cases h : (ofList (ks.map fun k => (k, f k))).get? k with
  | none =>
    have hk : k ∉ (ofList (ks.map fun k => (k, f k))).keys := by
      rw [← contains_eq_true_iff, contains, h]
      simp
    have hks : k ∉ ks := by simpa [mem_keys_ofList] using hk
    rw [if_neg hks]
  | some v =>
    obtain ⟨k', hk', he⟩ := mem_map.1 (mem_of_get?_ofList h)
    obtain ⟨rfl, rfl⟩ := Prod.mk.inj he
    rw [if_pos hk']

end OrderedMap

end Xref

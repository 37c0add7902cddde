import Xref.Proofs.Meaning.ImportForms

/-!
# Classes around a scope

Without implicit members the names of a class are not seen from the functions in its body. The
lookup of a bare name keeps to this for the names that are declared or assigned. Imports it follows
from every scope around, classes included: so a class around a scope answers exactly if no visible
scope binds the name and the class is the nearest scope to import it.
-/

namespace Xref

open List Option OrderedMap Xref.Small

/-- A scope imports a name by itself, perhaps from another name. -/
def Scope.ImportsName (s : Scope) (name : String) : Prop :=
  (s.imports.get? name).isSome

namespace Catalog

/-- A scope imports all names of a module, and the name is defined there. -/
def ImportsAmongAll (c : Catalog) (s : Scope) (name : String) : Prop :=
  ∃ m ∈ s.starImports, (c.find? (m ++ "." ++ name)).isSome

/-- A scope is the first of some scopes that has a property. -/
def IsFirst (P : Scope → Prop) (scopes : List Scope) (o : Scope) : Prop :=
  ∃ inner outer, scopes = inner ++ o :: outer ∧ P o ∧ ∀ s ∈ inner, ¬P s

variable {o s : Scope} {c : Catalog} {scope : ScopeId}

theorem IsFirst.mem {P : Scope → Prop} {scopes : List Scope} (h : IsFirst P scopes o) :
    o ∈ scopes := by
  obtain ⟨inner, outer, rfl, _⟩ := h
  exact mem_append_right inner mem_cons_self

theorem IsFirst.eq_head {P : Scope → Prop} {outer : List Scope} (h : IsFirst P (s :: outer) o)
    (hs : P s) : o = s := by
  obtain ⟨inner, rest, heq, _, hinner⟩ := h
  cases inner with
  | nil => exact (List.cons.inj heq).1.symm
  | cons i inner =>
    obtain ⟨rfl, _⟩ := List.cons.inj heq
    exact absurd hs (hinner s mem_cons_self)

/-- From a scope a bare name is read as an import: no visible scope binds it, and the other scope is
the nearest to import it by itself, or among all names of a module where no scope around imports it
by itself. -/
structure ReadsImportOf (c : Catalog) (scope : ScopeId) (name : String) (o : Scope) : Prop where
  unbound : ∀ s ∈ c.visibleFrom scope, s.bindings.get? name = none
  nearest : IsFirst (·.ImportsName name) (c.scopeChain scope) o ∨
    (∀ s ∈ c.scopeChain scope, ¬s.ImportsName name) ∧
      IsFirst (c.ImportsAmongAll · name) (c.scopeChain scope) o

/-- A binding of a name is one that a scope has by an import. -/
def GivenByImport (name : String) (o : Scope) (b : Binding) : Prop :=
  o.imports.get? name = some b ∨ ∃ m ∈ o.starImports, b = ⟨name, o.id, .imported (m ++ "." ++ name)⟩

/-! ## The three rounds of a lookup -/

section

variable {c : Catalog} {scope : ScopeId} {name : String} {o : Scope} {scopes : List Scope}

/-- What a search along some scopes finds, if each scope can only answer for itself. -/
theorem exists_findSome?_iff {f : Scope → Option (Binding × Scope)}
    (hf : ∀ s r, f s = some r → r.2 = s) :
    (∃ b, scopes.findSome? f = some (b, o)) ↔ IsFirst (fun s => (f s).isSome) scopes o := by
  constructor
  · rintro ⟨b, h⟩
    obtain ⟨inner, s, outer, rfl, hs, hinner⟩ := List.findSome?_eq_some_iff.mp h
    obtain rfl : o = s := hf s _ hs
    exact ⟨inner, outer, rfl, isSome_of_eq_some hs, fun i hi => by simp [hinner i hi]⟩
  · rintro ⟨inner, outer, rfl, ho, hinner⟩
    obtain ⟨⟨b, s⟩, hs⟩ := isSome_iff_exists.mp ho
    obtain rfl : s = o := hf o _ hs
    exact ⟨b, List.findSome?_eq_some_iff.mpr
      ⟨inner, s, outer, rfl, hs, fun i hi => not_isSome_iff_eq_none.mp (hinner i hi)⟩⟩

theorem exists_firstBinding?_iff {map : Scope → OrderedMap String Binding} :
    (∃ b, firstBinding? map name scopes = some (b, o)) ↔
      IsFirst (fun s => ((map s).get? name).isSome) scopes o := by
  have hself : ∀ s r, (((map s).get? name).map fun b => (b, s)) = some r → r.2 = s := by
    intro s r hr
    obtain ⟨b, _, rfl⟩ := map_eq_some_iff.mp hr
    rfl
  rw [firstBinding?, exists_findSome?_iff hself]
  simp only [isSome_map]

theorem firstBinding?_eq_none_iff {map : Scope → OrderedMap String Binding} :
    firstBinding? map name scopes = none ↔ ∀ s ∈ scopes, (map s).get? name = none := by
  rw [firstBinding?, List.findSome?_eq_none_iff]
  exact forall₂_congr fun s _ => map_eq_none_iff

/-- An import of all names of a module gives a name that is found in it. -/
theorem mem_of_starBinding? {r : Binding × Scope} (h : c.starBinding? name s = some r) :
    r.2 = s ∧ ∃ m ∈ s.starImports, (c.find? (m ++ "." ++ name)).isSome ∧
      r.1 = ⟨name, s.id, .imported (m ++ "." ++ name)⟩ := by
  obtain ⟨m, hm, hfound⟩ := exists_of_findSome?_eq_some h
  obtain ⟨x, hx, rfl⟩ := map_eq_some_iff.mp hfound
  exact ⟨rfl, m, hm, by rw [hx]; rfl, rfl⟩

theorem isSome_starBinding?_iff : (c.starBinding? name s).isSome ↔ c.ImportsAmongAll s name := by
  rw [starBinding?, List.findSome?_isSome_iff]
  simp only [isSome_map, ImportsAmongAll]

theorem exists_starBinding?_iff :
    (∃ b, scopes.findSome? (c.starBinding? name) = some (b, o)) ↔
      IsFirst (c.ImportsAmongAll · name) scopes o := by
  rw [exists_findSome?_iff fun s r hr => (mem_of_starBinding? hr).1]
  simp only [isSome_starBinding?_iff]

/-- The scope that answers is the nearest visible one to bind the name, or the one whose import is
read. -/
theorem exists_lookup?_iff : (∃ b, c.lookup? scope name = some (b, o)) ↔
    IsFirst (fun s => (s.bindings.get? name).isSome) (c.visibleFrom scope) o ∨
      c.ReadsImportOf scope name o := by
  have himports : (∃ b, firstBinding? (·.imports) name (c.scopeChain scope) = some (b, o)) ↔
      IsFirst (·.ImportsName name) (c.scopeChain scope) o :=
    exists_firstBinding?_iff
  rw [lookup?_eq, ← exists_firstBinding?_iff]
  cases hbound : firstBinding? (·.bindings) name (c.visibleFrom scope) with
  | some r =>
    refine ⟨.inl, fun h => h.resolve_right fun hread => ?_⟩
    rw [firstBinding?_eq_none_iff.mpr hread.unbound] at hbound
    cases hbound
  | none =>
    have hunbound := firstBinding?_eq_none_iff.mp hbound
    cases himported : firstBinding? (·.imports) name (c.scopeChain scope) with
    | some r =>
      rw [himported] at himports
      refine ⟨fun h => .inr ⟨hunbound, .inl (himports.mp h)⟩, ?_⟩
      rintro (⟨b, hb⟩ | ⟨_, hfirst | ⟨hnot, _⟩⟩)
      · cases hb
      · exact himports.mpr hfirst
      · obtain ⟨hmem, hget⟩ := mem_of_firstBinding? himported
        exact absurd (by rw [Scope.ImportsName, hget]; rfl) (hnot r.2 hmem)
    | none =>
      have hnot : ∀ s ∈ c.scopeChain scope, ¬s.ImportsName name := fun s hs h => by
        rw [Scope.ImportsName, firstBinding?_eq_none_iff.mp himported s hs] at h
        cases h
      refine ⟨fun h => .inr ⟨hunbound, .inr ⟨hnot, exists_starBinding?_iff.mp h⟩⟩, ?_⟩
      rintro (⟨b, hb⟩ | ⟨_, hfirst | ⟨_, hfirst⟩⟩)
      · cases hb
      · obtain ⟨b, hb⟩ := himports.mpr hfirst
        rw [himported] at hb
        cases hb
      · exact exists_starBinding?_iff.mpr hfirst

/-- A scope that does not bind a name answers with one of its imports. -/
theorem givenByImport_of_lookup? {b : Binding}
    (hunbound : ∀ s ∈ c.visibleFrom scope, s.bindings.get? name = none)
    (h : c.lookup? scope name = some (b, o)) : GivenByImport name o b := by
  rw [lookup?_eq, firstBinding?_eq_none_iff.mpr hunbound] at h
  cases himported : firstBinding? (·.imports) name (c.scopeChain scope) with
  | some r =>
    rw [himported] at h
    cases h
    exact .inl (mem_of_firstBinding? himported).2
  | none =>
    rw [himported] at h
    obtain ⟨s, _, hs⟩ := exists_of_findSome?_eq_some h
    obtain ⟨rfl, m, hm, _, hb⟩ := mem_of_starBinding? hs
    exact .inr ⟨m, hm, hb⟩

end

/-! ## Classes that answer -/

section

variable (hs : c.scopes.get? scope = some s)
include hs

theorem scopeChain_eq : c.scopeChain scope = s :: c.chainFrom (c.scopes.size - 1) s.parent := by
  have hmem : scope ∈ c.scopes.keys := mem_keys_iff.mpr ⟨s, hs⟩
  obtain ⟨n, hn⟩ : ∃ n, c.scopes.size = n + 1 := by
    refine Nat.exists_eq_add_one.mpr ?_
    simpa [OrderedMap.keys, size] using length_pos_of_mem hmem
  rw [scopeChain, hn, chainFrom, hs]
  rfl

/-- Visible are the scope itself and the scopes around, but without implicit members no classes
around. -/
theorem mem_visibleFrom_iff :
    o ∈ c.visibleFrom scope ↔ o = s ∨ o ∈ c.chainFrom (c.scopes.size - 1) s.parent ∧
      (o.kind = .classBody → c.hasImplicitMembers s) := by
  rw [visibleFrom, scopeChain_eq hs]
  simp only [List.head?_cons, map_some, getD_some, visibleScopes, mem_cons, mem_filter,
    Bool.or_eq_true, decide_eq_true_eq, imp_iff_not_or, ne_eq]

/-- Without implicit members no class but the scope itself is visible. -/
theorem eq_of_mem_visibleFrom {d : Digest} (hd : c.files.get? s.path = some d)
    (himplicit : d.implicitMembers = false) (ho : o ∈ c.visibleFrom scope)
    (hclass : o.kind = .classBody) : o = s := by
  refine ((mem_visibleFrom_iff hs).mp ho).resolve_right fun h => ?_
  have hmembers := h.2 hclass
  rw [hasImplicitMembers, hd, map_some, getD_some, himplicit] at hmembers
  cases hmembers

end

/-- **Classes answer for scopes in them by imports alone.** In a file without implicit members, a
class other than the scope itself answers for a bare name only with one of its imports, and then it
is the nearest scope around to import the name, and no visible scope binds it. So no class around is
seen from a scope exactly if none of them is the nearest to import the name. -/
theorem lookup_hides_classes_iff (c : Catalog) {scope : ScopeId} {s : Scope} {d : Digest}
    (hs : c.scopes.get? scope = some s) (hd : c.files.get? s.path = some d)
    (himplicit : d.implicitMembers = false) (name : String) :
    (∀ b o, c.lookup? scope name = some (b, o) → o.kind = .classBody → o ≠ s →
      c.ReadsImportOf scope name o ∧ GivenByImport name o b) ∧
    ((∀ b o, c.lookup? scope name = some (b, o) → o.kind = .classBody → o = s) ↔
      ∀ o, c.ReadsImportOf scope name o → o.kind = .classBody → o = s) := by
  have hread : ∀ b o, c.lookup? scope name = some (b, o) → o.kind = .classBody → o ≠ s →
      c.ReadsImportOf scope name o := fun b o hlookup hclass hne =>
    (exists_lookup?_iff.mp ⟨b, hlookup⟩).resolve_left fun hfirst =>
      hne (eq_of_mem_visibleFrom hs hd himplicit hfirst.mem hclass)
  refine ⟨fun b o hlookup hclass hne => ?_, fun h o ho hclass => ?_, fun h b o hlookup hclass => ?_⟩
  · have ho := hread b o hlookup hclass hne
    exact ⟨ho, givenByImport_of_lookup? ho.unbound hlookup⟩
  · obtain ⟨b, hb⟩ := exists_lookup?_iff.mpr (.inr ho)
    exact h b o hb hclass
  · by_contra hne
    exact hne (h o (hread b o hlookup hclass hne) hclass)

end Catalog

/-- A file without implicit members. -/
def plainFile (path moduleName : String) (body : List Item) : Outline :=
  { file path moduleName body with implicitMembers := false }

/-- A class that declares `f` and imports `g`, in a file that declares `f` as well, and a method of
the class that imports `g` for itself. -/
def hidingCatalog : Catalog :=
  catalogOf [plainFile "m.py" "m"
    [functionItem "f" "f" false [], classItem "C" []
        [functionItem "F" "f" false [], importItem "i" "x" "g",
          functionItem "run" "run" false [importItem "j" "y" "g"]]]]

/-- The method reads `f` from the file and `g` from itself. -/
theorem lookup_hides_class_of_method :
    (hidingCatalog.lookup? "m.py#run" "f").map (·.2.id) = some "m.py#file" ∧
      (hidingCatalog.lookup? "m.py#run" "g").map (·.2.id) = some "m.py#run" ∧
      ∃ s, hidingCatalog.scopes.get? "m.py#run" = some s ∧ ∀ name ∈ ["f", "g"],
        ∀ b o, hidingCatalog.lookup? "m.py#run" name = some (b, o) → o.kind = .classBody →
          o = s := by
  have hscope : (hidingCatalog.scopes.get? "m.py#run").any fun s =>
      (hidingCatalog.files.get? s.path).any (!·.implicitMembers) &&
        (s.imports.get? "g").isSome := by
    decide +kernel
  have hbound : ∃ o ∈ hidingCatalog.visibleFrom "m.py#run", o.bindings.get? "f" ≠ none := by
    decide +kernel
  obtain ⟨s, hs, hscope⟩ := (any_eq_true _ _).mp hscope
  obtain ⟨hfile, hown⟩ := Bool.and_eq_true_iff.mp hscope
  obtain ⟨d, hd, himplicit⟩ := (any_eq_true _ _).mp hfile
  have hiff := hidingCatalog.lookup_hides_classes_iff hs hd ((Bool.not_eq_true' _).mp himplicit)
  refine ⟨by decide +kernel, by decide +kernel, s, hs, forall_mem_cons.mpr ⟨?_, ?_⟩⟩
  · refine (hiff "f").2.mpr fun o ho _ => ?_
    obtain ⟨i, hi, hbinds⟩ := hbound
    exact absurd (ho.unbound i hi) hbinds
  · refine forall_mem_singleton.mpr ((hiff "g").2.mpr fun o ho _ => ?_)
    have hnearest := ho.nearest
    rw [Catalog.scopeChain_eq hs] at hnearest
    obtain hfirst | ⟨hnot, _⟩ := hnearest
    · exact hfirst.eq_head hown
    · exact absurd hown (hnot s mem_cons_self)

/-- A class that imports `f` by itself and `g` among all names of a module, and a method of the
class. -/
def leakingCatalog : Catalog :=
  catalogOf
    [plainFile "x.py" "x" [functionItem "g" "g" false []], plainFile "m.py" "m"
        [classItem "C" []
          [importItem "i" "y" "f", importItem "j" "x" "*", functionItem "run" "run" false []]]]

/-- The method reads both names from the class around it, though its file has no implicit
members. -/
theorem lookup_sees_imports_of_class :
    ((leakingCatalog.scopes.get? "m.py#run").bind fun s => leakingCatalog.files.get? s.path).any
        (!·.implicitMembers) = true ∧
      ∀ name ∈ ["f", "g"], (leakingCatalog.lookup? "m.py#run" name).any
        (fun r => r.2.kind = .classBody ∧ r.2.id = "m.py#C") = true := by
  decide +kernel

end Xref

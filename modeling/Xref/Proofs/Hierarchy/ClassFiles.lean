import Xref.Proofs.Catalog.Apart
import Xref.Proofs.Hierarchy.Ancestry
import Xref.Proofs.SmallFiles
import Xref.Proofs.Text.Dotted

/-!
# Files of classes

A file that declares classes and nothing else, each by its name and the names of its bases. The walk
over it declares one class after the other, and in the catalog of the file every class has the bases
that are written: any finite graph of distinct bases is the graph of some file.
-/

namespace Xref.Small

open List OrderedMap Text Item Outline

/-- A file with classes, given by their names and bases. -/
def classFile (heads : List (String × List String)) : Outline :=
  file "m.py" "m" (heads.map fun h => classItem h.1 h.2 [])

def fileScope : ScopeId :=
  Scope.idOf "m.py" "file"

def classId (name : String) : DefId :=
  Definition.idOf "m.py" ("m" ++ "." ++ name)

theorem classId_injective {a b : String} (h : classId a = classId b) : a = b := by
  simpa using Definition.qualname_eq_of_idOf h

/-- A name that a class of the file may have. -/
structure Plain (name : String) : Prop where
  nonempty : name ≠ ""
  undotted : '.' ∉ name.toList
  ne_file : name ≠ "file"
  not_root : Hierarchy.isImplicitRoot name = false

/-! ## The check -/

theorem preorderAll_classes (heads : List (String × List String)) :
    preorderAll (heads.map fun h => classItem h.1 h.2 []) =
      heads.map fun h => classItem h.1 h.2 [] := by
  induction heads with
  | nil => rfl
  | cons h heads ih =>
    rw [map_cons, preorderAll, ih]
    simp [classItem, preorder, preorderAll]

variable {heads : List (String × List String)} {name : String}

theorem checkItems_classes (ids lambdas : List String) (hplain : ∀ h ∈ heads, Plain h.1)
    (hnodup : (heads.map Prod.fst).Nodup) (hnew : ∀ h ∈ heads, h.1 ∉ ids) :
    ∃ seen, checkItems ⟨ids, lambdas⟩ (heads.map fun h => classItem h.1 h.2 []) = .ok seen := by
  induction heads generalizing ids with
  | nil => exact ⟨_, rfl⟩
  | cons h heads ih =>
    obtain ⟨hfresh, hrest⟩ := nodup_cons.mp hnodup
    have hitem : checkItem ⟨ids, lambdas⟩ (classItem h.1 h.2 []) = .ok ⟨h.1 :: ids, lambdas⟩ := by
      simp [checkItem, classItem, mark?, mark, defect?,
        (hplain h (by simp)).nonempty, hnew h (by simp)]
    obtain ⟨seen, hseen⟩ := ih (h.1 :: ids) (fun k hk => hplain k (by simp [hk])) hrest
      fun k hk hin => by
        rcases mem_cons.mp hin with heq | hin
        · exact hfresh (heq ▸ mem_map_of_mem hk)
        · exact hnew k (by simp [hk]) hin
    refine ⟨seen, ?_⟩
    rw [map_cons, checkItems, hitem]
    exact hseen

theorem check_classFile (hplain : ∀ h ∈ heads, Plain h.1) (hnodup : (heads.map Prod.fst).Nodup) :
    (classFile heads).check = .ok () := by
  obtain ⟨seen, hseen⟩ := checkItems_classes ["file"] [] hplain hnodup
    fun h hh => by simpa using (hplain h hh).ne_file
  have hroot : checkItems ⟨[], []⟩ (classFile heads).root.preorder = .ok seen := by
    simp only [classFile, file, preorder, preorderAll_classes]
    rw [checkItems]
    exact hseen
  have hlevels : ∀ level ∈ levelsAll 1 (heads.map fun h => classItem h.1 h.2 []), level = 1 := by
    clear hplain hnodup hseen hroot
    induction heads with
    | nil => simp [levelsAll]
    | cons h heads ih => simpa [classItem, levelsAll, levels] using ih
  have hshallow : (classFile heads).isShallow := by
    refine all_eq_true.mpr (forall_mem_cons.mpr ⟨rfl, fun level hlevel => ?_⟩)
    rw [hlevels level hlevel]
    rfl
  refine check_eq_ok_iff.mpr ⟨?_, ?_, hshallow, _, _, seen, rfl, hroot⟩ <;> simp [classFile, file]

/-! ## The walk -/

/-- The tables of a file declare some classes: each is bound in the scope of the file, defined
there, and recorded with its bases. -/
structure Declares (heads : List (String × List String)) (definitions : OrderedMap DefId Definition)
    (scopes : OrderedMap ScopeId Scope) (classes : OrderedMap DefId ClassDecl) : Prop where
  scope : ∃ s, scopes.get? fileScope = some s ∧ s.kind = .fileBody ∧ s.parent = none ∧
    s.id = fileScope ∧ ∀ name, s.bindings.get? name =
      if name ∈ heads.map Prod.fst then some ⟨name, fileScope, .declared (classId name)⟩ else none
  definition : ∀ h ∈ heads, ∃ x, definitions.get? (classId h.1) = some x ∧ x.id = classId h.1 ∧
    x.kind = .classBody ∧ x.qualname = "m" ++ "." ++ h.1 ∧ x.scope = fileScope
  decl : ∀ h ∈ heads, ∃ body, classes.get? (classId h.1) = some ⟨classId h.1, h.2, body⟩
  exists_head : ∀ id ∈ classes.keys, ∃ h ∈ heads, id = classId h.1

/-- Where the walk over the file stands. -/
def filePlace : Place :=
  ⟨fileScope, .fileBody, "m", Definition.idOf "m.py" "m", none, walkRoom⟩

theorem scopeId_ne_fileScope (h : name ≠ "file") : Scope.idOf "m.py" name ≠ fileScope := by
  intro heq
  unfold fileScope Scope.idOf at heq
  exact h (String.append_right_inj _ |>.mp heq)

/-- With a class of a new name entered in each of them, the tables declare it beside the others. -/
theorem Declares.insert {definitions : OrderedMap DefId Definition}
    {scopes : OrderedMap ScopeId Scope} {classes : OrderedMap DefId ClassDecl}
    (h : Declares heads definitions scopes classes) {s : Scope}
    (hs : scopes.get? fileScope = some s) (hnew : name ∉ heads.map Prod.fst) {x : Definition}
    (hx : x.id = classId name ∧ x.kind = .classBody ∧ x.qualname = "m" ++ "." ++ name ∧
      x.scope = fileScope) (bases : List String) (body : Scope) :
    Declares (heads ++ [(name, bases)]) (definitions.insert x.id x)
      ((scopes.insert body.id body).insert fileScope (s.bind name (.declared x.id)))
      (classes.insert x.id ⟨x.id, bases, body.id⟩) := by
  obtain ⟨_, hs', hkind, hparent, hid, hbindings⟩ := h.scope
  cases hs.symm.trans hs'
  have hne : ∀ k ∈ heads, classId k.1 ≠ x.id := fun k hk heq =>
    hnew (classId_injective (heq.trans hx.1) ▸ mem_map_of_mem hk)
  refine ⟨⟨s.bind name (.declared x.id), by simp, hkind, hparent, hid, fun n => ?_⟩, fun k hk => ?_,
    fun k hk => ?_, fun id hid => ?_⟩
  · by_cases hn : n = name
    · subst hn
      simp [Scope.bind, hx.1, hid]
    · have hold : n ∈ (heads ++ [(name, bases)]).map Prod.fst ↔
        n ∈ heads.map Prod.fst := by simp [hn]
      simp only [Scope.bind, OrderedMap.get?_insert, hn, if_false, hbindings, hold]
  · rcases mem_append.mp hk with hk | hk
    · simpa only [OrderedMap.get?_insert, hne k hk, if_false] using h.definition k hk
    · obtain rfl := mem_singleton.mp hk
      exact ⟨x, by simp [hx.1], hx⟩
  · rcases mem_append.mp hk with hk | hk
    · simpa only [OrderedMap.get?_insert, hne k hk, if_false] using h.decl k hk
    · obtain rfl := mem_singleton.mp hk
      exact ⟨body.id, by simp [hx.1]⟩
  · rcases mem_keys_insert.mp hid with rfl | hid
    · exact ⟨(name, bases), by simp, hx.1⟩
    · obtain ⟨k, hk, hidk⟩ := h.exists_head id hid
      exact ⟨k, by simp [hk], hidk⟩

/-- Walking over a class with a new name declares it beside the others. -/
theorem Declares.walk {d : Draft} (h : Declares heads d.definitions d.scopes d.classes)
    (hplain : Plain name) (hnew : name ∉ heads.map Prod.fst) (bases : List String) (version : Int) :
    ∃ d', walk ⟨"m.py", "m", false, version⟩ filePlace d (classItem name bases []) = .ok d' ∧
      Declares (heads ++ [(name, bases)]) d'.definitions d'.scopes d'.classes := by
  obtain ⟨s, hs, _, _, _, hbindings⟩ := h.scope
  have hscope : fileScope ≠ Scope.idOf "m.py" name := (scopeId_ne_fileScope hplain.ne_file).symm
  generalize hx : FileContext.classDefinition ⟨"m.py", "m", false, version⟩ filePlace (mark name)
    ⟨name, bases, []⟩ = x
  generalize hsc : FileContext.newScope ⟨"m.py", "m", false, version⟩ (mark name) .classBody
    (some fileScope) (some x.id) = sc
  have hscid : sc.id = Scope.idOf "m.py" name := by subst hsc; rfl
  have hxname : x.name = name := by subst hx; rfl
  have hget : (d.openScope sc).scopes.get? fileScope = some s := by
    simp only [Draft.openScope, OrderedMap.get?_insert, hscid, hscope, if_false, hs]
  have hreplaced : (d.openScope sc).replaced? fileScope x = none := by
    simp only [Draft.replaced?, Draft.bindingIn?, hget, hxname, Option.bind_some, hbindings, hnew,
      if_false, Option.map_none]
  have hdeclare : (d.openScope sc).declare fileScope x =
      { d with
        definitions := d.definitions.insert x.id x
        scopes := (d.scopes.insert sc.id sc).insert fileScope (s.bind name (.declared x.id)) } := by
    unfold Draft.declare
    rw [hreplaced]
    simp only [Draft.bind, Draft.modifyScope, hget, hxname]
    rfl
  -- what is left is the draft with the class in its three tables
  refine ⟨{ d with
    definitions := d.definitions.insert x.id x
    scopes := (d.scopes.insert sc.id sc).insert fileScope (s.bind name (.declared x.id))
    classes := d.classes.insert x.id ⟨x.id, bases, sc.id⟩ }, ?_, h.insert hs hnew ?_ bases sc⟩
  · rw [classItem, Xref.walk, Place.reserve, if_pos (by decide)]
    simp only [bind, Except.bind, hx, walkAll]
    simp only [filePlace, hsc, hdeclare]
  · subst hx
    exact ⟨rfl, rfl, rfl, rfl⟩

theorem Declares.walkAll {rest : List (String × List String)} {d : Draft}
    (h : Declares heads d.definitions d.scopes d.classes) (hplain : ∀ k ∈ rest, Plain k.1)
    (hnodup : ((heads ++ rest).map Prod.fst).Nodup) (version : Int) :
    ∃ d', walkAll ⟨"m.py", "m", false, version⟩ filePlace d (rest.map fun k =>
      classItem k.1 k.2 []) =
        .ok d' ∧ Declares (heads ++ rest) d'.definitions d'.scopes d'.classes := by
  induction rest generalizing heads d with
  | nil => exact ⟨d, rfl, by simpa using h⟩
  | cons k rest ih =>
    have hnew : k.1 ∉ heads.map Prod.fst := by
      rw [map_append, map_cons] at hnodup
      exact fun hin => (nodup_append'.mp hnodup).2.2 hin (by simp)
    obtain ⟨d₁, hwalk, h₁⟩ := h.walk (hplain k (by simp)) hnew k.2 version
    obtain ⟨d', hrest, h'⟩ :=
      ih h₁ (fun k' hk' => hplain k' (by simp [hk'])) (by simpa using hnodup)
    refine ⟨d', ?_, by simpa using h'⟩
    rw [map_cons, Xref.walkAll, hwalk]
    exact hrest

/-- The draft in which the walk over the file starts. -/
def fileDraft : Draft :=
  let file : FileContext := ⟨"m.py", "m", false, 1⟩
  (Draft.empty.openScope
    (file.newScope (mark "file") .fileBody none (some (Definition.idOf "m.py" "m")))).define
    (file.fileDefinition (mark "file"))

theorem declares_fileDraft :
    Declares [] fileDraft.definitions fileDraft.scopes fileDraft.classes where
  scope := ⟨_, rfl, rfl, rfl, rfl, fun _ => by simp; rfl⟩
  definition := by simp
  decl := by simp
  exists_head _ h := by cases h

theorem exists_digest_classFile (hplain : ∀ h ∈ heads, Plain h.1)
    (hnodup : (heads.map Prod.fst).Nodup) :
    ∃ d, Digest.ofOutline (classFile heads) 1 = .ok d ∧ d.path = "m.py" ∧
      Declares heads d.definitions d.scopes d.classes := by
  obtain ⟨d, hwalk, hd⟩ := declares_fileDraft.walkAll hplain (by simpa using hnodup) 1
  have hdraft : Digest.draftOf (classFile heads) 1 = .ok d := hwalk
  refine ⟨Digest.ofDraft (classFile heads) d, ?_, rfl, hd⟩
  unfold Digest.ofOutline
  rw [check_classFile hplain hnodup, hdraft]
  rfl

/-! ## The catalog -/

/-- The catalog of one digest has the tables of the digest. -/
theorem Declares.merge {d : Digest} (hs : d.Sound)
    (h : Declares heads d.definitions d.scopes d.classes) :
    Declares heads (Catalog.merge [d]).1.definitions (Catalog.merge [d]).1.scopes
      (Catalog.merge [d]).1.classes := by
  have hscopes : ∀ id, (Catalog.merge [d]).1.scopes.get? id = d.scopes.get? id := by
    intro id
    have hlist : (Catalog.merge [d]).1.scopes = .ofList (d.scopes.entries ++ []) := rfl
    rw [hlist, append_nil, OrderedMap.get?_ofList_entries]
  have hclasses : ∀ id, (Catalog.merge [d]).1.classes.get? id = d.classes.get? id := by
    intro id
    have hlist : (Catalog.merge [d]).1.classes = .ofList (d.classes.entries ++ []) := rfl
    rw [hlist, append_nil, OrderedMap.get?_ofList_entries]
  have hdefinitions : ∀ id x, d.definitions.get? id = some x →
      (Catalog.merge [d]).1.definitions.get? id = some x := by
    intro id x hx
    have hmem : id ∈ (Catalog.merge [d]).1.definitions.keys := by
      rw [Catalog.definitions_merge, mem_keys_ofList, map_map]
      refine mem_map.mpr ⟨x, mem_sortOn.mpr ?_, hs.id_eq hx⟩
      exact mem_flatMap.mpr ⟨d, mem_singleton.mpr rfl, mem_values_of_get? hx⟩
    obtain ⟨y, hy⟩ := mem_keys_iff.mp hmem
    obtain ⟨rfl, d', hd', id', hget⟩ := Catalog.exists_digest_of_get?_merge hy
    obtain rfl := mem_singleton.mp (Catalog.mem_of_mem_filesOf hd')
    rw [hs.id_eq hget, hget] at hx
    cases hx
    exact hy
  refine ⟨?_, fun k hk => ?_, fun k hk => ?_, fun id hid => h.exists_head id ?_⟩
  · simpa only [hscopes] using h.scope
  · obtain ⟨x, hx, hrest⟩ := h.definition k hk
    exact ⟨x, hdefinitions _ x hx, hrest⟩
  · simpa only [hclasses] using h.decl k hk
  · simpa only [mem_keys_iff, hclasses] using hid

namespace Declares

variable {heads : List (String × List String)} {c : Catalog}

variable (h : Declares heads c.definitions c.scopes c.classes)
include h

/-- In the scope of the file the name of a class means the class. -/
theorem meaning_name {name : String} (hplain : Plain name) (hname : name ∈ heads.map Prod.fst) :
    (((View.mk c none).name fileScope name).run []).1.meaning = .definition (classId name)
      none := by
  obtain ⟨s, hs, hkind, hparent, _, hbindings⟩ := h.scope
  obtain ⟨k, hk, rfl⟩ := mem_map.mp hname
  obtain ⟨x, hx, hid, _⟩ := h.definition k hk
  have hsize : ∃ n, c.scopes.size = n + 1 := by
    have hmem := OrderedMap.get?_eq_some_iff.mp hs
    exact ⟨c.scopes.size - 1, by have := length_pos_of_mem hmem; unfold OrderedMap.size; omega⟩
  obtain ⟨n, hn⟩ := hsize
  have hchain : c.scopeChain fileScope = [s] := by
    rw [Catalog.scopeChain, hn, Catalog.chainFrom, hs]
    cases n <;> simp [Catalog.chainFrom, hparent]
  have hlookup : c.lookup? fileScope k.1 = some (⟨k.1, fileScope, .declared (classId k.1)⟩, s) := by
    simp [Catalog.lookup?, hchain, Catalog.visibleScopes, Catalog.firstBinding?, hbindings, hname]
  have hhops : View.hops = 18 + 1 + 1 := rfl
  rw [View.name, hhops, View.nameAt, Dotted.parts_of_undotted hplain.undotted]
  simp only [headD_cons, hlookup, tail_cons, foldlM_nil]
  rw [View.bindingAt]
  simp only [View.reserve, hx, hid, hkind]
  rfl

/-- The name of a class that is no base yet adds the class to the bases. -/
theorem add_eq (hplain : ∀ k ∈ heads, Plain k.1) {bases : Hierarchy.Bases} {name : String}
    (hname : name ∈ heads.map Prod.fst) (hnew : classId name ∉ bases.resolved) :
    bases.add c fileScope name = { bases with resolved := bases.resolved ++ [classId name] } := by
  obtain ⟨k, hk, rfl⟩ := mem_map.mp hname
  obtain ⟨x, hx, hid, hkind, _⟩ := h.definition k hk
  have hmeaning := h.meaning_name (hplain k hk) hname
  unfold Hierarchy.Bases.add
  generalize ((View.mk c none).name fileScope k.1).run [] = named at hmeaning ⊢
  obtain ⟨r, mentions⟩ := named
  dsimp only at hmeaning
  have hclass : (some x).filter (fun d => d.kind = .classBody) = some x := by simp [hkind]
  simp [(hplain k hk).not_root, hmeaning, hx, hclass, hid, hnew]

theorem foldl_add_eq (hplain : ∀ k ∈ heads, Plain k.1) {names : List String}
    {bases : Hierarchy.Bases} (hnodup : names.Nodup)
    (hnames : ∀ name ∈ names, name ∈ heads.map Prod.fst)
    (hnew : ∀ name ∈ names, classId name ∉ bases.resolved) :
    (names.foldl (Hierarchy.Bases.add c fileScope) bases).resolved =
      bases.resolved ++ names.map classId := by
  induction names generalizing bases with
  | nil => simp
  | cons name names ih =>
    obtain ⟨hfresh, hrest⟩ := nodup_cons.mp hnodup
    rw [foldl_cons, h.add_eq hplain (hnames name (by simp)) (hnew name (by simp)), ih hrest
      fun n hn => hnames n (by simp [hn])]
    · simp
    · intro n hn hin
      rcases mem_append.mp hin with hin | hin
      · exact hnew n (by simp [hn]) hin
      · exact hfresh (classId_injective (mem_singleton.mp hin) ▸ hn)

/-- The bases that are written for a class, if they are distinct classes of the file, are its
bases. -/
theorem resolvedBases_eq (hplain : ∀ k ∈ heads, Plain k.1) {k : String × List String}
    (hk : k ∈ heads) (hnodup : k.2.Nodup) (hbases : ∀ base ∈ k.2, base ∈ heads.map Prod.fst) :
    Hierarchy.resolvedBases (Hierarchy.allBases c) (classId k.1) = k.2.map classId := by
  obtain ⟨x, hx, _, _, _, hscope⟩ := h.definition k hk
  obtain ⟨body, hdecl⟩ := h.decl k hk
  rw [Hierarchy.resolvedBases_allBases hdecl, Hierarchy.basesOf]
  simp only [hx, hscope]
  have hnew : ∀ name ∈ k.2, classId name ∉ (⟨[], []⟩ : Hierarchy.Bases).resolved := by simp
  simpa using h.foldl_add_eq hplain hnodup hbases hnew

end Declares

end Xref.Small

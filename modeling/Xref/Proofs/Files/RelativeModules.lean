import Xref.Digest.OfOutline
import Xref.Files.ModuleName
import Xref.Proofs.Text.Dotted

/-!
# Relative imports and the names of modules

The name of a module is read off the path of its file. The module that a relative import names is
read off the name of the importing module, a part for each folder. Both ways lead to the same name,
except from the package of the root itself, from files with dots in their path, and to the file of a
package.
-/

namespace Xref.Files.ModuleName

open List Text Text.Dotted FileContext

/-- A name that is one part of a dotted name. -/
def IsPart (name : String) : Prop :=
  name ≠ "" ∧ '.' ∉ name.toList

def dots (names : List String) : Nat :=
  (names.flatMap String.toList).count '.'

theorem length_flatMap_parts (names : List String) :
    (names.flatMap parts).length = names.length + dots names := by
  induction names with
  | nil => rfl
  | cons name names ih =>
    rw [flatMap_cons, length_append, ih, length_parts]
    simp only [dots, flatMap_cons, count_append, length_cons]
    omega

variable {x file name : String} {folders inner : List String}

theorem stem_source (h : IsPart x) : stem (x ++ ".py") = x := by
  have hparts : parts (x ++ ".py") = [x, "py"] := by
    rw [show x ++ ".py" = x ++ "." ++ "py" by rw [String.append_assoc]; rfl, parts_append_dot,
      parts_of_undotted h.2]
    rfl
  have hinit : init (x ++ ".py") = x := by rw [init, hparts]; rfl
  have hlast : last (x ++ ".py") = "py" := by rw [last, hparts]; rfl
  simp [stem, hinit, hlast, h.1]

/-! ## Climbing -/

/-- What is left of the parts of a module's name when the folders between it and a folder above are
taken off, a part for each: a part too many is left for each dot on the way. -/
def climbed (folders inner : List String) (name : String) : List String :=
  folders ++ ((inner ++ [name]).flatMap parts).take (dots (inner ++ [name]))

/-- The parts that an import with one dot more than `n` starts from. -/
def base (m : ModuleName) (n : Nat) : List String :=
  let parts := if m.isPackage then parts m.name else (parts m.name).dropLast
  parts.take (parts.length - n)

theorem absoluteModule_eq (m : ModuleName) (path : String) (version : Int) (x : String) (n : Nat) :
    absoluteModule ⟨path, m.name, m.isPackage, version⟩ x (n + 1) =
      join ([join (m.base n), x].filter (· ≠ "")) := by
  have hlevel : ((n : Int) + 1 = 0) ↔ False := ⟨fun h => by omega, False.elim⟩
  have hcount : ((n : Int) + 1 - 1).toNat = n := by omega
  unfold absoluteModule base
  simp only [hlevel, if_false, hcount]
  split
  · rfl
  · next h =>
    have hn : n = 0 := by omega
    rw [hn, Nat.sub_zero, take_length]

theorem take_append_way {folders way : List String} {k n : Nat} (h : way.length = k + n) :
    (folders ++ way).take ((folders ++ way).length - k) = folders ++ way.take n := by
  have hlength : (folders ++ way).length - k = folders.length + n := by
    rw [length_append]
    omega
  rw [hlength, take_length_add_append]

/-- Climbing from any file but that of the root's own package. -/
theorem base_ofFile {root : String} (hfolders : ∀ c ∈ folders, '.' ∉ c.toList)
    (hinner : ¬ (folders ++ inner = [] ∧ stem file = packageFile)) :
    (ofFile root (folders ++ inner) file).base inner.length = climbed folders inner
      (stem file) := by
  unfold ofFile
  split
  · -- the part of the module itself goes first
    have hlength : ((inner ++ [stem file]).flatMap parts).length =
        inner.length + 1 + dots (inner ++ [stem file]) := by
      rw [length_flatMap_parts, length_append, length_singleton]
    have hparts : parts (join (folders ++ inner ++ [stem file])) =
        folders ++ (inner ++ [stem file]).flatMap parts := by
      rw [parts_join (by simp), append_assoc, flatMap_append, flatMap_parts_of_undotted hfolders]
    simp only [base, hparts, climbed, Bool.false_eq_true, if_false]
    generalize (inner ++ [stem file]).flatMap parts = way at hlength
    have hne : way ≠ [] := by
      intro h
      simp [h] at hlength
      omega
    have hdrop : way.dropLast.length = inner.length + dots (inner ++ [stem file]) := by
      rw [length_dropLast]
      omega
    rw [dropLast_append_of_ne_nil hne, take_append_way hdrop, dropLast_eq_take, take_take,
      Nat.min_eq_left (by omega)]
  · next hstem =>
    have hpackage : stem file = packageFile := by simpa using hstem
    have hne : folders ++ inner ≠ [] := fun h => hinner ⟨h, hpackage⟩
    have hdots : dots (inner ++ [packageFile]) = dots inner := by simp [dots, packageFile]
    have hlength := length_flatMap_parts inner
    rw [if_neg (by simpa using hne)]
    simp only [base, climbed, if_true, hpackage, hdots, parts_join hne, flatMap_append,
      flatMap_parts_of_undotted hfolders]
    rw [take_append_way hlength, take_append_of_le_length (by omega)]

/-! ## Names -/

theorem undotted_of_mem_climbed (hfolders : ∀ c ∈ folders, '.' ∉ c.toList) {c : String}
    (hc : c ∈ climbed folders inner name) : '.' ∉ c.toList := by
  rcases mem_append.mp hc with hc | hc
  · exact hfolders c hc
  · obtain ⟨name, _, hc⟩ := mem_flatMap.mp (mem_of_mem_take hc)
    exact undotted_of_mem_parts hc

/-- The folder that climbing leads to: a single empty part counts as none. -/
def reached (folders inner : List String) (name : String) : List String :=
  if climbed folders inner name = [""] then [] else climbed folders inner name

theorem undotted_of_mem_reached (hfolders : ∀ c ∈ folders, '.' ∉ c.toList) {c : String}
    (hc : c ∈ reached folders inner name) : '.' ∉ c.toList := by
  unfold reached at hc
  split at hc
  · simp at hc
  · exact undotted_of_mem_climbed hfolders hc

/-- Names without dots that are joined to nothing are none, or one that is empty. -/
theorem join_eq_empty_iff {names : List String} (h : ∀ c ∈ names, '.' ∉ c.toList) :
    join names = "" ↔ names = [] ∨ names = [""] := by
  constructor
  · intro hjoin
    by_cases hne : names = []
    · exact .inl hne
    · right
      rw [← parts_join_of_undotted hne h, hjoin]
      rfl
  · rintro (rfl | rfl) <;> rfl

/-- A name after some others, of which nothing may be left. -/
theorem join_filter {names : List String} (h : ∀ c ∈ names, '.' ∉ c.toList) (hx : x ≠ "") :
    join ([join names, x].filter (· ≠ "")) =
      join ((if names = [""] then [] else names) ++ [x]) := by
  by_cases hempty : join names = ""
  · rcases (join_eq_empty_iff h).mp hempty with rfl | rfl <;> simp [join, hx]
  · have hnames : names ≠ [] ∧ names ≠ [""] := by
      rw [← not_or, ← join_eq_empty_iff h]
      exact hempty
    rw [if_neg hnames.2, join_append_singleton hnames.1]
    simp [hempty, hx, join]

/-- Climbing leads to the folder itself if there is no dot on the way, or only one that nothing
stands before. -/
theorem reached_eq_iff (hfolders : ∀ c ∈ folders, IsPart c) :
    reached folders inner name = folders ↔
      dots (inner ++ [name]) = 0 ∨
        folders = [] ∧ dots (inner ++ [name]) = 1 ∧ head (join (inner ++ [name])) = "" := by
  have hlength := length_flatMap_parts (inner ++ [name])
  have hhead : head (join (inner ++ [name])) =
      ((inner ++ [name]).flatMap parts).headD "" := by
    rw [Dotted.head, Dotted.parts_join (by simp)]
  rw [hhead]
  unfold reached climbed
  generalize (inner ++ [name]).flatMap parts = way at *
  generalize dots (inner ++ [name]) = n at *
  have hn : n < way.length := by
    rw [hlength, length_append, length_singleton]
    omega
  constructor
  · intro h
    by_cases hempty : folders ++ way.take n = [""]
    · rw [if_pos hempty] at h
      subst h
      have htake : way.take n = [""] := hempty
      have hone : n = 1 := by
        have hlen := congrArg List.length htake
        rw [length_take, length_singleton] at hlen
        omega
      refine .inr ⟨rfl, hone, ?_⟩
      cases way with
      | nil => rfl
      | cons first rest => simpa [hone] using htake
    · rw [if_neg hempty] at h
      have htake : way.take n = [] := append_cancel_left (h.trans (append_nil folders).symm)
      rcases take_eq_nil_iff.mp htake with h | h
      · exact .inl h
      · simp [h] at hn
  · rintro (rfl | ⟨rfl, rfl, hfirst⟩)
    · have hne : folders ≠ [""] := by
        rintro rfl
        exact (hfolders "" mem_cons_self).1 rfl
      simp [hne]
    · cases way with
      | nil => simp at hn
      | cons first rest =>
        have hfirst : first = "" := hfirst
        simp [hfirst]

/-! ## Agreement -/

theorem ofPath?_append (root folders : Path) (file : String) :
    ofPath? root (root ++ folders ++ [file]) = some (ofFile (root.getLastD "") folders file) := by
  rw [ofPath?, append_assoc, Path.below?_append]
  simp

theorem name_ofFile_source (hx : IsPart x) (root : String) (folders : List String) :
    (ofFile root folders (x ++ ".py")).name =
      if x ≠ packageFile then join (folders ++ [x])
      else if folders = [] then root else join folders := by
  simp only [ofFile, stem_source hx, List.isEmpty_iff]
  split
  · rfl
  · split <;> rfl

/-- From any file but that of the root's own package. -/
theorem absoluteModule_ofFile {root : String} (hfolders : ∀ c ∈ folders, '.' ∉ c.toList)
    (hx : IsPart x) (hinner : ¬ (folders ++ inner = [] ∧ stem file = packageFile)) (path : String)
    (version : Int) :
    absoluteModule ⟨path, (ofFile root (folders ++ inner) file).name,
        (ofFile root (folders ++ inner) file).isPackage, version⟩ x (inner.length + 1) =
      join (reached folders inner (stem file) ++ [x]) := by
  rw [absoluteModule_eq, base_ofFile hfolders hinner,
    join_filter (fun _ hc => undotted_of_mem_climbed hfolders hc) hx.1]
  rfl

/-- From the package of the root, which has the name of the root. -/
theorem absoluteModule_ofRoot (root : String) (hx : x ≠ "") (hstem : stem file = packageFile)
    (path : String) (version : Int) :
    absoluteModule ⟨path, (ofFile root [] file).name, (ofFile root [] file).isPackage, version⟩ x
        ((0 : Nat) + 1) =
      if root = "" then x else root ++ "." ++ x := by
  have hmodule : ofFile root [] file = ⟨root, true⟩ := by simp [ofFile, hstem]
  rw [absoluteModule_eq, hmodule]
  simp only [base, if_true, Nat.sub_zero, take_length, join_parts]
  split
  · next h => simp [h, hx, join]
  · next h => simp [h, hx, join]

theorem append_dot_ne_left (a x : String) : a ++ "." ++ x ≠ a := by
  intro h
  have hlength := congrArg String.length h
  simp only [String.length_append] at hlength
  have hdot : ".".length = 1 := rfl
  omega

theorem join_append_singleton_inj {as bs : List String} (has : ∀ c ∈ as, '.' ∉ c.toList)
    (hbs : ∀ c ∈ bs, '.' ∉ c.toList) (hx : '.' ∉ x.toList) :
    join (as ++ [x]) = join (bs ++ [x]) ↔ as = bs := by
  refine ⟨fun h => ?_, fun h => by rw [h]⟩
  have hundotted : ∀ names : List String, (∀ c ∈ names, '.' ∉ c.toList) → ∀ c ∈ names ++ [x],
    '.' ∉ c.toList := by
    intro names hnames c hc
    rcases mem_append.mp hc with hc | hc
    · exact hnames c hc
    · rwa [mem_singleton.mp hc]
  exact append_cancel_right
    (join_injective (hundotted as has) (hundotted bs hbs) (by simp) (by simp) h)

/-- The name of the file of a package is not that of a module in the folder, except at the root. -/
theorem join_append_packageFile_eq_iff (root : String) (folders : List String) :
    join (folders ++ [packageFile]) = (if folders = [] then root else join folders) ↔
      folders = [] ∧ root = packageFile := by
  by_cases hnil : folders = []
  · simp [hnil, join, eq_comm]
  · rw [if_neg hnil, join_append_singleton hnil]
    exact ⟨fun h => absurd h (append_dot_ne_left _ _), fun h => absurd h.1 hnil⟩

/-- A relative import that climbs from a file to a folder above it names the module of a file in
that folder as the path of that file does, exactly if it is not made in the package of a root that
has a name and there is no dot on the way, or only one right after the root that nothing stands
before. The file of a package is never named so, unless it is that of the root and the root has the
name of such files. -/
theorem relative_module_agrees_iff (root folders inner : Path) (file x : String)
    (hfolders : ∀ c ∈ folders, IsPart c) (hx : IsPart x) :
    ∃ importer target, ofPath? root (root ++ (folders ++ inner) ++ [file]) = some importer ∧
      ofPath? root (root ++ folders ++ [x ++ ".py"]) = some target ∧ ∀ path version,
        (x ≠ packageFile →
          (absoluteModule ⟨path, importer.name, importer.isPackage, version⟩ x
              (inner.length + 1) = target.name ↔
            (folders ++ inner = [] ∧ stem file = packageFile → root.getLastD "" = "") ∧
            (dots (inner ++ [stem file]) = 0 ∨ folders = [] ∧ dots (inner ++ [stem file]) = 1 ∧
              head (join (inner ++ [stem file])) = ""))) ∧
        (x = packageFile → dots (inner ++ [stem file]) = 0 →
          (absoluteModule ⟨path, importer.name, importer.isPackage, version⟩ x
              (inner.length + 1) = target.name ↔
            folders = [] ∧ ¬ (inner = [] ∧ stem file = packageFile) ∧
              root.getLastD "" = packageFile)) := by
  refine ⟨_, _, ofPath?_append root (folders ++ inner) file,
    ofPath?_append root folders (x ++ ".py"), fun path version => ?_⟩
  have hundotted : ∀ c ∈ folders, '.' ∉ c.toList := fun c hc => (hfolders c hc).2
  generalize root.getLastD "" = rootName
  rw [name_ofFile_source hx]
  by_cases hroot : folders ++ inner = [] ∧ stem file = packageFile
  · obtain ⟨hnil, hstem⟩ := hroot
    obtain ⟨rfl, rfl⟩ := append_eq_nil_iff.mp hnil
    have hdots : dots [packageFile] = 0 := by decide
    have habsolute := absoluteModule_ofRoot rootName hx.1 hstem path version
    simp only [nil_append, length_nil, hstem, habsolute] at *
    constructor
    · intro hne
      by_cases hname : rootName = ""
      · simp [hne, hname, hdots, join]
      · simp [hne, hname, join]
    · intro heq _
      by_cases hname : rootName = ""
      · simp [heq, hname, packageFile]
      · simp [heq, hname, append_dot_ne_left]
  · rw [absoluteModule_ofFile hundotted hx hroot]
    constructor
    · intro hne
      rw [if_pos hne, join_append_singleton_inj (fun _ hc => undotted_of_mem_reached hundotted hc)
        hundotted hx.2, reached_eq_iff hfolders]
      exact ⟨fun h => ⟨fun hpackage => absurd hpackage hroot, h⟩, And.right⟩
    · rintro rfl hdots
      rw [(reached_eq_iff hfolders).mpr (.inl hdots), if_neg (by simp),
        join_append_packageFile_eq_iff]
      refine ⟨fun h => ⟨h.1, fun hpackage => hroot ⟨?_, hpackage.2⟩, h.2⟩, fun h => ⟨h.1, h.2.2⟩⟩
      rw [h.1, hpackage.1]
      rfl

/-- A file two folders down imports a file of the folder above its own, and so does the package
beside it. -/
theorem relative_module_agrees_below_root :
    ofPath? ["home", "proj"] ["home", "proj", "pkg", "sub",
      "mod.py"] = some ⟨"pkg.sub.mod", false⟩ ∧
      ofPath? ["home", "proj"] ["home", "proj", "pkg", "sub",
        "__init__.py"] = some ⟨"pkg.sub", true⟩ ∧
      ofPath? ["home", "proj"] ["home", "proj", "pkg", "tool.py"] = some ⟨"pkg.tool", false⟩ ∧
      absoluteModule ⟨"pkg/sub/mod.py", "pkg.sub.mod", false, 1⟩ "tool" 2 = "pkg.tool" ∧
      absoluteModule ⟨"pkg/sub/__init__.py", "pkg.sub", true, 1⟩ "tool" 2 = "pkg.tool" := by
  have hfolders : ∀ c ∈ ["pkg"], IsPart c := by
    intro c hc
    rw [mem_singleton.mp hc]
    exact ⟨by decide, by decide⟩
  have hx : IsPart "tool" := ⟨by decide, by decide⟩
  have himporter : ofPath? ["home", "proj"] ["home", "proj", "pkg", "sub", "mod.py"] =
      some ⟨"pkg.sub.mod", false⟩ := by decide +kernel
  have hpackage : ofPath? ["home", "proj"] ["home", "proj", "pkg", "sub", "__init__.py"] =
      some ⟨"pkg.sub", true⟩ := by decide +kernel
  have htarget : ofPath? ["home", "proj"] ["home", "proj", "pkg", "tool.py"] =
      some ⟨"pkg.tool", false⟩ := by decide +kernel
  refine ⟨himporter, hpackage, htarget, ?_, ?_⟩
  · obtain ⟨i, t, hi, ht, hagree⟩ :=
      relative_module_agrees_iff ["home", "proj"] ["pkg"] ["sub"] "mod.py" "tool" hfolders hx
    cases himporter.symm.trans hi
    cases htarget.symm.trans ht
    exact ((hagree "pkg/sub/mod.py" 1).1 (by decide)).mpr ⟨by decide, .inl (by decide +kernel)⟩
  · obtain ⟨i, t, hi, ht, hagree⟩ :=
      relative_module_agrees_iff ["home", "proj"] ["pkg"] ["sub"] "__init__.py" "tool" hfolders hx
    cases hpackage.symm.trans hi
    cases htarget.symm.trans ht
    exact ((hagree "pkg/sub/__init__.py" 1).1 (by decide)).mpr ⟨by decide, .inl (by decide +kernel)⟩

/-- The package of a root with a name imports a file beside it under a name that this file does not
have. -/
theorem relative_module_differs_at_root :
    ofPath? ["home", "proj"] ["home", "proj", "__init__.py"] = some ⟨"proj", true⟩ ∧
      ofPath? ["home", "proj"] ["home", "proj", "x.py"] = some ⟨"x", false⟩ ∧
      absoluteModule ⟨"__init__.py", "proj", true, 1⟩ "x" 1 = "proj.x" := by
  decide +kernel

end Xref.Files.ModuleName

import Mathlib.Data.List.Chain
import Xref.Proofs.Text.Dotted
import Xref.Script.ImportStatement
import Xref.Script.Scanner

/-!
# Forms of import statements

Import statements as they are built from names, with the tokens that they consist of and the imports
that they stand for. Reading the tokens gives the imports back, also where three dots in a row are
one token.
-/

namespace Xref

open List

/-- Cutting undoes joining, unless a part holds the separator. -/
theorem splitAt_joinWith [DecidableEq α] {sep : α} {parts : List (List α)} (hne : parts ≠ [])
    (h : ∀ part ∈ parts, sep ∉ part) : splitAt sep (joinWith sep parts) = parts := by
  fun_induction joinWith sep parts with
  | case1 => exact absurd rfl hne
  | case2 part => exact splitAt_of_not_mem (h part mem_cons_self)
  | case3 part next parts ih =>
    obtain ⟨hpart, hparts⟩ := forall_mem_cons.mp h
    rw [splitAt_append, splitAt_of_not_mem hpart, ih (by simp) hparts, singleton_append]

theorem forall_mem_joinWith {p : α → Prop} {sep : α} {parts : List (List α)} (hsep : p sep)
    (h : ∀ part ∈ parts, ∀ x ∈ part, p x) : ∀ x ∈ joinWith sep parts, p x := by
  fun_induction joinWith sep parts with
  | case1 => simp
  | case2 part => exact h part mem_cons_self
  | case3 part next parts ih =>
    obtain ⟨hpart, hparts⟩ := forall_mem_cons.mp h
    exact forall_mem_append.mpr ⟨hpart, forall_mem_cons.mpr ⟨hsep, ih hparts⟩⟩

namespace Script

open Text

/-! ## Forms -/

/-- A name that is no keyword. -/
structure Identifier where
  text : String
  isIdentifier : isIdentifier text.toList
  not_keyword : text ∉ keywords

/-- A list that is not empty. -/
structure Several (α : Type) where
  items : List α
  ne_nil : items ≠ []

/-- What is imported, and the name that it gets, if it gets one. -/
structure Renamed (α : Type) where
  name : α
  localName : Option Identifier

/-- What stands behind the word `import` of a `from` statement. -/
inductive ImportedNames
  | all
  | listed (names : Several (Renamed Identifier))
  | bracketed (names : Several (Renamed Identifier)) (comma : Bool)

/-- An import statement. -/
inductive ImportForm
  | modules (names : Several (Renamed (Several Identifier)))
  | members (level : Nat) (source : List Identifier) (hasOrigin : 0 < level ∨
      source ≠ []) (names : ImportedNames)

/-! ## Imports -/

/-- The name that an identifier is read as. -/
def Identifier.name (i : Identifier) : String :=
  normalForm i.text

/-- The identifier is its own normal form. -/
def Identifier.IsNormal (i : Identifier) : Prop :=
  i.name = i.text
deriving Decidable

section Names

variable (name : Identifier → String)

/-- The names of identifiers with dots between them. -/
def pathName (path : List Identifier) : String :=
  Dotted.join (path.map name)

/-- The name of what is imported, with the name that it gets. -/
def Renamed.names (whole : α → String) (r : Renamed α) : String × Option String :=
  (whole r.name, r.localName.map name)

def ImportedNames.names : ImportedNames → List (String × Option String)
  | .all => [("*", none)]
  | .listed names => names.items.map (Renamed.names name name)
  | .bracketed names _ => names.items.map (Renamed.names name name)

/-- The imports of a statement whose identifiers have these names: one for each name. -/
def ImportForm.imports : ImportForm → List Import
  | .modules names =>
    (names.items.map (Renamed.names name fun path => pathName name path.items)).map fun n =>
      ⟨n.1, none, n.2, 0⟩
  | .members level source _ names =>
    (names.names name).map fun n => ⟨pathName name source, some n.1, n.2, level⟩

end Names

/-- The identifiers of what is imported and of the name that it gets. -/
def Renamed.identifiers (whole : α → List Identifier) (r : Renamed α) : List Identifier :=
  whole r.name ++ r.localName.toList

def ImportedNames.identifiers : ImportedNames → List Identifier
  | .all => []
  | .listed names => names.items.flatMap (Renamed.identifiers ([·]))
  | .bracketed names _ => names.items.flatMap (Renamed.identifiers ([·]))

/-- All identifiers of a statement. -/
def ImportForm.identifiers : ImportForm → List Identifier
  | .modules names => names.items.flatMap (Renamed.identifiers Several.items)
  | .members _ source _ names => source ++ names.identifiers

section Congruence

variable {f g : Identifier → String}

theorem Renamed.map_names_congr {rs : List (Renamed α)} {whole : α → List Identifier}
    {p q : α → String} (hwhole : ∀ a, (∀ i ∈ whole a, f i = g i) → p a = q a)
    (h : ∀ i ∈ rs.flatMap (Renamed.identifiers whole), f i = g i) :
    rs.map (Renamed.names f p) = rs.map (Renamed.names g q) := by
  refine map_congr_left fun r hr => ?_
  have hr : ∀ i ∈ whole r.name ++ r.localName.toList, f i = g i := fun i hi =>
    h i (mem_flatMap.mpr ⟨r, hr, hi⟩)
  obtain ⟨hname, hlocal⟩ := forall_mem_append.mp hr
  rw [Renamed.names, Renamed.names, hwhole _ hname]
  exact congrArg _ (Option.map_congr fun i hi => hlocal i (Option.mem_toList.mpr hi))

theorem ImportedNames.names_congr (names : ImportedNames) (h : ∀ i ∈ names.identifiers, f i = g i) :
    names.names f = names.names g := by
  cases names with
  | all => rfl
  | listed names => exact Renamed.map_names_congr (fun i hi => hi i mem_cons_self) h
  | bracketed names comma => exact Renamed.map_names_congr (fun i hi => hi i mem_cons_self) h

/-- The imports of a statement depend only on the names of its identifiers. -/
theorem ImportForm.imports_congr (form : ImportForm) (h : ∀ i ∈ form.identifiers, f i = g i) :
    form.imports f = form.imports g := by
  have hpath : ∀ path, (∀ i ∈ path, f i = g i) → pathName f path = pathName g path :=
    fun path hpath =>
    congrArg Dotted.join (map_congr_left hpath)
  cases form with
  | modules names =>
    exact congrArg (map _) (Renamed.map_names_congr (fun path => hpath path.items) h)
  | members level source hasOrigin names =>
    obtain ⟨hsource, hnames⟩ := forall_mem_append.mp h
    rw [ImportForm.imports, ImportForm.imports, hpath source hsource, names.names_congr hnames]

end Congruence

/-! ## Tokens -/

def Identifier.token (i : Identifier) : Token :=
  .word i.text

def Identifier.tokens (i : Identifier) : List Token :=
  [i.token]

/-- The tokens of names with dots between them. -/
def pathTokens (path : List Identifier) : List Token :=
  joinWith (.mark ".") (path.map Identifier.tokens)

/-- The word `as` and a name, if there is one. -/
def asName : Option Identifier → List Token
  | none => []
  | some i => .word "as" :: i.tokens

/-- What is imported, and the name that it gets. -/
def Renamed.tokens (spell : α → List Token) (r : Renamed α) : List Token :=
  spell r.name ++ asName r.localName

/-- What is imported, with commas between. -/
def namesTokens (spell : α → List Token) (names : Several (Renamed α)) : List Token :=
  joinWith (.mark ",") (names.items.map (Renamed.tokens spell))

/-- The tokens of the names that are imported. -/
def ImportedNames.tokens : ImportedNames → List Token
  | .all => [.mark "*"]
  | .listed names => namesTokens Identifier.tokens names
  | .bracketed names comma =>
    .mark "(" :: (namesTokens Identifier.tokens names ++ (if comma then [.mark ","] else []) ++
      [.mark ")"])

/-- The tokens of a statement, each dot for itself. -/
def ImportForm.tokens : ImportForm → List Token
  | .modules names => .word "import" :: namesTokens (fun path => pathTokens path.items) names
  | .members level source _ names =>
    .word "from" :: (List.replicate level (.mark ".") ++ pathTokens source ++ .word "import" ::
      names.tokens)

/-- Tokens as they are cut: three dots in a row may be one mark. -/
inductive Cut : List Token → List Token → Prop
  | nil : Cut [] []
  | cons (t : Token) {xs ts : List Token} (h : Cut xs ts) : Cut (t :: xs) (t :: ts)
  | dots {xs ts : List Token} (h : Cut xs ts) :
      Cut (.mark "." :: .mark "." :: .mark "." :: xs) (.mark "..." :: ts)

namespace ImportStatement

/-! ## Reading names -/

variable (i : Identifier)

theorem soleName?_tokens : soleName? i.tokens = some i.name := by
  simp [soleName?, Identifier.tokens, Identifier.token, i.not_keyword, Identifier.name]

theorem mapM_eq_some_map {f : β → Option γ} {g : α → β} {k : α → γ} (h : ∀ x, f (g x) = some (k x))
    (xs : List α) : (xs.map g).mapM f = some (xs.map k) := by
  induction xs with
  | nil => rfl
  | cons x xs ih => simp [h, ih]

def IsNamePart (t : Token) : Prop :=
  t = .mark "." ∨ ∃ i : Identifier, t = i.token

theorem token_ne_keyword {w : String} (hw : w ∈ keywords) : i.token ≠ .word w := by
  intro h
  cases h
  exact i.not_keyword hw

theorem not_isNamePart_keyword {w : String} (hw : w ∈ keywords) : ¬ IsNamePart (.word w) := by
  rintro (h | ⟨i, h⟩)
  · cases h
  · exact token_ne_keyword i hw h.symm

theorem not_isNamePart_comma : ¬ IsNamePart (.mark ",") := by
  rintro (h | ⟨i, h⟩)
  · simp at h
  · cases h

theorem isNamePart_tokens : ∀ t ∈ i.tokens, IsNamePart t := by
  simp [Identifier.tokens, IsNamePart]

theorem isNamePart_pathTokens (path : List Identifier) : ∀ t ∈ pathTokens path, IsNamePart t := by
  refine forall_mem_joinWith (.inl rfl) fun part hpart => ?_
  obtain ⟨i, _, rfl⟩ := mem_map.mp hpart
  exact isNamePart_tokens i

theorem dottedName?_pathTokens {path : List Identifier} (hne : path ≠ []) :
    dottedName? (pathTokens path) = some (pathName Identifier.name path) := by
  have hsplit : splitAt (.mark ".") (pathTokens path) = path.map Identifier.tokens := by
    refine splitAt_joinWith (by simpa using hne) fun part hpart => ?_
    obtain ⟨i, _, rfl⟩ := mem_map.mp hpart
    simp [Identifier.tokens, Identifier.token]
  rw [dottedName?, hsplit, mapM_eq_some_map soleName?_tokens]
  rfl

/-- What is imported is spelled in names and dots, and read back. -/
structure ReadsBack (read : List Token → Option String) (spell : α → List Token)
    (name : α → String) : Prop where
  reads : ∀ a, read (spell a) = some (name a)
  names : ∀ a, ∀ t ∈ spell a, IsNamePart t
  ne_nil : ∀ a, spell a ≠ []

theorem readsBack_identifier : ReadsBack soleName? Identifier.tokens Identifier.name where
  reads := soleName?_tokens
  names := isNamePart_tokens
  ne_nil i := by simp [Identifier.tokens]

theorem pathTokens_ne_nil {path : List Identifier} (hne : path ≠ []) : pathTokens path ≠ [] := by
  intro h
  have hread := dottedName?_pathTokens hne
  rw [h] at hread
  cases hread

theorem readsBack_path :
    ReadsBack dottedName? (fun path : Several Identifier => pathTokens path.items)
      fun path => pathName Identifier.name path.items where
  reads path := dottedName?_pathTokens path.ne_nil
  names path := isNamePart_pathTokens path.items
  ne_nil path := pathTokens_ne_nil path.ne_nil

namespace ReadsBack

variable {read : List Token → Option String} {spell : α → List Token} {name : α → String}

variable (h : ReadsBack read spell name)
include h

theorem renamed (r : Renamed α) :
    renamed? read (r.tokens spell) = some (r.names Identifier.name name) := by
  have hname : .word "as" ∉ spell r.name :=
    fun has => not_isNamePart_keyword (by decide) (h.names r.name _ has)
  cases hlocal : r.localName with
  | none =>
    rw [renamed?, Renamed.tokens, hlocal, asName, append_nil, splitAt_of_not_mem hname]
    simp [h.reads, Renamed.names, hlocal]
  | some i =>
    have hi : .word "as" ∉ i.tokens := by
      simpa [Identifier.tokens] using (token_ne_keyword i (show "as" ∈ keywords by decide)).symm
    rw [renamed?, Renamed.tokens, hlocal, asName, splitAt_append, splitAt_of_not_mem hname,
      splitAt_of_not_mem hi]
    simp [h.reads, Renamed.names, hlocal, soleName?_tokens]

variable (names : Several (Renamed α))

/-- The tokens of a list of names are cut at the commas into those of each name. -/
theorem splitAt_namesTokens :
    splitAt (.mark ",") (namesTokens spell names) = names.items.map (Renamed.tokens spell) := by
  refine splitAt_joinWith (by simpa using names.ne_nil) fun part hpart hcomma => ?_
  obtain ⟨r, _, rfl⟩ := mem_map.mp hpart
  rcases mem_append.mp hcomma with hname | hlocal
  · exact not_isNamePart_comma (h.names r.name _ hname)
  · cases hr : r.localName with
    | none => simp [hr, asName] at hlocal
    | some i => simp [hr, asName, Identifier.tokens, Identifier.token] at hlocal

theorem mapM_renamed? : (splitAt (.mark ",") (namesTokens spell names)).mapM (renamed? read) =
      some (names.items.map (Renamed.names Identifier.name name)) := by
  rw [h.splitAt_namesTokens, mapM_eq_some_map h.renamed]

theorem nil_not_mem : [] ∉ splitAt (.mark ",") (namesTokens spell names) := by
  rw [h.splitAt_namesTokens]
  intro hnil
  obtain ⟨r, _, hr⟩ := mem_map.mp hnil
  exact h.ne_nil r.name (append_eq_nil_iff.mp hr).1

end ReadsBack

/-- A last comma between brackets makes no difference. -/
theorem commaList_eq {tokens : List Token} (h : [] ∉ splitAt (.mark ",") tokens) (comma : Bool) :
    commaList (tokens ++ if comma then [.mark ","] else []) = splitAt (.mark ",") tokens := by
  cases comma with
  | false =>
    have hlast : (splitAt (.mark ",") tokens).getLast? ≠ some [] :=
      fun hlast => h (mem_of_getLast? hlast)
    simp [commaList, hlast]
  | true =>
    have hsplit :
      splitAt (.mark ",") (tokens ++ [.mark ","]) = splitAt (.mark ",") tokens ++ [[]] :=
      splitAt_append (.mark ",") tokens []
    simp [commaList, hsplit, splitAt_ne_nil]

/-- A list of names starts with a name. -/
theorem exists_namesTokens (names : Several (Renamed Identifier)) :
    ∃ (i : Identifier) (rest : List Token), namesTokens Identifier.tokens names = i.token ::
      rest := by
  obtain ⟨items, hne⟩ := names
  cases items with
  | nil => exact absurd rfl hne
  | cons r rs =>
    cases rs with
    | nil | cons next rs => exact ⟨r.name, _, rfl⟩

theorem importedNames?_tokens (names : ImportedNames) :
    importedNames? names.tokens = some (names.names Identifier.name) := by
  cases names with
  | all => rfl
  | listed names =>
    have hread := readsBack_identifier.mapM_renamed? names
    obtain ⟨i, rest, hfirst⟩ := exists_namesTokens names
    rw [ImportedNames.tokens, ImportedNames.names, ← hread, hfirst]
    rfl
  | bracketed names comma =>
    rw [ImportedNames.tokens, importedNames?, List.getLast?_concat, if_pos rfl, dropLast_concat,
      commaList_eq (readsBack_identifier.nil_not_mem names),
        readsBack_identifier.mapM_renamed? names]
    rfl

/-! ## Origins -/

theorem origin?_tokens {level : Nat} {source : List Identifier} (h : 0 < level ∨ source ≠ []) :
    origin? (List.replicate level (.mark ".") ++ pathTokens source) =
      some (level, pathName Identifier.name source) := by
  have hsource : (pathTokens source).takeWhile (· = .mark ".") = [] := by
    cases source with
    | nil => rfl
    | cons i source =>
      cases source <;> simp [pathTokens, joinWith, Identifier.tokens, Identifier.token]
  have hlevel :
    ((List.replicate level (Token.mark ".") ++ pathTokens source).takeWhile
      (· = .mark ".")).length = level := by
    rw [takeWhile_append_of_pos (by simp), hsource]
    simp
  rw [origin?, hlevel, drop_left' (by simp)]
  by_cases hne : source = []
  · subst hne
    have hpos : level ≠ 0 := by simp at h; omega
    simp [pathTokens, joinWith, hpos, pathName, Dotted.join]
  · have hread := dottedName?_pathTokens hne
    split
    · next hnil => exact absurd hnil (pathTokens_ne_nil hne)
    · rw [hread]
      rfl

end ImportStatement

/-! ## Cut tokens -/

/-- Tokens that neither start nor end with a dot, and among which no two dots follow each other. -/
structure Apart (xs : List Token) : Prop where
  ne_nil : xs ≠ []
  head : ∀ t ∈ xs.head?, t ≠ .mark "."
  last : ∀ t ∈ xs.getLast?, t ≠ .mark "."
  chain : xs.IsChain fun a b => ¬ (a = .mark "." ∧ b = .mark ".")

namespace Apart

variable {xs ys : List Token}

theorem singleton {t : Token} (h : t ≠ .mark ".") : Apart [t] where
  ne_nil := by simp
  head := by simpa using h
  last := by simpa using h
  chain := .singleton t

theorem append (hxs : Apart xs) (hys : Apart ys) : Apart (xs ++ ys) where
  ne_nil := by simp [hxs.ne_nil]
  head t ht := hxs.head t (by rwa [List.head?_append_of_ne_nil _ hxs.ne_nil] at ht)
  last t ht := hys.last t (by rwa [List.getLast?_append_of_ne_nil _ hys.ne_nil] at ht)
  chain := hxs.chain.append hys.chain fun a ha _ _ h => hxs.last a ha h.1

/-- Tokens of which a separator stands between any two, which may be a dot. -/
theorem append_cons (hxs : Apart xs) (hys : Apart ys) (sep : Token) : Apart (xs ++ sep :: ys) where
  ne_nil := by simp
  head t ht := hxs.head t (by rwa [List.head?_append_of_ne_nil _ hxs.ne_nil] at ht)
  last t ht := hys.last t (by
    rwa [← singleton_append, ← append_assoc, List.getLast?_append_of_ne_nil _ hys.ne_nil] at ht)
  chain := by
    refine hxs.chain.append ?_ fun a ha _ _ h => hxs.last a ha h.1
    cases hy : ys with
    | nil => exact .singleton sep
    | cons y rest =>
      have hhead : y ≠ .mark "." := hys.head y (by simp [hy])
      exact .cons_cons (fun h => hhead h.2) (hy ▸ hys.chain)

theorem joinWith {parts : List (List Token)} (hne : parts ≠ []) (h : ∀ part ∈ parts, Apart part)
    (sep : Token) : Apart (joinWith sep parts) := by
  fun_induction Xref.joinWith sep parts with
  | case1 => exact absurd rfl hne
  | case2 part => exact h part mem_cons_self
  | case3 part next parts ih =>
    obtain ⟨hpart, hparts⟩ := forall_mem_cons.mp h
    exact hpart.append_cons (ih (by simp) hparts) sep

theorem identifier (i : Identifier) : Apart i.tokens :=
  .singleton (by simp [Identifier.token])

theorem path {path : List Identifier} (hne : path ≠ []) : Apart (pathTokens path) := by
  refine joinWith (by simpa using hne) (fun part hpart => ?_) _
  obtain ⟨i, _, rfl⟩ := mem_map.mp hpart
  exact identifier i

theorem names {spell : α → List Token} (h : ∀ a, Apart (spell a)) (names : Several (Renamed α)) :
    Apart (namesTokens spell names) := by
  refine joinWith (by simpa using names.ne_nil) (fun part hpart => ?_) _
  obtain ⟨r, _, rfl⟩ := mem_map.mp hpart
  cases hlocal : r.localName with
  | none => simpa [Renamed.tokens, hlocal, asName] using h r.name
  | some i =>
    rw [Renamed.tokens, hlocal, asName]
    exact (h r.name).append_cons (identifier i) _

theorem imported (names : ImportedNames) : Apart names.tokens := by
  cases names with
  | all => exact .singleton (by simp)
  | listed names => exact .names identifier names
  | bracketed names comma =>
    have hclose : Apart [Token.mark ")"] := .singleton (by simp)
    have hopen : Apart [Token.mark "("] := .singleton (by simp)
    cases comma with
    | false =>
      simpa [ImportedNames.tokens] using hopen.append ((Apart.names identifier names).append hclose)
    | true =>
      simpa [ImportedNames.tokens]
        using hopen.append ((Apart.names identifier names).append_cons hclose (.mark ","))

end Apart

namespace Cut

variable {xs ts : List Token}

/-- The dots of a mark that is three dots are taken apart again. -/
theorem singleDots (h : Cut xs ts) (hdots : .mark "..." ∉ xs) :
    ImportStatement.singleDots ts = xs := by
  induction h with
  | nil => rfl
  | cons t h ih =>
    simp only [mem_cons, not_or] at hdots
    rw [ImportStatement.singleDots, flatMap_cons, if_neg (Ne.symm hdots.1)]
    exact congrArg (t :: ·) (ih hdots.2)
  | dots h ih =>
    simp only [mem_cons, not_or] at hdots
    rw [ImportStatement.singleDots, flatMap_cons, if_pos rfl]
    exact congrArg (List.replicate 3 (Token.mark ".") ++ ·) (ih hdots.2.2.2)

/-- A token that is no dot divides the cut tokens as it divides the tokens. -/
theorem split {left right : List Token} {t : Token} (h : Cut (left ++ t :: right) ts)
    (ht : t ≠ .mark ".") : ∃ ts₁ ts₂, ts = ts₁ ++ t :: ts₂ ∧ Cut left ts₁ ∧ Cut right ts₂ := by
  generalize hxs : left ++ t :: right = xs at h
  induction h generalizing left with
  | nil => simp at hxs
  | cons x h ih =>
    cases left with
    | nil =>
      cases hxs
      exact ⟨[], _, rfl, .nil, h⟩
    | cons y left =>
      cases hxs
      obtain ⟨ts₁, ts₂, rfl, hleft, hright⟩ := ih rfl
      exact ⟨_ :: ts₁, ts₂, rfl, .cons _ hleft, hright⟩
  | dots h ih =>
    -- the divider is none of the three dots
    rcases left with _ | ⟨a, _ | ⟨b, _ | ⟨c, left⟩⟩⟩
    all_goals simp only [nil_append, cons_append, List.cons.injEq] at hxs
    · exact absurd hxs.1 ht
    · exact absurd hxs.2.1 ht
    · exact absurd hxs.2.2.1 ht
    · obtain ⟨rfl, rfl, rfl, hxs⟩ := hxs
      obtain ⟨ts₁, ts₂, rfl, hleft, hright⟩ := ih hxs
      exact ⟨_ :: ts₁, ts₂, rfl, .dots hleft, hright⟩

theorem mem_or_dots {t : Token} (h : Cut xs ts) (ht : t ∈ ts) : t ∈ xs ∨ t = .mark "..." := by
  induction h with
  | nil => cases ht
  | cons x h ih =>
    rcases mem_cons.mp ht with rfl | ht
    · exact .inl mem_cons_self
    · exact (ih ht).imp_left (mem_cons_of_mem _)
  | dots h ih =>
    rcases mem_cons.mp ht with rfl | ht
    · exact .inr rfl
    · exact (ih ht).imp_left fun hmem => by simp [hmem]

/-- Where no two dots follow each other, the tokens are cut as they are. -/
theorem eq_of_chain (h : Cut xs ts)
    (hchain : xs.IsChain fun a b => ¬ (a = .mark "." ∧ b = .mark ".")) : ts = xs := by
  induction h with
  | nil => rfl
  | cons t h ih => rw [ih hchain.tail]
  | dots h ih =>
    cases hchain with
    | cons_cons hdots _ => exact absurd ⟨rfl, rfl⟩ hdots

end Cut

theorem ImportStatement.import_not_mem (names : ImportedNames) : .word "import" ∉ names.tokens := by
  have hidentifier : ∀ i : Identifier, Token.word "import" ≠ i.token := fun i =>
    (token_ne_keyword i (by decide)).symm
  have hlist : ∀ names : Several (Renamed Identifier), ∀ t ∈ namesTokens Identifier.tokens names,
      t ≠ .word "import" := by
    intro names
    refine forall_mem_joinWith (by simp) fun part hpart t ht => ?_
    obtain ⟨r, _, rfl⟩ := mem_map.mp hpart
    rintro rfl
    cases hlocal : r.localName with
    | none | some i => simp [Renamed.tokens, hlocal, asName, Identifier.tokens, hidentifier] at ht
  intro himport
  cases names with
  | all => simp [ImportedNames.tokens] at himport
  | listed names => exact hlist names _ himport rfl
  | bracketed names comma =>
    have hnames : .word "import" ∈ namesTokens Identifier.tokens names := by
      cases comma <;> simpa [ImportedNames.tokens] using himport
    exact hlist names _ hnames rfl

/-- Reading the tokens of an import statement gives its imports. -/
theorem ImportStatement.read?_cut {form : ImportForm} {ts : List Token} (h : Cut form.tokens ts) :
    read? ts = some (form.imports Identifier.name) := by
  cases form with
  | modules names =>
    have hapart : Apart (ImportForm.modules names).tokens :=
      (Apart.singleton (t := .word "import") (by simp)).append (.names (fun path =>
        .path path.ne_nil) names)
    rw [h.eq_of_chain hapart.chain, ImportForm.tokens, read?, readsBack_path.mapM_renamed?]
    rfl
  | members level source hasOrigin names =>
    rw [ImportForm.tokens] at h
    cases h with
    | cons _ hrest =>
      obtain ⟨origin, imported, rfl, horigin, himported⟩ := hrest.split (by simp)
      have hpart : ∀ t ∈ List.replicate level (.mark ".") ++ pathTokens source, IsNamePart t :=
        forall_mem_append.mpr
          ⟨fun t ht => .inl (eq_of_mem_replicate ht), isNamePart_pathTokens source⟩
      have hfirst : .word "import" ∉ origin := fun hw =>
        not_isNamePart_keyword (by decide)
          (hpart _ ((horigin.mem_or_dots hw).resolve_right (by simp)))
      have hdots : .mark "..." ∉ List.replicate level (.mark ".") ++ pathTokens source := by
        intro hw
        rcases hpart _ hw with heq | ⟨i, heq⟩
        · simp at heq
        · cases heq
      rw [himported.eq_of_chain (Apart.imported names).chain, read?, splitAt_append,
        splitAt_of_not_mem hfirst, splitAt_of_not_mem (import_not_mem names)]
      simp [horigin.singleDots hdots, origin?_tokens hasOrigin, importedNames?_tokens,
        ImportForm.imports]

end Script

end Xref

import Mathlib.Data.List.Forall2
import Xref.Proofs.TypeHint.Steps

/-!
# Written types

The types that a hint can name, as they are built: names, types with arguments, lists of types and
unions. What such a type names is said by its structure; reading its text gives the same, as long as
the unions in brackets that stand around the name do not nest too deeply.
-/

namespace Xref.TypeHint

open List Text

/-! ## Syntax -/

/-- A dotted name. -/
structure Name where
  text : String
  isPath : Dotted.isPath text

/-- What is written: one member of a union with bars, a hint, or a list of hints with commas between
them. -/
inductive Level
  | term
  | hint
  | hints
  deriving DecidableEq, Repr

/-- Written types, with the numbers of spaces on both sides of each bar and each comma. -/
inductive Written : Level → Type
  | named (name : Name) : Written .term
  | applied (head : Name) (arguments : Written .hints) : Written .term
  | listed (items : Written .hints) : Written .term
  | single (term : Written .term) : Written .hint
  | union (term : Written .term) (left right : Nat) (rest : Written .hint) : Written .hint
  | last (hint : Written .hint) : Written .hints
  | more (hint : Written .hint) (left right : Nat) (rest : Written .hints) : Written .hints

/-- Two texts with a separator between them and spaces around it. -/
def spaced (separator : Char) (left right : Nat) (first rest : List Char) : List Char :=
  first ++ List.replicate left ' ' ++ separator :: (List.replicate right ' ' ++ rest)

def bracketed (inner : List Char) : List Char :=
  '[' :: (inner ++ [']'])

def Written.text {level : Level} : Written level → List Char
  | .named name => name.text.toList
  | .applied head arguments => head.text.toList ++ bracketed arguments.text
  | .listed items => bracketed items.text
  | .single term => term.text
  | .union term left right rest => spaced '|' left right term.text rest.text
  | .last hint => hint.text
  | .more hint left right rest => spaced ',' left right hint.text rest.text

/-! ## Meaning -/

/-- The class that a written type names, if it names one, and how many unions in brackets stand
around its name. -/
structure Reading where
  name : Option String
  unions : Nat
  deriving DecidableEq, Repr

/-- The reading of a type that names no class. -/
def Reading.nothing : Reading :=
  ⟨none, 0⟩

def Reading.only : List Reading → Reading
  | [reading] => reading
  | _ => .nothing

def Reading.inBrackets : List Reading → Reading
  | [reading] => ⟨reading.name, reading.unions + 1⟩
  | _ => .nothing

/-- Whether a name is that of the type without values. -/
def Name.isNone (name : Name) : Bool :=
  name.text == "None" || name.text == "NoneType"

/-- Whether a name is that of a union in brackets. -/
def Name.isUnion (name : Name) : Bool :=
  ["Optional", "Union", "typing.Optional", "typing.Union"].contains name.text

/-- Whether a type is written as nothing but the name of the type without values. -/
def Written.isNone {level : Level} : Written level → Bool
  | .named name => name.isNone
  | .single term => term.isNone
  | .applied _ _ | .listed _ | .union _ _ _ _ | .last _ | .more _ _ _ _ => false

/-- The readings of the types of a union or a list, without those written as the type without
values. -/
def Written.readings {level : Level} : Written level → List Reading
  | .named name => if name.isNone then [] else [⟨some name.text, 0⟩]
  | .applied head arguments =>
    if head.isUnion then [.inBrackets arguments.readings] else [⟨some head.text, 0⟩]
  | .listed _ => [.nothing]
  | .single term => term.readings
  | .union term _ _ rest => term.readings ++ rest.readings
  | .last hint => if hint.isNone then [] else [.only hint.readings]
  | .more hint _ _ rest => (if hint.isNone then [] else [.only hint.readings]) ++ rest.readings

/-- The reading of a hint: that of its only member that is not written as the type without
values. -/
def Written.reading (hint : Written .hint) : Reading :=
  .only hint.readings

/-! ## Names -/

theorem isNameChar_joinWith {parts : List (List Char)} (h : ∀ part ∈ parts, isName part) :
    (joinWith '.' parts).all isNameChar := by
  induction parts with
  | nil => rfl
  | cons part parts ih =>
    obtain ⟨hpart, hparts⟩ := forall_mem_cons.mp h
    have hchars : part.all isNameChar := by
      cases part with
      | nil => rfl
      | cons c cs =>
        simp only [isName, Bool.and_eq_true, all_eq_true] at hpart
        simp only [all_cons, Bool.and_eq_true, all_eq_true]
        exact ⟨by simp [isNameChar, isWord_of_startsName hpart.1],
          fun d hd => by simp [isNameChar, hpart.2 d hd]⟩
    cases parts with
    | nil => exact hchars
    | cons next parts =>
      rw [joinWith, all_append, all_cons, hchars, ih hparts]
      rfl

theorem isLooseDotted_joinWith {parts : List (List Char)} (hne : parts ≠ [])
    (h : ∀ part ∈ parts, isName part) : isLooseDotted (joinWith '.' parts) := by
  have hall := isNameChar_joinWith h
  cases parts with
  | nil => exact absurd rfl hne
  | cons part parts =>
    have hpart := h part mem_cons_self
    cases part with
    | nil => cases hpart
    | cons c cs =>
      simp only [isName, Bool.and_eq_true] at hpart
      cases parts <;> simp_all [joinWith, isLooseDotted, isNameChar]

theorem Name.isLooseDotted_text (name : Name) : isLooseDotted name.text.toList := by
  have hparts :=
    isLooseDotted_joinWith (splitAt_ne_nil '.' name.text.toList) (all_eq_true.mp name.isPath)
  rwa [joinWith_splitAt] at hparts

theorem Name.forall_isNameChar (name : Name) : ∀ c ∈ name.text.toList, isNameChar c :=
  isNameChar_of_isLooseDotted name.isLooseDotted_text

theorem Name.isNone_toList (name : Name) : TypeHint.isNone name.text.toList = name.isNone := by
  simp only [TypeHint.isNone, Name.isNone, String.toList_inj]
  rfl

theorem Name.mem_unionWords (name : Name) : name.text.toList ∈ unionWords ↔ name.isUnion := by
  simp only [unionWords, Name.isUnion, mem_map, String.toList_inj, exists_eq_right,
    contains_iff_mem]

/-! ## Ends of texts -/

/-- A character that is stripped neither as a blank nor as a quote mark. -/
def isSolid (c : Char) : Bool :=
  !isBlank c && c != '\x27' && c != '\x22'

variable {c separator : Char} {cs head : List Char} {depth : Int} {xs ys : List Char}

/-- The characters of a literal, which need not be read from its bytes. -/
theorem flatMap_toList_cons {cs rest : List Char} {lines : List String}
    (h : lines.flatMap String.toList = rest) :
    (String.ofList cs :: lines).flatMap String.toList = cs ++ rest := by
  simp [h]

theorem inRanges_eq_false_of_isBlank {lines : List String}
    (hcs : lines.flatMap String.toList = cs)
    (hapart : ∀ s ∈ rangesFrom 0 (numbersOf 0 cs), ∀ r ∈ blankRanges,
      s.1 + s.2 ≤ r.1 ∨ r.1 + r.2 ≤ s.1) (h : isBlank c) :
    inRanges (ranges lines) c.toNat = false := by
  subst hcs
  obtain ⟨r, hr, hlow, hhigh⟩ := (inRanges_eq_true_iff _ _).mp h
  refine Bool.eq_false_iff.mpr fun hin => ?_
  obtain ⟨s, hs, hbounds⟩ := (inRanges_eq_true_iff _ _).mp hin
  have := hapart s hs r hr
  omega

/-- No blank is a character of names. -/
theorem isNameChar_eq_false_of_isBlank (h : isBlank c) : isNameChar c = false := by
  have hascii : ∀ n < 128, inRanges blankRanges n → isNameChar (Char.ofNat n) = false := by
    decide +kernel
  have hstart : inRanges startRanges c.toNat = false :=
    inRanges_eq_false_of_isBlank (by (repeat apply flatMap_toList_cons); rfl) (by decide +kernel) h
  have hnumber : inRanges numberRanges c.toNat = false :=
    inRanges_eq_false_of_isBlank (by (repeat apply flatMap_toList_cons); rfl) (by decide +kernel) h
  by_cases hc : c.toNat < 128
  · simpa [Char.ofNat_toNat] using hascii _ hc h
  · have hdot : c ≠ '.' := fun h => hc (by simp [h])
    simp [isNameChar, isWord, startsIdentifier, hc, hstart, hnumber, hdot]

theorem isSolid_of_isNameChar (h : isNameChar c) : isSolid c := by
  have hblank : isBlank c = false := by
    cases hblank : isBlank c with
    | false => rfl
    | true => rw [isNameChar_eq_false_of_isBlank hblank] at h; cases h
  simp [isSolid, hblank, ne_of_isNameChar h (show isNameChar '\x27' = false by decide),
    ne_of_isNameChar h (show isNameChar '\x22' = false by decide)]

/-- A text from which nothing is stripped. -/
structure Solid (cs : List Char) : Prop where
  ne_nil : cs ≠ []
  head : ∀ c ∈ cs.head?, isSolid c
  last : ∀ c ∈ cs.getLast?, isSolid c

theorem Solid.stripWhile {p : Char → Bool} (h : Solid cs) (hp : ∀ c, isSolid c → p c = false) :
    stripWhile p cs = cs :=
  stripWhile_of_ends (fun c hc => hp c (h.head c hc)) (fun c hc => hp c (h.last c hc))

theorem Solid.strip (h : Solid cs) : strip cs = cs :=
  h.stripWhile fun c hc => by simp_all [isSolid]

theorem Solid.unquote (h : Solid cs) : unquote cs = cs := by
  have hquotes : stripQuotes cs = cs := h.stripWhile fun c hc => by simp_all [isSolid]
  rw [TypeHint.unquote, h.strip, hquotes, h.strip]

theorem Solid.of_chars (hne : cs ≠ []) (h : ∀ c ∈ cs, isSolid c) : Solid cs :=
  ⟨hne, fun c hc => h c (mem_of_head? hc), fun c hc => h c (mem_of_getLast? hc)⟩

theorem Solid.append (hxs : Solid xs) (hys : Solid ys) (middle : List Char) :
    Solid (xs ++ middle ++ ys) := by
  refine ⟨by simp [hxs.ne_nil], fun c hc => ?_, fun c hc => ?_⟩
  · rw [append_assoc, List.head?_append_of_ne_nil _ hxs.ne_nil] at hc
    exact hxs.head c hc
  · rw [List.getLast?_append_of_ne_nil _ hys.ne_nil] at hc
    exact hys.last c hc

theorem solid_bracketed (cs : List Char) : Solid (bracketed cs) := by
  have hopen : Solid ['['] := .of_chars (by simp) (forall_mem_singleton.mpr rfl)
  exact hopen.append (.of_chars (by simp) (forall_mem_singleton.mpr rfl)) cs

theorem Name.solid (name : Name) : Solid name.text.toList := by
  refine .of_chars (fun h => ?_) fun c hc => isSolid_of_isNameChar (name.forall_isNameChar c hc)
  have := name.isLooseDotted_text
  rw [h] at this
  cases this

theorem Solid.spaced (hxs : Solid xs) (hys : Solid ys) (left right : Nat) :
    Solid (spaced separator left right xs ys) := by
  have h := hxs.append hys (List.replicate left ' ' ++ separator :: List.replicate right ' ')
  simpa [TypeHint.spaced] using h

variable {level : Level} (e : Written level)

theorem Written.solid : Solid e.text := by
  induction e with
  | named name => exact name.solid
  | applied head arguments ih =>
    have h := head.solid.append (solid_bracketed arguments.text) []
    rwa [append_nil] at h
  | listed items ih => exact solid_bracketed items.text
  | single term ih => exact ih
  | union term left right rest ihterm ihrest => exact ihterm.spaced ihrest left right
  | last hint ih => exact ih
  | more hint left right rest ihhint ihrest => exact ihhint.spaced ihrest left right

/-! ## Cuts -/

/-- Reading a text from one depth of brackets leads to another, without a cut at the separator. -/
def Uncut (separator : Char) (depth : Int) (cs : List Char) (depth' : Int) : Prop :=
  ∀ rest, cutAt (· == separator) depth (cs ++ rest) =
    (cutAt (· == separator) depth' rest).modifyHead (cs ++ ·)

theorem Uncut.append {depth' depth'' : Int} (hxs : Uncut separator depth xs depth')
    (hys : Uncut separator depth' ys depth'') : Uncut separator depth (xs ++ ys) depth'' := by
  intro rest
  rw [append_assoc, hxs, hys, modifyHead_modifyHead]
  congr 1
  funext part
  simp

theorem uncut_singleton (h : ¬ (c = separator ∧ depth + weight c = 0)) :
    Uncut separator depth [c] (depth + weight c) := by
  intro rest
  cases hparts : cutAt (· == separator) (depth + weight c) rest with
  | nil => exact absurd hparts (cutAt_ne_nil _ _ _)
  | cons part parts => exact cutAt_cons_other h hparts

/-- A text without brackets and separators. -/
theorem uncut_of_plain (h : ∀ c ∈ cs, weight c = 0 ∧ c ≠ separator) (depth : Int) :
    Uncut separator depth cs depth := by
  induction cs with
  | nil =>
    intro rest
    rw [nil_append]
    cases cutAt (· == separator) depth rest <;> rfl
  | cons c cs ih =>
    obtain ⟨⟨hweight, hne⟩, hcs⟩ := forall_mem_cons.mp h
    have hc : Uncut separator depth [c] (depth + weight c) := uncut_singleton fun hc => hne hc.1
    rw [hweight, Int.add_zero] at hc
    exact hc.append (ih hcs)

theorem Uncut.bracketed (hdepth : 0 ≤ depth) (hseparator : weight separator = 0)
    (h : Uncut separator (depth + 1) cs (depth + 1)) :
    Uncut separator depth (bracketed cs) depth := by
  have hopen : Uncut separator depth ['['] (depth + 1) := uncut_singleton (by simp [weight]; omega)
  have hclose : Uncut separator (depth + 1) [']'] depth := by
    have hlast : Uncut separator (depth + 1) [']'] (depth + 1 + weight ']') := by
      refine uncut_singleton fun hc => ?_
      rw [← hc.1] at hseparator
      simp [weight] at hseparator
    rwa [show depth + 1 + weight ']' = depth from Int.add_neg_cancel_right depth 1] at hlast
  exact hopen.append (h.append hclose)

/-- The separators that can stand outside brackets in what is written. -/
def Level.separators : Level → List Char
  | .term => []
  | .hint => ['|']
  | .hints => ['|', ',']

theorem of_mem_separators (h : separator ∈ ['|', ',']) :
    weight separator = 0 ∧ isNameChar separator = false ∧ ' ' ≠ separator := by
  simp only [mem_cons, not_mem_nil, or_false] at h
  rcases h with rfl | rfl <;> decide

theorem weight_of_isNameChar (h : isNameChar c) : weight c = 0 := by
  simp [weight, ne_of_isNameChar h (show isNameChar '[' = false by decide),
    ne_of_isNameChar h (show isNameChar '(' = false by decide),
    ne_of_isNameChar h (show isNameChar ']' = false by decide),
    ne_of_isNameChar h (show isNameChar ')' = false by decide)]

theorem Name.uncut (name : Name) (hseparator : separator ∈ ['|', ',']) (depth : Int) :
    Uncut separator depth name.text.toList depth := by
  refine uncut_of_plain (fun c hc => ?_) depth
  have hname := name.forall_isNameChar c hc
  exact ⟨weight_of_isNameChar hname, ne_of_isNameChar hname (of_mem_separators hseparator).2.1⟩

theorem uncut_spaces (hseparator : separator ∈ ['|', ',']) (depth : Int) (n : Nat) :
    Uncut separator depth (List.replicate n ' ') depth := by
  refine uncut_of_plain (fun c hc => ?_) depth
  rw [eq_of_mem_replicate hc]
  exact ⟨rfl, (of_mem_separators hseparator).2.2⟩

theorem Uncut.spaced {mark : Char} (hseparator : separator ∈ ['|', ',']) (hmark : mark ∈ ['|', ','])
    (h : depth = 0 → separator ≠ mark) (hxs : Uncut separator depth xs depth)
    (hys : Uncut separator depth ys depth) (left right : Nat) :
    Uncut separator depth (spaced mark left right xs ys) depth := by
  have hmiddle : Uncut separator depth [mark] (depth + weight mark) :=
    uncut_singleton fun hc => by
      rw [(of_mem_separators hmark).1, Int.add_zero] at hc
      exact h hc.2 hc.1.symm
  rw [(of_mem_separators hmark).1, Int.add_zero] at hmiddle
  exact (hxs.append (uncut_spaces hseparator depth left)).append
    (hmiddle.append ((uncut_spaces hseparator depth right).append hys))

/-- Separators that stand inside brackets do not cut a written type. -/
theorem Written.uncut (hseparator : separator ∈ ['|', ',']) (hdepth : 0 ≤ depth)
    (h : depth = 0 → separator ∉ level.separators) : Uncut separator depth e.text depth := by
  induction e generalizing depth with
  | named name => exact name.uncut hseparator depth
  | applied head arguments ih =>
    exact (head.uncut hseparator depth).append
      ((ih (by omega) (by omega)).bracketed hdepth (of_mem_separators hseparator).1)
  | listed items ih =>
    exact (ih (by omega) (by omega)).bracketed hdepth (of_mem_separators hseparator).1
  | single term ih => exact ih hdepth fun _ => by simp [Level.separators]
  | union term left right rest ihterm ihrest =>
    refine .spaced hseparator (by decide) (fun h0 heq => h h0 ?_) (ihterm hdepth fun _ =>
      by simp [Level.separators])
      (ihrest hdepth h) left right
    simp [Level.separators, heq]
  | last hint ih => exact ih hdepth fun h0 hmem => h h0 (by simp_all [Level.separators])
  | more hint left right rest ihhint ihrest =>
    refine .spaced hseparator (by decide) (fun h0 heq => h h0 ?_)
      (ihhint hdepth fun h0 hmem => h h0 (by simp_all [Level.separators])) (ihrest hdepth h)
        left right
    simp [Level.separators, heq]

/-! ## Members -/

theorem cutAt_of_uncut (h : Uncut separator 0 cs 0) : cutAt (· == separator) 0 cs = [cs] := by
  have hcs := h []
  rwa [append_nil, cutAt, modifyHead_cons, append_nil] at hcs

theorem membersOf_of_uncut (h : Uncut separator 0 cs 0) :
    membersOf separator cs = [strip cs].filter fun part => !part.isEmpty && !isNone part := by
  simp only [membersOf, splitTopLevel, cutAt_of_uncut h, filter_filter, map_singleton,
    Bool.and_comm]

theorem membersOf_append_separator (hseparator : separator ∈ ['|', ',']) {xs : List Char}
    (h : Uncut separator 0 xs 0) (ys : List Char) :
    membersOf separator (xs ++ separator :: ys) = membersOf separator xs ++
      membersOf separator ys := by
  have hcut : cutAt (· == separator) 0 (xs ++ separator :: ys) = xs :: cutAt (· == separator)
    0 ys := by
    have hweight : (0 : Int) + weight separator = 0 := by rw [(of_mem_separators hseparator).1]; rfl
    rw [h, cutAt_cons_separator hweight, modifyHead_cons, append_nil]
  rw [membersOf, membersOf, membersOf, splitTopLevel, splitTopLevel, splitTopLevel, hcut,
    cutAt_of_uncut h, map_cons, ← singleton_append, filter_append, filter_append]
  rfl

theorem strip_spaces (left right : Nat) (cs : List Char) :
    strip (List.replicate left ' ' ++ cs ++ List.replicate right ' ') = strip cs := by
  have hspaces : ∀ n, ∀ c ∈ List.replicate n ' ', isBlank c := by
    intro n c hc
    rw [eq_of_mem_replicate hc]
    rfl
  obtain ⟨first, last, hcs, hfirst, hlast, hhead, hend⟩ := exists_stripWhile isBlank cs
  have h : strip ((List.replicate left ' ' ++ first) ++ strip cs ++
    (last ++ List.replicate right ' ')) = strip cs :=
    stripWhile_eq (forall_mem_append.mpr ⟨hspaces left, hfirst⟩)
      (forall_mem_append.mpr ⟨hlast, hspaces right⟩) hhead hend
  have hsame :
    (List.replicate left ' ' ++ first) ++ strip cs ++ (last ++ List.replicate right ' ') =
      List.replicate left ' ' ++ (first ++ strip cs ++ last) ++ List.replicate right ' ' := by
    simp
  have hcs' : first ++ strip cs ++ last = cs := hcs.symm
  rwa [hsame, hcs'] at h

theorem membersOf_spaces_append (hseparator : separator ∈ ['|', ',']) (n : Nat) (cs : List Char) :
    membersOf separator (List.replicate n ' ' ++ cs) = membersOf separator cs := by
  have hcut := uncut_spaces hseparator 0 n cs
  rw [membersOf, membersOf, splitTopLevel, splitTopLevel, hcut]
  cases hparts : cutAt (· == separator) 0 cs with
  | nil => exact absurd hparts (cutAt_ne_nil _ _ _)
  | cons part parts =>
    have hpart := strip_spaces n 0 part
    rw [replicate_zero, append_nil] at hpart
    rw [modifyHead_cons, map_cons, map_cons, hpart]

theorem membersOf_spaced (hseparator : separator ∈ ['|', ',']) {xs : List Char}
    (h : Uncut separator 0 xs 0) (left right : Nat) (ys : List Char) :
    membersOf separator (spaced separator left right xs ys) = membersOf separator xs ++
      membersOf separator ys := by
  have hleft : Uncut separator 0 (xs ++ List.replicate left ' ') 0 :=
    h.append (uncut_spaces hseparator 0 left)
  have hstrip := strip_spaces 0 left xs
  rw [replicate_zero, nil_append] at hstrip
  rw [spaced, membersOf_append_separator hseparator hleft, membersOf_spaces_append hseparator,
    membersOf_of_uncut hleft, membersOf_of_uncut h, hstrip]

theorem Solid.membersOf (hsolid : Solid cs) (h : Uncut separator 0 cs 0) :
    membersOf separator cs = if isNone cs then [] else [cs] := by
  rw [membersOf_of_uncut h, hsolid.strip]
  cases hnone : isNone cs <;> simp [hsolid.ne_nil, hnone]

/-! ## Steps -/

theorem isNone_eq_false_of_mem (hc : isNameChar c = false) (h : c ∈ cs) : isNone cs = false := by
  have hnone : "None".toList.all isNameChar := by decide +kernel
  have htype : "NoneType".toList.all isNameChar := by decide +kernel
  rw [← Bool.not_eq_true]
  intro hcs
  simp only [isNone, Bool.or_eq_true, decide_eq_true_eq] at hcs
  rw [← Bool.not_eq_true] at hc
  rcases hcs with rfl | rfl
  · exact hc (all_eq_true.mp hnone c h)
  · exact hc (all_eq_true.mp htype c h)

theorem mem_spaced {left right : Nat} : separator ∈ spaced separator left right xs ys := by
  simp [spaced]

/-- A written type is that without values exactly if its text is a name of it. -/
theorem Written.isNone_text (h : level ≠ .hints) : TypeHint.isNone e.text = e.isNone := by
  induction e with
  | named name => exact name.isNone_toList
  | applied head arguments ih =>
    exact isNone_eq_false_of_mem (c := '[') (by decide) (by simp [text, bracketed])
  | listed items ih =>
    exact isNone_eq_false_of_mem (c := '[') (by decide) (by simp [text, bracketed])
  | single term ih => exact ih (by decide)
  | union term left right rest => exact isNone_eq_false_of_mem (by decide) mem_spaced
  | last hint | more hint left right rest => exact absurd rfl h

theorem Written.newline_not_mem : '\n' ∉ e.text := by
  have hname : ∀ name : Name, '\n' ∉ name.text.toList := fun name h =>
    absurd rfl (ne_of_isNameChar (name.forall_isNameChar _ h) (by decide))
  induction e with
  | named name => exact hname name
  | applied head arguments ih => simp [text, bracketed, hname, ih]
  | listed items ih => simp [text, bracketed, ih]
  | single term ih => exact ih
  | union term left right rest ihterm ihrest => simp [text, spaced, ihterm, ihrest]
  | last hint ih => exact ih
  | more hint left right rest ihhint ihrest => simp [text, spaced, ihhint, ihrest]

theorem stepInto_of_not_union
    (h : ∀ word ∈ unionWords, ∀ arguments, cs ≠ word ++ '[' :: (arguments ++ [']'])) :
    stepInto cs = .stop (origin? cs) := by
  obtain ⟨harguments, hbroken⟩ := not_union_iff.mpr h
  rw [stepInto, harguments]
  simp only [hbroken]

theorem stepInto_name (name : Name) :
    stepInto name.text.toList = .stop (some name.text.toList) := by
  have hbracket : '[' ∉ name.text.toList := fun h =>
    absurd rfl (ne_of_isNameChar (name.forall_isNameChar _ h) (by decide))
  have horigin : name.text.toList.takeWhile (· ≠ '[') = name.text.toList :=
    takeWhile_eq_self_iff.mpr fun c hc => decide_eq_true fun heq => hbracket (heq ▸ hc)
  rw [stepInto_of_not_union fun word _ arguments h => hbracket (by simp [h]), origin?, horigin]
  simp [name.isLooseDotted_text]

theorem stepInto_bracketed (hname : ∀ c ∈ head, isNameChar c) (h : head ∉ unionWords)
    (cs : List Char) :
    stepInto (head ++ bracketed cs) = .stop (if isLooseDotted head then some head else none) := by
  have hhead : (head ++ bracketed cs).takeWhile (· ≠ '[') = head := takeWhile_bracket hname
  rw [stepInto_of_not_union, origin?, hhead]
  intro word hword arguments heq
  rw [heq, takeWhile_bracket (of_mem_unionWords hword).2] at hhead
  exact h (hhead ▸ hword)

theorem stepInto_union (h : head ∈ unionWords) (hline : '\n' ∉ cs) :
    (∀ inner, membersOf ',' cs = [inner] → stepInto (head ++ bracketed cs) = .into inner) ∧
      ((∀ inner, membersOf ',' cs ≠ [inner]) → stepInto (head ++ bracketed cs) = .stop none) := by
  have harguments : unionArguments? (head ++ bracketed cs) = some cs :=
    unionArguments?_eq_some_iff.mpr ⟨⟨head, h, rfl⟩, hline⟩
  rw [stepInto, harguments]
  dsimp only
  constructor
  · intro inner hinner
    rw [hinner]
  · intro hnot
    split
    · next inner hinner => exact absurd hinner (hnot inner)
    · rfl

/-! ## Runs -/

/-- How reading ends from a step on when it may pass through so many unions. -/
def Step.ending (bound : Nat) : Step → Ending
  | .stop name => .found name
  | .broken word => .broken word
  | .into inner =>
    match bound with
    | 0 => .tooDeep
    | bound + 1 => TypeHint.ending bound inner

theorem ending_eq_step (bound : Nat) (cs : List Char) :
    ending bound cs = (step cs).ending bound := by
  cases hstep : step cs with
  | stop name => exact ending_of_stop hstep bound
  | broken word => exact ending_of_broken hstep bound
  | into inner =>
    cases bound with
    | zero => exact (ending_of_into hstep).1
    | succ bound => exact (ending_of_into hstep).2 bound

/-- What a reading comes to when reading may pass through so many unions. -/
def Reading.ending (bound : Nat) (reading : Reading) : Ending :=
  if reading.unions ≤ bound then .found (reading.name.map String.toList) else .tooDeep

/-- The mark between the parts of what is written. -/
def Level.mark : Level → Char
  | .term => '|'
  | .hint => '|'
  | .hints => ','

/-- The step from one member of what is written. -/
def Level.step : Level → List Char → Step
  | .term => stepInto
  | .hint => stepInto
  | .hints => TypeHint.step

/-- Going on from a member leads to a reading. -/
def Level.Reads (level : Level) (member : List Char) (reading : Reading) : Prop :=
  ∀ bound, (level.step member).ending bound = reading.ending bound

theorem ending_nothing (bound : Nat) : Reading.nothing.ending bound = .found none := by
  simp [Reading.nothing, Reading.ending]

theorem ending_inBrackets (reading : Reading) (bound : Nat) :
    (Reading.inBrackets [reading]).ending (bound + 1) = reading.ending bound := by
  simp [Reading.inBrackets, Reading.ending]

/-- A list of two or more, or of none, is related to no list of one. -/
theorem ne_singleton_of_forall₂ {α β : Type} {R : α → β → Prop} {xs : List α} {ys : List β}
    (h : List.Forall₂ R xs ys) (hys : ∀ y, ys ≠ [y]) (x : α) : xs ≠ [x] := by
  rintro rfl
  cases h with
  | cons _ htail =>
    cases htail
    exact hys _ rfl

/-- A union in brackets is read as its only member, one union deeper. -/
theorem reads_union {readings : List Reading}
    (h : List.Forall₂ Level.hints.Reads (membersOf ',' cs) readings) (hhead : head ∈ unionWords)
    (hline : '\n' ∉ cs) : Level.term.Reads (head ++ bracketed cs) (.inBrackets readings) := by
  intro bound
  obtain ⟨hsingle, hother⟩ := stepInto_union hhead hline
  by_cases hreadings : ∃ reading, readings = [reading]
  · obtain ⟨reading, rfl⟩ := hreadings
    obtain ⟨inner, rest, hinner, hrest, hmembers⟩ := forall₂_cons_right_iff.mp h
    cases hrest
    rw [Level.step, hsingle inner hmembers]
    cases bound with
    | zero => simp [Step.ending, Reading.ending, Reading.inBrackets]
    | succ bound => rw [Step.ending, ending_eq_step, ending_inBrackets]; exact hinner bound
  · have hnot : ∀ reading, readings ≠ [reading] :=
      fun reading hreading => hreadings ⟨reading, hreading⟩
    have hnothing : Reading.inBrackets readings = .nothing := by
      unfold Reading.inBrackets
      split
      · next reading => exact absurd rfl (hnot reading)
      · rfl
    rw [Level.step, hother (ne_singleton_of_forall₂ h hnot), hnothing, ending_nothing]
    rfl

/-- A hint is read as its only member. -/
theorem reads_hint {readings : List Reading} (hcs : unquote cs = cs)
    (h : List.Forall₂ Level.hint.Reads (membersOf '|' cs) readings) :
    Level.hints.Reads cs (.only readings) := by
  intro bound
  by_cases hreadings : ∃ reading, readings = [reading]
  · obtain ⟨reading, rfl⟩ := hreadings
    obtain ⟨member, rest, hmember, hrest, hmembers⟩ := forall₂_cons_right_iff.mp h
    cases hrest
    rw [Level.step, step_of_members (hcs.symm ▸ hmembers)]
    exact hmember bound
  · have hnot : ∀ reading, readings ≠ [reading] :=
      fun reading hreading => hreadings ⟨reading, hreading⟩
    have hnothing : Reading.only readings = .nothing := by
      unfold Reading.only
      split
      · next reading => exact absurd rfl (hnot reading)
      · rfl
    rw [Level.step, step_of_not_single (hcs.symm ▸ ne_singleton_of_forall₂ h hnot), hnothing,
      ending_nothing]
    rfl

/-- A hint or a member of one is the only member of itself, unless it is the type without values. -/
theorem Written.membersOf_text (hlevel : level ≠ .hints) (hseparator : separator ∈ ['|', ','])
    (h : separator ∉ level.separators) :
    membersOf separator e.text = if e.isNone then [] else [e.text] := by
  rw [e.solid.membersOf (e.uncut hseparator (Int.le_refl 0) fun _ => h), e.isNone_text hlevel]

theorem forall₂_of_isNone {R : List Char → Reading → Prop} {x : List Char} {reading : Reading}
    (h : R x reading) (isNone : Bool) :
    List.Forall₂ R (if isNone then [] else [x]) (if isNone then [] else [reading]) := by
  cases isNone with
  | false => exact .cons h .nil
  | true => exact .nil

/-- The members of what is written are read as its structure says. -/
theorem Written.forall₂_reads :
    List.Forall₂ level.Reads (membersOf level.mark e.text) e.readings := by
  induction e with
  | named name =>
    rw [membersOf_text _ (by decide) (by decide) (by decide)]
    refine forall₂_of_isNone (fun bound => ?_) name.isNone
    rw [Level.step, text, stepInto_name]
    simp [Step.ending, Reading.ending]
  | applied head arguments ih =>
    rw [membersOf_text _ (by decide) (by decide) (by decide), isNone,
      if_neg Bool.false_ne_true, readings]
    split
    · next hunion =>
      exact .cons (reads_union ih (head.mem_unionWords.mpr hunion) arguments.newline_not_mem) .nil
    · next hunion =>
      refine .cons (fun bound => ?_) .nil
      rw [Level.step, text,
        stepInto_bracketed head.forall_isNameChar (hunion ∘ head.mem_unionWords.mp)]
      simp [Step.ending, Reading.ending, head.isLooseDotted_text]
  | listed items ih =>
    rw [membersOf_text _ (by decide) (by decide) (by decide), isNone,
      if_neg Bool.false_ne_true, readings]
    refine .cons (fun bound => ?_) .nil
    have hstep : stepInto ([] ++ bracketed items.text) = .stop none :=
      stepInto_bracketed (forall_mem_nil _) (by decide +kernel) items.text
    rw [Level.step, text, ← nil_append (bracketed items.text), hstep, ending_nothing]
    rfl
  | single term ih => exact ih
  | union term left right rest ihterm ihrest =>
    have huncut : Uncut '|' 0 term.text 0 := term.uncut (by decide) (Int.le_refl 0) fun _ => by
      decide
    rw [Level.mark, text, membersOf_spaced (by decide) huncut, readings]
    exact rel_append ihterm ihrest
  | last hint ih =>
    rw [Level.mark, text, hint.membersOf_text (by decide) (by decide) (by decide)]
    exact forall₂_of_isNone (reads_hint hint.solid.unquote ih) hint.isNone
  | more hint left right rest ihhint ihrest =>
    have huncut : Uncut ',' 0 hint.text 0 := hint.uncut (by decide) (Int.le_refl 0) fun _ => by
      decide
    rw [Level.mark, text, membersOf_spaced (by decide) huncut,
      hint.membersOf_text (by decide) (by decide) (by decide), readings]
    exact rel_append (forall₂_of_isNone (reads_hint hint.solid.unquote ihhint) hint.isNone) ihrest

theorem Written.ending_text (hint : Written .hint) (bound : Nat) :
    ending bound hint.text = hint.reading.ending bound := by
  rw [ending_eq_step]
  exact reads_hint hint.solid.unquote hint.forall₂_reads bound

/-- A written type is read by its structure, if there are at most so many unions in brackets around
the name of the class; otherwise reading it fails. -/
theorem Written.answer_text (hint : Written .hint) :
    answer (String.ofList hint.text) =
      if hint.reading.unions ≤ maxNesting then .ok hint.reading.name else .error .tooDeep := by
  rw [answer_eq, String.toList_ofList, hint.ending_text, Reading.ending]
  split
  · cases hint.reading.name <;> simp [Except.map, Ending.answer]
  · rfl

/-- The class `Repo` in so many unions. -/
def Written.optionalRepo : Nat → Written .hint
  | 0 => .single (.named ⟨"Repo", by decide +kernel⟩)
  | n + 1 => .single (.applied ⟨"Optional", by decide +kernel⟩ (.last (optionalRepo n)))

theorem Written.readings_optionalRepo (n : Nat) :
    (optionalRepo n).isNone = false ∧ (optionalRepo n).readings = [⟨some "Repo", n⟩] := by
  induction n with
  | zero => exact ⟨by decide +kernel, by decide +kernel⟩
  | succ n ih =>
    refine ⟨rfl, ?_⟩
    have hunion : Name.isUnion ⟨"Optional", by decide +kernel⟩ := by decide +kernel
    rw [optionalRepo, readings, readings, if_pos hunion, readings, ih.1,
      if_neg Bool.false_ne_true, ih.2]
    rfl

/-- However deeply it is written, the structure of a type has a reading; reading its text has a
limit. -/
theorem Written.answer_optionalRepo :
    (optionalRepo 1500).reading.name = some "Repo" ∧
      answer (String.ofList (optionalRepo 1500).text) = .error .tooDeep := by
  have hreading : (optionalRepo 1500).reading = ⟨some "Repo", 1500⟩ := by
    rw [reading, (readings_optionalRepo 1500).2, Reading.only]
  refine ⟨by rw [hreading], ?_⟩
  rw [answer_eq, String.toList_ofList, ending_text, hreading]
  rfl

end Xref.TypeHint

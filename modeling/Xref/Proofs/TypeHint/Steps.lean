import Mathlib.Data.List.Basic
import Xref.Fault
import Xref.Proofs.Text.Dotted
import Xref.Proofs.Text.Stripped
import Xref.TypeHint

/-!
# Reading hints step by step

A hint is read in steps: each step drops what stands around a union with one member, until a text is
left that is read at once. A union whose arguments stand on several lines is not seen as one:
reading ends there, with its word as the name of the class.
-/

namespace Xref.TypeHint

open List Text Option

/-! ## Unions in brackets -/

/-- The words before the bracket of a union. -/
def unionWords : List (List Char) :=
  ["Optional", "Union", "typing.Optional", "typing.Union"].map String.toList

variable {cs arguments member inner : List Char} {c separator : Char} {depth : Int}
  {word : List Char}

theorem after?_eq_some_iff {word : String} {rest : List Char} :
    after? word cs = some rest ↔ cs = word.toList ++ rest := by
  unfold after?
  simp only [ isPrefixOf_iff_prefix]
  constructor
  · intro h
    split at h
    · next hprefix =>
      obtain ⟨tail, rfl⟩ := hprefix
      simp only [drop_left, Option.some.injEq] at h
      rw [h]
    · cases h
  · rintro rfl
    simp

theorem argumentsOf?_eq_some_iff {word : String} :
    argumentsOf? word cs = some arguments ↔
      cs = word.toList ++ '[' :: (arguments ++ [']']) ∧ '\n' ∉ arguments := by
  unfold argumentsOf?
  simp only [bind_eq_bind, bind_eq_some_iff, after?_eq_some_iff]
  constructor
  · rintro ⟨rest, rfl, h⟩
    split at h
    · next hlast =>
      simp only [Bool.and_eq_true, decide_eq_true_eq, Bool.not_eq_true'] at hlast
      cases h
      have hrest : rest.dropLast ++ [']'] = rest := dropLast_append_getLast? ']' hlast.1
      exact ⟨by simp [hrest], by simpa using hlast.2⟩
    · cases h
  · rintro ⟨rfl, hline⟩
    exact ⟨arguments ++ [']'], by simp, by simp [hline]⟩

/-- The arguments of a union stand between the brackets behind its word, on one line. -/
theorem unionArguments?_eq_some_iff :
    unionArguments? cs = some arguments ↔
      (∃ word ∈ unionWords, cs = word ++ '[' :: (arguments ++ [']'])) ∧ '\n' ∉ arguments := by
  have hwords : ∀ P : List Char → Prop, (∃ word ∈ unionWords, P word) ↔
      P "Optional".toList ∨ P "Union".toList ∨ P "typing.Optional".toList ∨
        P "typing.Union".toList := by
    simp [unionWords]
  have hor : ∀ bare, (argumentsOf? "Optional" bare <|> argumentsOf? "Union" bare) = some arguments ↔
      argumentsOf? "Optional" bare = some arguments ∨
        argumentsOf? "Union" bare = some arguments := by
    intro bare
    rw [orElse_eq_orElse, orElse_eq_or, or_eq_some_iff]
    refine or_congr_right ⟨And.right, fun h => ⟨?_, h⟩⟩
    cases ho : argumentsOf? "Optional" bare with
    | none => rfl
    | some other =>
      rw [argumentsOf?_eq_some_iff] at h ho
      rw [h.1] at ho
      simp at ho
  unfold unionArguments?
  rw [hor, argumentsOf?_eq_some_iff, argumentsOf?_eq_some_iff, hwords, ← or_and_right]
  refine and_congr_left fun _ => ?_
  cases htyping : after? "typing." cs with
  | none =>
    have hnot : ∀ rest, cs ≠ "typing.".toList ++ rest := by
      intro rest h
      rw [after?_eq_some_iff.mpr h] at htyping
      cases htyping
    have hoptional := hnot ("Optional".toList ++ '[' :: (arguments ++ [']']))
    have hunion := hnot ("Union".toList ++ '[' :: (arguments ++ [']']))
    simp_all
  | some bare =>
    rw [after?_eq_some_iff] at htyping
    simp [htyping]

/-- The word of a union whose arguments stand on several lines. -/
def brokenWord? (cs : List Char) : Option (List Char) :=
  let word := cs.takeWhile (· ≠ '[')
  if unionWords.contains word && cs.getLast? = some ']' && cs.contains '\n' then some word else none

def isNameChar (c : Char) : Bool :=
  isWord c || c == '.'

theorem of_mem_unionWords (h : word ∈ unionWords) :
    isLooseDotted word ∧ ∀ c ∈ word, isNameChar c := by
  have hall : ∀ word ∈ unionWords, isLooseDotted word ∧ word.all isNameChar := by decide +kernel
  exact ⟨(hall word h).1, all_eq_true.mp (hall word h).2⟩

theorem isWord_of_startsName (h : startsName c) : isWord c := by
  simp only [startsName, Bool.or_eq_true, beq_iff_eq] at h
  rcases h with h | rfl
  · simp [isWord, (toNat_of_isAlpha h).2, Char.isAlphanum, h]
  · decide

theorem isNameChar_of_isLooseDotted (h : isLooseDotted cs) : ∀ c ∈ cs, isNameChar c := by
  cases cs with
  | nil => cases h
  | cons c cs =>
    simp only [isLooseDotted, Bool.and_eq_true] at h
    refine forall_mem_cons.mpr ⟨?_, all_eq_true.mp h.2⟩
    simp [isNameChar, isWord_of_startsName h.1]

theorem ne_of_isNameChar {d : Char} (hc : isNameChar c) (hd : isNameChar d = false) : c ≠ d := by
  rintro rfl
  rw [hc] at hd
  cases hd

/-- A text cut at its first bracket. -/
theorem takeWhile_bracket {rest : List Char} (h : ∀ c ∈ cs, isNameChar c) :
    (cs ++ '[' :: rest).takeWhile (· ≠ '[') = cs := by
  have hne : ∀ c ∈ cs, decide (c ≠ '[') := fun c hc =>
    decide_eq_true (ne_of_isNameChar (h c hc) (by decide))
  rw [takeWhile_append_of_pos hne]
  simp

/-- A text with a name before its first bracket and a closing bracket at its end. -/
theorem exists_arguments (hname : ∀ c ∈ cs.takeWhile (· ≠ '['), isNameChar c)
    (hlast : cs.getLast? = some ']') :
    ∃ arguments, cs = cs.takeWhile (· ≠ '[') ++ '[' :: (arguments ++ [']']) := by
  have hsplit : cs.takeWhile (· ≠ '[') ++ cs.dropWhile (· ≠ '[') = cs := takeWhile_append_dropWhile
  cases hrest : cs.dropWhile (· ≠ '[') with
  | nil =>
    have hmem : ']' ∈ cs.takeWhile (· ≠ '[') := by
      rw [hrest, append_nil] at hsplit
      rw [hsplit]
      exact mem_of_getLast? hlast
    exact absurd rfl (ne_of_isNameChar (hname ']' hmem) (by decide))
  | cons c rest =>
    have hc : c = '[' := by
      have hhead := head_dropWhile_not (· ≠ '[') (l := cs) (by rw [hrest]; simp)
      simp only [hrest, head_cons, decide_eq_false_iff_not, not_not] at hhead
      exact hhead
    subst hc
    rw [hrest] at hsplit
    rw [← hsplit, getLast?_append_cons] at hlast
    cases rest with
    | nil => simp at hlast
    | cons d ds =>
      rw [getLast?_cons_cons] at hlast
      exact ⟨(d :: ds).dropLast, by rw [dropLast_append_getLast? ']' hlast, hsplit]⟩

theorem brokenWord?_eq_some_iff :
    brokenWord? cs = some word ↔
      word ∈ unionWords ∧ ∃ arguments, cs = word ++ '[' :: (arguments ++ [']']) ∧
        '\n' ∈ arguments := by
  unfold brokenWord?
  constructor
  · intro h
    dsimp only at h
    split at h
    · next hbroken =>
      cases h
      simp only [Bool.and_eq_true, contains_iff_mem, decide_eq_true_eq] at hbroken
      obtain ⟨⟨hword, hlast⟩, hline⟩ := hbroken
      have hname := (of_mem_unionWords hword).2
      obtain ⟨arguments, hcs⟩ := exists_arguments hname hlast
      refine ⟨hword, arguments, hcs, ?_⟩
      have hnot : '\n' ∉ cs.takeWhile (· ≠ '[') := fun hmem =>
        absurd rfl (ne_of_isNameChar (hname _ hmem) (by decide))
      rw [hcs] at hline
      simpa using (mem_append.mp hline).resolve_left hnot
    · cases h
  · rintro ⟨hword, arguments, rfl, hline⟩
    have hlast : (word ++ '[' :: (arguments ++ [']'])).getLast? = some ']' := by
      rw [← cons_append, ← append_assoc, getLast?_concat]
    rw [takeWhile_bracket (of_mem_unionWords hword).2, hlast]
    simp [hword, hline]

/-- A text that is no union, on one line or several. -/
theorem not_union_iff :
    unionArguments? cs = none ∧ brokenWord? cs = none ↔
      ∀ word ∈ unionWords, ∀ arguments, cs ≠ word ++ '[' :: (arguments ++ [']']) := by
  constructor
  · rintro ⟨harguments, hbroken⟩ word hword arguments hcs
    by_cases hline : '\n' ∈ arguments
    · rw [brokenWord?_eq_some_iff.mpr ⟨hword, arguments, hcs, hline⟩] at hbroken
      cases hbroken
    · rw [unionArguments?_eq_some_iff.mpr ⟨⟨word, hword, hcs⟩, hline⟩] at harguments
      cases harguments
  · intro hnot
    constructor
    · refine eq_none_iff_forall_ne_some.mpr fun arguments h => ?_
      obtain ⟨⟨word, hword, hcs⟩, _⟩ := unionArguments?_eq_some_iff.mp h
      exact hnot word hword arguments hcs
    · refine eq_none_iff_forall_ne_some.mpr fun word h => ?_
      obtain ⟨hword, arguments, hcs, _⟩ := brokenWord?_eq_some_iff.mp h
      exact hnot word hword arguments hcs

/-! ## Steps -/

/-- What one step of reading a hint comes to. -/
inductive Step
  /-- A text that is read at once. -/
  | stop (name : Option (List Char))
  /-- A union whose arguments stand on several lines. -/
  | broken (word : List Char)
  /-- The only member of a union. -/
  | into (inner : List Char)
  deriving DecidableEq, Repr

/-- The step from a text that is the only member of a hint. -/
def stepInto (member : List Char) : Step :=
  match unionArguments? member with
  | some arguments =>
    match membersOf ',' arguments with
    | [inner] => .into inner
    | _ => .stop none
  | none =>
    match brokenWord? member with
    | some word => .broken word
    | none => .stop (origin? member)

def step (cs : List Char) : Step :=
  match membersOf '|' (unquote cs) with
  | [member] => stepInto member
  | _ => .stop none

/-- How reading a hint ends. -/
inductive Ending
  /-- With a text that is read at once. -/
  | found (name : Option (List Char))
  /-- At a union whose arguments stand on several lines. -/
  | broken (word : List Char)
  /-- Not at all: there are too many unions. -/
  | tooDeep

/-- How reading a hint ends that may pass through so many unions. -/
def ending : Nat → List Char → Ending
  | bound, cs =>
    match step cs, bound with
    | .stop name, _ => .found name
    | .broken word, _ => .broken word
    | .into _, 0 => .tooDeep
    | .into inner, bound + 1 => ending bound inner

/-- The class that is found: for a union on several lines its word stands for the class. -/
def Ending.answer : Ending → Except Fault (Option (List Char))
  | .found name => .ok name
  | .broken word => .ok (some word)
  | .tooDeep => .error .tooDeep

/-- The word of the union on several lines. -/
def Ending.broken? : Ending → Option (List Char)
  | .broken word => some word
  | .found _ | .tooDeep => none

/-- The word of the union at which reading a hint ends because its arguments stand on several
lines. -/
def brokenUnion? (hint : String) : Option String :=
  (ending maxNesting hint.toList).broken?.map String.ofList

theorem origin?_of_brokenWord? (h : brokenWord? member = some word) :
    origin? member = some word := by
  obtain ⟨hword, arguments, rfl, _⟩ := brokenWord?_eq_some_iff.mp h
  obtain ⟨hdotted, hname⟩ := of_mem_unionWords hword
  rw [origin?, takeWhile_bracket hname]
  simp [hdotted]

theorem step_of_members (h : membersOf '|' (unquote cs) = [member]) :
    step cs = stepInto member := by
  rw [step, h]

theorem step_of_not_single (h : ∀ member, membersOf '|' (unquote cs) ≠ [member]) :
    step cs = .stop none := by
  unfold step
  split
  · next member hmember => exact absurd hmember (h member)
  · rfl

/-- All that a step from a hint can be. -/
inductive Leads (cs : List Char) : Step → Prop
  | members (h : ∀ member, membersOf '|' (unquote cs) ≠ [member]) : Leads cs (.stop none)
  | arguments {member arguments : List Char} (hmember : membersOf '|' (unquote cs) = [member])
      (harguments : unionArguments? member = some arguments) (h : ∀ inner,
        membersOf ',' arguments ≠ [inner]) :
      Leads cs (.stop none)
  | inner {member arguments inner : List Char} (hmember : membersOf '|' (unquote cs) = [member])
      (harguments : unionArguments? member = some arguments) (hinner : membersOf ',' arguments =
        [inner]) :
      Leads cs (.into inner)
  | broken {member word : List Char} (hmember : membersOf '|' (unquote cs) = [member])
      (harguments : unionArguments? member = none) (hbroken : brokenWord? member = some word) :
        Leads cs (.broken word)
  | origin {member : List Char} (hmember : membersOf '|' (unquote cs) = [member])
      (harguments : unionArguments? member = none) (hbroken : brokenWord? member = none) :
      Leads cs (.stop (origin? member))

theorem leads_step (cs : List Char) : Leads cs (step cs) := by
  unfold step
  split
  · next member hmember =>
    unfold stepInto
    split
    · next arguments harguments =>
      split
      · next inner hinner => exact .inner hmember harguments hinner
      · next hnot => exact .arguments hmember harguments hnot
    · next harguments =>
      split
      · next word hbroken => exact .broken hmember harguments hbroken
      · next hbroken => exact .origin hmember harguments hbroken
  · next hnot => exact .members hnot

theorem step_eq_into_iff :
    step cs = .into inner ↔ ∃ member arguments, membersOf '|' (unquote cs) = [member] ∧
      unionArguments? member = some arguments ∧ membersOf ',' arguments = [inner] := by
  constructor
  · intro h
    have hleads := leads_step cs
    rw [h] at hleads
    cases hleads with
    | inner hmember harguments hinner => exact ⟨_, _, hmember, harguments, hinner⟩
  · rintro ⟨member, arguments, hmember, harguments, hinner⟩
    rw [step_of_members hmember, stepInto, harguments]
    simp only [hinner]

/-! ## Runs -/

theorem read_of_stop {name : Option (List Char)} (h : step cs = .stop name) (n : Nat) :
    read (n + 1) cs = name := by
  have hleads := leads_step cs
  rw [h] at hleads
  rw [read]
  cases hleads with
  | members hnot =>
    split
    · next member hmember => exact absurd hmember (hnot member)
    · rfl
  | arguments hmember harguments hnot => simp only [hmember, harguments]
  | origin hmember harguments hbroken => simp only [hmember, harguments]

theorem read_of_broken (h : step cs = .broken word) (n : Nat) : read (n + 1) cs = some word := by
  have hleads := leads_step cs
  rw [h] at hleads
  cases hleads with
  | broken hmember harguments hbroken =>
    rw [read, hmember]
    simp only [harguments, origin?_of_brokenWord? hbroken]

theorem read_of_into (h : step cs = .into inner) (n : Nat) : read (n + 1) cs = read n inner := by
  obtain ⟨member, arguments, hmember, harguments, hinner⟩ := step_eq_into_iff.mp h
  rw [read, hmember]
  simp only [harguments, hinner]

theorem nestsBeyond_of_into (h : step cs = .into inner) :
    nestsBeyond 0 cs ∧ ∀ bound, nestsBeyond (bound + 1) cs = nestsBeyond bound inner := by
  obtain ⟨member, arguments, hmember, harguments, hinner⟩ := step_eq_into_iff.mp h
  constructor
  · rw [nestsBeyond.eq_def]
    simp only [hmember, harguments, map_some, hinner]
  · intro bound
    rw [nestsBeyond.eq_def]
    simp only [hmember, harguments, map_some, hinner]

theorem nestsBeyond_of_not_into (h : ∀ inner, step cs ≠ .into inner) (bound : Nat) :
    nestsBeyond bound cs = false := by
  have hnot : ∀ member arguments inner, membersOf '|' (unquote cs) = [member] →
      unionArguments? member = some arguments → membersOf ',' arguments ≠ [inner] :=
    fun member arguments inner hmember harguments hinner =>
      h inner (step_eq_into_iff.mpr ⟨member, arguments, hmember, harguments, hinner⟩)
  rw [nestsBeyond.eq_def]
  dsimp only
  split
  · next member hmember =>
    cases harguments : unionArguments? member with
    | none => rfl
    | some arguments =>
      have hinner := fun inner => hnot member arguments inner hmember harguments
      rw [map_some]
      split
      · next heq => exact absurd (Option.some.inj heq) (hinner _)
      · next heq => exact absurd (Option.some.inj heq) (hinner _)
      · rfl
  · rfl

/-! ## What is left of a text -/

theorem cutAt_ne_nil (isSeparator : Char → Bool) (depth : Int) (cs : List Char) :
    cutAt isSeparator depth cs ≠ [] := by
  cases cs with
  | nil => simp [cutAt]
  | cons c cs =>
    rw [cutAt]
    split
    · simp
    · split <;> simp

theorem cutAt_cons_separator (hdepth : depth + weight separator = 0) (cs : List Char) :
    cutAt (· == separator) depth (separator :: cs) = [] :: cutAt (· == separator) 0 cs := by
  simp [cutAt, hdepth]

theorem cutAt_cons_other (hc : ¬ (c = separator ∧ depth + weight c = 0)) {part : List Char}
    {parts : List (List Char)}
    (hparts : cutAt (· == separator) (depth + weight c) cs = part :: parts) :
    cutAt (· == separator) depth (c :: cs) = (c :: part) :: parts := by
  simp [cutAt, hc, hparts]

theorem sublist_of_mem_cutAt {isSeparator : Char → Bool} {part : List Char}
    (h : part ∈ cutAt isSeparator depth cs) : part.Sublist cs := by
  induction cs generalizing depth part with
  | nil =>
    rw [cutAt, mem_singleton] at h
    exact h ▸ Sublist.refl []
  | cons c cs ih =>
    rw [cutAt] at h
    split at h
    · rcases mem_cons.mp h with rfl | h
      · exact nil_sublist _
      · exact (ih h).cons c
    · split at h
      · rw [mem_singleton.mp h]
        exact (nil_sublist cs).cons_cons c
      · next first parts hparts =>
        rcases mem_cons.mp h with rfl | h
        · exact (ih (hparts ▸ mem_cons_self)).cons_cons c
        · exact (ih (hparts ▸ mem_cons_of_mem _ h)).cons c

theorem unquote_sublist (cs : List Char) : (unquote cs).Sublist cs :=
  ((stripWhile_sublist _ _).trans (stripWhile_sublist _ _)).trans (stripWhile_sublist _ _)

theorem mem_membersOf_iff :
    member ∈ membersOf separator cs ↔
      (∃ part ∈ cutAt (· == separator) 0 cs, strip part = member) ∧ member ≠ [] ∧
        isNone member = false := by
  simp [membersOf, splitTopLevel, and_comm]

theorem sublist_of_mem_membersOf (h : member ∈ membersOf separator cs) : member.Sublist cs := by
  obtain ⟨⟨part, hpart, rfl⟩, _⟩ := mem_membersOf_iff.mp h
  exact (stripWhile_sublist _ _).trans (sublist_of_mem_cutAt hpart)

theorem sublist_of_unionArguments? (h : unionArguments? cs = some arguments) :
    arguments.Sublist cs ∧ arguments.length < cs.length := by
  obtain ⟨⟨word, _, rfl⟩, _⟩ := unionArguments?_eq_some_iff.mp h
  refine ⟨?_, by simp; omega⟩
  exact (sublist_append_left arguments [']']).trans
    ((sublist_cons_self '[' _).trans (sublist_append_right word _))

theorem sublist_of_into (h : step cs = .into inner) :
    inner.Sublist cs ∧ inner.length < cs.length := by
  obtain ⟨member, arguments, hmember, harguments, hinner⟩ := step_eq_into_iff.mp h
  have houter : member.Sublist cs :=
    (sublist_of_mem_membersOf (hmember ▸ mem_singleton_self member)).trans (unquote_sublist cs)
  have hmiddle := sublist_of_unionArguments? harguments
  have hlast : inner.Sublist arguments :=
    sublist_of_mem_membersOf (hinner ▸ mem_singleton_self inner)
  refine ⟨(hlast.trans hmiddle.1).trans houter, ?_⟩
  have := hlast.length_le
  have := houter.length_le
  omega

/-! ## Answers -/

theorem ending_of_stop {name : Option (List Char)} (h : step cs = .stop name) (bound : Nat) :
    ending bound cs = .found name := by
  rw [ending.eq_def]
  simp only [h]

theorem ending_of_broken (h : step cs = .broken word) (bound : Nat) :
    ending bound cs = .broken word := by
  rw [ending.eq_def]
  simp only [h]

theorem ending_of_into (h : step cs = .into inner) :
    ending 0 cs = .tooDeep ∧ ∀ bound, ending (bound + 1) cs = ending bound inner := by
  refine ⟨?_, fun bound => ?_⟩
  · rw [ending.eq_def]
    simp only [h]
  · rw [ending.eq_def]
    simp only [h]

/-- Reading a hint with enough fuel gives what its steps lead to. -/
theorem answer_ending {bound n : Nat} (hn : cs.length < n) :
    (ending bound cs).answer = if nestsBeyond bound cs then .error .tooDeep
      else .ok (read n cs) := by
  induction n generalizing bound cs with
  | zero => omega
  | succ n ih =>
    cases hstep : step cs with
    | stop name =>
      rw [ending_of_stop hstep, nestsBeyond_of_not_into (by simp [hstep]), read_of_stop hstep]
      rfl
    | broken word =>
      rw [ending_of_broken hstep, nestsBeyond_of_not_into (by simp [hstep]), read_of_broken hstep]
      rfl
    | into inner =>
      have hlength := (sublist_of_into hstep).2
      cases bound with
      | zero =>
        rw [(ending_of_into hstep).1, (nestsBeyond_of_into hstep).1]
        rfl
      | succ bound =>
        rw [(ending_of_into hstep).2, (nestsBeyond_of_into hstep).2, read_of_into hstep,
          ih (by omega)]

theorem answer_eq (hint : String) :
    answer hint = (ending maxNesting hint.toList).answer.map (Option.map String.ofList) := by
  rw [answer, answer_ending (Nat.lt_succ_self _), isTooDeep, className?]
  split <;> rfl

end Xref.TypeHint

import Mathlib.Logic.Relation
import Xref.Proofs.TypeHint.Steps

/-!
# The layout of hints

White space directly inside brackets and around commas and bars is a matter of layout. A hint is
read as if it were written without such white space, up to the first union that is broken over
several lines: reading ends there.
-/

namespace Xref.TypeHint

open List Text

/-- White space that can be a matter of layout. -/
def isGap (c : Char) : Bool :=
  c == ' ' || c == '\t' || c == '\n'

/-- Marks after which white space is a matter of layout. -/
def opens (c : Char) : Bool :=
  c == '[' || c == ',' || c == '|'

/-- Marks before which white space is a matter of layout. -/
def closes (c : Char) : Bool :=
  c == ']' || c == ',' || c == '|'

/-- Two texts that differ in nothing but the layout at one place. -/
inductive Relaid : List Char → List Char → Prop
  | after {mark : Char} {gap gap' : List Char} (start rest : List Char) (hmark : opens mark)
      (hgap : ∀ c ∈ gap, isGap c) (hgap' : ∀ c ∈ gap', isGap c) :
      Relaid (start ++ mark :: (gap ++ rest)) (start ++ mark :: (gap' ++ rest))
  | before {mark : Char} {gap gap' : List Char} (start rest : List Char) (hmark : closes mark)
      (hgap : ∀ c ∈ gap, isGap c) (hgap' : ∀ c ∈ gap', isGap c) :
      Relaid (start ++ gap ++ mark :: rest) (start ++ gap' ++ mark :: rest)

/-! ## Texts without layout -/

/-- A text without the white space that is a matter of layout. The first two arguments say whether a
mark stands directly before the text that such white space can follow, and one behind it that it can
precede. -/
def squeeze : Bool → Bool → List Char → List Char
  | _, _, [] => []
  | isOpen, isClosed, c :: cs =>
    if isGap c then
      let rest := squeeze isOpen isClosed cs
      if isOpen || (rest.head?.map closes).getD isClosed then rest else c :: rest
    else c :: squeeze (opens c) isClosed cs

variable {c separator : Char} {cs gap member : List Char} (isOpen isClosed : Bool)

theorem isGap_eq_false_of_opens (h : opens c) : isGap c = false := by
  simp only [opens, Bool.or_eq_true, beq_iff_eq] at h
  rcases h with (rfl | rfl) | rfl <;> rfl

theorem isGap_eq_false_of_closes (h : closes c) : isGap c = false := by
  simp only [closes, Bool.or_eq_true, beq_iff_eq] at h
  rcases h with (rfl | rfl) | rfl <;> rfl

theorem squeeze_cons_of_not_gap (h : isGap c = false) (isOpen isClosed : Bool) (cs : List Char) :
    squeeze isOpen isClosed (c :: cs) = c :: squeeze (opens c) isClosed cs := by
  simp [squeeze, h]

theorem squeeze_cons_of_gap (h : isGap c) (isOpen isClosed : Bool) (cs : List Char) :
    squeeze isOpen isClosed (c :: cs) =
      if isOpen || ((squeeze isOpen isClosed cs).head?.map closes).getD isClosed then squeeze isOpen
        isClosed cs
      else c :: squeeze isOpen isClosed cs := by
  simp [squeeze, h]

/-- A character that is no gap divides a text: what stands before it is followed by it, and what
stands behind it follows it. -/
theorem squeeze_append_cons (h : isGap c = false) (isOpen isClosed : Bool) (xs ys : List Char) :
    squeeze isOpen isClosed (xs ++ c :: ys) =
      squeeze isOpen (closes c) xs ++ c :: squeeze (opens c) isClosed ys := by
  induction xs generalizing isOpen with
  | nil => rw [nil_append, squeeze_cons_of_not_gap h]; rfl
  | cons x xs ih =>
    rw [cons_append]
    cases hx : isGap x with
    | false => rw [squeeze_cons_of_not_gap hx, squeeze_cons_of_not_gap hx, ih, cons_append]
    | true =>
      have hhead : ((squeeze isOpen (closes c) xs ++ c :: squeeze (opens c) isClosed ys).head?.map
        closes).getD
          isClosed = ((squeeze isOpen (closes c) xs).head?.map closes).getD (closes c) := by
        cases squeeze isOpen (closes c) xs <;> rfl
      rw [squeeze_cons_of_gap hx, squeeze_cons_of_gap hx, ih, hhead]
      split <;> rfl

theorem squeeze_gaps (h : ∀ c ∈ cs, isGap c) (isOpen isClosed : Bool) :
    squeeze isOpen isClosed cs = if isOpen || isClosed then [] else cs := by
  induction cs with
  | nil => simp [squeeze]
  | cons c cs ih =>
    obtain ⟨hc, hcs⟩ := forall_mem_cons.mp h
    rw [squeeze_cons_of_gap hc, ih hcs]
    cases isOpen with
    | true => rfl
    | false =>
      cases isClosed with
      | true => rfl
      | false =>
        cases cs with
        | nil => rfl
        | cons d ds =>
          have hd : closes d = false := by
            rw [← Bool.not_eq_true]
            intro hd
            have := isGap_eq_false_of_closes hd
            simp [hcs d mem_cons_self] at this
          simp [hd]

theorem squeeze_gaps_append (h : ∀ c ∈ gap, isGap c) (isClosed : Bool) (cs : List Char) :
    squeeze true isClosed (gap ++ cs) = squeeze true isClosed cs := by
  induction gap with
  | nil => rfl
  | cons c gap ih =>
    obtain ⟨hc, hgap⟩ := forall_mem_cons.mp h
    rw [cons_append, squeeze_cons_of_gap hc, ih hgap]
    rfl

theorem squeeze_append_gaps (h : ∀ c ∈ gap, isGap c) (isOpen : Bool) (cs : List Char) :
    squeeze isOpen true (cs ++ gap) = squeeze isOpen true cs := by
  induction cs generalizing isOpen with
  | nil => rw [nil_append, squeeze_gaps h, Bool.or_true]; rfl
  | cons c cs ih =>
    rw [cons_append]
    cases hc : isGap c with
    | false => rw [squeeze_cons_of_not_gap hc, squeeze_cons_of_not_gap hc, ih]
    | true => rw [squeeze_cons_of_gap hc, squeeze_cons_of_gap hc, ih]

theorem squeeze_of_relaid {xs ys : List Char} (h : Relaid xs ys) :
    squeeze false false xs = squeeze false false ys := by
  cases h with
  | after start rest hmark hgap hgap' =>
    rw [squeeze_append_cons (isGap_eq_false_of_opens hmark),
      squeeze_append_cons (isGap_eq_false_of_opens hmark),
      hmark, squeeze_gaps_append hgap, squeeze_gaps_append hgap']
  | before start rest hmark hgap hgap' =>
    rw [squeeze_append_cons (isGap_eq_false_of_closes hmark),
      squeeze_append_cons (isGap_eq_false_of_closes hmark),
      hmark, squeeze_append_gaps hgap, squeeze_append_gaps hgap']

theorem squeeze_sublist (cs : List Char) : (squeeze isOpen isClosed cs).Sublist cs := by
  induction cs generalizing isOpen with
  | nil => exact Sublist.refl []
  | cons c cs ih =>
    cases hc : isGap c with
    | false =>
      rw [squeeze_cons_of_not_gap hc]
      exact (ih _).cons_cons c
    | true =>
      rw [squeeze_cons_of_gap hc]
      split
      · exact (ih _).cons c
      · exact (ih _).cons_cons c

/-- Only gaps are dropped. -/
theorem mem_squeeze (hc : isGap c = false) (h : c ∈ cs) (isOpen isClosed : Bool) :
    c ∈ squeeze isOpen isClosed cs := by
  obtain ⟨xs, ys, rfl⟩ := append_of_mem h
  rw [squeeze_append_cons hc]
  exact mem_append_right _ mem_cons_self

/-! ## Stripping -/

theorem isBlank_of_isGap (h : isGap c) : isBlank c := by
  simp only [isGap, Bool.or_eq_true, beq_iff_eq] at h
  rcases h with (rfl | rfl) | rfl <;> decide

theorem isGap_eq_false_of_isBlank (h : isBlank c = false) : isGap c = false := by
  cases hgap : isGap c with
  | false => rfl
  | true => rw [isBlank_of_isGap hgap] at h; cases h

/-- A text between two characters that are no gaps does not depend on what stands around it. -/
theorem squeeze_core {core : List Char} (hne : core ≠ [])
    (hhead : ∀ c ∈ core.head?, isGap c = false) (hlast : ∀ c ∈ core.getLast?, isGap c = false)
    (isOpen isClosed : Bool) (left right : List Char) :
    ∃ first last, squeeze isOpen isClosed (left ++ core ++ right) =
        squeeze isOpen first left ++ squeeze false false core ++ squeeze last isClosed right ∧
      (squeeze false false core).head? = core.head? ∧
        (squeeze false false core).getLast? = core.getLast? := by
  cases core with
  | nil => exact absurd rfl hne
  | cons c cs =>
    have hc : isGap c = false := hhead c rfl
    rcases eq_nil_or_concat' cs with rfl | ⟨cs, d, rfl⟩
    · refine ⟨closes c, opens c, ?_, ?_⟩
      · rw [append_assoc, singleton_append, squeeze_append_cons hc]
        simp [squeeze, hc]
      · simp [squeeze, hc]
    · have hd : isGap d = false := hlast d (by simp [getLast?_cons])
      have hcore : squeeze false false (c :: (cs ++ [d])) = c ::
        (squeeze (opens c) (closes d) cs ++ [d]) := by
        rw [squeeze_cons_of_not_gap hc, squeeze_append_cons hd]
        rfl
      refine ⟨closes c, opens d, ?_, ?_⟩
      · rw [hcore, append_assoc, cons_append, squeeze_append_cons hc, append_assoc,
          singleton_append, squeeze_append_cons hd]
        simp
      · rw [hcore]
        simp [getLast?_cons]

/-- Stripping a text without layout leaves the stripped text without layout. -/
theorem strip_squeeze (cs : List Char) :
    strip (squeeze isOpen isClosed cs) = squeeze false false (strip cs) := by
  obtain ⟨left, right, hcs, hleft, hright, hhead, hlast⟩ := exists_stripWhile isBlank cs
  have hcore : stripWhile isBlank cs = strip cs := rfl
  rw [hcore] at hcs hhead hlast
  by_cases hne : strip cs = []
  · have hblank : ∀ c ∈ cs, isBlank c := by
      intro c hc
      rw [hcs, hne, append_nil] at hc
      rcases mem_append.mp hc with hc | hc
      · exact hleft c hc
      · exact hright c hc
    rw [hne, strip, stripWhile_eq_nil fun c hc => hblank c ((squeeze_sublist _ _ _).subset hc)]
    rfl
  · obtain ⟨first, last, hsqueeze, hhead', hlast'⟩ := squeeze_core hne
      (fun c hc => isGap_eq_false_of_isBlank (hhead c hc)) (fun c hc =>
        isGap_eq_false_of_isBlank (hlast c hc))
      isOpen isClosed left right
    rw [← hcs] at hsqueeze
    rw [hsqueeze]
    exact stripWhile_eq (fun c hc => hleft c ((squeeze_sublist _ _ _).subset hc))
      (fun c hc => hright c ((squeeze_sublist _ _ _).subset hc)) (by rwa [hhead']) (by rwa [hlast'])

/-- A character that is neither a gap nor a mark beside which gaps do not count. -/
def isPlain (c : Char) : Bool :=
  !isGap c && !opens c && !closes c

theorem squeeze_plain (h : ∀ c ∈ cs, isPlain c) (isOpen isClosed : Bool) :
    squeeze isOpen isClosed cs = cs := by
  induction cs generalizing isOpen with
  | nil => rfl
  | cons c cs ih =>
    obtain ⟨hc, hcs⟩ := forall_mem_cons.mp h
    simp only [isPlain, Bool.and_eq_true, Bool.not_eq_true'] at hc
    rw [squeeze_cons_of_not_gap hc.1.1, ih hcs]

theorem squeeze_plain_append {left : List Char} (h : ∀ c ∈ left, isPlain c) (isClosed : Bool)
    (cs : List Char) : squeeze false isClosed (left ++ cs) = left ++ squeeze false isClosed cs := by
  induction left with
  | nil => rfl
  | cons c left ih =>
    obtain ⟨hc, hleft⟩ := forall_mem_cons.mp h
    simp only [isPlain, Bool.and_eq_true, Bool.not_eq_true'] at hc
    rw [cons_append, squeeze_cons_of_not_gap hc.1.1, hc.1.2, ih hleft, cons_append]

theorem squeeze_append_plain {right : List Char} (h : ∀ c ∈ right, isPlain c) (isOpen : Bool)
    (cs : List Char) : squeeze isOpen false (cs ++ right) = squeeze isOpen false cs ++ right := by
  cases right with
  | nil => simp
  | cons c right =>
    obtain ⟨hc, hright⟩ := forall_mem_cons.mp h
    simp only [isPlain, Bool.and_eq_true, Bool.not_eq_true'] at hc
    rw [squeeze_append_cons hc.1.1, hc.2, squeeze_plain hright]

/-- At its start a text without layout has the first character of the text, or a closing mark. -/
theorem head?_squeeze {isClosed : Bool} (h : (squeeze false isClosed cs).head? = some c) :
    cs.head? = some c ∨ closes c := by
  cases cs with
  | nil => cases h
  | cons d cs =>
    cases hd : isGap d with
    | false =>
      rw [squeeze_cons_of_not_gap hd] at h
      exact .inl h
    | true =>
      rw [squeeze_cons_of_gap hd] at h
      split at h
      · next hdrop => exact .inr (by simpa [h] using hdrop)
      · exact .inl h

/-- At its end a text without layout has the last character of the text, or an opening mark. -/
theorem getLast?_squeeze {isOpen : Bool} (h : (squeeze isOpen false cs).getLast? = some c) :
    cs.getLast? = some c ∨ opens c := by
  obtain ⟨left, right, hcs, hleft, hright, hhead, hlast⟩ := exists_stripWhile isGap cs
  rcases eq_nil_or_concat' (stripWhile isGap cs) with hne | ⟨core, d, hcore⟩
  · have hgaps : ∀ c ∈ cs, isGap c := by
      intro c hc
      rw [hcs, hne, append_nil] at hc
      rcases mem_append.mp hc with hc | hc
      · exact hleft c hc
      · exact hright c hc
    rw [squeeze_gaps hgaps] at h
    split at h
    · cases h
    · exact .inl h
  · have hd : isGap d = false := hlast d (by simp [hcore])
    rw [hcore, append_assoc, append_assoc, singleton_append, ← append_assoc] at hcs
    rw [hcs, squeeze_append_cons hd, squeeze_gaps hright] at h
    cases hopens : opens d with
    | true =>
      right
      simp only [hopens, Bool.true_or, if_true, getLast?_concat, Option.some.injEq] at h
      exact h ▸ hopens
    | false =>
      left
      rw [hcs]
      simpa [hopens] using h

def isQuoteMark (c : Char) : Bool :=
  c == '\x27' || c == '\x22'

theorem isPlain_of_isQuoteMark (h : isQuoteMark c) : isPlain c := by
  simp only [isQuoteMark, Bool.or_eq_true, beq_iff_eq] at h
  rcases h with rfl | rfl <;> rfl

theorem isQuoteMark_eq_false (h : opens c ∨ closes c) : isQuoteMark c = false := by
  cases hc : isQuoteMark c with
  | false => rfl
  | true =>
    have := isPlain_of_isQuoteMark hc
    rcases h with h | h <;> simp [isPlain, h] at this

theorem stripQuotes_squeeze (cs : List Char) :
    stripQuotes (squeeze false false cs) = squeeze false false (stripQuotes cs) := by
  obtain ⟨left, right, hcs, hleft, hright, hhead, hlast⟩ := exists_stripWhile isQuoteMark cs
  have hsqueeze : squeeze false false cs =
      left ++ squeeze false false (stripWhile isQuoteMark cs) ++ right := by
    conv_lhs => rw [hcs]
    rw [squeeze_append_plain fun c hc => isPlain_of_isQuoteMark (hright c hc),
      squeeze_plain_append fun c hc => isPlain_of_isQuoteMark (hleft c hc)]
  rw [hsqueeze]
  refine stripWhile_eq hleft hright (fun c hc => ?_) (fun c hc => ?_)
  · rcases head?_squeeze hc with hc | hc
    · exact hhead c hc
    · exact isQuoteMark_eq_false (.inr hc)
  · rcases getLast?_squeeze hc with hc | hc
    · exact hlast c hc
    · exact isQuoteMark_eq_false (.inl hc)

theorem unquote_squeeze (cs : List Char) :
    unquote (squeeze false false cs) = squeeze false false (unquote cs) := by
  rw [unquote, strip_squeeze, stripQuotes_squeeze, strip_squeeze]
  rfl

/-! ## Cutting -/

/-- The first part of a text starts as the text does, unless it is empty. -/
theorem head?_of_cutAt {depth : Int} {part : List Char} {parts : List (List Char)}
    (h : cutAt (· == separator) depth cs = part :: parts) :
    cs.head? = if part = [] then (if parts = [] then none else some separator) else part.head? := by
  cases cs with
  | nil =>
    cases h
    rfl
  | cons c cs =>
    by_cases hc : c = separator ∧ depth + weight c = 0
    · obtain ⟨rfl, hdepth⟩ := hc
      rw [cutAt_cons_separator hdepth] at h
      cases h
      simp [cutAt_ne_nil]
    · cases hparts : cutAt (· == separator) (depth + weight c) cs with
      | nil => exact absurd hparts (cutAt_ne_nil _ _ _)
      | cons first rest =>
        rw [cutAt_cons_other hc hparts] at h
        cases h
        simp

/-- Parts without layout, with separators between them. -/
def squeezeParts : Bool → Bool → List (List Char) → List (List Char)
  | _, _, [] => []
  | isOpen, isClosed, part :: parts =>
    squeeze isOpen (isClosed || !parts.isEmpty) part :: squeezeParts true isClosed parts

theorem weight_of_isGap (h : isGap c) : weight c = 0 := by
  simp only [isGap, Bool.or_eq_true, beq_iff_eq] at h
  rcases h with (rfl | rfl) | rfl <;> rfl

/-- Cutting a text without layout gives the parts without layout. -/
theorem cutAt_squeeze (hopens : opens separator) (hcloses : closes separator) (depth : Int)
    (isOpen isClosed : Bool) (cs : List Char) :
    cutAt (· == separator) depth (squeeze isOpen isClosed cs) =
      squeezeParts isOpen isClosed (cutAt (· == separator) depth cs) := by
  induction cs generalizing depth isOpen with
  | nil => simp [squeeze, cutAt, squeezeParts]
  | cons c cs ih =>
    by_cases hc : c = separator ∧ depth + weight c = 0
    · obtain ⟨rfl, hdepth⟩ := hc
      rw [squeeze_cons_of_not_gap (isGap_eq_false_of_opens hopens), hopens,
        cutAt_cons_separator hdepth, cutAt_cons_separator hdepth, ih]
      simp [squeezeParts, squeeze]
    · cases hparts : cutAt (· == separator) (depth + weight c) cs with
      | nil => exact absurd hparts (cutAt_ne_nil _ _ _)
      | cons part parts =>
        have hcut := cutAt_cons_other hc hparts
        cases hgap : isGap c with
        | false =>
          have hrest := ih (depth + weight c) (opens c)
          rw [hparts, squeezeParts] at hrest
          rw [squeeze_cons_of_not_gap hgap, cutAt_cons_other hc hrest, hcut, squeezeParts,
            squeeze_cons_of_not_gap hgap]
        | true =>
          -- whether the gap counts is seen from the text as from the first part
          have hrest := ih depth isOpen
          have hdepth : depth + weight c = depth := by rw [weight_of_isGap hgap, Int.add_zero]
          rw [hdepth] at hparts
          rw [hparts, squeezeParts] at hrest
          have hhead : ((squeeze isOpen isClosed cs).head?.map closes).getD isClosed =
              ((squeeze isOpen (isClosed || !parts.isEmpty) part).head?.map closes).getD
                (isClosed || !parts.isEmpty) := by
            rw [head?_of_cutAt hrest]
            cases squeeze isOpen (isClosed || !parts.isEmpty) part with
            | nil => cases parts <;> simp [squeezeParts, hcloses]
            | cons d ds => simp
          rw [hcut, squeezeParts, squeeze_cons_of_gap hgap, squeeze_cons_of_gap hgap, hhead]
          split
          · exact hrest
          · exact cutAt_cons_other hc (by rw [hdepth, hrest])

theorem map_strip_squeezeParts (parts : List (List Char)) :
    (squeezeParts isOpen isClosed parts).map strip = (parts.map strip).map
      (squeeze false false) := by
  induction parts generalizing isOpen with
  | nil => rfl
  | cons part parts ih => simp [squeezeParts, strip_squeeze, ih]

/-! ## Names -/

/-- A text without marks beside which gaps do not count. -/
def Unmarked (cs : List Char) : Prop :=
  ∀ c ∈ cs, opens c = false ∧ closes c = false

theorem unmarked_of_isNameChar (h : ∀ c ∈ cs, isNameChar c) : Unmarked cs := by
  intro c hc
  have hne : ∀ d, isNameChar d = false → (c == d) = false := fun d hd =>
    beq_false_of_ne (ne_of_isNameChar (h c hc) hd)
  simp [opens, closes, hne '[' (by decide), hne ']' (by decide), hne ',' (by decide),
    hne '|' (by decide)]

theorem squeeze_of_unmarked (h : Unmarked cs) : squeeze false false cs = cs := by
  induction cs with
  | nil => rfl
  | cons c cs ih =>
    obtain ⟨hc, hcs⟩ := forall_mem_cons.mp h
    cases hgap : isGap c with
    | false => rw [squeeze_cons_of_not_gap hgap, hc.1, ih hcs]
    | true =>
      rw [squeeze_cons_of_gap hgap, ih hcs]
      cases cs with
      | nil => rfl
      | cons d ds => simp [(hcs d mem_cons_self).2]

/-- Layout makes no difference between a text and one without marks. -/
theorem squeeze_eq_iff {word : List Char} (hword : Unmarked word) :
    squeeze false false cs = word ↔ cs = word := by
  constructor
  · intro h
    have hcs : Unmarked cs := by
      intro c hc
      constructor
      · rw [← Bool.not_eq_true]
        intro hopens
        have hmem := mem_squeeze (isGap_eq_false_of_opens hopens) hc false false
        simp [(hword c (h ▸ hmem)).1] at hopens
      · rw [← Bool.not_eq_true]
        intro hcloses
        have hmem := mem_squeeze (isGap_eq_false_of_closes hcloses) hc false false
        simp [(hword c (h ▸ hmem)).2] at hcloses
    rw [← h, squeeze_of_unmarked hcs]
  · rintro rfl
    exact squeeze_of_unmarked hword

theorem isNone_squeeze (cs : List Char) : isNone (squeeze false false cs) = isNone cs := by
  have hword : ∀ word ∈ ["None".toList, "NoneType".toList], Unmarked word := by
    intro word hword
    refine unmarked_of_isNameChar (all_eq_true.mp ?_)
    revert word
    decide +kernel
  have hnone : squeeze false false cs = "None".toList ↔ cs = "None".toList :=
    squeeze_eq_iff (hword "None".toList (by simp))
  have htype : squeeze false false cs = "NoneType".toList ↔ cs = "NoneType".toList :=
    squeeze_eq_iff (hword "NoneType".toList (by simp))
  simp only [isNone, hnone, htype]

theorem takeWhile_squeeze (cs : List Char) :
    (squeeze false false cs).takeWhile (· ≠ '[') = squeeze false false
      (cs.takeWhile (· ≠ '[')) := by
  have hnone : ∀ l : List Char, '[' ∉ l → ∀ c ∈ l, decide (c ≠ '[') := by
    intro l hl c hc
    exact decide_eq_true fun h => hl (h ▸ hc)
  by_cases hmem : '[' ∈ cs
  · obtain ⟨name, rest, rfl, hname⟩ := eq_append_cons_of_mem hmem
    have hname' : '[' ∉ squeeze false false name :=
      fun h => hname ((squeeze_sublist _ _ _).subset h)
    rw [squeeze_append_cons (by decide), takeWhile_append_of_pos (hnone _ hname),
      show closes '[' = false from rfl, takeWhile_append_of_pos (hnone _ hname')]
    simp
  · have hmem' : '[' ∉ squeeze false false cs := fun h => hmem ((squeeze_sublist _ _ _).subset h)
    rw [takeWhile_eq_self_iff.mpr (hnone _ hmem), takeWhile_eq_self_iff.mpr (hnone _ hmem')]

theorem origin?_squeeze (cs : List Char) : origin? (squeeze false false cs) = origin? cs := by
  rw [origin?, origin?, takeWhile_squeeze]
  generalize cs.takeWhile (· ≠ '[') = name
  cases hname : isLooseDotted name with
  | true =>
    have hplain := squeeze_of_unmarked (unmarked_of_isNameChar (isNameChar_of_isLooseDotted hname))
    rw [hplain, hname]
  | false =>
    cases hsqueezed : isLooseDotted (squeeze false false name) with
    | false => rfl
    | true =>
      have hplain := unmarked_of_isNameChar (isNameChar_of_isLooseDotted hsqueezed)
      rw [← (squeeze_eq_iff hplain).mp rfl, hname] at hsqueezed
      cases hsqueezed

/-! ## Steps -/

theorem not_gap_of_strip (h : (strip cs).getLast? = some c) : isGap c = false := by
  obtain ⟨_, _, _, _, _, _, hlast⟩ := exists_stripWhile isBlank cs
  exact isGap_eq_false_of_isBlank (hlast c h)

theorem isEmpty_squeeze_strip (cs : List Char) :
    (squeeze false false (strip cs)).isEmpty = (strip cs).isEmpty := by
  rcases eq_nil_or_concat' (strip cs) with hnil | ⟨init, c, hcs⟩
  · rw [hnil]
    rfl
  · have hc : isGap c = false := not_gap_of_strip (by rw [hcs]; simp)
    have hmem := mem_squeeze hc (show c ∈ strip cs by simp [hcs]) false false
    rw [isEmpty_eq_false_iff_exists_mem.mpr ⟨c, hmem⟩, hcs]
    simp

theorem membersOf_squeeze (hopens : opens separator) (hcloses : closes separator)
    (isOpen isClosed : Bool) (cs : List Char) :
    membersOf separator (squeeze isOpen isClosed cs) = (membersOf separator cs).map
      (squeeze false false) := by
  unfold membersOf splitTopLevel
  rw [cutAt_squeeze hopens hcloses, map_strip_squeezeParts]
  have hstripped : ∀ part ∈ (cutAt (· == separator) 0 cs).map strip, ∃ text, part = strip text := by
    intro part hpart
    obtain ⟨text, _, rfl⟩ := mem_map.mp hpart
    exact ⟨text, rfl⟩
  generalize (cutAt (· == separator) 0 cs).map strip = parts at hstripped
  rw [filter_filter, filter_filter, filter_map]
  congr 1
  refine filter_congr fun part hpart => ?_
  obtain ⟨text, rfl⟩ := hstripped part hpart
  simp only [Function.comp_apply, isNone_squeeze, isEmpty_squeeze_strip]

theorem unionArguments?_squeeze {arguments : List Char}
    (h : unionArguments? member = some arguments) :
    unionArguments? (squeeze false false member) = some (squeeze true true arguments) := by
  obtain ⟨⟨word, hword, rfl⟩, hline⟩ := unionArguments?_eq_some_iff.mp h
  have hname : squeeze false false word = word :=
    squeeze_of_unmarked (unmarked_of_isNameChar (of_mem_unionWords hword).2)
  refine unionArguments?_eq_some_iff.mpr
    ⟨⟨word, hword, ?_⟩, fun hmem => hline ((squeeze_sublist _ _ _).subset hmem)⟩
  rw [squeeze_append_cons (by decide), show closes '[' = false from rfl,
    show opens '[' from rfl, hname, squeeze_append_cons (by decide)]
  rfl

/-- A union without layout comes from a union. -/
theorem exists_of_squeeze_union {word arguments : List Char} (hword : word ∈ unionWords)
    (hlast : ∀ c ∈ member.getLast?, isGap c = false)
    (h : squeeze false false member = word ++ '[' :: (arguments ++ [']'])) :
    ∃ arguments, member = word ++ '[' :: (arguments ++ [']']) := by
  have hname := (of_mem_unionWords hword).2
  have htake : member.takeWhile (· ≠ '[') = word := by
    rw [← squeeze_eq_iff (unmarked_of_isNameChar hname), ← takeWhile_squeeze, h,
      takeWhile_bracket hname]
  have hend : member.getLast? = some ']' := by
    rcases eq_nil_or_concat' member with rfl | ⟨init, c, rfl⟩
    · simp [squeeze] at h
    · have hc : isGap c = false := hlast c (by simp)
      have hlasts := congrArg getLast? h
      rw [squeeze_append_cons hc, ← cons_append, ← append_assoc, getLast?_concat] at hlasts
      rw [getLast?_concat, ← hlasts]
      simp [squeeze]
  have hcs := exists_arguments (htake.symm ▸ hname) hend
  rwa [htake] at hcs

theorem not_union_squeeze (hlast : ∀ c ∈ member.getLast?, isGap c = false)
    (h : unionArguments? member = none ∧ brokenWord? member = none) :
    unionArguments? (squeeze false false member) = none ∧
      brokenWord? (squeeze false false member) = none := by
  refine not_union_iff.mpr fun word hword arguments hmember => ?_
  obtain ⟨arguments, hmember⟩ := exists_of_squeeze_union hword hlast hmember
  exact not_union_iff.mp h word hword arguments hmember

theorem step_squeeze_of_into {inner : List Char} (h : step cs = .into inner) :
    step (squeeze false false cs) = .into (squeeze false false inner) := by
  obtain ⟨member, arguments, hmember, harguments, hinner⟩ := step_eq_into_iff.mp h
  refine step_eq_into_iff.mpr ⟨squeeze false false member, squeeze true true arguments, ?_, ?_, ?_⟩
  · rw [unquote_squeeze, membersOf_squeeze rfl rfl, hmember, map_singleton]
  · exact unionArguments?_squeeze harguments
  · rw [membersOf_squeeze rfl rfl, hinner, map_singleton]

theorem step_squeeze_of_stop {name : Option (List Char)} (h : step cs = .stop name) :
    step (squeeze false false cs) = .stop name := by
  have hmembers : membersOf '|' (unquote (squeeze false false cs)) =
      (membersOf '|' (unquote cs)).map (squeeze false false) := by
    rw [unquote_squeeze, membersOf_squeeze rfl rfl]
  have hnot : ∀ {parts : List (List Char)}, (∀ part, parts ≠ [part]) →
      ∀ part, parts.map (squeeze false false) ≠ [part] := by
    intro parts hparts part hpart
    obtain ⟨first, hfirst, _⟩ := map_eq_singleton_iff.mp hpart
    exact hparts first hfirst
  have hleads := leads_step cs
  rw [h] at hleads
  cases hleads with
  | members hother => exact step_of_not_single (hmembers ▸ hnot hother)
  | arguments hmember harguments hother =>
    rw [hmember, map_singleton] at hmembers
    rw [step_of_members hmembers, stepInto, unionArguments?_squeeze harguments]
    dsimp only
    rw [membersOf_squeeze rfl rfl]
    split
    · next inner hinner => exact absurd hinner (hnot hother inner)
    · rfl
  | @origin member hmember harguments hbroken =>
    obtain ⟨⟨part, _, hpart⟩, _⟩ := mem_membersOf_iff.mp (hmember ▸ mem_singleton_self member)
    have hlast : ∀ c ∈ member.getLast?, isGap c = false := by
      rw [← hpart]
      exact fun c hc => not_gap_of_strip hc
    obtain ⟨harguments', hbroken'⟩ := not_union_squeeze hlast ⟨harguments, hbroken⟩
    rw [hmember, map_singleton] at hmembers
    rw [step_of_members hmembers, stepInto, harguments']
    simp only [hbroken', origin?_squeeze]

/-! ## Runs -/

/-- Up to a union that is broken over several lines, a text is read as without its layout. -/
theorem ending_squeeze {bound : Nat} {cs : List Char} (h : (ending bound cs).broken? = none) :
    ending bound (squeeze false false cs) = ending bound cs := by
  cases hstep : step cs with
  | stop name => rw [ending_of_stop hstep, ending_of_stop (step_squeeze_of_stop hstep)]
  | broken word =>
    rw [ending_of_broken hstep] at h
    cases h
  | into inner =>
    have hsqueeze := ending_of_into (step_squeeze_of_into hstep)
    cases bound with
    | zero => rw [(ending_of_into hstep).1, hsqueeze.1]
    | succ bound =>
      rw [(ending_of_into hstep).2] at h
      rw [(ending_of_into hstep).2, hsqueeze.2, ending_squeeze h]

theorem squeeze_of_relaid_steps {xs ys : List Char} (h : Relation.ReflTransGen Relaid xs ys) :
    squeeze false false xs = squeeze false false ys := by
  induction h with
  | refl => rfl
  | tail _ hstep ih => exact ih.trans (squeeze_of_relaid hstep)

theorem answer_of_brokenUnion? {hint word : String} (h : brokenUnion? hint = some word) :
    answer hint = .ok (some word) := by
  obtain ⟨found, hfound, rfl⟩ := Option.map_eq_some_iff.mp h
  rw [answer_eq]
  cases hending : ending maxNesting hint.toList with
  | broken other =>
    rw [hending] at hfound
    cases hfound
    rfl
  | found name | tooDeep => simp [hending, Ending.broken?] at hfound

theorem answer_eq_of_relaid {hint other : String}
    (h : Relation.ReflTransGen Relaid hint.toList other.toList) (hhint : brokenUnion? hint = none)
    (hother : brokenUnion? other = none) : answer hint = answer other := by
  rw [answer_eq, answer_eq, ← ending_squeeze (Option.map_eq_none_iff.mp hhint),
    ← ending_squeeze (Option.map_eq_none_iff.mp hother), squeeze_of_relaid_steps h]

/-- Hints that differ in nothing but their layout are read alike, unless the reading of one of them
ends at a union that is broken over several lines: it then gives the word of that union, and the
other one must do so too. -/
theorem answer_relaid_iff {hint other : String}
    (h : Relation.ReflTransGen Relaid hint.toList other.toList) :
    (answer hint = answer other ↔
      brokenUnion? hint = brokenUnion? other ∨
        (brokenUnion? hint = none ∧ answer hint = .ok (brokenUnion? other)) ∨
        (brokenUnion? other = none ∧ answer other = .ok (brokenUnion? hint))) ∧
      ∀ word, brokenUnion? hint = some word → answer hint = .ok (some word) := by
  refine ⟨?_, fun word hword => answer_of_brokenUnion? hword⟩
  cases hhint : brokenUnion? hint with
  | none =>
    cases hother : brokenUnion? other with
    | none => simp [answer_eq_of_relaid h hhint hother]
    | some word => simp [answer_of_brokenUnion? hother]
  | some word =>
    cases hother : brokenUnion? other with
    | none => simp [answer_of_brokenUnion? hhint, eq_comm]
    | some word' => simp [answer_of_brokenUnion? hhint, answer_of_brokenUnion? hother]

theorem relaid_optional (h : ∀ c ∈ gap, isGap c) :
    Relation.ReflTransGen Relaid ("Optional".toList ++ '[' :: (gap ++ "Repo]".toList))
      "Optional[Repo]".toList := by
  have hbare : "Optional[Repo]".toList = "Optional".toList ++ '[' :: ([] ++ "Repo]".toList) := by
    decide +kernel
  rw [hbare]
  exact .single (.after _ _ rfl h (forall_mem_nil _))

/-- White space inside the brackets of a union on one line does not change what the union names. -/
theorem answer_relaid_optional :
    Relation.ReflTransGen Relaid "Optional[ \tRepo]".toList "Optional[Repo]".toList ∧
      answer "Optional[ \tRepo]" = answer "Optional[Repo]" := by
  have h : Relation.ReflTransGen Relaid "Optional[ \tRepo]".toList "Optional[Repo]".toList := by
    have hgap : "Optional[ \tRepo]".toList = "Optional".toList ++ '[' :: ([' ',
      '\t'] ++ "Repo]".toList) := by
      decide +kernel
    rw [hgap]
    exact relaid_optional (all_eq_true.mp rfl)
  exact ⟨h, (answer_relaid_iff h).1.mpr (.inl (by decide +kernel))⟩

/-- A line break inside the brackets of a union does. -/
theorem answer_broken_optional :
    Relation.ReflTransGen Relaid "Optional[\nRepo]".toList "Optional[Repo]".toList ∧
      answer "Optional[\nRepo]" = .ok (some "Optional") ∧
        answer "Optional[Repo]" = .ok (some "Repo") := by
  have hgap : "Optional[\nRepo]".toList = "Optional".toList ++ '[' ::
    (['\n'] ++ "Repo]".toList) := by
    decide +kernel
  refine ⟨?_, by decide +kernel, by decide +kernel⟩
  rw [hgap]
  exact relaid_optional (all_eq_true.mp rfl)

end Xref.TypeHint

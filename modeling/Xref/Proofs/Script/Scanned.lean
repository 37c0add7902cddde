import Mathlib.Data.List.Find
import Xref.Proofs.Script.Spacing

/-!
# Scanning import statements

However an import statement is spaced, the scanner gives its tokens: it skips the gaps, and takes
the longest word or mark at each place. Only of dots it may take three at once.
-/

namespace Xref.Script

open List Text
open Script.Number (isNamePart)

/-! ## Marks -/

variable {c : Char} {inside : Bool} {gap tail cs text : List Char} {t : Token} {xs : List Token}

/-- The mark at the start of a text is the longest of those with its first character. -/
theorem mark?_cons {candidates : List String} (hc : c ≠ '<')
    (h : marks.filter (fun m => m.toList.head? = some c) = candidates) (cs : List Char) :
    mark? (c :: cs) = candidates.find? fun m => m.toList.isPrefixOf (c :: cs) := by
  have hprefix : ∀ m ∈ marks, m.toList.isPrefixOf (c :: cs) → m.toList.head? = some c := by
    have hne : ∀ m ∈ marks, m.toList ≠ [] := by decide +kernel
    intro m hm hprefix
    obtain ⟨rest, hrest⟩ := isPrefixOf_iff_prefix.mp hprefix
    rw [← List.head?_append_of_ne_nil _ (hne m hm), hrest]
    rfl
  have hpair : ['<', '>'].isPrefixOf (c :: cs) = false := by simp [List.isPrefixOf, hc.symm]
  rw [mark?, hpair, if_neg Bool.false_ne_true, ← h, List.find?_filter]
  refine List.find?_congr fun m hm => ?_
  cases hm' : m.toList.isPrefixOf (c :: cs) with
  | false => simp
  | true => simp [ hprefix m hm hm']

theorem mark?_dot (cs : List Char) :
    mark? ('.' :: cs) = if ['.', '.'].isPrefixOf cs then some "..." else some "." := by
  have hmarks : marks.filter (fun m => m.toList.head? = some '.') = ["...", "."] := by
    decide +kernel
  rw [mark?_cons (by decide) hmarks]
  have hthree : "...".toList.isPrefixOf ('.' :: cs) = ['.', '.'].isPrefixOf cs := by simp
  rw [List.find?_cons, hthree]
  cases ['.', '.'].isPrefixOf cs with
  | true => rfl
  | false => simp [List.isPrefixOf]

/-- A mark that is the only one with its first character. -/
theorem mark?_alone (hc : c ∈ [',', '(', ')']) (cs : List Char) :
    mark? (c :: cs) = some (String.ofList [c]) := by
  have hmarks : ∀ c ∈ [',', '(', ')'], c ≠ '<' ∧
      marks.filter (fun m => m.toList.head? = some c) = [String.ofList [c]] := by
    simp only [forall_mem_cons, not_mem_nil, false_implies, implies_true, and_true]
    decide +kernel
  rw [mark?_cons (hmarks c hc).1 (hmarks c hc).2]
  simp [List.isPrefixOf]

theorem mark?_star {d : Char} (hd : d ∉ ['*', '=']) (cs : List Char) :
    mark? ('*' :: d :: cs) = some "*" := by
  have hmarks : marks.filter (fun m => m.toList.head? = some '*') = ["**=", "**", "*=", "*"] := by
    decide +kernel
  rw [mark?_cons (by decide) hmarks]
  simp only [mem_cons, not_mem_nil, or_false, not_or] at hd
  simp [List.isPrefixOf, Ne.symm hd.1, Ne.symm hd.2]

/-! ## Gaps -/

/-- Scanning a text within a line gives some tokens and leads to the rest of the text. -/
def Scans (l : Layout) (cs : List Char) (ts : List Token) (l' : Layout) (rest : List Char) : Prop :=
  ∃ steps, steps + rest.length ≤ cs.length ∧
    ∀ fuel, scan (fuel + steps) false l cs = ts ++ scan fuel false l' rest

/-- A character with which a token can start. -/
def startsToken (c : Char) : Bool :=
  !isSpace c && !(['#', '\n', '\\'].contains c)

namespace Scans

variable {l l' l'' : Layout} {cs rest last : List Char} {ts us : List Token}

theorem refl (l : Layout) (cs : List Char) : Scans l cs [] l cs :=
  ⟨0, by omega, fun _ => rfl⟩

theorem trans (h : Scans l cs ts l' rest) (h' : Scans l' rest us l'' last) :
    Scans l cs (ts ++ us) l'' last := by
  obtain ⟨steps, hlength, hscan⟩ := h
  obtain ⟨steps', hlength', hscan'⟩ := h'
  refine ⟨steps' + steps, by omega, fun fuel => ?_⟩
  rw [← Nat.add_assoc, hscan, hscan', append_assoc]

theorem blank {c : Char} (hc : isSpace c) : Scans l (c :: cs) [] l cs := by
  refine ⟨1, by simp; omega, fun fuel => ?_⟩
  have hspace : c = ' ' || c = '\t' || c = '\x0c' := by simpa [isSpace] using hc
  rw [scan.eq_def]
  dsimp only
  rw [if_pos hspace]
  rfl

theorem joined (hrest : cs ≠ []) : Scans l ('\\' :: '\n' :: cs) [] l cs := by
  refine ⟨1, by simp; omega, fun fuel => ?_⟩
  cases cs with
  | nil => exact absurd rfl hrest
  | cons d cs => rfl

theorem line (hl : l.brackets ≠ []) : Scans l ('\n' :: cs) [] l cs := by
  refine ⟨1, by simp; omega, fun fuel => ?_⟩
  have hbrackets : l.brackets.isEmpty = false := by simpa using hl
  have hscan : scan (fuel + 1) false l ('\n' :: cs) =
      if l.brackets.isEmpty then .lineEnd :: scan fuel true l cs else scan fuel false l cs := rfl
  rw [hscan, hbrackets]
  rfl

theorem comment {text : List Char} (htext : '\n' ∉ text) :
    Scans l ('#' :: (text ++ '\n' :: cs)) [] l ('\n' :: cs) := by
  refine ⟨1, by simp; omega, fun fuel => ?_⟩
  have hdrop : (text ++ '\n' :: cs).dropWhile (· ≠ '\n') = '\n' :: cs := by
    have hother : ∀ c ∈ text, decide (c ≠ '\n') := fun c hc => decide_eq_true fun h =>
      htext (h ▸ hc)
    rw [dropWhile_append_of_pos hother]
    rfl
  have hscan : scan (fuel + 1) false l ('#' :: (text ++ '\n' :: cs)) =
      scan fuel false l ((text ++ '\n' :: cs).dropWhile (· ≠ '\n')) := rfl
  rw [hscan, hdrop]
  rfl

theorem token (hc : startsToken c) (htoken : token? c cs = some (t, rest))
    (hlength : rest.length ≤ cs.length) (hafter : l.after? t = some l') :
    Scans l (c :: cs) [t] l' rest := by
  refine ⟨1, by simp; omega, fun fuel => ?_⟩
  simp only [startsToken, isSpace, Bool.and_eq_true, Bool.not_eq_true', Bool.or_eq_false_iff,
    beq_eq_false_iff_ne, contains_cons, contains_nil, ne_eq] at hc
  obtain ⟨⟨⟨hspace, htab⟩, hfeed⟩, hcomment, hbreak, hjoin, _⟩ := hc
  rw [scan.eq_def]
  simp [hspace, htab, hfeed, hcomment, hbreak, hjoin, htoken, hafter]

end Scans

/-- A gap is skipped. -/
theorem Gap.scans {rest : List Char} (h : Gap inside gap) (hrest : rest ≠ []) {l : Layout}
    (hl : inside → l.brackets ≠ []) : Scans l (gap ++ rest) [] l rest := by
  induction h with
  | nil => exact .refl l rest
  | blank hc h ih => exact (Scans.blank hc).trans ih
  | joined h ih => exact (Scans.joined (by simp [hrest])).trans ih
  | line hinside h ih => exact (Scans.line (hl hinside)).trans ih
  | comment text htext hinside h ih =>
    rw [cons_append, append_assoc]
    exact ((Scans.comment htext).trans (Scans.line (hl hinside))).trans ih

/-! ## Single tokens -/

/-- Scanning gives a token that is written before a text. -/
def Lexes (t : Token) (tail : List Char) : Prop :=
  ∃ c cs, t.spelling = c :: cs ∧ startsToken c ∧ token? c (cs ++ tail) = some (t, tail)

theorem Lexes.scans (h : Lexes t tail) {l l' : Layout} (hafter : l.after? t = some l') :
    Scans l (t.spelling ++ tail) [t] l' tail := by
  obtain ⟨c, cs, hspelled, hc, htoken⟩ := h
  rw [hspelled, cons_append]
  exact .token hc htoken (by simp) hafter

def endsWord (c : Char) : Bool :=
  !isNamePart c && !isQuote c

theorem startsToken_of_isNamePart (h : isNamePart c) : startsToken c := by
  have hne : ∀ d, isNamePart d = false → c ≠ d := by
    rintro d hd rfl
    rw [h] at hd
    cases hd
  simp [startsToken, isSpace, hne ' ' (by decide), hne '\t' (by decide), hne '\x0c' (by decide),
    hne '#' (by decide), hne '\n' (by decide), hne '\\' (by decide)]

theorem isDigit_eq_false_of_startsIdentifier (h : startsIdentifier c) : c.isDigit = false := by
  rw [← Bool.not_eq_true]
  intro hdigit
  obtain ⟨_, hhigh⟩ := Bool.and_eq_true_iff.mp hdigit
  have hhigh : c.toNat ≤ 57 := UInt32.le_iff_toNat_le.mp (of_decide_eq_true hhigh)
  simp only [startsIdentifier, show c.toNat < 128 by omega, if_true, Bool.or_eq_true,
    beq_iff_eq] at h
  rcases h with h | rfl
  · have := (toNat_of_isAlpha h).1
    omega
  · revert hhigh
    decide

theorem takeWhile_eq_nil_of_head? {p : Char → Bool} (h : ∀ c ∈ cs.head?, p c = false) :
    cs.takeWhile p = [] ∧ cs.dropWhile p = cs := by
  cases cs with
  | nil => exact ⟨rfl, rfl⟩
  | cons c cs => simp [h c rfl]

theorem isNamePart_of_startsIdentifier (h : startsIdentifier c) : isNamePart c := by
  by_cases hc : c.toNat < 128
  · simp only [startsIdentifier, hc, if_true, Bool.or_eq_true] at h
    rcases h with h | h <;> simp [isNamePart, Char.isAlphanum, h]
  · simp [isNamePart, Nat.le_of_not_lt hc]

theorem isNamePart_of_continuesIdentifier (h : continuesIdentifier c) : isNamePart c := by
  by_cases hc : c.toNat < 128
  · simp only [continuesIdentifier, hc, if_true] at h
    simp [isNamePart, h]
  · simp [isNamePart, Nat.le_of_not_lt hc]

theorem lexes_word {w : String} (hw : isIdentifier w.toList)
    (htail : ∀ c ∈ tail.head?, endsWord c) : Lexes (.word w) tail := by
  cases hcs : w.toList with
  | nil =>
    rw [hcs] at hw
    cases hw
  | cons c cs =>
    rw [hcs] at hw
    have hparts : startsIdentifier c ∧ ∀ d ∈ cs, continuesIdentifier d := by
      simpa only [isIdentifier, Bool.and_eq_true, all_eq_true] using hw
    have hc : isNamePart c := isNamePart_of_startsIdentifier hparts.1
    have hname : ∀ d ∈ c :: cs, isNamePart d :=
      forall_mem_cons.mpr ⟨hc, fun d hd => isNamePart_of_continuesIdentifier (hparts.2 d hd)⟩
    have hnumber : startsNumber c (cs ++ tail) = false := by
      have hdot : (c == '.') = false := by
        rw [← Bool.not_eq_true, beq_iff_eq]
        rintro rfl
        revert hc
        decide
      simp [startsNumber, isDigit_eq_false_of_startsIdentifier hparts.1, hdot]
    have hends : ∀ d ∈ tail.head?, isNamePart d = false := fun d hd => by
      have := htail d hd
      simp_all [endsWord]
    have hquote : tail.head?.any isQuote = false := by
      cases hhead : tail.head? with
      | none => rfl
      | some d =>
        have := htail d hhead
        simp_all [endsWord]
    refine ⟨c, cs, hcs, startsToken_of_isNamePart hc, ?_⟩
    rw [token?, hnumber, if_neg Bool.false_ne_true, hc, Bool.true_or, if_pos rfl,
      ← cons_append, word?,
      takeWhile_append_of_pos hname, dropWhile_append_of_pos hname,
        (takeWhile_eq_nil_of_head? hends).1,
      (takeWhile_eq_nil_of_head? hends).2, hquote, append_nil]
    simp [hw, hcs, String.ext_iff]

/-- A mark whose first character starts no word and no number. -/
theorem lexes_mark {m : String} (hm : m.toList = c :: cs)
    (hc : startsToken c ∧ isNamePart c = false ∧ isQuote c = false)
    (hnumber : startsNumber c (cs ++ tail) = false) (hmark : mark? (c :: (cs ++ tail)) = some m) :
    Lexes (.mark m) tail := by
  refine ⟨c, cs, hm, hc.1, ?_⟩
  have hdrop : (c :: (cs ++ tail)).drop m.length = tail := by
    rw [← String.length_toList, hm, ← cons_append, drop_left]
  rw [token?, hnumber, hc.2.1, hc.2.2, hmark]
  simp [hdrop]

theorem lexes_alone (hc : c ∈ [',', '(', ')']) (tail : List Char) :
    Lexes (.mark (String.ofList [c])) tail := by
  have hall : ∀ c ∈ [',', '(', ')'], startsToken c ∧ isNamePart c = false ∧ isQuote c = false := by
    simp only [forall_mem_cons, not_mem_nil, false_implies, implies_true, and_true]
    decide
  have hnumber : startsNumber c ([] ++ tail) = false := by
    revert c
    simp [startsNumber]
  exact lexes_mark String.toList_ofList (hall c hc) hnumber (mark?_alone hc tail)

theorem lexes_star {d : Char} (hd : d ∉ ['*', '=']) (tail : List Char) :
    Lexes (.mark "*") (d :: tail) :=
  lexes_mark (show "*".toList = ['*'] by simp) (by decide) rfl (mark?_star hd tail)

theorem lexes_dot (hdigit : ∀ c ∈ tail.head?, c.isDigit = false)
    (hdots : ['.', '.'].isPrefixOf tail = false) : Lexes (.mark ".") tail := by
  have hnumber : startsNumber '.' ([] ++ tail) = false := by
    cases hhead : tail.head? with
    | none => simp [startsNumber, hhead]
    | some c => simp [startsNumber, hhead, hdigit c hhead]
  refine lexes_mark (show ".".toList = ['.'] by simp) (by decide) hnumber ?_
  rw [nil_append, mark?_dot, hdots]
  rfl

theorem lexes_dots (tail : List Char) : Lexes (.mark "...") tail :=
  lexes_mark (show "...".toList = ['.', '.', '.'] by simp) (by decide) rfl (mark?_dot _)

/-! ## Statements -/

/-- The layout inside or outside of round brackets at the start of a text. -/
def bracketing (inside : Bool) : Layout :=
  ⟨[], if inside then ['('] else []⟩

def startsGap (c : Char) : Bool :=
  isSpace c || ['\\', '\n', '#'].contains c

theorem Gap.head (h : Gap inside gap) : ∀ c ∈ gap.head?, startsGap c := by
  cases h with
  | nil => simp
  | blank hc h => simpa [startsGap] using .inl hc
  | joined h | line hinside h | comment text htext hinside h => simp [startsGap]

/-- What starts a gap belongs to no other token. -/
theorem of_startsGap (h : startsGap c) : endsWord c ∧ c.isDigit = false ∧ c ∉ ['*', '='] := by
  have hall : ∀ c ∈ [' ', '\t', '\x0c', '\\', '\n', '#'],
      endsWord c ∧ c.isDigit = false ∧ c ∉ ['*', '='] := by
    simp only [forall_mem_cons, not_mem_nil, false_implies, implies_true, and_true]
    decide
  refine hall c ?_
  simpa [startsGap, isSpace, or_assoc] using h

/-- A token of a statement leads to the layout for what follows it. -/
theorem Balanced.after? (h : Balanced inside (t :: xs)) :
    (bracketing inside).after? t = some (bracketing (t.leadsInside inside)) := by
  cases h with
  | star => decide +kernel
  | item ht h =>
    cases ht with
    | word hw => rfl
    | dot | comma => cases inside <;> decide +kernel
  | opening h | closing h => decide +kernel

/-- The first character of what is written is that of a word or a mark. -/
theorem Laid.head (h : Laid inside xs cs) (hbalanced : Balanced inside xs) (hc : c ∈ cs.head?) :
    (xs.head?.any Token.isWord ∧ startsIdentifier c) ∨
      (xs.head? = some (.mark (String.ofList [c])) ∧ c ∈ markChars) := by
  cases h with
  | nil => cases hc
  | cons gap hgap hwords h =>
    rcases hbalanced.first with ⟨w, rfl, hw⟩ | ⟨d, hd, rfl⟩
    · rw [Token.spelling] at hc
      cases hcs : w.toList with
      | nil =>
        rw [hcs] at hw
        cases hw
      | cons d ds =>
        rw [hcs] at hw hc
        cases hc
        simp only [isIdentifier, Bool.and_eq_true] at hw
        exact .inl ⟨rfl, hw.1⟩
    · simp only [Token.spelling, String.toList_ofList, singleton_append, List.head?_cons,
        Option.mem_def, Option.some.injEq] at hc
      exact .inr (hc ▸ ⟨rfl, hd⟩)

def tailOf (gap cs : List Char) : List Char :=
  gap ++ (cs ++ ['\n'])

/-- The first character from a gap on is that of the gap, of what is written behind it, or a line
break. -/
theorem head_tailOf (hgap : Gap inside gap) (hc : c ∈ (tailOf gap cs).head?) :
    startsGap c ∨ (gap = [] ∧ c ∈ cs.head?) := by
  cases gap with
  | nil =>
    cases cs with
    | nil =>
      cases hc
      exact .inl rfl
    | cons d cs => exact .inr ⟨rfl, hc⟩
  | cons d gap => exact .inl (hgap.head c hc)

/-- A dot behind a gap is the next token, without a gap. -/
theorem Laid.dot (hgap : Gap inside gap) (h : Laid inside xs cs) (hbalanced : Balanced inside xs)
    (hdot : '.' ∈ (tailOf gap cs).head?) :
    gap = [] ∧ ∃ xs' gap' cs', xs = .mark "." :: xs' ∧ cs = '.' :: (gap' ++ cs') ∧ Gap inside gap' ∧
      Laid inside xs' cs' := by
  rcases head_tailOf hgap hdot with hstart | ⟨hnil, hhead⟩
  · exact absurd hstart (by decide)
  · refine ⟨hnil, ?_⟩
    rcases h.head hbalanced hhead with ⟨_, hstart⟩ | ⟨hxs, _⟩
    · exact absurd hstart (by decide)
    · cases h with
      | nil => cases hhead
      | @cons _ t xs cs gap hgap' hwords h =>
        cases hxs
        exact ⟨xs, gap, cs, rfl, by simp [Token.spelling], hgap', h⟩

/-- The star is the last token of a statement. -/
theorem Balanced.eq_nil_of_star (h : Balanced inside (t :: xs)) (ht : t = .mark "*") : xs = [] := by
  cases h with
  | star => rfl
  | item hitem h => cases hitem <;> simp at ht
  | opening h | closing h => simp at ht

/-- Apart from dots, the tokens of a statement are scanned one by one. -/
theorem Laid.lexes (hgap : Gap (t.leadsInside inside) gap)
    (hwords : t.isWord → xs.head?.any Token.isWord → gap ≠ [])
    (h : Laid (t.leadsInside inside) xs cs) (hbalanced : Balanced inside (t :: xs))
    (ht : t ≠ .mark ".") : Lexes t (tailOf gap cs) := by
  rcases hbalanced.first with ⟨w, rfl, hw⟩ | ⟨d, hd, rfl⟩
  · refine lexes_word hw fun c hc => ?_
    rcases head_tailOf hgap hc with hstart | ⟨hnil, hhead⟩
    · exact (of_startsGap hstart).1
    · rcases h.head hbalanced.tail hhead with ⟨hword, _⟩ | ⟨_, hmark⟩
      · exact absurd hnil (hwords rfl hword)
      · have hall : ∀ c ∈ markChars, endsWord c := all_eq_true.mp (by decide)
        exact hall c hmark
  · have hcases : ∀ d ∈ markChars, d = '.' ∨ d ∈ [',', '(', ')'] ∨ d = '*' := by simp [markChars]
    rcases hcases d hd with rfl | hd | rfl
    · exact absurd rfl ht
    · exact lexes_alone hd _
    · have hxs : xs = [] := hbalanced.eq_nil_of_star rfl
      subst hxs
      cases h with
      | nil =>
        cases gap with
        | nil => exact lexes_star (by decide) []
        | cons c gap => exact lexes_star (of_startsGap (hgap.head c rfl)).2.2 _

theorem Laid.lexes_dot (hgap : Gap inside gap) (h : Laid inside xs cs)
    (hbalanced : Balanced inside xs) (hdots : ['.', '.'].isPrefixOf (tailOf gap cs) = false) :
    Lexes (.mark ".") (tailOf gap cs) := by
  refine Script.lexes_dot (fun c hc => ?_) hdots
  rcases head_tailOf hgap hc with hstart | ⟨_, hhead⟩
  · exact (of_startsGap hstart).2.1
  · rcases h.head hbalanced hhead with ⟨_, hstart⟩ | ⟨_, hmark⟩
    · exact isDigit_eq_false_of_startsIdentifier hstart
    · have hall : ∀ c ∈ markChars, (!c.isDigit) := all_eq_true.mp (by decide)
      simpa using hall c hmark

/-- Scanning goes on behind a token and the gap that follows it. -/
theorem Lexes.scans_gap {inside' : Bool} {ts : List Token} (hlexes : Lexes t (tailOf gap cs))
    (hafter : (bracketing inside).after? t = some (bracketing inside')) (hgap : Gap inside' gap)
    (h : Scans (bracketing inside') (cs ++ ['\n']) ts (bracketing false) ['\n']) :
    Scans (bracketing inside) (t.spelling ++ tailOf gap cs) (t :: ts) (bracketing false)
      ['\n'] := by
  have hskip : Scans (bracketing inside') (tailOf gap cs) [] (bracketing inside') (cs ++ ['\n']) :=
    hgap.scans (by simp) fun hinside => by simp [bracketing, hinside]
  exact (hlexes.scans hafter).trans (hskip.trans h)

theorem leadsInside_dot (inside : Bool) : (Token.mark ".").leadsInside inside = inside := by
  simp [Token.leadsInside]

/-- Two dots that follow a dot without a gap are the next two tokens. -/
theorem Laid.dots (hgap : Gap inside gap) (h : Laid inside xs cs) (hbalanced : Balanced inside xs)
    (hdots : ['.', '.'].isPrefixOf (tailOf gap cs)) :
    ∃ xs' gap' cs', xs = .mark "." :: .mark "." :: xs' ∧
      (Token.mark ".").spelling ++ tailOf gap cs = (Token.mark "...").spelling ++ tailOf gap' cs' ∧
      Gap inside gap' ∧ Laid inside xs' cs' ∧ Balanced inside xs' := by
  obtain ⟨rest, hrest⟩ := isPrefixOf_iff_prefix.mp hdots
  obtain ⟨rfl, xs, gap', cs, rfl, rfl, hgap', h⟩ := Laid.dot hgap h hbalanced (by simp [← hrest])
  have hnext : '.' ∈ (tailOf gap' cs).head? := by
    have htail : tailOf [] ('.' :: (gap' ++ cs)) = '.' :: tailOf gap' cs := by simp [tailOf]
    rw [htail] at hrest
    rw [← (List.cons.inj hrest).2]
    rfl
  have hbalanced' : Balanced inside xs := leadsInside_dot inside ▸ hbalanced.tail
  obtain ⟨rfl, xs, gap, cs, rfl, rfl, hgap, h⟩ := Laid.dot hgap' h hbalanced' hnext
  exact ⟨xs, gap, cs, rfl, by simp [tailOf, Token.spelling], hgap, h,
    leadsInside_dot inside ▸ hbalanced'.tail⟩

/-- Scanning a statement gives its tokens, with three dots in a row as one. -/
theorem Laid.scans (hbalanced : Balanced inside xs) (h : Laid inside xs cs) :
    ∃ ts, Cut xs ts ∧ Scans (bracketing inside) (cs ++ ['\n']) ts (bracketing false) ['\n'] := by
  induction hn : xs.length using Nat.strong_induction_on generalizing inside xs cs with
  | _ n ih =>
    cases h with
    | nil => exact ⟨[], .nil, .refl _ _⟩
    | @cons _ t xs cs gap hgap hwords h =>
      have hafter := hbalanced.after?
      have hrest := hbalanced.tail
      have hshape : t.spelling ++ (gap ++ cs) ++ ['\n'] = t.spelling ++ tailOf gap cs := by
        simp [tailOf]
      rw [hshape]
      by_cases ht : t = .mark "."
      · subst ht
        rw [leadsInside_dot] at hgap h hrest hafter
        by_cases hdots : ['.', '.'].isPrefixOf (tailOf gap cs)
        · obtain ⟨xs, gap, cs, rfl, htail, hgap, h, hbalanced⟩ := Laid.dots hgap h hrest hdots
          obtain ⟨ts, hcut, hscans⟩ := ih xs.length (by simp at hn; omega) hbalanced h rfl
          have hthree : (bracketing inside).after? (.mark "...") = some (bracketing inside) := by
            cases inside <;> decide +kernel
          rw [htail]
          exact ⟨.mark "..." :: ts, .dots hcut, (lexes_dots _).scans_gap hthree hgap hscans⟩
        · obtain ⟨ts, hcut, hscans⟩ := ih xs.length (by simp at hn; omega) hrest h rfl
          have hlexes := Laid.lexes_dot hgap h hrest (Bool.not_eq_true _ ▸ hdots)
          exact ⟨.mark "." :: ts, .cons _ hcut, hlexes.scans_gap hafter hgap hscans⟩
      · obtain ⟨ts, hcut, hscans⟩ := ih xs.length (by simp at hn; omega) hrest h rfl
        exact ⟨t :: ts, .cons t hcut,
          (Laid.lexes hgap hwords h hbalanced ht).scans_gap hafter hgap hscans⟩

/-! ## Texts of statements -/

theorem read?_blanks {blanks : List Char} (h : ∀ c ∈ blanks, c ∈ [' ', '\t']) {m : Margin}
    (hm : m.joined = 0) (cs : List Char) :
    m.read? (blanks ++ '\x0c' :: cs) = Margin.zero.read? cs := by
  induction blanks generalizing m with
  | nil =>
    rw [nil_append, Margin.read?, hm]
    rfl
  | cons c blanks ih =>
    obtain ⟨hc, hblanks⟩ := forall_mem_cons.mp h
    simp only [mem_cons, not_mem_nil, or_false] at hc
    rcases hc with rfl | rfl <;> exact ih hblanks hm

theorem read?_token (hc : startsToken c) (m : Margin) (cs : List Char) :
    m.read? (c :: cs) = some (m, c :: cs) := by
  rw [Margin.read?.eq_def]
  split <;> simp_all [startsToken, isSpace]

/-- What stands before the first token makes no margin. -/
theorem Lead.read? {lead : List Char} (h : Lead lead) (hc : startsToken c) :
    Margin.zero.read? (lead ++ c :: cs) = some (Margin.zero, c :: cs) := by
  induction h with
  | nil => exact read?_token hc _ cs
  | feed blanks hblanks h ih => rw [append_assoc, cons_append, read?_blanks hblanks rfl, ih]
  | @joined lead h ih =>
    cases lead with
    | nil | cons d lead => exact ih

theorem unifyBreaks_ne_nil (h : cs ≠ []) : unifyBreaks cs ≠ [] := by
  fun_cases unifyBreaks cs with
  | case1 => exact absurd rfl h
  | _ => simp

/-- A text whose last line break is unified to a line feed at the end ends with a line break. -/
theorem getLast?_unifyBreaks (h : (unifyBreaks cs).getLast? = some '\n') :
    cs.getLast? ∈ [some '\n', some '\r'] := by
  have hcons : ∀ {c d : Char} {cs : List Char}, (c :: unifyBreaks cs).getLast? = some '\n' →
      ((unifyBreaks cs).getLast? = some '\n' → cs.getLast? ∈ [some '\n', some '\r']) →
      (cs = [] → d ∈ ['\n', '\r']) → (d :: cs).getLast? ∈ [some '\n', some '\r'] := by
    intro c d cs h ih hd
    by_cases hcs : cs = []
    · simpa [hcs] using hd hcs
    · rw [List.getLast?_cons_of_ne_nil (unifyBreaks_ne_nil hcs)] at h
      rw [List.getLast?_cons_of_ne_nil hcs]
      exact ih h
  fun_induction unifyBreaks cs with
  | case1 => cases h
  | case2 cs ih =>
    rw [List.getLast?_cons_cons]
    exact hcons h ih (by simp)
  | case3 cs hnot ih => exact hcons h ih (by simp)
  | case4 c cs hnot hnot' ih =>
    refine hcons h ih fun hcs => ?_
    have hc : c = '\n' := by simpa [hcs, unifyBreaks] using h
    simp [hc]

theorem endWithBreak_eq (h : (∀ c ∈ text.getLast?, c ∉ ['\n', '\r']) ∨ ['\r', '\n'] <:+ text) :
    endWithBreak text = unifyBreaks text ++ ['\n'] := by
  rw [endWithBreak]
  rcases h with h | h
  · have hlast : (unifyBreaks text).getLast? ≠ some '\n' := by
      intro hlast
      have hbreak := getLast?_unifyBreaks hlast
      simp only [mem_cons, not_mem_nil, or_false] at hbreak
      rcases hbreak with hbreak | hbreak <;> exact h _ hbreak (by simp)
    simp [hlast]
  · simp [isSuffixOf_iff_suffix.mpr h]

/-- A line without a margin is scanned from its first token on. -/
theorem scan_start {fuel : Nat} (hc : startsToken c)
    (h : Margin.zero.read? text = some (Margin.zero, c :: cs)) :
    scan (fuel + 1) true (bracketing false) text = scan fuel false (bracketing false)
      (c :: cs) := by
  have hbreak : c ≠ '\n' := by
    rintro rfl
    exact absurd hc (by decide)
  have hcomment : c ≠ '#' := by
    rintro rfl
    exact absurd hc (by decide)
  have hindent : (bracketing false).indent? Margin.zero.widths = some ([], bracketing false) := rfl
  rw [scan.eq_def]
  simp [h, hbreak, hcomment, hindent]

theorem ofLines_eq {lead body : List Char} {ts : List Token} (hlead : Lead lead)
    (hbody : body = c :: cs) (hc : startsToken c)
    (h : Scans (bracketing false) (body ++ ['\n']) ts (bracketing false) ['\n']) :
    Token.ofLines (lead ++ (body ++ ['\n'])) = ts ++ [.lineEnd] := by
  obtain ⟨steps, hlength, hscan⟩ := h
  have hfuel : 2 * (lead ++ (body ++ ['\n'])).length + 2 =
      2 * (lead ++ (body ++ ['\n'])).length - (steps + 1) + 2 + steps + 1 := by
    simp only [length_append, length_singleton] at hlength ⊢
    omega
  have hmargin : Margin.zero.read? (lead ++ (body ++ ['\n'])) = some (Margin.zero,
    body ++ ['\n']) := by
    rw [hbody]
    exact hlead.read? hc
  rw [hbody, cons_append] at hmargin hscan
  rw [Token.ofLines, hfuel, hbody, cons_append]
  rw [show Layout.empty = bracketing false from rfl, scan_start hc hmargin, hscan]
  rfl

theorem Laid.startsToken (h : Laid inside xs cs) (hbalanced : Balanced inside xs)
    (hc : c ∈ cs.head?) : startsToken c := by
  rcases h.head hbalanced hc with ⟨_, hstart⟩ | ⟨_, hmark⟩
  · exact startsToken_of_isNamePart (isNamePart_of_startsIdentifier hstart)
  · have hall : ∀ c ∈ markChars, Script.startsToken c := all_eq_true.mp (by decide)
    exact hall c hmark

theorem Laid.ne_nil (h : Laid inside xs cs) (hbalanced : Balanced inside xs)
    (hne : xs ≠ []) : cs ≠ [] := by
  cases h with
  | nil => exact absurd rfl hne
  | cons gap hgap hwords h =>
    rcases hbalanced.first with ⟨w, rfl, hw⟩ | ⟨d, hd, rfl⟩
    · intro hnil
      rw [show w.toList = [] from (append_eq_nil_iff.mp hnil).1] at hw
      cases hw
    · simp [Token.spelling]

/-- However an import statement is written, scanning it gives its tokens and the end of a line. -/
theorem ImportForm.IsWritten.ofText {form : ImportForm} (h : form.IsWritten text) :
    ∃ ts, Cut form.tokens ts ∧ Token.ofText text = ts ++ [.lineEnd] := by
  obtain ⟨⟨lead, body, hlead, hbody, hbroken⟩, _, hend⟩ := h
  obtain ⟨ts, hcut, hscans⟩ := hbody.scans form.balanced
  refine ⟨ts, hcut, ?_⟩
  rw [Token.ofText, endWithBreak_eq hend, hbroken.unify, append_assoc]
  cases hfirst : body with
  | nil => exact absurd hfirst (hbody.ne_nil form.balanced form.tokens_ne_nil)
  | cons c cs =>
    have hc : startsToken c := hbody.startsToken form.balanced (by rw [hfirst]; rfl)
    rw [← hfirst]
    exact ofLines_eq hlead hfirst hc hscans

end Xref.Script

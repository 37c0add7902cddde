import Mathlib.Data.List.Basic
import Xref.Proofs.Script.ImportGrammar

/-!
# Spacing of import statements

Between the tokens of an import statement there may be blanks and joined lines, and between brackets
also line breaks and comments. Each line break is written in one of several ways.
-/

namespace Xref.Script

open List Text

/-! ## Texts -/

/-- A blank within a line. -/
def isSpace (c : Char) : Bool :=
  c == ' ' || c == '\t' || c == '\x0c'

/-- What can stand between two tokens, inside or outside of brackets. -/
inductive Gap (inside : Bool) : List Char → Prop
  | nil : Gap inside []
  | blank {c : Char} {cs : List Char} (hc : isSpace c) (h : Gap inside cs) : Gap inside (c :: cs)
  | joined {cs : List Char} (h : Gap inside cs) : Gap inside ('\\' :: '\n' :: cs)
  | line {cs : List Char} (hinside : inside) (h : Gap inside cs) : Gap inside ('\n' :: cs)
  | comment {cs : List Char} (text : List Char) (htext : '\n' ∉ text) (hinside : inside)
      (h : Gap inside cs) : Gap inside ('#' :: (text ++ '\n' :: cs))

/-- What can stand before the first token. -/
inductive Lead : List Char → Prop
  | nil : Lead []
  | feed {cs : List Char} (blanks : List Char) (hblanks : ∀ c ∈ blanks,
      c ∈ [' ', '\t']) (h : Lead cs) :
      Lead (blanks ++ '\x0c' :: cs)
  | joined {cs : List Char} (h : Lead cs) : Lead ('\\' :: '\n' :: cs)

/-- The characters of a word or a mark. -/
def Token.spelling : Token → List Char
  | .word w => w.toList
  | .mark m => m.toList
  | _ => []

def Token.isWord : Token → Bool
  | .word _ => true
  | _ => false

/-- Whether what follows a token is inside of brackets. -/
def Token.leadsInside (inside : Bool) (t : Token) : Bool :=
  if t = .mark "(" then true else if t = .mark ")" then false else inside

/-- Tokens that are written one after the other, with something between two words. -/
inductive Laid : Bool → List Token → List Char → Prop
  | nil : Laid false [] []
  | cons {inside : Bool} {t : Token} {xs : List Token} {cs : List Char} (gap : List Char)
      (hgap : Gap (t.leadsInside inside) gap)
      (hwords : t.isWord → xs.head?.any Token.isWord → gap ≠ [])
      (h : Laid (t.leadsInside inside) xs cs) : Laid inside (t :: xs) (t.spelling ++ (gap ++ cs))

/-- The second text is the first one with each line feed written as a line break of some kind. A
carriage return and a line feed that follows it are one line break. -/
inductive Broken : List Char → List Char → Prop
  | nil : Broken [] []
  | char {c : Char} {cs ds : List Char} (hc : c ∉ ['\n', '\r']) (h : Broken cs ds) :
      Broken (c :: cs) (c :: ds)
  | feed {cs ds : List Char} (h : Broken cs ds) : Broken ('\n' :: cs) ('\n' :: ds)
  | returnFeed {cs ds : List Char} (h : Broken cs ds) : Broken ('\n' :: cs) ('\r' :: '\n' :: ds)
  | carriageReturn {cs ds : List Char} (hds : ds.head? ≠ some '\n') (h : Broken cs ds) :
      Broken ('\n' :: cs) ('\r' :: ds)

/-- The text is a way to write the statement. It does not end with a line break that would end the
statement. -/
def ImportForm.IsWritten (form : ImportForm) (text : List Char) : Prop :=
  (∃ lead body, Lead lead ∧ Laid false form.tokens body ∧ Broken (lead ++ body) text) ∧
    '\x00' ∉ text ∧ ((∀ c ∈ text.getLast?, c ∉ ['\n', '\r']) ∨ ['\r', '\n'] <:+ text)

/-! ## Line breaks -/

/-- Unifying the line breaks gives the text back that they were written in. -/
theorem Broken.unify {cs ds : List Char} (h : Broken cs ds) : unifyBreaks ds = cs := by
  induction h with
  | nil => rfl
  | @char c cs ds hc h ih =>
    have hreturn : c ≠ '\r' := fun heq => hc (by simp [heq])
    rw [unifyBreaks, ih]
    · rintro _ rfl
      exact absurd rfl hreturn
    · exact hreturn
  | @feed cs ds h ih => exact congrArg ('\n' :: ·) ih
  | @returnFeed cs ds h ih => exact congrArg ('\n' :: ·) ih
  | @carriageReturn cs ds hds h ih =>
    cases ds with
    | nil => exact congrArg ('\n' :: ·) ih
    | cons d ds =>
      rw [unifyBreaks, ih]
      intro _ heq
      cases heq
      exact hds rfl

theorem Broken.refl {cs : List Char} (h : '\r' ∉ cs) : Broken cs cs := by
  induction cs with
  | nil => exact .nil
  | cons c cs ih =>
    simp only [mem_cons, not_or] at h
    by_cases hc : c = '\n'
    · exact hc ▸ .feed (ih h.2)
    · exact .char (by simp [hc, Ne.symm h.1]) (ih h.2)

/-! ## Tokens -/

variable {inside : Bool}

/-- The marks of import statements, each one character. -/
def markChars : List Char :=
  ['.', ',', '(', ')', '*']

/-- A word, a dot or a comma. -/
inductive IsItem : Token → Prop
  | word {w : String} (h : isIdentifier w.toList) : IsItem (.word w)
  | dot : IsItem (.mark ".")
  | comma : IsItem (.mark ",")

/-- Tokens of which all but a last star are items or brackets, the brackets in pairs without others
inside. -/
inductive Balanced : Bool → List Token → Prop
  | nil : Balanced false []
  | star : Balanced false [.mark "*"]
  | item {inside : Bool} {t : Token} {xs : List Token} (ht : IsItem t) (h : Balanced inside xs) :
      Balanced inside (t :: xs)
  | opening {xs : List Token} (h : Balanced true xs) : Balanced false (.mark "(" :: xs)
  | closing {xs : List Token} (h : Balanced false xs) : Balanced true (.mark ")" :: xs)

theorem Balanced.append {xs ys : List Token} (hxs : ∀ t ∈ xs, IsItem t) (hys : Balanced inside ys) :
    Balanced inside (xs ++ ys) := by
  induction xs with
  | nil => exact hys
  | cons x xs ih =>
    obtain ⟨hx, hxs⟩ := forall_mem_cons.mp hxs
    exact .item hx (ih hxs)

theorem isItem_identifier (i : Identifier) : ∀ t ∈ i.tokens, IsItem t := by
  intro t ht
  rw [mem_singleton.mp ht]
  exact .word i.isIdentifier

theorem isItem_path (path : List Identifier) : ∀ t ∈ pathTokens path, IsItem t := by
  refine forall_mem_joinWith .dot fun part hpart => ?_
  obtain ⟨i, _, rfl⟩ := mem_map.mp hpart
  exact isItem_identifier i

theorem isItem_names {spell : α → List Token} (h : ∀ a, ∀ t ∈ spell a, IsItem t)
    (names : Several (Renamed α)) : ∀ t ∈ namesTokens spell names, IsItem t := by
  refine forall_mem_joinWith .comma fun part hpart => ?_
  obtain ⟨r, _, rfl⟩ := mem_map.mp hpart
  refine forall_mem_append.mpr ⟨h r.name, ?_⟩
  cases r.localName with
  | none => exact forall_mem_nil _
  | some i => exact forall_mem_cons.mpr ⟨.word (by decide +kernel), isItem_identifier i⟩

theorem ImportedNames.balanced (names : ImportedNames) : Balanced false names.tokens := by
  cases names with
  | all => exact .star
  | listed names => simpa [tokens] using Balanced.append (isItem_names isItem_identifier names) .nil
  | bracketed names comma =>
    have hcomma : ∀ t ∈ (if comma then [Token.mark ","] else []), IsItem t := by
      cases comma with
      | false => exact forall_mem_nil _
      | true => simpa using IsItem.comma
    exact .opening (.append (forall_mem_append.mpr ⟨isItem_names isItem_identifier names, hcomma⟩)
      (.closing .nil))

theorem ImportForm.balanced (form : ImportForm) : Balanced false form.tokens := by
  cases form with
  | modules names =>
    have hnames := isItem_names (fun path : Several Identifier => isItem_path path.items) names
    exact .item (.word (by decide +kernel)) (by simpa using Balanced.append hnames .nil)
  | members level source hasOrigin names =>
    have hdots : ∀ t ∈ List.replicate level (Token.mark "."), IsItem t := fun t ht =>
      eq_of_mem_replicate ht ▸ .dot
    exact .item (.word (by decide +kernel)) (.append (forall_mem_append.mpr ⟨hdots,
      isItem_path source⟩)
      (.item (.word (by decide +kernel)) names.balanced))

theorem Balanced.first {t : Token} {xs : List Token} (h : Balanced inside (t :: xs)) :
    (∃ w, t = .word w ∧ isIdentifier w.toList) ∨ ∃ c ∈ markChars,
      t = .mark (String.ofList [c]) := by
  cases h with
  | star => exact .inr ⟨'*', by decide, rfl⟩
  | item ht h =>
    cases ht with
    | word hw => exact .inl ⟨_, rfl, hw⟩
    | dot => exact .inr ⟨'.', by decide, rfl⟩
    | comma => exact .inr ⟨',', by decide, rfl⟩
  | opening h => exact .inr ⟨'(', by decide, rfl⟩
  | closing h => exact .inr ⟨')', by decide, rfl⟩

theorem Balanced.tail {t : Token} {xs : List Token} (h : Balanced inside (t :: xs)) :
    Balanced (t.leadsInside inside) xs := by
  cases h with
  | star => exact .nil
  | item ht h => cases ht <;> exact h
  | opening h | closing h => exact h

theorem ImportForm.tokens_ne_nil (form : ImportForm) : form.tokens ≠ [] := by
  cases form <;> simp [tokens]

end Xref.Script

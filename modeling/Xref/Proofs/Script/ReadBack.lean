import Xref.Proofs.Script.Scanned
import Xref.Script.Statement

/-!
# Reading import statements back

The tokens of an import statement and the end of its line are a whole script, so what is imported by
the text of the statement are the imports of the statement, however it is written.
-/

namespace Xref.Script

open List ImportStatement

namespace Reading

/-- A reading of some tokens gives a value and leaves other tokens. -/
def Reads (r : Reading α) (tokens : List Token) (a : α) (rest : List Token) : Prop :=
  ∃ h : rest <:+ tokens, r tokens = .ok (a, ⟨rest, h⟩)

namespace Reads

theorem pure (a : α) (tokens : List Token) : Reads (Pure.pure a) tokens a tokens :=
  ⟨suffix_rfl, rfl⟩

variable {tokens : List Token}

theorem bind {r : Reading α} {f : α → Reading β} {mid rest : List Token} {a : α} {b : β}
    (hr : Reads r tokens a mid) (hf : Reads (f a) mid b rest) : Reads (r >>= f) tokens b rest := by
  obtain ⟨hmid, hr⟩ := hr
  obtain ⟨hrest, hf⟩ := hf
  refine ⟨hrest.trans hmid, ?_⟩
  dsimp only [Bind.bind]
  rw [hr]
  dsimp only
  rw [hf]

theorem ahead (tokens : List Token) : Reads ahead tokens tokens tokens :=
  ⟨suffix_rfl, rfl⟩

theorem skip (first rest : List Token) : Reads (skip first.length) (first ++ rest) () rest :=
  ⟨suffix_append first rest, by simp [Reading.skip]⟩

theorem accepts_other {t head : Token} (h : head ≠ t) :
    Reads (accepts t) (head :: tokens) false (head :: tokens) := by
  refine bind (ahead _) ?_
  dsimp only
  rw [if_neg h]
  exact pure _ _

theorem expect (t : Token) (tokens : List Token) : Reads (expect t) (t :: tokens) () tokens := by
  have haccepts : Reads (accepts t) (t :: tokens) true tokens := by
    refine bind (ahead _) ?_
    dsimp only
    rw [if_pos rfl]
    exact bind (skip [t] tokens) (pure _ _)
  exact bind haccepts (pure _ _)

/-- A repetition whose next step gives nothing. -/
theorem repeated_none {step : α → Reading (Option α)} {a : α}
    (h : Reads (step a) tokens none tokens) : Reads (repeated step a) tokens a tokens := by
  refine bind (ahead _) ?_
  cases tokens with
  | nil => exact pure _ _
  | cons t tokens => exact bind h (pure _ _)

/-- A repetition with one step that gives something and leaves nothing. -/
theorem repeated_once {step : α → Reading (Option α)} {a b : α} (hne : tokens ≠ [])
    (h : Reads (step a) tokens (some b) []) (hlast : Reads (step b) [] none []) :
    Reads (repeated step a) tokens b [] := by
  refine bind (ahead _) ?_
  cases tokens with
  | nil => exact absurd rfl hne
  | cons t tokens =>
    refine bind h ?_
    cases tokens with
    | nil => exact pure _ _
    | cons t tokens => exact bind hlast (pure _ _)

end Reads

end Reading

namespace Statement

open Reading

/-- Tokens that an import statement can consist of. -/
def isInside (t : Token) : Bool :=
  t ≠ .mark ";" && t ≠ .lineEnd

variable {ts : List Token} {w : String} {s : Statement}

theorem reads_imported {imports : List Import} (hinside : ∀ t ∈ ts, isInside t)
    (h : read? ts = some imports) : Reads imported (ts ++ [.lineEnd]) ⟨3, imports⟩ [.lineEnd] := by
  have htake : (ts ++ [Token.lineEnd]).takeWhile (fun t => t ≠ .mark ";" && t ≠ .lineEnd) = ts := by
    show (ts ++ [Token.lineEnd]).takeWhile isInside = ts
    rw [takeWhile_append_of_pos hinside]
    simp [isInside]
  refine Reads.bind (Reads.ahead _) ?_
  dsimp only
  rw [htake, h]
  exact Reads.bind (Reads.skip ts [.lineEnd]) (Reads.pure _ _)

theorem reads_simple (hw : w = "import" ∨ w = "from") {rest : List Token}
    (h : Reads imported (.word w :: ts) s rest) (level : Nat) :
    Reads (simple level) (.word w :: ts) s rest := by
  refine Reads.bind (Reads.ahead _) ?_
  rcases hw with rfl | rfl <;> exact h

/-- A single statement is all that statements in a row come to. -/
theorem single_eq (s : Statement) :
    (⟨Phrase.greatest ([s].map height), ([s].reverse.map imports).flatten⟩ : Statement) = s := by
  simp [Phrase.greatest]

theorem reads_line (h : ∀ level, Reads (simple level) ts s [.lineEnd]) (level : Nat) :
    Reads (line level) ts s [] := by
  refine Reads.bind (h _) (Reads.bind (Reads.accepts_other (by simp)) ?_)
  refine Reads.bind (Reads.repeated_none (Reads.pure _ _)) (Reads.bind (Reads.expect _ _) ?_)
  rw [single_eq]
  exact Reads.pure _ _

variable (hw : w = "import" ∨ w = "from")
include hw

theorem reads_statement (h : ∀ level, Reads (line level) (.word w :: ts) s [])
    (rec : ReadPart) (level : Nat) : Reads (statement rec level) (.word w :: ts) s [] := by
  refine Reads.bind (Reads.ahead _) ?_
  rcases hw with rfl | rfl <;> exact h _

theorem reads_statements (h : ∀ level, Reads (line level) (.word w :: ts) s [])
    (rec : ReadPart) (level : Nat) : Reads (statements rec level) (.word w :: ts) s [] := by
  refine Reads.bind (Reads.repeated_once (b := [s]) (by simp) ?_ ?_) ?_
  · refine Reads.bind (Reads.ahead _) (Reads.bind (Reads.bind (Reads.ahead _) (Reads.pure _ _)) ?_)
    exact Reads.bind (reads_statement hw h rec level) (Reads.pure _ _)
  · exact Reads.bind (Reads.ahead _) (Reads.bind (Reads.bind (Reads.ahead _) (Reads.pure _ _))
      (Reads.pure _ _))
  · rw [single_eq]
    exact Reads.pure _ _

/-- An import statement and the end of its line are a whole script. -/
theorem reads_readAll {imports : List Import}
    (hinside : ∀ t ∈ Token.word w :: ts, isInside t) (h : read? (.word w :: ts) = some imports) :
    Reads readAll (.word w :: ts ++ [.lineEnd]) ⟨3, imports⟩ [] := by
  have hline := reads_line (reads_simple hw (reads_imported hinside h))
  exact Reads.bind (reads_statements hw hline _ 2) (Reads.bind (Reads.ahead _) (Reads.pure _ _))

end Statement

/-- An import statement starts with one of two words. -/
theorem ImportForm.exists_word (form : ImportForm) :
    ∃ w xs, form.tokens = .word w :: xs ∧ (w = "import" ∨ w = "from") := by
  cases form with
  | modules names => exact ⟨_, _, rfl, .inl rfl⟩
  | members level source hasOrigin names => exact ⟨_, _, rfl, .inr rfl⟩

theorem Balanced.isInside {inside : Bool} {xs : List Token} (h : Balanced inside xs) :
    ∀ t ∈ xs, Statement.isInside t := by
  induction h with
  | nil => exact forall_mem_nil _
  | star => decide
  | item ht h ih =>
    refine forall_mem_cons.mpr ⟨?_, ih⟩
    cases ht with
    | word hw => rfl
    | dot | comma => decide
  | opening h ih | closing h ih => exact forall_mem_cons.mpr ⟨by decide, ih⟩

/-- What the text of an import statement imports are the imports of the statement. -/
theorem ImportForm.IsWritten.imports {form : ImportForm} {text : List Char}
    (h : form.IsWritten text) : Script.imports text = .ok (form.imports Identifier.name) := by
  obtain ⟨ts, hcut, htokens⟩ := h.ofText
  have hread := read?_cut hcut
  have hinside : ∀ t ∈ ts, Statement.isInside t := by
    intro t ht
    rcases hcut.mem_or_dots ht with ht | rfl
    · exact form.balanced.isInside t ht
    · decide
  obtain ⟨w, xs, hform, hw⟩ := form.exists_word
  rw [hform] at hcut
  cases hcut with
  | cons _ hcut =>
    have hreads := Statement.reads_readAll hw hinside hread
    rw [← htokens] at hreads
    obtain ⟨_, hreads⟩ := hreads
    rw [Script.imports, hreads]
    rfl

end Xref.Script

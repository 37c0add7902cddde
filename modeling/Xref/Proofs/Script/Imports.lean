import Xref.Proofs.Text.Dotted
import Xref.Script.Statement

/-!
# What scripts import

The scanner gives no empty word, and a reading only takes tokens away. So every name that a
statement imports was written in the text, and every import has something to import.
-/

namespace Xref

open List Option

/-- The import says what is imported, and from at least this package. -/
def Import.HasTarget (i : Import) : Prop :=
  0 ≤ i.level ∧ ¬ (i.source = "" ∧ i.name.getD "" = "")

namespace Script

open Text

/-! ## Words -/

theorem indent?_ne_word {l l' : Layout} {widths : Nat × Nat} {ts : List Token} {w : String}
    (h : l.indent? widths = some (ts, l')) : Token.word w ∉ ts := by
  unfold Layout.indent? at h
  split at h
  · split at h <;> cases h
    simp
  · split at h
    · split at h <;> cases h
      simp
    · dsimp only at h
      split at h <;> cases h
      simp [mem_replicate]

theorem word?_ne_empty {cs rest : List Char} {t : Token} (h : word? cs = some (t, rest)) :
    t ≠ .word "" := by
  unfold word? at h
  dsimp only at h
  split at h
  · obtain ⟨_, _, heq⟩ := map_eq_some_iff.mp h
    cases heq
    simp
  · split at h
    next hletters =>
      cases h
      intro hempty
      have hnil : cs.takeWhile Script.Number.isNamePart = [] := by simpa using hempty
      simp [hnil, isIdentifier] at hletters
    · cases h

theorem token?_ne_empty {c : Char} {cs rest : List Char} {t : Token}
    (h : token? c cs = some (t, rest)) : t ≠ .word "" := by
  unfold token? at h
  split at h
  · obtain ⟨_, _, heq⟩ := map_eq_some_iff.mp h
    cases heq
    simp
  · split at h
    · exact word?_ne_empty h
    · obtain ⟨_, _, heq⟩ := map_eq_some_iff.mp h
      cases heq
      simp

/-- No token of a text is an empty word. -/
theorem empty_not_mem_scan (fuel : Nat) (atStart : Bool) (l : Layout) (cs : List Char) :
    Token.word "" ∉ scan fuel atStart l cs := by
  fun_induction scan fuel atStart l cs with
  | case6 fuel l cs m blocks l' hindent => exact indent?_ne_word hindent
  | case7 fuel l cs m blocks l' c rest hindent hbreak hcomment hread ih =>
    rw [mem_append, not_or]
    exact ⟨indent?_ne_word hindent, ih⟩
  | case17 fuel l c cs hblank hcomment hbreak hjoin t rest htoken l' hafter ih =>
    rw [mem_cons, not_or]
    exact ⟨(token?_ne_empty htoken).symm, ih⟩
  | _ => simp_all

/-! ## Normal forms -/

theorem takenApart_ne_nil (c : Char) : takenApart c ≠ [] := by
  have hunfolded : ∀ d, unfolded 3 d ≠ [] := by
    intro d
    unfold unfolded
    split <;> simp
  obtain ⟨d, hd⟩ : ∃ d, d ∈ if (standsFor c).isEmpty then [c] else standsFor c := by
    split
    · exact ⟨c, mem_cons_self⟩
    · next hne => exact exists_mem_of_ne_nil _ (by simpa using hne)
  exact fun hnil => hunfolded d (flatMap_eq_nil_iff.mp hnil d hd)

theorem putBehind_ne_nil (c : Char) (cs : List Char) : putBehind c cs ≠ [] := by
  fun_cases putBehind c cs <;> simp

theorem putTogether_ne_nil (c : Char) (kept cs : List Char) : putTogether c kept cs ≠ [] := by
  fun_induction putTogether c kept cs with
  | case2 _ _ _ _ _ _ _ ih | case4 _ _ _ _ _ _ _ ih => exact ih
  | _ => simp

/-- The normal form of a name is not empty. -/
theorem normalForm_ne_empty {name : String} (h : name ≠ "") : normalForm name ≠ "" := by
  have hne : name.toList.flatMap takenApart ≠ [] := by
    obtain ⟨c, hc⟩ := exists_mem_of_ne_nil name.toList (by simpa using h)
    exact fun hnil => takenApart_ne_nil c (flatMap_eq_nil_iff.mp hnil c hc)
  unfold normalForm
  split
  · exact h
  · split
    · next hnil =>
      rw [← dropLast_concat_getLast hne, foldl_append] at hnil
      exact absurd (reverse_eq_nil_iff.mp hnil) (putBehind_ne_nil _ _)
    · next c cs _ => simpa using putTogether_ne_nil c [] cs

/-! ## Import statements -/

namespace ImportStatement

/-- Tokens without empty words are read as no empty name. -/
def Names (read : List Token → Option String) : Prop :=
  ∀ tokens name, .word "" ∉ tokens → read tokens = some name → name ≠ ""

theorem names_soleName? : Names soleName? := by
  intro tokens name hwords h
  unfold soleName? at h
  split at h
  · split at h <;> cases h
    refine normalForm_ne_empty ?_
    rintro rfl
    exact hwords mem_cons_self
  · cases h

theorem names_dottedName? : Names dottedName? := by
  intro tokens name hwords h
  obtain ⟨names, hnames, rfl⟩ := map_eq_some_iff.mp h
  cases hparts : splitAt (.mark ".") tokens with
  | nil => exact absurd hparts (splitAt_ne_nil _ tokens)
  | cons part parts =>
    simp only [hparts, mapM_cons, bind_eq_bind, bind_eq_some_iff, Option.pure_def,
      Option.some.injEq] at hnames
    obtain ⟨first, hfirst, rest, _, rfl⟩ := hnames
    have hpart : part ∈ splitAt (.mark ".") tokens := hparts ▸ mem_cons_self
    exact Dotted.join_ne_empty
      (names_soleName? part first (fun hw => hwords (mem_of_mem_splitAt hpart hw)) hfirst)

variable {tokens : List Token}

theorem renamed?_ne_empty {read : List Token → Option String} (hread : Names read)
    {n : String × Option String} (hwords : .word "" ∉ tokens) (h : renamed? read tokens = some n) :
    n.1 ≠ "" := by
  have hpart : ∀ part ∈ splitAt (.word "as") tokens, Token.word "" ∉ part :=
    fun part hpart hw => hwords (mem_of_mem_splitAt hpart hw)
  unfold renamed? at h
  split at h
  · next name hsplit =>
    obtain ⟨m, hm, rfl⟩ := map_eq_some_iff.mp h
    exact hread name m (hpart name (hsplit ▸ mem_cons_self)) hm
  · next name localName hsplit =>
    simp only [bind_eq_bind, bind_eq_some_iff, Option.pure_def, Option.some.injEq] at h
    obtain ⟨m, hm, _, _, rfl⟩ := h
    exact hread name m (hpart name (hsplit ▸ mem_cons_self)) hm
  · cases h

theorem renamedAll_ne_empty {read : List Token → Option String} (hread : Names read)
    {parts : List (List Token)} (hwords : ∀ part ∈ parts, .word "" ∉ part)
    {names : List (String × Option String)} (h : parts.mapM (renamed? read) = some names) :
    ∀ n ∈ names, n.1 ≠ "" := by
  induction parts generalizing names with
  | nil => simp_all
  | cons part parts ih =>
    simp only [mapM_cons, bind_eq_bind, bind_eq_some_iff, Option.pure_def, Option.some.injEq] at h
    obtain ⟨n, hn, rest, hrest, rfl⟩ := h
    obtain ⟨hpart, hparts⟩ := forall_mem_cons.mp hwords
    exact forall_mem_cons.mpr ⟨renamed?_ne_empty hread hpart hn, ih hparts hrest⟩

theorem importedNames?_ne_empty {names : List (String × Option String)} (hwords : .word "" ∉ tokens)
    (h : importedNames? tokens = some names) : ∀ n ∈ names, n.1 ≠ "" := by
  unfold importedNames? at h
  split at h
  · cases h
    simp
  · next inner =>
    split at h
    · refine renamedAll_ne_empty names_soleName? (fun part hpart hw => hwords ?_) h
      have hsplit : part ∈ splitAt (.mark ",") inner.dropLast := by
        unfold commaList at hpart
        dsimp only at hpart
        split at hpart
        · exact dropLast_subset _ hpart
        · exact hpart
      exact mem_cons_of_mem _ (dropLast_subset _ (mem_of_mem_splitAt hsplit hw))
    · cases h
  · exact renamedAll_ne_empty names_soleName? (fun part hpart hw =>
      hwords (mem_of_mem_splitAt hpart hw)) h

/-- What an import statement imports has a target. -/
theorem hasTarget_of_read? {imports : List Import} (hwords : .word "" ∉ tokens)
    (h : read? tokens = some imports) : ∀ i ∈ imports, i.HasTarget := by
  unfold read? at h
  split at h
  · next tokens =>
    simp only [bind_eq_bind, bind_eq_some_iff, Option.pure_def, Option.some.injEq] at h
    obtain ⟨names, hnames, rfl⟩ := h
    have hparts : ∀ part ∈ splitAt (.mark ",") tokens, Token.word "" ∉ part :=
      fun part hpart hw => hwords (mem_cons_of_mem _ (mem_of_mem_splitAt hpart hw))
    rintro i hi
    obtain ⟨n, hn, rfl⟩ := mem_map.mp hi
    have hne := renamedAll_ne_empty names_dottedName? hparts hnames n hn
    exact ⟨Int.le_refl 0, fun hempty => hne hempty.1⟩
  · next tokens =>
    split at h
    · next origin names hsplit =>
      simp only [bind_eq_bind, bind_eq_some_iff, Option.pure_def, Option.some.injEq] at h
      obtain ⟨⟨level, source⟩, _, imported, himported, rfl⟩ := h
      have hpart : names ∈ splitAt (.word "import") tokens := by simp [hsplit]
      have hnames : Token.word "" ∉ names := fun hw =>
        hwords (mem_cons_of_mem _ (mem_of_mem_splitAt hpart hw))
      rintro i hi
      obtain ⟨n, hn, rfl⟩ := mem_map.mp hi
      have hne := importedNames?_ne_empty hnames himported n hn
      exact ⟨Int.natCast_nonneg level, fun hempty => hne hempty.2⟩
    · cases h
  · cases h

end ImportStatement

/-! ## Readings -/

namespace Reading

/-- What a reading gives of tokens without empty words. -/
def Gives (P : α → Prop) (r : Reading α) : Prop :=
  ∀ tokens a rest, .word "" ∉ tokens → r tokens = .ok (a, rest) → P a

theorem exists_of_bind {r : Reading β} {f : β → Reading α} {tokens : List Token} {a : α}
    {rest : Rest tokens} (h : (r >>= f) tokens = .ok (a, rest)) :
    ∃ b mid last, r tokens = .ok (b, mid) ∧ f b mid.val = .ok (a, last) := by
  dsimp only [Bind.bind] at h
  split at h
  · cases h
  · next b mid hb =>
    split at h
    · cases h
    · next a last ha =>
      cases h
      exact ⟨b, mid, last, hb, ha⟩

namespace Gives

variable {P : α → Prop}

theorem pure {a : α} (h : P a) : Gives P (pure a) := by
  intro tokens b rest _ hb
  cases hb
  exact h

theorem mismatch : Gives P mismatch := by
  intro tokens a rest _ ha
  cases ha

theorem ahead : Gives (.word "" ∉ ·) ahead := by
  intro tokens a rest hwords ha
  cases ha
  exact hwords

/-- The tokens that a reading leaves have no empty word either. -/
theorem bindOf {Q : β → Prop} {r : Reading β} {f : β → Reading α} (hr : Gives Q r)
    (hf : ∀ b, Q b → Gives P (f b)) : Gives P (r >>= f) := by
  intro tokens a rest hwords h
  obtain ⟨b, mid, last, hb, ha⟩ := exists_of_bind h
  have hmid : Token.word "" ∉ mid.val := fun hw => hwords (mid.property.subset hw)
  exact hf b (hr tokens b mid hwords hb) mid.val a last hmid ha

theorem bind {r : Reading β} {f : β → Reading α} (hf : ∀ b, Gives P (f b)) : Gives P (r >>= f) :=
  bindOf (Q := fun _ => True) (fun _ _ _ _ _ => trivial) fun b _ => hf b

theorem iterate {step : α → Reading (Option α)}
    (hstep : ∀ a, P a → Gives (fun b? => ∀ b ∈ b?, P b) (step a)) (fuel : List Token) {a : α}
    (h : P a) : Gives P (iterate step fuel a) := by
  induction fuel generalizing a with
  | nil => exact pure h
  | cons t fuel ih =>
    refine bindOf (hstep a h) fun b? hb => ?_
    cases b? with
    | none => exact pure h
    | some b => exact ih (hb b rfl)

/-- What each step keeps, the repetition of a step keeps. -/
theorem repeated {step : α → Reading (Option α)}
    (hstep : ∀ a, P a → Gives (fun b? => ∀ b ∈ b?, P b) (step a)) {a : α} (h : P a) :
    Gives P (repeated step a) :=
  bind fun fuel => iterate hstep fuel h

end Gives

end Reading

/-! ## Statements -/

namespace Statement

open Reading

/-- The statement imports things that have a target. -/
def Targeted (s : Statement) : Prop :=
  ∀ i ∈ s.imports, i.HasTarget

theorem targeted_plain (parts : List Nat) : (plain parts).Targeted := by
  simp [Targeted, plain]

theorem targeted_imported : Gives Targeted imported := by
  refine Gives.bindOf Gives.ahead fun tokens hwords => ?_
  dsimp only
  split
  · next imports hread =>
    have hinside : Token.word "" ∉ tokens.takeWhile (fun t => t ≠ .mark ";" && t ≠ .lineEnd) :=
      fun hw => hwords (takeWhile_subset _ hw)
    exact Gives.bind fun _ => Gives.pure (ImportStatement.hasTarget_of_read? hinside hread)
  · exact Gives.mismatch

-- apart from imports every simple statement ends in a plain one
theorem targeted_simple (level : Nat) : Gives Targeted (simple level) := by
  unfold simple ofExpression deleted names raised asserted
  repeat' first
    | exact targeted_imported
    | exact Gives.pure (targeted_plain _)
    | refine Gives.bind fun _ => ?_
    | split

/-- Statements in a row import what each of them does. -/
theorem targeted_all {all : List Statement} (h : ∀ s ∈ all, s.Targeted) (height : Nat) :
    Targeted ⟨height, (all.reverse.map imports).flatten⟩ := by
  intro i hi
  simp only [mem_flatten, List.mem_map, mem_reverse] at hi
  obtain ⟨_, ⟨s, hs, rfl⟩, hi⟩ := hi
  exact h s hs i hi

theorem targeted_line (level : Nat) : Gives Targeted (line level) := by
  refine Gives.bindOf (targeted_simple (level + 1)) fun first hfirst => Gives.bind fun more => ?_
  refine Gives.bindOf (Gives.repeated (P :=
    fun x => ∀ s ∈ x.1, s.Targeted) ?_ (by simpa using hfirst))
    fun x hx => Gives.bind fun _ => Gives.pure (targeted_all hx _)
  rintro ⟨all, more⟩ hall
  dsimp only
  split
  · refine Gives.bind fun atEnd => ?_
    split
    · exact Gives.pure (by simp)
    · refine Gives.bindOf (targeted_simple (level + 3)) fun s hs => Gives.bind fun _ =>
        Gives.pure ?_
      simpa using ⟨hs, hall⟩
  · exact Gives.pure (by simp)

theorem targeted_compound (r : Reading Nat) : Gives Targeted (do return ⟨← r, []⟩) :=
  Gives.bind fun _ => Gives.pure (by simp [Targeted])

theorem targeted_statement (rec : ReadPart) (level : Nat) :
    Gives Targeted (statement rec level) := by
  unfold statement matchOr
  repeat' first
    | exact targeted_line _
    | exact Gives.pure (targeted_plain _)
    | exact targeted_compound _
    | refine Gives.bind fun _ => ?_
    | split

theorem targeted_statements (rec : ReadPart) (level : Nat) :
    Gives Targeted (statements rec level) := by
  refine Gives.bindOf (Gives.repeated (P := fun all => ∀ s ∈ all, s.Targeted) ?_ (by simp))
    fun all hall => Gives.pure (targeted_all hall _)
  intro all hall
  refine Gives.bind fun tokens => Gives.bind fun atEnd => ?_
  split
  · exact Gives.pure (by simp)
  · refine Gives.bindOf (targeted_statement rec level) fun s hs => Gives.pure ?_
    simpa using ⟨hs, hall⟩

theorem targeted_readAll : Gives Targeted readAll :=
  Gives.bindOf (targeted_statements _ 2) fun _ hs => Gives.bind fun _ => Gives.bind fun _ =>
    Gives.pure hs

end Statement

theorem hasTarget_of_imports {text : List Char} {is : List Import} (h : imports text = .ok is) :
    ∀ i ∈ is, i.HasTarget := by
  unfold imports at h
  split at h
  · cases h
  · cases h
  · next s rest hs =>
    split at h
    · cases h
      exact Statement.targeted_readAll _ s rest (empty_not_mem_scan _ _ _ _) hs
    · cases h

end Script

end Xref

import Xref.Json.Printer
import Xref.Json.Reader

/-!
# Texts written and read back

A text is written character by character, and what is read are pieces, which are then joined.
Reading gives the text back exactly if no high half of a surrogate pair stands directly before a low
one: such halves are joined to the character that they encode.
-/

namespace Xref.Json

open List Number Text Option Piece

/-! ## Escapes -/

theorem hexValue?_hexDigit : ∀ d < 16, hexValue? (hexDigit d) = some d := by
  decide

variable {n : Nat} {c a : Char}

theorem exists_hex_four (h : n < 0x10000) :
    ∃ a b c d, hex 4 n = [a, b, c, d] ∧ unit? a b c d = some n := by
  refine ⟨hexDigit (n / 16 / 16 / 16 % 16), hexDigit (n / 16 / 16 % 16), hexDigit (n / 16 % 16),
    hexDigit (n % 16), rfl, ?_⟩
  have hvalue : ∀ m, hexValue? (hexDigit (m % 16)) = some (m % 16) := fun m =>
    hexValue?_hexDigit (m % 16) (Nat.mod_lt m (by decide))
  simp only [unit?, hvalue, bind_eq_bind, bind_some, Option.pure_def, Option.some.injEq]
  omega

theorem readPieces_unit (h : n < 0x10000) (cs : List Char) :
    readPieces ('\\' :: 'u' :: hex 4 n ++ cs) =
      (readPieces cs).map fun p => (ofUnit n :: p.1, p.2) := by
  obtain ⟨a, b, c, d, hhex, hunit⟩ := exists_hex_four h
  rw [hhex]
  simp only [cons_append, nil_append, readPieces, hunit, bind_eq_bind, bind_some]
  cases readPieces cs <;> rfl

theorem readPieces_short {letter : Char} (hletter : letter ≠ 'u') (h : shortEscape? letter = some c)
    (cs : List Char) :
    readPieces ('\\' :: letter :: cs) = (readPieces cs).map fun p => (char c :: p.1, p.2) := by
  rw [readPieces, h]
  · cases readPieces cs <;> rfl
  · exact fun _ _ _ _ _ heq _ => hletter heq

theorem readPieces_plain (hquote : c ≠ '\x22') (hslash : c ≠ '\\') (h : 32 ≤ c.toNat)
    (cs : List Char) :
    readPieces (c :: cs) = (readPieces cs).map fun p => (char c :: p.1, p.2) := by
  have hplain : (decide (c.toNat < 32) || decide (c = '\\')) = false := by simp [hslash, h]
  rw [readPieces, hplain]
  · cases readPieces cs <;> rfl
  · exact hquote
  · exact fun _ _ _ _ _ heq _ => hslash heq
  · exact fun _ _ heq _ => hslash heq

/-! ## Pieces of a written text -/

/-- The pieces that a written character is read as. -/
def piecesOf (c : Char) : List Piece :=
  if isCarrier c then [.half (codePoint c)]
  else if c.toNat < 0x10000 then [.char c]
  else
    let m := c.toNat - 0x10000
    [.half (0xD800 + m / 0x400), .half (0xDC00 + m % 0x400)]

theorem codePoint_of_not_carrier (h : isCarrier c = false) : codePoint c = c.toNat := by
  simp [codePoint, h]

theorem isHalf_toNat (c : Char) : isHalf c.toNat = false := by
  have hc : c.toNat.isValidChar := c.valid
  unfold Nat.isValidChar at hc
  simp only [isHalf, Bool.and_eq_false_iff, decide_eq_false_iff_not]
  omega

/-- The characters that stand for a half are the carriers. -/
@[simp] theorem isHalf_codePoint (c : Char) : isHalf (codePoint c) = isCarrier c := by
  unfold codePoint
  split
  · rfl
  · next h =>
    rw [isHalf_toNat]
    simpa using h

theorem carrier_codePoint (h : isCarrier c) : carrier (codePoint c) = c :=
  codePoint_injective (codePoint_carrier (by rw [isHalf_codePoint, h]))

theorem isHalf_iff : isHalf n ↔ 0xD800 ≤ n ∧ n < 0xE000 := by
  simp [isHalf]

theorem not_carrier_of_codePoint (h : codePoint c < 0xD800 ∨ 0xE000 ≤ codePoint c) :
    isCarrier c = false := by
  rw [← isHalf_codePoint, ← Bool.not_eq_true, isHalf_iff]
  omega

theorem toNat_lt (c : Char) : c.toNat < 0x110000 := by
  have hc : c.toNat.isValidChar := c.valid
  unfold Nat.isValidChar at hc
  omega

theorem piecesOf_of_lt (hc : isCarrier c = false) (h : c.toNat < 0x10000) :
    piecesOf c = [.char c] := by
  rw [piecesOf, hc, if_neg Bool.false_ne_true, if_pos h]

/-- What is written for a character is read as its pieces. -/
theorem readPieces_escape (c : Char) (cs : List Char) :
    readPieces (escape c ++ cs) = (readPieces cs).map fun p => (piecesOf c ++ p.1, p.2) := by
  unfold escape
  dsimp only
  -- five characters have a short form of their own, two more by their code point
  iterate 5
    split
    · next h =>
      subst h
      exact readPieces_short (by decide) rfl cs
  split
  · next h =>
    have hc : c = '\x08' := codePoint_injective (h.trans (by decide))
    subst hc
    exact readPieces_short (by decide) rfl cs
  split
  · next h =>
    have hc : c = '\x0c' := codePoint_injective (h.trans (by decide))
    subst hc
    exact readPieces_short (by decide) rfl cs
  split
  · next hquote hslash _ _ _ _ _ h =>
    simp only [Bool.and_eq_true, decide_eq_true_eq] at h
    have hcarrier := not_carrier_of_codePoint (.inl (by omega : codePoint c < 0xD800))
    rw [codePoint_of_not_carrier hcarrier] at h
    rw [piecesOf_of_lt hcarrier (by omega)]
    exact readPieces_plain hquote hslash h.1 cs
  split
  · next h =>
    rw [readPieces_unit h]
    -- a unit is a half or the character itself
    cases hc : isCarrier c with
    | true => simp [piecesOf, hc, ofUnit]
    | false =>
      rw [codePoint_of_not_carrier hc] at h ⊢
      simp [piecesOf_of_lt hc h, ofUnit, isHalf_toNat, Char.ofNat_toNat]
  · next h =>
    have hcarrier := not_carrier_of_codePoint (.inr (by omega : 0xE000 ≤ codePoint c))
    rw [codePoint_of_not_carrier hcarrier] at h ⊢
    have hlt := toNat_lt c
    have hhigh : isHalf (0xD800 + (c.toNat - 0x10000) / 0x400) := isHalf_iff.mpr (by omega)
    have hlow : isHalf (0xDC00 + (c.toNat - 0x10000) % 0x400) := isHalf_iff.mpr (by omega)
    rw [append_assoc, readPieces_unit (by omega), readPieces_unit (by omega), Option.map_map]
    simp [piecesOf, hcarrier, h, ofUnit, hhigh, hlow, Function.comp_def]

/-- A written text is read as the pieces of its characters. -/
theorem readString_written (cs rest : List Char) :
    readString (cs.flatMap escape ++ '\x22' :: rest) =
      some (joinHalves (cs.flatMap piecesOf), rest) := by
  have hpieces : readPieces (cs.flatMap escape ++ '\x22' :: rest) = some (cs.flatMap piecesOf,
    rest) := by
    induction cs with
    | nil => simp [readPieces]
    | cons c cs ih =>
      rw [flatMap_cons, append_assoc, readPieces_escape, ih]
      rfl
  rw [readString, hpieces]
  rfl

/-! ## Joined halves -/

/-- Whether a character stands for the first half of a surrogate pair. -/
def isHigh (c : Char) : Bool :=
  isCarrier c && codePoint c < 0xDC00

/-- Whether a character stands for the second half of a surrogate pair. -/
def isLow (c : Char) : Bool :=
  isCarrier c && 0xDC00 ≤ codePoint c

/-- Whether no high half of a text stands directly before a low one. -/
def isWhole : List Char → Bool
  | a :: b :: cs => !(isHigh a && isLow b) && isWhole (b :: cs)
  | [_] | [] => true

/-- The text that is read where a text was written. -/
def rejoined (cs : List Char) : List Char :=
  joinHalves (cs.flatMap piecesOf)

theorem joinHalves_half {ps : List Piece}
    (h : ∀ low qs, ps = .half low :: qs → ¬ (n < 0xDC00 ∧ 0xDC00 ≤ low)) :
    joinHalves (.half n :: ps) = carrier n :: joinHalves ps := by
  cases ps with
  | nil => rfl
  | cons p qs =>
    cases p with
    | char c => rfl
    | half low =>
      have hlow := h low qs rfl
      rw [joinHalves, if_neg (by simpa using hlow)]

/-- A character stays as it is unless it is a high half before a low one. -/
theorem rejoined_cons {cs : List Char} (h : ∀ b bs, cs = b :: bs → (isHigh a && isLow b) = false) :
    rejoined (a :: cs) = a :: rejoined cs := by
  unfold rejoined
  rw [flatMap_cons]
  cases ha : isCarrier a with
  | true =>
    have hpieces : piecesOf a = [.half (codePoint a)] := by simp [piecesOf, ha]
    rw [hpieces, singleton_append, joinHalves_half, carrier_codePoint ha]
    -- the next piece is a low half only if the next character is one
    intro low qs hps hpair
    cases cs with
    | nil => simp at hps
    | cons b bs =>
      have hb := h b bs rfl
      rw [flatMap_cons] at hps
      cases hcb : isCarrier b with
      | true =>
        simp only [piecesOf, hcb, if_true, singleton_append, List.cons.injEq, half.injEq] at hps
        simp [isHigh, isLow, ha, hcb, hps.1, hpair] at hb
      | false =>
        rw [piecesOf, hcb, if_neg Bool.false_ne_true] at hps
        split at hps
        · simp at hps
        · simp only [cons_append, List.cons.injEq, half.injEq] at hps
          have := toNat_lt b
          omega
  | false =>
    by_cases hlt : a.toNat < 0x10000
    · rw [piecesOf_of_lt ha hlt]
      rfl
    · have hmax := toNat_lt a
      have hpair : (decide (0xD800 + (a.toNat - 0x10000) / 0x400 < 0xDC00) &&
          decide (0xDC00 ≤ 0xDC00 + (a.toNat - 0x10000) % 0x400)) := by
        simp only [Bool.and_eq_true, decide_eq_true_eq]
        omega
      have hchar : 0x10000 + (0xD800 + (a.toNat - 0x10000) / 0x400 - 0xD800) * 0x400 +
          (0xDC00 + (a.toNat - 0x10000) % 0x400 - 0xDC00) = a.toNat := by
        omega
      rw [piecesOf, ha, if_neg Bool.false_ne_true, if_neg hlt]
      dsimp only [cons_append, nil_append]
      rw [joinHalves, if_pos hpair, hchar, Char.ofNat_toNat]

/-- A high half and a low one are read as one character. -/
theorem rejoined_pair {b : Char} (ha : isHigh a) (hb : isLow b) (cs : List Char) :
    ∃ c, rejoined (a :: b :: cs) = c :: rejoined cs := by
  simp only [isHigh, isLow, Bool.and_eq_true, decide_eq_true_eq] at ha hb
  have hpair : (decide (codePoint a < 0xDC00) && decide (0xDC00 ≤ codePoint b)) := by
    simp [ha.2, hb.2]
  unfold rejoined
  rw [flatMap_cons, flatMap_cons]
  simp only [piecesOf, ha.1, hb.1, if_true, singleton_append]
  rw [joinHalves, if_pos hpair]
  exact ⟨_, rfl⟩

/-- Whether a character is a high half and the text after it starts with a low one. -/
def startsPair (a : Char) (cs : List Char) : Prop :=
  ∃ b bs, cs = b :: bs ∧ isHigh a ∧ isLow b

theorem rejoined_cons_of_not_startsPair {cs : List Char} (h : ¬ startsPair a cs) :
    rejoined (a :: cs) = a :: rejoined cs := by
  refine rejoined_cons fun b bs hbs => ?_
  rw [← Bool.not_eq_true, Bool.and_eq_true]
  exact fun hpair => h ⟨b, bs, hbs, hpair⟩

theorem length_rejoined_le (cs : List Char) : (rejoined cs).length ≤ cs.length := by
  -- a pair takes two characters at once, so the induction is on a bound of the length
  have hbound : ∀ n (cs : List Char), cs.length ≤ n → (rejoined cs).length ≤ cs.length := by
    intro n
    induction n with
    | zero =>
      intro cs hcs
      rw [eq_nil_of_length_eq_zero (Nat.le_zero.mp hcs)]
      exact Nat.le_refl 0
    | succ n ih =>
      intro cs hcs
      cases cs with
      | nil => exact Nat.le_refl 0
      | cons a cs =>
        rw [length_cons] at hcs
        by_cases h : startsPair a cs
        · obtain ⟨b, bs, rfl, ha, hb⟩ := h
          obtain ⟨c, hc⟩ := rejoined_pair ha hb bs
          rw [length_cons] at hcs
          have := ih bs (by omega)
          simp only [hc, length_cons]
          omega
        · have := ih cs (by omega)
          simp only [rejoined_cons_of_not_startsPair h, length_cons]
          omega
  exact hbound cs.length cs (Nat.le_refl _)

/-- Exactly whole texts are read back as they are. -/
theorem rejoined_eq_iff (cs : List Char) : rejoined cs = cs ↔ isWhole cs := by
  induction cs with
  | nil => exact ⟨fun _ => rfl, fun _ => rfl⟩
  | cons a cs ih =>
    by_cases h : startsPair a cs
    · obtain ⟨b, bs, rfl, ha, hb⟩ := h
      obtain ⟨c, hc⟩ := rejoined_pair ha hb bs
      have hlength := length_rejoined_le bs
      constructor
      · intro heq
        rw [hc] at heq
        have := congrArg List.length heq
        simp only [length_cons] at this
        omega
      · simp [isWhole, ha, hb]
    · have hwhole : isWhole (a :: cs) = isWhole cs := by
        cases cs with
        | nil => rfl
        | cons b bs =>
          have hpair : (isHigh a && isLow b) = false := by
            rw [← Bool.not_eq_true, Bool.and_eq_true]
            exact fun hpair => h ⟨b, bs, rfl, hpair⟩
          rw [isWhole, hpair]
          rfl
      rw [rejoined_cons_of_not_startsPair h, hwhole, ← ih, List.cons.injEq]
      exact ⟨fun heq => heq.2, fun heq => ⟨rfl, heq⟩⟩

end Xref.Json

import Xref.Proofs.Json.Texts

/-!
# Values written and read back

Whatever the layout, the text of a value is read as the value with its texts joined, provided that
its integers are short enough, it holds no other numbers, its objects have distinct names and its
depth is within the reader's. The step lemmas say what the reader does at each mark; the induction
is on the layers of the value, with an inner one along the items or fields.
-/

namespace Xref.Json

open List Number Text

/-! ## Integers -/

theorem digitsValue_toDigits (n : Nat) : digitsValue (Nat.toDigits 10 n) = n := by
  induction n using Nat.strongRecOn with
  | ind n ih =>
    by_cases h : n < 10
    · rw [Nat.toDigits_of_lt_base h]
      simp [digitsValue, Nat.toNat_digitChar_sub_48_of_lt_ten h]
    · have hlast : n % 10 < 10 := Nat.mod_lt n (by decide)
      rw [Nat.toDigits_of_base_le (by decide) (by omega), digitsValue, foldl_append]
      show 10 * digitsValue (Nat.toDigits 10 (n / 10)) + ((n % 10).digitChar.toNat - 48) = n
      rw [ih (n / 10) (by omega), Nat.toNat_digitChar_sub_48_of_lt_ten hlast]
      omega

/-- The digits of a positive number do not start with a zero. -/
theorem head?_toDigits_ne_zero {n : Nat} (h : 0 < n) : (Nat.toDigits 10 n).head? ≠ some '0' := by
  induction n using Nat.strongRecOn with
  | ind n ih =>
    by_cases hlt : n < 10
    · rw [Nat.toDigits_of_lt_base hlt]
      have hdigits : ∀ d < 10, 0 < d → Nat.digitChar d ≠ '0' := by decide
      simpa using hdigits n hlt h
    · have hleading := ih (n / 10) (by omega) (by omega)
      have hne : Nat.toDigits 10 (n / 10) ≠ [] := Nat.toDigits_ne_nil
      rw [Nat.toDigits_of_base_le (by decide) (by omega)]
      generalize Nat.toDigits 10 (n / 10) = ds at hleading hne
      cases ds with
      | nil => exact absurd rfl hne
      | cons d ds => exact hleading

/-- What may follow a value: nothing that a number could go on with. -/
def Follows (rest : List Char) : Prop :=
  ∀ c ∈ rest.head?, c.isDigit = false ∧ c ≠ '.' ∧ c ≠ 'e' ∧ c ≠ 'E'

theorem spanDigits_append {ds rest : List Char} (hds : ∀ d ∈ ds, d.isDigit) (h : Follows rest) :
    spanDigits (ds ++ rest) = (ds, rest) := by
  have hstop : rest.takeWhile Char.isDigit = [] ∧ rest.dropWhile Char.isDigit = rest := by
    cases rest with
    | nil => exact ⟨rfl, rfl⟩
    | cons c cs =>
      have hc := (h c rfl).1
      simp [hc]
  rw [spanDigits, takeWhile_append_of_pos hds, dropWhile_append_of_pos hds, hstop.1, hstop.2,
    append_nil]

variable {rest : List Char} {c : Char} (layout : Layout)

theorem spanInteger_toDigits (n : Nat) (h : Follows rest) :
    spanInteger (Nat.toDigits 10 n ++ rest) = some (Nat.toDigits 10 n, rest) := by
  have hdigits : ∀ d ∈ Nat.toDigits 10 n, d.isDigit := fun d =>
    Nat.isDigit_of_mem_toDigits (by decide) (by decide)
  have hspan := spanDigits_append hdigits h
  by_cases hn : n = 0
  · subst hn
    simp [spanInteger]
  · have hhead := head?_toDigits_ne_zero (Nat.pos_of_ne_zero hn)
    have hne : Nat.toDigits 10 n ≠ [] := Nat.toDigits_ne_nil
    generalize Nat.toDigits 10 n = ds at hhead hne hspan
    cases ds with
    | nil => exact absurd rfl hne
    | cons d ds =>
      have hd : d ≠ '0' := fun he => hhead (by rw [he]; rfl)
      rw [cons_append, spanInteger, ← cons_append, hspan]
      exact fun _ heq => hd (List.cons.inj heq).1

theorem spanFraction_of_follows (h : Follows rest) : spanFraction rest = ([], rest) := by
  cases rest with
  | nil => rfl
  | cons c cs =>
    rw [spanFraction]
    exact fun _ heq => (h c rfl).2.1 (List.cons.inj heq).1

theorem spanExponent_of_follows (h : Follows rest) : spanExponent rest = none := by
  cases rest with
  | nil => rfl
  | cons c cs =>
    obtain ⟨_, _, hlower, hupper⟩ := h c rfl
    simp [spanExponent, hlower, hupper]

theorem length_toDigits_le {n k : Nat} (hk : 0 < k) (h : n < Nat.pow 10 k) :
    (Nat.toDigits 10 n).length ≤ k :=
  (Nat.length_toDigits_le_iff (by decide) hk).mpr h

/-- The digits of a number that is short enough are read as that number. -/
theorem readNumber_toDigits (negative : Bool) {n : Nat} (hn : n < digitLimit) (h : Follows rest) :
    readNumber negative (Nat.toDigits 10 n ++ rest) =
      .ok (int (if negative then -(n : Int) else n), rest) := by
  have hlength : ¬ maxDigits < (Nat.toDigits 10 n).length := by
    unfold digitLimit at hn
    exact Nat.not_lt.mpr (length_toDigits_le (by decide) hn)
  simp only [readNumber, spanInteger_toDigits n h, spanFraction_of_follows h,
    spanExponent_of_follows h, if_neg hlength, digitsValue_toDigits]

theorem readScalar_digit (hc : c.isDigit) (cs : List Char) :
    readScalar (c :: cs) = readNumber false (c :: cs) := by
  rw [readScalar]
  all_goals
    intros
    simp_all

theorem readScalar_minus (hc : c.isDigit) (cs : List Char) :
    readScalar ('-' :: c :: cs) = readNumber true (c :: cs) := by
  have hne : c ≠ 'I' := by
    rintro rfl
    exact absurd hc (by decide)
  rw [readScalar]
  exact fun _ heq => hne (List.cons.inj heq).1

theorem exists_toDigits (n : Nat) : ∃ d ds, Nat.toDigits 10 n = d :: ds ∧ d.isDigit := by
  obtain ⟨d, ds, hcons⟩ := exists_cons_of_ne_nil (Nat.toDigits_ne_nil : Nat.toDigits 10 n ≠ [])
  refine ⟨d, ds, hcons,
    Nat.isDigit_of_mem_toDigits (by decide) (by decide) (?_ : d ∈ Nat.toDigits 10 n)⟩
  rw [hcons]
  exact mem_cons_self

theorem readScalar_intText {n : Int} (hn : n.natAbs < digitLimit) (h : Follows rest) :
    readScalar (intText n ++ rest) = .ok (int n, rest) := by
  cases n with
  | ofNat n =>
    obtain ⟨d, ds, hcons, hd⟩ := exists_toDigits n
    have hread := readNumber_toDigits false hn h
    rw [intText, hcons, cons_append, readScalar_digit hd, ← cons_append, ← hcons]
    exact hread
  | negSucc n =>
    obtain ⟨d, ds, hcons, hd⟩ := exists_toDigits (n + 1)
    have hread := readNumber_toDigits true hn h
    rw [intText, hcons, cons_append, cons_append, readScalar_minus hd, ← cons_append, ← hcons]
    exact hread

/-- The text of an integer starts with a digit or a minus sign. -/
theorem exists_intText (n : Int) :
    ∃ c cs, intText n = c :: cs ∧ isGap c = false ∧ c ≠ ']' ∧ c ≠ '[' ∧ c ≠ '\x7b' := by
  cases n with
  | ofNat n =>
    obtain ⟨d, ds, hcons, hd⟩ := exists_toDigits n
    have hne : ∀ c, c.isDigit = false → d ≠ c := by
      rintro c hc rfl
      exact absurd hd (Bool.eq_false_iff.mp hc)
    refine ⟨d, ds, hcons, ?_, hne _ (by decide), hne _ (by decide), hne _ (by decide)⟩
    simp [isGap, hne]
  | negSucc n => exact ⟨'-', _, rfl, by decide, by decide, by decide, by decide⟩

theorem readScalar_stringText (s : String) (rest : List Char) :
    readScalar (stringText s ++ rest) = .ok (str (String.ofList (rejoined s.toList)), rest) := by
  rw [stringText, cons_append, cons_append, append_assoc, singleton_append, readScalar,
    readString_written]
  rfl

/-! ## Gaps -/

theorem skipGaps_append {gs : List Char} (h : ∀ g ∈ gs, isGap g) (cs : List Char) :
    skipGaps (gs ++ cs) = skipGaps cs :=
  dropWhile_append_of_pos h

theorem skipGaps_cons (h : isGap c = false) (cs : List Char) : skipGaps (c :: cs) = c :: cs := by
  simp [skipGaps, h]

theorem skipGaps_blank (cs : List Char) : skipGaps (' ' :: cs) = skipGaps cs := by
  simp [skipGaps, isGap]

theorem isGap_of_mem_opening {g : Char} (h : g ∈ layout.opening) : isGap g := by
  cases layout with
  | line => simp [Layout.opening] at h
  | spread depth =>
    simp only [Layout.opening, mem_cons, mem_replicate] at h
    obtain rfl | ⟨_, rfl⟩ := h <;> decide

theorem skipGaps_opening (cs : List Char) : skipGaps (layout.opening ++ cs) = skipGaps cs :=
  skipGaps_append (fun _ => isGap_of_mem_opening layout) cs

/-- Items are set apart by a comma and gaps. -/
theorem exists_between : ∃ gs, layout.between = ',' :: gs ∧ ∀ g ∈ gs, isGap g := by
  cases layout with
  | line => exact ⟨[' '], rfl, by simp [isGap]⟩
  | spread depth => exact ⟨_, rfl, fun _ => isGap_of_mem_opening (.spread depth)⟩

theorem follows_cons (h : (!c.isDigit && c != '.' && c != 'e' && c != 'E')) (cs : List Char) :
    Follows (c :: cs) := by
  intro d hd
  obtain rfl : c = d := by simpa using hd
  simpa [and_assoc] using h

theorem follows_opening {cs : List Char} (h : Follows cs) : Follows (layout.opening ++ cs) := by
  cases layout with
  | line => exact h
  | spread depth => exact follows_cons (by decide) _

theorem follows_between (cs : List Char) : Follows (layout.between ++ cs) := by
  obtain ⟨gs, hbetween, _⟩ := exists_between layout
  rw [hbetween]
  exact follows_cons (by decide) _

/-! ## The reader's steps -/

section

variable {fuel room : Nat} {c : Char} {cs r s t u rest name : List Char} {v : Json}
  {done : List (String × Json)}

theorem readValue_scalar (harr : c ≠ '[') (hobj : c ≠ '\x7b') :
    readValue (fuel + 1) room (c :: cs) = readScalar (c :: cs) := by
  rw [readValue]
  · exact fun _ h _ => harr (List.cons.inj h).1
  · exact fun _ h _ => hobj (List.cons.inj h).1
  · exact fun _ _ h _ => harr (List.cons.inj h).1
  · exact fun _ _ h _ => hobj (List.cons.inj h).1

theorem readValue_arr (h : skipGaps r = c :: cs) (hc : c ≠ ']') :
    readValue (fuel + 1) (room + 1) ('[' :: r) =
      (readItems fuel room (c :: cs)).map fun p => (arr p.1, p.2) := by
  rw [readValue, h]
  split
  · next heq => exact absurd (List.cons.inj heq).1 hc
  · cases readItems fuel room (c :: cs) <;> rfl

theorem readValue_obj (h : skipGaps r = c :: cs) (hc : c ≠ '\x7d') :
    readValue (fuel + 1) (room + 1) ('\x7b' :: r) =
      (readFields fuel room [] (c :: cs)).map fun p => (obj p.1, p.2) := by
  rw [readValue, h]
  split
  · next heq => exact absurd (List.cons.inj heq).1 hc
  · cases readFields fuel room [] (c :: cs) <;> rfl

theorem readItems_last (hv : readValue fuel room cs = .ok (v, r)) (h : skipGaps r = ']' :: rest) :
    readItems (fuel + 1) room cs = .ok ([v], rest) := by
  rw [readItems, hv]
  simp only [bind, Except.bind, h]
  rfl

theorem readItems_more (hv : readValue fuel room cs = .ok (v, r)) (h : skipGaps r = ',' :: rest) :
    readItems (fuel + 1) room cs =
      (readItems fuel room (skipGaps rest)).map fun p => (v :: p.1, p.2) := by
  rw [readItems, hv]
  simp only [bind, Except.bind, h]
  cases readItems fuel room (skipGaps rest) <;> rfl

theorem readFields_last (hname : readString r = some (name, s)) (hcolon : skipGaps s = ':' :: t)
    (hv : readValue fuel room (skipGaps t) = .ok (v, u)) (h : skipGaps u = '\x7d' :: rest) :
    readFields (fuel + 1) room done ('\x22' :: r) = .ok (setField (String.ofList name) v done,
      rest) := by
  rw [readFields, hname]
  simp only [bind, Except.bind, orMalformed, hcolon, hv, h]
  rfl

theorem readFields_more (hname : readString r = some (name, s)) (hcolon : skipGaps s = ':' :: t)
    (hv : readValue fuel room (skipGaps t) = .ok (v, u)) (h : skipGaps u = ',' :: rest) :
    readFields (fuel + 1) room done ('\x22' :: r) =
      readFields fuel room (setField (String.ofList name) v done) (skipGaps rest) := by
  rw [readFields, hname]
  simp only [bind, Except.bind, orMalformed, hcolon, hv, h]

end

/-! ## Values -/

/-- Values that are written so that they can be read: of at most the given depth, without numbers
other than integers, and with distinct names in every object. -/
inductive Layered : Nat → Json → Prop
  | null {depth} : Layered depth null
  | bool {depth} (b : Bool) : Layered depth (bool b)
  | int {depth} (n : Int) : Layered depth (int n)
  | str {depth} (s : String) : Layered depth (str s)
  | arr {depth} {items : List Json} (h : ∀ v ∈ items, Layered depth v) :
      Layered (depth + 1) (arr items)
  | obj {depth} {fields : List (String × Json)} (h : ∀ f ∈ fields, Layered depth f.2)
      (hnames : (fields.map Prod.fst).Nodup) : Layered (depth + 1) (obj fields)

mutual

/-- The value with its texts as they are read. -/
def rejoin : Json → Json
  | str s => str (String.ofList (rejoined s.toList))
  | arr items => arr (rejoinItems items)
  | obj fields => obj (rejoinFields [] fields)
  | null => null
  | bool b => bool b
  | int n => int n
  | real x => real x

/-- The values with their texts as they are read. -/
def rejoinItems : List Json → List Json
  | [] => []
  | v :: vs => rejoin v :: rejoinItems vs

/-- The fields as they are read, after some others. -/
def rejoinFields (done : List (String × Json)) : List (String × Json) → List (String × Json)
  | [] => done
  | (k, v) :: fs => rejoinFields (setField (String.ofList (rejoined k.toList)) (rejoin v) done) fs

end

theorem mem_integersOfItems {n : Int} {vs : List Json} :
    n ∈ integersOfItems vs ↔ ∃ v ∈ vs, n ∈ integers v := by
  induction vs with
  | nil => simp [integersOfItems]
  | cons v vs ih => simp [integersOfItems, ih]

theorem mem_integersOfFields {n : Int} {fs : List (String × Json)} :
    n ∈ integersOfFields fs ↔ ∃ f ∈ fs, n ∈ integers f.2 := by
  induction fs with
  | nil => simp [integersOfFields]
  | cons f fs ih => simp [integersOfFields, ih]

variable {v : Json} {depth room : Nat}

/-- The text of a value starts with a mark, and never with one that closes. -/
theorem exists_renderChars {depth : Nat} (hv : Layered depth v) (layout : Layout) :
    ∃ c cs, renderChars layout v = c :: cs ∧ isGap c = false ∧ c ≠ ']' := by
  cases hv with
  | null => exact ⟨'n', _, rfl, by decide, by decide⟩
  | bool b => cases b <;> exact ⟨_, _, rfl, by decide, by decide⟩
  | int n =>
    obtain ⟨c, cs, hcons, hgap, hc, _⟩ := exists_intText n
    exact ⟨c, cs, hcons, hgap, hc⟩
  | str s => exact ⟨'\x22', _, rfl, by decide, by decide⟩
  | @arr _ items _ =>
    cases items with
    | nil | cons v vs => exact ⟨'[', _, rfl, by decide, by decide⟩
  | @obj _ fields _ _ =>
    cases fields with
    | nil | cons f fs => exact ⟨'\x7b', _, rfl, by decide, by decide⟩

/-- What reading gives for the text of a value, whatever follows it. -/
def ReadsBack (room : Nat) (v : Json) : Prop :=
  ∀ {fuel : Nat} {layout : Layout} {rest : List Char}, (renderChars layout v).length < fuel →
    Follows rest → readValue fuel room (renderChars layout v ++ rest) = .ok (rejoin v, rest)

/-- The first mark of a value is what the reader finds after gaps. -/
theorem skipGaps_renderChars {depth : Nat} (hv : Layered depth v) (layout : Layout)
    (rest : List Char) :
    skipGaps (renderChars layout v ++ rest) = renderChars layout v ++ rest := by
  obtain ⟨c, cs, hcons, hgap, _⟩ := exists_renderChars hv layout
  rw [hcons]
  exact skipGaps_cons hgap _

theorem readItems_renderItems {layout : Layout} {tail rest : List Char}
    (htail : skipGaps tail = ']' :: rest) (hfollows : Follows tail) :
    ∀ {vs : List Json} {v : Json} {fuel : Nat},
      (∀ w ∈ v :: vs, Layered depth w ∧ ReadsBack room w) →
      (renderChars layout v).length + (renderItems layout vs).length + 1 < fuel →
      readItems fuel room (renderChars layout v ++ (renderItems layout vs ++ tail)) =
        .ok (rejoinItems (v :: vs), rest) := by
  intro vs
  induction vs with
  | nil =>
    intro v fuel hvs hfuel
    obtain ⟨fuel, rfl⟩ : ∃ n, fuel = n + 1 := ⟨fuel - 1, by omega⟩
    have hv := (hvs v List.mem_cons_self).2
      (by omega : (renderChars layout v).length < fuel) hfollows
    exact readItems_last hv htail
  | cons w ws ih =>
    intro v fuel hvs hfuel
    obtain ⟨fuel, rfl⟩ : ∃ n, fuel = n + 1 := ⟨fuel - 1, by omega⟩
    obtain ⟨gs, hbetween, hgaps⟩ := exists_between layout
    simp only [renderItems, hbetween, List.length_append, List.length_cons] at hfuel
    simp only [renderItems, List.append_assoc]
    have hv := (hvs v List.mem_cons_self).2 (by omega : (renderChars layout v).length < fuel)
      (follows_between layout (renderChars layout w ++ (renderItems layout ws ++ tail)))
    have hcomma :
      skipGaps (layout.between ++ (renderChars layout w ++ (renderItems layout ws ++ tail))) =
        ',' :: (gs ++ (renderChars layout w ++ (renderItems layout ws ++ tail))) := by
      rw [hbetween]
      exact skipGaps_cons (by decide) _
    have hw := (hvs w (List.mem_cons_of_mem v List.mem_cons_self)).1
    rw [readItems_more hv hcomma, skipGaps_append hgaps, skipGaps_renderChars hw,
      ih (fun u hu => hvs u (List.mem_cons_of_mem v hu)) (by omega)]
    rfl

theorem stringText_append (s : String) (cs : List Char) :
    stringText s ++ cs = '\x22' :: (s.toList.flatMap escape ++ '\x22' :: cs) := by
  simp [stringText]

theorem readFields_renderFields {layout : Layout} {tail rest : List Char}
    (htail : skipGaps tail = '\x7d' :: rest) (hfollows : Follows tail) :
    ∀ {fs : List (String × Json)} {k : String} {v : Json} {done : List (String × Json)}
      {fuel : Nat}, (∀ f ∈ (k, v) :: fs, Layered depth f.2 ∧ ReadsBack room f.2) →
      (renderChars layout v).length + (renderFields layout fs).length + 1 < fuel →
      readFields fuel room done
          (stringText k ++ ':' :: ' ' ::
            (renderChars layout v ++ (renderFields layout fs ++ tail))) =
        .ok (rejoinFields done ((k, v) :: fs), rest) := by
  intro fs
  induction fs with
  | nil =>
    intro k v done fuel hfs hfuel
    obtain ⟨fuel, rfl⟩ : ∃ n, fuel = n + 1 := ⟨fuel - 1, by omega⟩
    obtain ⟨hlayered, hreads⟩ : Layered depth v ∧ ReadsBack room v := hfs (k, v) mem_cons_self
    have hv : readValue fuel room (skipGaps (' ' :: (renderChars layout v ++ tail))) =
      .ok (rejoin v, tail) := by
      rw [skipGaps_blank, skipGaps_renderChars hlayered]
      exact hreads (by omega) hfollows
    rw [stringText_append]
    exact readFields_last (readString_written k.toList _) (skipGaps_cons (by decide) _) hv htail
  | cons g gs ih =>
    intro k v done fuel hfs hfuel
    obtain ⟨fuel, rfl⟩ : ∃ n, fuel = n + 1 := ⟨fuel - 1, by omega⟩
    obtain ⟨hlayered, hreads⟩ : Layered depth v ∧ ReadsBack room v := hfs (k, v) mem_cons_self
    obtain ⟨blanks, hbetween, hblanks⟩ := exists_between layout
    obtain ⟨l, w⟩ := g
    simp only [renderFields, hbetween, length_append, length_cons] at hfuel
    simp only [renderFields, append_assoc, cons_append]
    generalize hmore : stringText l ++ ':' :: ' ' ::
      (renderChars layout w ++ (renderFields layout gs ++ tail)) = more
    have hv : readValue fuel room
      (skipGaps (' ' :: (renderChars layout v ++ (layout.between ++ more)))) =
        .ok (rejoin v, layout.between ++ more) := by
      rw [skipGaps_blank, skipGaps_renderChars hlayered]
      exact hreads (by omega) (follows_between layout more)
    have hcomma : skipGaps (layout.between ++ more) = ',' :: (blanks ++ more) := by
      rw [hbetween]
      exact skipGaps_cons (by decide) _
    have hstart : skipGaps more = more := by
      rw [← hmore, stringText_append]
      exact skipGaps_cons (by decide) _
    rw [stringText_append,
      readFields_more (readString_written k.toList _) (skipGaps_cons (by decide) _) hv hcomma,
      skipGaps_append hblanks, hstart, ← hmore,
        ih (fun f hf => hfs f (mem_cons_of_mem _ hf)) (by omega)]
    rfl

/-- Every step of the reader takes one of the fuel, and there is enough for one at least. -/
theorem ReadsBack.of_succ {room : Nat}
    (h : ∀ (fuel : Nat) (layout : Layout) (rest : List Char), (renderChars layout v).length ≤ fuel →
      Follows rest →
        readValue (fuel + 1) room (renderChars layout v ++ rest) = .ok (rejoin v, rest)) :
    ReadsBack room v := by
  intro fuel layout rest hfuel hrest
  obtain ⟨fuel, rfl⟩ : ∃ n, fuel = n + 1 := ⟨fuel - 1, by omega⟩
  exact h fuel layout rest (by omega) hrest

theorem readsBack_arr {items : List Json}
    (h : ∀ w ∈ items, Layered depth w ∧ ReadsBack room w) : ReadsBack (room + 1) (arr items) := by
  refine ReadsBack.of_succ fun fuel layout rest hfuel hrest => ?_
  cases items with
  | nil => rfl
  | cons v vs =>
    have hv := (h v mem_cons_self).1
    have hclosing : skipGaps (layout.opening ++ ']' :: rest) = ']' :: rest := by
      rw [skipGaps_opening]
      exact skipGaps_cons (by decide) rest
    have htext : renderChars layout (arr (v :: vs)) ++ rest =
        '[' :: (layout.inner.opening ++
          (renderChars layout.inner v ++ (renderItems layout.inner vs ++
          (layout.opening ++ ']' :: rest)))) := by
      simp [renderChars]
    obtain ⟨c, cs, hcons, _, hc⟩ := exists_renderChars hv layout.inner
    have hstart : ∀ more, skipGaps (layout.inner.opening ++ (renderChars layout.inner v ++ more)) =
        c :: (cs ++ more) := by
      intro more
      rw [skipGaps_opening, skipGaps_renderChars hv, hcons, cons_append]
    simp only [renderChars, length_append, length_cons] at hfuel
    rw [htext, readValue_arr (hstart _) hc, ← cons_append, ← hcons,
      readItems_renderItems hclosing (follows_opening layout (follows_cons (by decide) rest)) h
        (by omega)]
    rfl

theorem readsBack_obj {fields : List (String × Json)}
    (h : ∀ f ∈ fields, Layered depth f.2 ∧ ReadsBack room f.2) :
    ReadsBack (room + 1) (obj fields) := by
  refine ReadsBack.of_succ fun fuel layout rest hfuel hrest => ?_
  cases fields with
  | nil => rfl
  | cons f fs =>
    obtain ⟨k, v⟩ := f
    have hclosing : skipGaps (layout.opening ++ '\x7d' :: rest) = '\x7d' :: rest := by
      rw [skipGaps_opening]
      exact skipGaps_cons (by decide) rest
    have htext : renderChars layout (obj ((k, v) :: fs)) ++ rest =
        '\x7b' :: (layout.inner.opening ++
          (stringText k ++ ':' :: ' ' :: (renderChars layout.inner v ++
          (renderFields layout.inner fs ++ (layout.opening ++ '\x7d' :: rest))))) := by
      simp [renderChars]
    have hstart : ∀ more, skipGaps (layout.inner.opening ++ (stringText k ++ more)) =
        '\x22' :: (k.toList.flatMap escape ++ '\x22' :: more) := by
      intro more
      rw [skipGaps_opening, stringText_append]
      exact skipGaps_cons (by decide) _
    simp only [renderChars, length_append, length_cons] at hfuel
    rw [htext, readValue_obj (hstart _) (by decide), ← stringText_append,
      readFields_renderFields hclosing (follows_opening layout (follows_cons (by decide) rest)) h
        (by omega)]
    rfl

/-- A value within the reader's depth is read from its text, its texts joined. -/
theorem readsBack_of_layered {depth : Nat} (hv : Layered depth v) :
    ∀ {room : Nat}, depth ≤ room → (∀ n ∈ v.integers, n.natAbs < digitLimit) →
      ReadsBack room v := by
  induction hv with
  | null => exact fun _ _ => ReadsBack.of_succ fun _ _ _ _ _ => rfl
  | bool b => exact fun _ _ => ReadsBack.of_succ fun _ _ _ _ _ => by cases b <;> rfl
  | int n =>
    refine fun {room} _ hint => ReadsBack.of_succ fun fuel layout rest _ hrest => ?_
    obtain ⟨c, cs, hcons, _, _, harr, hobj⟩ := exists_intText n
    show readValue (fuel + 1) room (intText n ++ rest) = .ok (int n, rest)
    rw [hcons, cons_append, readValue_scalar harr hobj, ← cons_append, ← hcons]
    exact readScalar_intText (hint n (by simp [integers])) hrest
  | str s =>
    refine fun {room} _ _ => ReadsBack.of_succ fun fuel layout rest _ _ => ?_
    show readValue (fuel + 1) room (stringText s ++ rest) = .ok (rejoin (str s), rest)
    rw [stringText_append, readValue_scalar (by decide) (by decide), ← stringText_append]
    exact readScalar_stringText s rest
  | arr hitems ih =>
    intro room hroom hint
    obtain ⟨room, rfl⟩ : ∃ n, room = n + 1 := ⟨room - 1, by omega⟩
    exact readsBack_arr fun w hw =>
      ⟨hitems w hw, ih w hw (by omega) fun n hn => hint n (mem_integersOfItems.mpr ⟨w, hw, hn⟩)⟩
  | obj hfields _ ih =>
    intro room hroom hint
    obtain ⟨room, rfl⟩ : ∃ n, room = n + 1 := ⟨room - 1, by omega⟩
    exact readsBack_obj fun f hf =>
      ⟨hfields f hf, ih f hf (by omega) fun n hn => hint n (mem_integersOfFields.mpr ⟨f, hf, hn⟩)⟩

/-- A text that holds a value within the given depth is read as that value, its texts joined. -/
theorem parse_renderChars {depth maxDepth : Nat} (hv : Layered depth v) (hdepth : depth ≤ maxDepth)
    (hint : ∀ n ∈ v.integers, n.natAbs < digitLimit) (layout : Layout) :
    parse maxDepth (String.ofList (renderChars layout v)) = .ok (rejoin v) := by
  have hread : readValue ((renderChars layout v).length + 1) maxDepth (renderChars layout v ++ []) =
      .ok (rejoin v, []) :=
    readsBack_of_layered hv hdepth hint (Nat.lt_succ_self _) (by simp [Follows])
  have hstart := skipGaps_renderChars hv layout []
  rw [append_nil] at hread hstart
  rw [parse, String.toList_ofList, hstart, hread]
  rfl

end Xref.Json

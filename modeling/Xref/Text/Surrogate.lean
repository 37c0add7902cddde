/-!
# Halves of surrogate pairs

Data can name one half of a surrogate pair, which is no character by itself. A text carries such a
half as the private use character of the last plane that has the same last four hexadecimal digits.
Whatever shows or writes the text goes by `codePoint` and gives the half again.
-/

namespace Xref.Text

/-- Whether a code point is half of a surrogate pair. -/
def isHalf (n : Nat) : Bool :=
  0xD800 ≤ n && n < 0xE000

/-- How far the carrier of a half lies above it. -/
def carrierShift : Nat := 0x100000

def carrier (half : Nat) : Char :=
  Char.ofNat (half + carrierShift)

def isCarrier (c : Char) : Bool :=
  isHalf (c.toNat - carrierShift)

/-- The code point that a character stands for: of a carrier the half, else its own. -/
def codePoint (c : Char) : Nat :=
  if isCarrier c then c.toNat - carrierShift else c.toNat

def codePoints (s : String) : List Nat :=
  s.toList.map codePoint

/-- The bytes of a text; a half has none. -/
def utf8? (s : String) : Option ByteArray :=
  if s.toList.any isCarrier then none else some s.toUTF8

theorem toNat_carrier {half : Nat} (h : isHalf half = true) :
    (carrier half).toNat = half + carrierShift := by
  simp only [isHalf, Bool.and_eq_true, decide_eq_true_eq] at h
  have hv : (half + carrierShift).isValidChar := by
    unfold Nat.isValidChar carrierShift
    omega
  rw [carrier, Char.ofNat, dif_pos hv]
  rfl

@[simp] theorem codePoint_carrier {half : Nat} (h : isHalf half = true) :
    codePoint (carrier half) = half := by
  simp [codePoint, isCarrier, toNat_carrier h, h]

/-- A half is no character, so that a carrier and what it carries cannot be taken for another. -/
theorem codePoint_injective {a b : Char} (h : codePoint a = codePoint b) : a = b := by
  have hvalid : ∀ c : Char, isHalf c.toNat = false := by
    intro c
    have hc : c.toNat.isValidChar := c.valid
    simp only [isHalf, Bool.and_eq_false_iff, decide_eq_false_iff_not]
    unfold Nat.isValidChar at hc
    omega
  have hnat : a.toNat = b.toNat := by
    unfold codePoint at h
    split at h
    · next ha =>
      split at h
      · next hb =>
        simp only [isCarrier, isHalf, Bool.and_eq_true, decide_eq_true_eq] at ha hb
        omega
      · unfold isCarrier at ha
        rw [h, hvalid b] at ha
        cases ha
    · split at h
      · next hb =>
        unfold isCarrier at hb
        rw [← h, hvalid a] at hb
        cases hb
      · exact h
  exact Char.toNat_inj.mp hnat

theorem codePoints_injective {s t : String} (h : codePoints s = codePoints t) : s = t := by
  have hlists : s.toList = t.toList := (List.map_inj_right fun _ _ => codePoint_injective).mp h
  exact String.toList_inj.mp hlists

end Xref.Text

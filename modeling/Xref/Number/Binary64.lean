/-!
# Double precision numbers

A number of the binary64 format is a sign, a significand below `2 ^ 53` and a binary exponent, or
one of the values without a size. Decimals are rounded to the nearest such number, ties to the even
significand, and written with the fewest digits that read back as the same number.
-/

namespace Xref.Number

/-- A double precision number; `finite` stands for the significand times two to the exponent. -/
inductive Binary64
  | finite (negative : Bool) (significand : Nat) (exponent : Int)
  | infinite (negative : Bool)
  | undefined
  deriving Repr, DecidableEq

/-- The quotient rounded to the nearest number, a half to the even one. -/
def roundDiv (num den : Nat) : Nat :=
  let q := num / den
  let r := num % den
  if 2 * r < den then q else if den < 2 * r then q + 1 else q + q % 2

/-- The numerator and denominator of `num / den` times `base ^ e`. -/
def scale (base : Nat) (e : Int) (num den : Nat) : Nat × Nat :=
  if 0 ≤ e then (num * Nat.pow base e.toNat, den) else (num, den * Nat.pow base (-e).toNat)

namespace Binary64

def minExponent : Int := -1074

def maxExponent : Int := 971

/-- The least significand of full length: two to the power of 52. -/
def hiddenBit : Nat := 4503599627370496

/-- The exponent at which `num / den` has a significand of 53 bits, or the least one. -/
def exponentFor (num den : Nat) : Int :=
  let guess : Int := (num.log2 : Int) - den.log2 - 52
  let (n, d) := scale 2 (-guess) num den
  let exact := if n / d < hiddenBit then guess - 1 else guess
  max exact minExponent

def ofRatio (negative : Bool) (num den : Nat) : Binary64 :=
  let e := exponentFor num den
  let (n, d) := scale 2 (-e) num den
  let m := roundDiv n d
  let (m, e) := if m = 2 * hiddenBit then (hiddenBit, e + 1) else (m, e)
  if maxExponent < e then infinite negative else finite negative m e

/-- The number nearest to `mantissa` times ten to `exponent`. Sizes far outside the format are
told from the count of digits alone. -/
def ofDecimal (negative : Bool) (mantissa : Nat) (exponent : Int) : Binary64 :=
  let size : Int := (Nat.toDigits 10 mantissa).length + exponent
  if mantissa = 0 || size < -330 then finite negative 0 minExponent
  else if 310 < size then infinite negative
  else
    let (n, d) := scale 10 exponent mantissa 1
    ofRatio negative n d

/-- Decimal digits and the place of the point: the value is `0.digits` times ten to `point`. -/
structure Decimal where
  digits : List Char
  point : Int
  deriving Repr, DecidableEq

/-- The bounds of the reals that round to `m * 2 ^ e`, and the value between them, in quarters of
the last place. -/
def interval (m : Nat) (e : Int) : Nat × Nat × Nat :=
  if m = hiddenBit && minExponent < e then (4 * m - 1, 4 * m, 4 * m + 2)
  else (4 * m - 2, 4 * m, 4 * m + 2)

/-- The decimal place of `m * 2 ^ e`: the least power of ten above it. -/
def place (m : Nat) (e : Int) : Int :=
  let (n, d) := scale 2 e m 1
  let below (k : Int) : Bool :=
    let (n', d') := scale 10 (-k) n d
    n' < d'
  let guess : Int := ((m.log2 : Int) + e) * 30103 / 100000
  if below (guess - 1) then guess - 1
  else if below guess then guess
  else if below (guess + 1) then guess + 1
  else guess + 2

/-- The point of the grid with `n` digits that rounds to `m * 2 ^ e` and is nearest to it,
of two equally near ones the even one. -/
def onGrid? (m : Nat) (e : Int) (k : Int) (n : Nat) : Option Nat :=
  let (lo, mid, hi) := interval m e
  let (num, den) := scale 2 (e - 2) 1 1
  let (num, den) := scale 10 (n - k) num den
  let inside (c : Nat) : Bool :=
    if m % 2 = 0 then lo * num ≤ c * den && c * den ≤ hi * num
    else lo * num < c * den && c * den < hi * num
  let c := mid * num / den
  let below := inside c
  let above := inside (c + 1)
  if below && above then
    let gap := mid * num - c * den
    let rest := (c + 1) * den - mid * num
    some (if gap < rest || gap = rest && c % 2 = 0 then c else c + 1)
  else if below then some c
  else if above then some (c + 1)
  else none

/-- The fewest digits that read back as `m * 2 ^ e`; seventeen always do. -/
def shortest (m : Nat) (e : Int) : Decimal :=
  let k := place m e
  let c := ((List.range 17).findSome? fun n => onGrid? m e k (n + 1)).getD 0
  let n := ((List.range 17).find? fun n => (onGrid? m e k (n + 1)).isSome).getD 16 + 1
  let ds := Nat.toDigits 10 c
  ⟨(ds.reverse.dropWhile (· == '0')).reverse, k + (ds.length - n)⟩

/-- An exponent with its sign and at least two digits. -/
def exponentText (e : Int) : List Char :=
  let ds := Nat.toDigits 10 e.natAbs
  (if e < 0 then '-' else '+') :: (if ds.length < 2 then '0' :: ds else ds)

/-- A decimal written out: with a point while it stands within sixteen places, else with an
exponent. -/
def Decimal.text (d : Decimal) : List Char :=
  if -4 < d.point && d.point ≤ 16 then
    if d.point ≤ 0 then
      '0' :: '.' :: List.replicate (-d.point).toNat '0' ++ d.digits
    else
      let p := d.point.toNat
      if d.digits.length ≤ p then
        d.digits ++ List.replicate (p - d.digits.length) '0' ++ ['.', '0']
      else d.digits.take p ++ '.' :: d.digits.drop p
  else
    let tail := d.digits.drop 1
    d.digits.take 1 ++ (if tail.isEmpty then [] else '.' :: tail) ++
      'e' :: exponentText (d.point - 1)

/-- The sign as it is written. -/
def signText (negative : Bool) : List Char :=
  if negative then ['-'] else []

def finiteText (negative : Bool) (m : Nat) (e : Int) : List Char :=
  signText negative ++ (if m = 0 then ['0', '.', '0'] else (shortest m e).text)

def equalsInt : Binary64 → Int → Bool
  | finite negative m e, n =>
    let (num, den) := scale 2 e m 1
    (if negative then -(num : Int) else num) == n * den
  | _, _ => false

end Binary64

end Xref.Number

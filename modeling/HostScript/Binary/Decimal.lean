import HostScript.Binary.Basic

/-! Floating-point numbers as decimal text.

Writing rounds the exact value to `digits` significant places, a tie going to the
even digit, and drops zeros at the end of the fraction. Reading takes the nearest
pattern to the decimal number written. -/
namespace HostScript

/-- How a number is written: with how many significant digits, and for which
exponents of ten in positional notation. -/
structure DecimalFormat where
  digits : Nat
  lowest : Int
  highest : Int

attribute [local instance (high)] instPowNat

namespace Decimal

/-- The number of decimal digits, one for zero. -/
def length (n : Nat) : Nat := (Nat.toDigits 10 n).length

/-- `num / den` over `10 ^ e`, as a fraction. -/
def shift (num den : Nat) (e : Int) : Nat × Nat :=
  if 0 ≤ e then (num, den * 10 ^ e.toNat) else (num * 10 ^ (-e).toNat, den)

/-- The exponent of the leading digit of `num / den`. -/
def leading (num den : Nat) : Int :=
  let e : Int := length num - length den
  let (n, d) := shift num den e
  if d ≤ n then e else e - 1

/-- The digits of `num / den` rounded to `digits` places, and the exponent of the
leading one. Rounding nines up moves the leading digit. -/
def significant (digits num den : Nat) : Nat × Int :=
  let e := leading num den
  let (n, d) := shift num den (e - digits + 1)
  let q := roundDiv n d
  if q = 10 ^ digits then (10 ^ (digits - 1), e + 1) else (q, e)

/-- The decimal digits of a number with zeros in front up to a width. -/
def padded (width n : Nat) : List Char :=
  let text := Nat.toDigits 10 n
  List.replicate (width - text.length) '0' ++ text

/-- A fraction without the zeros at its end, with the point in front unless nothing is left. -/
def fraction (digits : List Char) : List Char :=
  match (digits.reverse.dropWhile (· == '0')).reverse with
  | [] => []
  | rest => '.' :: rest

/-- A number given by its significant digits and the exponent of the leading one,
written positionally. -/
def positional (digits : List Char) (e : Int) : List Char :=
  if 0 ≤ e then
    digits.take (e.toNat + 1) ++ fraction (digits.drop (e.toNat + 1))
  else
    '0' :: fraction (List.replicate ((-e).toNat - 1) '0' ++ digits)

/-- The same with one digit before the point and the exponent after an `e`. -/
def scientific (digits : List Char) (e : Int) : List Char :=
  digits.take 1 ++ fraction (digits.drop 1) ++
    ['e', if e < 0 then '-' else '+'] ++ padded 2 e.natAbs

end Decimal

namespace Binary

variable {k : FloatKind}

/-- The value of the pattern in decimal. -/
def text (format : DecimalFormat) (x : Binary k) : List Char :=
  let sign := if x.negative then ['-'] else []
  match x.datum with
  | .nan => "nan".toList
  | .infinite _ => sign ++ "inf".toList
  | .finite _ m e =>
    if m = 0 then sign ++ ['0']
    else
      let (num, den) := if 0 ≤ e then (m * 2 ^ e.toNat, 1) else (m, 2 ^ (-e).toNat)
      let (n, e) := Decimal.significant format.digits num den
      let digits := Decimal.padded format.digits n
      sign ++ if format.lowest ≤ e ∧ e ≤ format.highest then Decimal.positional digits e
        else Decimal.scientific digits e

/-- Every number of `binary64` is zero or between these powers of ten in magnitude,
with room to spare. -/
def decimalRange : Int := 400

/-- The pattern nearest to `± digits · 10 ^ e`. Exponents far outside the range of the
patterns are decided without computing the power. -/
def ofDecimal (negative : Bool) (digits : Nat) (e : Int) : Binary k :=
  let top := e + Decimal.length digits
  if digits = 0 then zero negative
  else if decimalRange < top then infinite negative
  else if top < -decimalRange then zero negative
  else if 0 ≤ e then round negative (digits * 10 ^ e.toNat) 1
  else round negative digits (10 ^ (-e).toNat)

end Binary

/-- Numbers are shown with six significant digits, positionally from `0.0001` up to
`999999`. -/
def shownFloat : DecimalFormat := ⟨6, -4, 5⟩

end HostScript

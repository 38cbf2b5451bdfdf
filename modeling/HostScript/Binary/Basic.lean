import HostScript.Kind

/-! Binary floating-point numbers.

A `Binary k` is a bit pattern of kind `k`: a sign, an exponent field and a
fraction field. `datum` reads it as an exact number, and `round` is the one place
where a number that has no pattern becomes one: the nearest, a tie going to the
even pattern. Every operation computes exactly and rounds once. -/
namespace HostScript

/-- A bit pattern of a floating-point kind. -/
structure Binary (k : FloatKind) where
  bits : BitVec k.bits
  deriving DecidableEq, Repr

/-- What a pattern stands for. `finite negative m e` is `± m · 2 ^ e`. -/
inductive Datum where
  | nan
  | infinite (negative : Bool)
  | finite (negative : Bool) (m : Nat) (e : Int)
  deriving DecidableEq, Repr

/-- The integer nearest to `num / den`, a half going to the even neighbour. -/
def roundDiv (num den : Nat) : Nat :=
  let q := num / den
  let r := num % den
  if 2 * r < den then q else if den < 2 * r then q + 1 else q + q % 2

-- powers are those of core
attribute [local instance (high)] instPowNat

namespace FloatKind

/-- Width of the fraction field. -/
def fraction : FloatKind → Nat
  | .float32 => 23
  | .float64 => 52

/-- Width of the exponent field. -/
def exponent : FloatKind → Nat
  | .float32 => 8
  | .float64 => 11

/-- The exponent of the last place of the smallest numbers. -/
def lowest (k : FloatKind) : Int :=
  2 - 2 ^ (k.exponent - 1) - k.fraction

/-- The pattern of positive infinity as a number; patterns of greater magnitude are no numbers. -/
def infinity (k : FloatKind) : Nat :=
  (2 ^ k.exponent - 1) * 2 ^ k.fraction

end FloatKind

namespace Binary

variable {k : FloatKind}

/-- The pattern with the given sign and the rest of its bits. -/
def pack (negative : Bool) (magnitude : Nat) : Binary k :=
  ⟨BitVec.ofNat k.bits (magnitude + if negative then 2 ^ (k.bits - 1) else 0)⟩

def negative (x : Binary k) : Bool := x.bits.msb

/-- The bits but the sign. -/
def magnitude (x : Binary k) : Nat :=
  x.bits.toNat % 2 ^ (k.bits - 1)

def zero (negative : Bool) : Binary k := pack negative 0

def infinite (negative : Bool) : Binary k := pack negative k.infinity

/-- The pattern an operation without a value yields. -/
def invalid : Binary k := pack true (k.infinity + 2 ^ (k.fraction - 1))

/-- What `nan` in a text reads as. -/
def nan (negative : Bool) : Binary k := pack negative (k.infinity + 2 ^ (k.fraction - 1))

def isNan (x : Binary k) : Bool := k.infinity < x.magnitude

/-- A pattern that is no number, with the bit set that marks it as seen. -/
def quiet (x : Binary k) : Binary k :=
  ⟨x.bits ||| BitVec.ofNat k.bits (2 ^ (k.fraction - 1))⟩

def neg (x : Binary k) : Binary k :=
  pack (!x.negative) x.magnitude

def datum (x : Binary k) : Datum :=
  let field := x.magnitude / 2 ^ k.fraction
  let low := x.magnitude % 2 ^ k.fraction
  if k.infinity < x.magnitude then .nan
  else if x.magnitude = k.infinity then .infinite x.negative
  else if field = 0 then .finite x.negative low k.lowest
  else .finite x.negative (2 ^ k.fraction + low) (k.lowest + field - 1)

/-- Whether `num / den` is at least `2 ^ e`. -/
def reaches (num den : Nat) (e : Int) : Bool :=
  if 0 ≤ e then den * 2 ^ e.toNat ≤ num else den ≤ num * 2 ^ (-e).toNat

/-- The exponent of the last place in which `num / den` is rounded. -/
def place (k : FloatKind) (num den : Nat) : Int :=
  let e : Int := num.log2 - den.log2
  max ((if reaches num den e then e else e - 1) - k.fraction) k.lowest

/-- The pattern nearest to `± num / den`. Counted in units of the last place the
patterns of one exponent are consecutive, so a carry moves on to the next exponent. -/
def round (negative : Bool) (num den : Nat) : Binary k :=
  if num = 0 then zero negative
  else
    let e := place k num den
    let q := if 0 ≤ e then roundDiv num (den * 2 ^ e.toNat) else roundDiv (num * 2 ^ (-e).toNat) den
    pack negative (min (q + (e - k.lowest).toNat * 2 ^ k.fraction) k.infinity)

/-- The pattern nearest to `± m · 2 ^ e`. -/
def ofScaled (negative : Bool) (m : Nat) (e : Int) : Binary k :=
  if 0 ≤ e then round negative (m * 2 ^ e.toNat) 1 else round negative m (2 ^ (-e).toNat)

def ofInt (n : Int) : Binary k :=
  round (n < 0) n.natAbs 1

end Binary

end HostScript

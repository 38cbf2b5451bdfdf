import HostScript.Binary.Basic

/-! Arithmetic, order and conversions of binary floating-point numbers.

An operand that is no number is passed on, the left one first; an operation
without a value, such as a difference of infinities, yields `invalid`. -/
namespace HostScript.Binary

variable {k : FloatKind}

attribute [local instance (high)] instPowNat

/-- An operation on numbers, where operands that are no numbers are passed on. -/
def onNumbers (f : Binary k → Binary k → Binary k) (x y : Binary k) : Binary k :=
  if x.isNan then x.quiet else if y.isNan then y.quiet else f x y

/-- `± m` as an integer. -/
def signed (negative : Bool) (m : Nat) : Int :=
  if negative then -(m : Int) else m

/-- The sum. A sum of zero is positive unless both terms are negative zeros. -/
def addNumbers (x y : Binary k) : Binary k :=
  match x.datum, y.datum with
  | .infinite s, .infinite t => if s = t then x else invalid
  | .infinite _, _ => x
  | _, .infinite _ => y
  | .finite s m e, .finite t n d =>
    let low := min e d
    let total := signed s (m * 2 ^ (e - low).toNat) + signed t (n * 2 ^ (d - low).toNat)
    if total = 0 then zero (s && t) else ofScaled (total < 0) total.natAbs low
  | _, _ => invalid

def add (x y : Binary k) : Binary k := onNumbers addNumbers x y

def sub (x y : Binary k) : Binary k := onNumbers (fun x y => addNumbers x y.neg) x y

def mul (x y : Binary k) : Binary k :=
  onNumbers (fun x y =>
    match x.datum, y.datum with
    | .infinite s, .infinite t => infinite (s ^^ t)
    | .infinite s, .finite t n _ => if n = 0 then invalid else infinite (s ^^ t)
    | .finite s m _, .infinite t => if m = 0 then invalid else infinite (s ^^ t)
    | .finite s m e, .finite t n d => ofScaled (s ^^ t) (m * n) (e + d)
    | _, _ => invalid) x y

def div (x y : Binary k) : Binary k :=
  onNumbers (fun x y =>
    match x.datum, y.datum with
    | .infinite s, .finite t _ _ => infinite (s ^^ t)
    | .finite s _ _, .infinite t => zero (s ^^ t)
    | .finite s m e, .finite t n d =>
      if n = 0 then (if m = 0 then invalid else infinite (s ^^ t))
      else if d ≤ e then round (s ^^ t) (m * 2 ^ (e - d).toNat) n
      else round (s ^^ t) m (n * 2 ^ (d - e).toNat)
    | _, _ => invalid) x y

/-- The remainder of the division toward zero, with the sign of the dividend. It
is exact. -/
def rem (x y : Binary k) : Binary k :=
  onNumbers (fun x y =>
    match x.datum, y.datum with
    | .finite _ _ _, .infinite _ => x
    | .finite s m e, .finite _ n d =>
      if n = 0 then invalid
      else
        let low := min e d
        let r := (m * 2 ^ (e - low).toNat) % (n * 2 ^ (d - low).toNat)
        ofScaled s r low
    | _, _ => invalid) x y

/-- A number that grows with the value, the same for both zeros. -/
def rank (x : Binary k) : Int :=
  signed x.negative x.magnitude

/-- The order of two numbers; there is none with a pattern that is no number. -/
def compare (x y : Binary k) : Option Ordering :=
  if x.isNan || y.isNan then none else some (Ord.compare x.rank y.rank)

def isZero (x : Binary k) : Bool := x.magnitude == 0

/-- The integer part, taken to the nearer end of `low … high` when outside it, and
zero for a pattern that is no number. -/
def truncate (low high : Int) (x : Binary k) : Int :=
  match x.datum with
  | .nan => 0
  | .infinite s => if s then low else high
  | .finite s m e =>
    let whole := if 0 ≤ e then m * 2 ^ e.toNat else m / 2 ^ (-e).toNat
    max low (min high (signed s whole))

/-- The nearest pattern of another kind. What is no number keeps its sign and the
upper part of its bits. -/
def convert (j : FloatKind) (x : Binary k) : Binary j :=
  match x.datum with
  | .nan =>
    let low := x.magnitude % 2 ^ k.fraction
    let low := if k.fraction ≤ j.fraction then low * 2 ^ (j.fraction - k.fraction)
      else low / 2 ^ (k.fraction - j.fraction)
    quiet (pack x.negative (j.infinity + low))
  | .infinite s => infinite s
  | .finite s m e => ofScaled s m e

end HostScript.Binary

import HostScript.Binary.Arith
import HostScript.Binary.Decimal
import HostScript.Text.Blank

/-! The number in a value, on the way from one kind to another.

Integers of every kind are one case, since their values are exact. `read` finds
the number a text holds: an integer of 64 bits, else a decimal fraction, and zero
if it holds neither. -/
namespace HostScript

inductive Number where
  | int (n : Int)
  | float (x : Binary .float64)
  deriving DecidableEq, Repr

namespace Number

attribute [local instance (high)] instPowNat

def digit? (c : Char) : Option Nat :=
  if '0' ≤ c ∧ c ≤ '9' then some (c.toNat - '0'.toNat) else none

/-- The value of a run of digits read onto `n`, and what follows the run. -/
def digits : List Char → Nat → Nat × List Char
  | [], n => (n, [])
  | c :: rest, n =>
    match digit? c with
    | some d => digits rest (10 * n + d)
    | none => (n, c :: rest)

/-- A text of nothing but digits, and at least one. -/
def nat? : List Char → Option Nat
  | [] => none
  | text =>
    match digits text 0 with
    | (n, []) => some n
    | _ => none

/-- A sign, if the text starts with one, and the rest. -/
def sign : List Char → Bool × List Char
  | '-' :: rest => (true, rest)
  | '+' :: rest => (false, rest)
  | text => (false, text)

/-- A text that is an integer of 64 bits, signed or not. -/
def int? (text : List Char) : Option Int :=
  let (negative, rest) := sign text
  (nat? rest).bind fun n =>
    if negative then (if n ≤ 2 ^ (63 : Nat) then some (-(n : Int)) else none)
    else if n < 2 ^ (64 : Nat) then some n else none

/-- What follows a mantissa: nothing, or an exponent. -/
def exponent? : List Char → Option Int
  | [] => some 0
  | 'e' :: rest | 'E' :: rest =>
    let (negative, rest) := sign rest
    (nat? rest).map fun n => if negative then -(n : Int) else n
  | _ => none

/-- Digits with a point among them and perhaps an exponent after them. -/
def decimal? (negative : Bool) (text : List Char) : Option (Binary .float64) :=
  let (whole, rest) := digits text 0
  let count := text.length - rest.length
  let (n, places, rest) :=
    match rest with
    | '.' :: fraction =>
      let (n, rest) := digits fraction whole
      (n, fraction.length - rest.length, rest)
    | rest => (whole, 0, rest)
  if count + places = 0 then none
  else (exponent? rest).map fun e => Binary.ofDecimal negative n (e - places)

/-- A text that is a decimal number, an infinity or the mark of no number. -/
def float? (text : List Char) : Option (Binary .float64) :=
  let (negative, rest) := sign text
  let word := String.ofList (rest.map Char.toLower)
  if word = "inf" ∨ word = "infinity" then some (Binary.infinite negative)
  else if word = "nan" then some (Binary.nan negative)
  else decimal? negative rest

/-- A text that holds no number reads as zero. -/
def read (text : List Char) : Number :=
  let text := Text.trim text
  match int? text with
  | some n => .int n
  | none =>
    match float? text with
    | some x => .float x
    | none => .int 0

def isNonzero : Number → Bool
  | .int n => n ≠ 0
  | .float x => !x.isZero

/-- The integer part, at most 127 bits wide. -/
def whole : Number → Int
  | .int n => n
  | .float x => x.truncate (-(2 ^ (127 : Nat))) (2 ^ (127 : Nat) - 1)

def double : Number → Binary .float64
  | .int n => Binary.ofInt n
  | .float x => x

/-- As an integer of a kind: integers wrap, fractions are cut off and numbers out of
range go to the nearer end. -/
def toWord (k : IntKind) : Number → BitVec k.bits
  | .int n => k.ofInt n
  | .float x => k.ofInt (x.truncate k.least k.greatest)

/-- As a floating-point number of a kind, rounded once. -/
def toFloat : (k : FloatKind) → Number → Binary k
  | _, .int n => Binary.ofInt n
  | .float64, .float x => x
  | .float32, .float x => x.convert .float32

end Number

end HostScript

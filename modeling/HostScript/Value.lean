import HostScript.Bytes
import HostScript.Number
import HostScript.Operator

/-! The values of a running script.

Every value but `nothing`, which a host gives back where it has nothing to give,
has a kind. A conversion never fails: integers wrap, floating-point numbers
saturate, and text that holds no number is zero. -/
namespace HostScript

/-- The number by which a host knows an object. Zero is `NULL`. -/
abbrev Pointer := BitVec 64

inductive Value where
  | nothing
  | int (k : IntKind) (word : Word k)
  | float (k : FloatKind) (x : Binary k)
  | bool (b : Bool)
  | string (s : String)
  | pointer (p : Pointer)
  deriving DecidableEq, Repr

namespace Value

def kind? : Value → Option Kind
  | .nothing => none
  | .int k _ => some (.int k)
  | .float k _ => some (.float k)
  | .bool _ => some .bool
  | .string _ => some .string
  | .pointer _ => some .pointer

/-- What a variable of the kind holds before anything is assigned to it. -/
def zero : Kind → Value
  | .int k => .int k 0
  | .float k => .float k (Binary.zero false)
  | .bool => .bool false
  | .string => .string ""
  | .pointer => .pointer 0

def number? : Value → Option Number
  | .int k word => some (.int (k.toInt word))
  | .float .float32 x => some (.float (x.convert .float64))
  | .float .float64 x => some (.float x)
  | .bool b => some (.int (if b then 1 else 0))
  | _ => none

def boolText (b : Bool) : String := if b then "true" else "false"

def intText (n : Int) : String :=
  String.ofList ((if n < 0 then ['-'] else []) ++ Nat.toDigits 10 n.natAbs)

def floatText : (k : FloatKind) → Binary k → String
  | .float32, x => String.ofList ((x.convert .float64).text shownFloat)
  | .float64, x => String.ofList (x.text shownFloat)

/-- A pointer as sixteen hexadecimal digits. -/
def pointerText (p : Pointer) : String :=
  let digits := Nat.toDigits 16 p.toNat
  String.ofList ("0x".toList ++ List.replicate (16 - digits.length) '0' ++ digits)

/-- The value as text, which is also its conversion to a string. -/
def text : Value → String
  | .nothing => ""
  | .int k word => intText (k.toInt word)
  | .float k x => floatText k x
  | .bool b => boolText b
  | .string s => s
  | .pointer p => pointerText p

def numberOrZero : Value → Number
  | .string s => Number.read s.toList
  | v => v.number?.getD (.int 0)

/-- The value as one of another kind. Only a pointer converts to a non-null pointer. -/
def cast (v : Value) (target : Kind) : Value :=
  if v.kind? = some target then v
  else
    match target with
    | .string => .string v.text
    | .bool =>
      match v with
      | .string s => .bool (s == "true")
      | v => .bool (v.number?.any Number.isNonzero)
    | .pointer => zero .pointer
    | .int k => .int k (v.numberOrZero.toWord k)
    | .float k => .float k (v.numberOrZero.toFloat k)

/-! ### Operators -/

/-- An operator on two numbers of one kind. Division by an integer zero is for the caller to
rule out. -/
def arith (op : ArithOp) : Value → Value → Option Value
  | .int j a, .int k b => if h : k = j then some (.int j (op.onWords a (h ▸ b))) else none
  | .float j x, .float k y => if h : k = j then (op.onFloats x (h ▸ y)).map (.float j) else none
  | _, _ => none

def isIntegerZero : Value → Bool
  | .int _ word => word == 0
  | _ => false

def negate : Value → Option Value
  | .int k word => some (.int k (-word))
  | .float k x => some (.float k x.neg)
  | _ => none

def complement : Value → Option Value
  | .int k word => some (.int k (~~~word))
  | _ => none

/-- The order of two values of one kind; the inner `none` is for numbers without one. -/
def compare? : Value → Value → Option (Option Ordering)
  | .int j a, .int k b => if j = k then some (some (compare (j.toInt a) (k.toInt b))) else none
  | .float j x, .float k y => if h : k = j then some (x.compare (h ▸ y)) else none
  | .bool a, .bool b => some (some (compare a b))
  | .string a, .string b => some (some (compare a b))
  | .pointer p, .pointer q => some (some (compare p.toNat q.toNat))
  | _, _ => none

/-! ### Bytes -/

/-- The bytes of a value in memory and in code, least significant first. Strings have none. -/
def bytes : Value → List UInt8
  | .int k word => Bytes.ofNat k.size word.toNat
  | .float k x => Bytes.ofNat k.size x.bits.toNat
  | .bool b => [if b then 1 else 0]
  | .pointer p => Bytes.ofNat 8 p.toNat
  | .string _ | .nothing => []

/-- The value of a kind that its bytes stand for; the empty string for strings. -/
def ofBytes (k : Kind) (bytes : List UInt8) : Value :=
  let n := Bytes.toNat bytes
  match k with
  | .int k => .int k (BitVec.ofNat _ n)
  | .float k => .float k ⟨BitVec.ofNat _ n⟩
  | .bool => .bool (n ≠ 0)
  | .string => .string ""
  | .pointer => .pointer (BitVec.ofNat _ n)

end Value

end HostScript

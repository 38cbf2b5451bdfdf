import HostScript.Primitive
import HostScript.Value

/-! Values known to the compiler.

A literal has a kind, or is a number that has none yet: `untypedInteger` as
written, `untypedSigned` once negated, `untypedFloat` with a fraction. Unlike a
running script the compiler refuses a conversion that would change a number. -/
namespace HostScript

inductive Literal where
  | int (k : IntKind) (word : Word k)
  | float (k : FloatKind) (x : Binary k)
  | bool (b : Bool)
  | string (s : String)
  | null
  | untypedSigned (word : Word .int64)
  | untypedInteger (word : Word .uint64)
  | untypedFloat (x : Binary .float64)
  deriving DecidableEq, Repr

/-- Why a literal does not convert. -/
inductive CastError where
  | outOfRange (value : Int) (bits : Nat) (signed : Bool)
  | incompatible (source target : Primitive)
  deriving DecidableEq, Repr

def CastError.message : CastError → String
  | .outOfRange value bits signed =>
    let word := if signed then "signed" else "unsigned"
    "A value of " ++ Value.intText value ++
      " is outside the range of numbers that can be represented by a " ++
      s!"{bits}-bit {word} integer."
  | .incompatible source target =>
    "A value of type " ++ source.name ++ " cannot be converted to " ++ target.name ++ "."

namespace Literal

def primitive : Literal → Primitive
  | .int k _ => .kind (.int k)
  | .float k _ => .kind (.float k)
  | .bool _ => .kind .bool
  | .string _ => .kind .string
  | .null => .kind .pointer
  | .untypedSigned _ => .untypedSigned
  | .untypedInteger _ => .untypedInteger
  | .untypedFloat _ => .untypedFloat

def type (l : Literal) : Ty := .prim l.primitive

def bool? : Literal → Option Bool
  | .bool b => some b
  | _ => none

/-- The value the literal has in a running script; a number without a kind takes 64 bits. -/
def value : Literal → Value
  | .int k word => .int k word
  | .float k x => .float k x
  | .bool b => .bool b
  | .string s => .string s
  | .null => .pointer 0
  | .untypedSigned word => .int .int64 word
  | .untypedInteger word => .int .uint64 word
  | .untypedFloat x => .float .float64 x

def text (l : Literal) : String := l.value.text

/-- The number of a kind that a number is, if it is in range. -/
def toWord (k : IntKind) (n : Number) : Except CastError (Word k) :=
  if k.least ≤ n.whole ∧ n.whole ≤ k.greatest then .ok (k.ofInt n.whole)
  else .error (.outOfRange n.whole k.bits k.signed)

/-- The number a literal holds, if it can hold one. -/
def number? : Literal → Option Number
  | .string s => some (Number.read s.toList)
  | l => l.value.number?

/-- The literal as one of another primitive. To `float32` a number goes by way of `float64`. -/
def cast (l : Literal) (target : Primitive) : Except CastError Literal :=
  let refused := CastError.incompatible l.primitive target
  if l.primitive = target then .ok l
  else
    match target, l with
    | .kind .string, l => .ok (.string l.text)
    | .kind .bool, .string s => .ok (.bool (s == "true"))
    | target, l =>
      match l.number? with
      | none => .error refused
      | some n =>
        match target with
        | .kind .bool => .ok (.bool n.isNonzero)
        | .kind (.int k) => (toWord k n).map (.int k)
        | .kind (.float .float32) => .ok (.float .float32 (n.double.convert .float32))
        | .kind (.float .float64) => .ok (.float .float64 n.double)
        | .untypedSigned => (toWord .int64 n).map .untypedSigned
        | .untypedInteger => (toWord .uint64 n).map .untypedInteger
        | .untypedFloat => .ok (.untypedFloat n.double)
        | _ => .error refused

end Literal

end HostScript

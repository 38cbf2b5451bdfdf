import HostScript.Binary.Arith

/-! Operators, and what they do to numbers.

The same functions serve constants and running scripts, so that an expression
means the same in both. Integers wrap at their width, division goes toward zero,
and a shift takes its distance modulo the width. -/
namespace HostScript

abbrev Word (k : IntKind) := BitVec k.bits

inductive ArithOp where
  | add | sub | mul | div | mod | and | or | xor | shl | shr
  deriving DecidableEq, Repr

inductive CompareOp where
  | eq | ne | lt | le | gt | ge
  deriving DecidableEq, Repr

inductive BinaryOp where
  | arith (op : ArithOp)
  | compare (op : CompareOp)
  | and
  | or
  /-- The left pointer, or the right one where the left is `NULL`. -/
  | coalesce
  deriving DecidableEq, Repr

inductive UnaryOp where
  | negate | not | complement
  deriving DecidableEq, Repr

namespace ArithOp

def isBitwise : ArithOp → Bool
  | .and | .or | .xor | .shl | .shr => true
  | _ => false

/-- Operators that have no result for a zero on the right. -/
def divides : ArithOp → Bool
  | .div | .mod => true
  | _ => false

def symbol : ArithOp → String
  | .add => "+"
  | .sub => "-"
  | .mul => "*"
  | .div => "/"
  | .mod => "%"
  | .and => "&"
  | .or => "|"
  | .xor => "^"
  | .shl => "<<"
  | .shr => ">>"

def onWords (op : ArithOp) {k : IntKind} (a b : Word k) : Word k :=
  match op with
  | .add => a + b
  | .sub => a - b
  | .mul => a * b
  | .div => if k.signed then a.sdiv b else a.udiv b
  | .mod => if k.signed then a.srem b else a.umod b
  | .and => a &&& b
  | .or => a ||| b
  | .xor => a ^^^ b
  | .shl => a <<< (b.toNat % k.bits)
  | .shr => if k.signed then a.sshiftRight (b.toNat % k.bits) else a >>> (b.toNat % k.bits)

/-- Floating-point numbers have no bitwise operators. -/
def onFloats (op : ArithOp) {k : FloatKind} (x y : Binary k) : Option (Binary k) :=
  match op with
  | .add => some (x.add y)
  | .sub => some (x.sub y)
  | .mul => some (x.mul y)
  | .div => some (x.div y)
  | .mod => some (x.rem y)
  | _ => none

end ArithOp

namespace CompareOp

def symbol : CompareOp → String
  | .eq => "=="
  | .ne => "!="
  | .lt => "<"
  | .le => "<="
  | .gt => ">"
  | .ge => ">="

/-- All but equality and inequality. -/
def isOrdering : CompareOp → Bool
  | .eq | .ne => false
  | _ => true

/-- Whether the comparison holds of operands in this order. Without an order
only inequality does. -/
def holds (op : CompareOp) (order : Option Ordering) : Bool :=
  match op, order with
  | .eq, some .eq => true
  | .ne, some .eq => false
  | .ne, _ => true
  | .lt, some .lt => true
  | .le, some .lt | .le, some .eq => true
  | .gt, some .gt => true
  | .ge, some .gt | .ge, some .eq => true
  | _, _ => false

end CompareOp

namespace BinaryOp

def symbol : BinaryOp → String
  | .arith op => op.symbol
  | .compare op => op.symbol
  | .and => "&&"
  | .or => "||"
  | .coalesce => "??"

/-- How tightly an operator binds; higher binds first. -/
def precedence : BinaryOp → Nat
  | .coalesce => 1
  | .or => 2
  | .and => 3
  | .arith .or => 4
  | .arith .xor => 5
  | .arith .and => 6
  | .compare .eq | .compare .ne => 7
  | .compare _ => 8
  | .arith .shl | .arith .shr => 9
  | .arith .add | .arith .sub => 10
  | .arith _ => 11

end BinaryOp

def UnaryOp.symbol : UnaryOp → String
  | .negate => "-"
  | .not => "!"
  | .complement => "~"

end HostScript

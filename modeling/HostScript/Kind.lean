/-! The kinds of values a running script handles.

A kind says how a value is stored: integers and floating-point numbers of a
fixed width, booleans in one byte, pointers in eight, and strings in slots of
their own. In code a kind is one byte. -/
namespace HostScript

inductive IntKind where
  | int8 | int16 | int32 | int64 | uint8 | uint16 | uint32 | uint64
  deriving DecidableEq, Repr

namespace IntKind

-- powers are those of core
attribute [local instance (high)] instPowNat

/-- Width in bytes. -/
def size : IntKind → Nat
  | .int8 | .uint8 => 1
  | .int16 | .uint16 => 2
  | .int32 | .uint32 => 4
  | .int64 | .uint64 => 8

abbrev bits (k : IntKind) : Nat := 8 * k.size

def signed : IntKind → Bool
  | .int8 | .int16 | .int32 | .int64 => true
  | .uint8 | .uint16 | .uint32 | .uint64 => false

def name : IntKind → String
  | .int8 => "int8"
  | .int16 => "int16"
  | .int32 => "int32"
  | .int64 => "int64"
  | .uint8 => "uint8"
  | .uint16 => "uint16"
  | .uint32 => "uint32"
  | .uint64 => "uint64"

def least (k : IntKind) : Int :=
  if k.signed then -(2 ^ (k.bits - 1)) else 0

def greatest (k : IntKind) : Int :=
  if k.signed then 2 ^ (k.bits - 1) - 1 else 2 ^ k.bits - 1

/-- The number a word of the kind stands for. -/
def toInt (k : IntKind) (word : BitVec k.bits) : Int :=
  if k.signed then word.toInt else word.toNat

/-- The word of the kind that agrees with a number modulo the width. -/
def ofInt (k : IntKind) (n : Int) : BitVec k.bits :=
  BitVec.ofInt k.bits n

end IntKind

inductive FloatKind where
  | float32 | float64
  deriving DecidableEq, Repr

namespace FloatKind

/-- Width in bytes. -/
def size : FloatKind → Nat
  | .float32 => 4
  | .float64 => 8

abbrev bits (k : FloatKind) : Nat := 8 * k.size

def name : FloatKind → String
  | .float32 => "float32"
  | .float64 => "float64"

end FloatKind

inductive Kind where
  | int (k : IntKind)
  | float (k : FloatKind)
  | bool
  | string
  | pointer
  deriving DecidableEq, Repr

namespace Kind

def name : Kind → String
  | .int k => k.name
  | .float k => k.name
  | .bool => "bool"
  | .string => "string"
  | .pointer => "pointer"

/-- Bytes taken in primitive memory. A string takes a slot of the string table instead. -/
def size : Kind → Nat
  | .int k => k.size
  | .float k => k.size
  | .bool => 1
  | .string => 0
  | .pointer => 8

def isInteger : Kind → Bool
  | .int _ => true
  | _ => false

/-- The byte that stands for a kind in code. -/
def code : Kind → UInt8
  | .int .int8 => 1
  | .int .int16 => 2
  | .int .int32 => 3
  | .int .int64 => 4
  | .int .uint8 => 5
  | .int .uint16 => 6
  | .int .uint32 => 7
  | .int .uint64 => 8
  | .float .float32 => 9
  | .float .float64 => 10
  | .bool => 11
  | .string => 12
  | .pointer => 13

def ofCode? (b : UInt8) : Option Kind :=
  match b.toNat with
  | 1 => some (.int .int8)
  | 2 => some (.int .int16)
  | 3 => some (.int .int32)
  | 4 => some (.int .int64)
  | 5 => some (.int .uint8)
  | 6 => some (.int .uint16)
  | 7 => some (.int .uint32)
  | 8 => some (.int .uint64)
  | 9 => some (.float .float32)
  | 10 => some (.float .float64)
  | 11 => some .bool
  | 12 => some .string
  | 13 => some .pointer
  | _ => none

theorem ofCode?_code (k : Kind) : ofCode? k.code = some k := by
  cases k with
  | int k => cases k <;> rfl
  | float k => cases k <;> rfl
  | bool => rfl
  | string => rfl
  | pointer => rfl

end Kind

end HostScript

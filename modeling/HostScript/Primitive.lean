import HostScript.Kind

/-! What the compiler knows about a value before the script runs.

A `Primitive` is the kind of a value, or one of the things that have no kind: the
result of a function that returns nothing, and number literals that take their
kind from where they stand. A `Ty` is a primitive or the name of a declared
object type; values of object types are pointers, and the bare pointer is the
type of `NULL`. -/
namespace HostScript

inductive Primitive where
  | kind (k : Kind)
  | void
  /-- A negative number literal, or one computed from such. -/
  | untypedSigned
  /-- An integer literal. -/
  | untypedInteger
  /-- A literal with a fraction. -/
  | untypedFloat
  | uninitialized
  /-- What a rejected expression has in place of a type. -/
  | invalid
  deriving DecidableEq, Repr

namespace Primitive

def name : Primitive → String
  | .kind k => k.name
  | .void => "void"
  | .untypedSigned => "signed integer"
  | .untypedInteger => "integer"
  | .untypedFloat => "floating point"
  | .uninitialized => "uninitialized"
  | .invalid => "invalid type"

/-- The primitives a script can name. -/
def ofKeyword? : String → Option Primitive
  | "int8" => some (.kind (.int .int8))
  | "int16" => some (.kind (.int .int16))
  | "int32" => some (.kind (.int .int32))
  | "int64" => some (.kind (.int .int64))
  | "uint8" => some (.kind (.int .uint8))
  | "uint16" => some (.kind (.int .uint16))
  | "uint32" => some (.kind (.int .uint32))
  | "uint64" => some (.kind (.int .uint64))
  | "float32" => some (.kind (.float .float32))
  | "float64" => some (.kind (.float .float64))
  | "bool" => some (.kind .bool)
  | "string" => some (.kind .string)
  | "void" => some .void
  | _ => none

/-- The kind of values of this primitive, if they can be stored, passed and written in code. -/
def kind? : Primitive → Option Kind
  | .kind k => some k
  | _ => none

def isUntyped : Primitive → Bool
  | .untypedSigned | .untypedInteger | .untypedFloat => true
  | _ => false

def isSignedInteger : Primitive → Bool
  | .kind (.int k) => k.signed
  | _ => false

def isUnsignedInteger : Primitive → Bool
  | .kind (.int k) => !k.signed
  | _ => false

def isFloat : Primitive → Bool
  | .kind (.float _) => true
  | _ => false

/-- Integers of any kind, literals included. -/
def isInteger : Primitive → Bool
  | .kind (.int _) | .untypedSigned | .untypedInteger => true
  | _ => false

def isNumeric : Primitive → Bool
  | .kind (.int _) | .kind (.float _) | .untypedSigned | .untypedInteger | .untypedFloat => true
  | _ => false

/-- Width in bits, 64 for what has none of its own. -/
def bits : Primitive → Nat
  | .kind (.int k) => k.bits
  | .kind (.float k) => k.bits
  | _ => 64

/-- Bytes taken in primitive memory. -/
def size : Primitive → Nat
  | .kind k => k.size
  | _ => 0

/-- The primitive of an operator applied to operands of two primitives, if they
combine: equal ones do, and a literal takes the kind of the other side when that
kind can hold it. -/
def reconcile (l r : Primitive) : Option Primitive :=
  if l = r then some l
  else if !l.isNumeric || !r.isNumeric then none
  else
    match l.isUntyped, r.isUntyped with
    | true, true =>
      if l = .untypedFloat ∨ r = .untypedFloat then some .untypedFloat else some .untypedSigned
    | false, false => none
    | false, true => settle l r
    | true, false => settle r l
where
  /-- A number kind against a literal of another primitive. -/
  settle (concrete literal : Primitive) : Option Primitive :=
    if concrete.isFloat then some concrete
    else if concrete.isSignedInteger then
      if literal = .untypedFloat then none else some concrete
    else if literal = .untypedInteger then some concrete
    else none

end Primitive

/-- A primitive, or a declared object type by its name. -/
inductive Ty where
  | prim (p : Primitive)
  | object (name : String)
  deriving DecidableEq, Repr

namespace Ty

/-- The type of `NULL`. -/
@[match_pattern] abbrev null : Ty := .prim (.kind .pointer)

@[match_pattern] abbrev bool : Ty := .prim (.kind .bool)

@[match_pattern] abbrev string : Ty := .prim (.kind .string)

def primitive : Ty → Primitive
  | .prim p => p
  | .object _ => .kind .pointer

def name : Ty → String
  | .object name => name
  | .null => "NULL"
  | .prim p => p.name

end Ty

end HostScript

import HostScript.Code.Opcode
import HostScript.Text.Utf8
import HostScript.Value

/-! Why a running script halts.

Code from anywhere can be run, so everything in it that makes no sense is a fault of
its own, with the byte it was found at. The other faults are for what only a run can
show: the host gave back something else than declared, it does not do what is asked,
a script reached through `NULL`, or it divided by zero. -/
namespace HostScript

namespace Value

/-- A character of a text in quotes. -/
def quotedChar (c : Char) : String :=
  if c = '"' then "\\\""
  else if c = '\\' then "\\\\"
  else if c = '\n' then "\\n"
  else if c = '\r' then "\\r"
  else if c = '\t' then "\\t"
  else if c.toNat = 0 then "\\0"
  else if c.toNat < 32 ∨ (127 ≤ c.toNat ∧ c.toNat < 160) then
    "\\u\x7b" ++ String.ofList (Nat.toDigits 16 c.toNat) ++ "\x7d"
  else String.singleton c

def quotedText (s : String) : String :=
  "\"" ++ String.join (s.toList.map quotedChar) ++ "\""

/-- A value with its kind, as faults show it. -/
def shown : Value → String
  | .nothing => "Uninitialized"
  | .int k word => (if k.signed then "Int" else "UInt") ++ toString k.bits ++ "(" ++
      intText (k.toInt word) ++ ")"
  | .float k x => "Float" ++ toString k.bits ++ "(" ++ floatText k x ++ ")"
  | .bool b => "Bool(" ++ boolText b ++ ")"
  | .string s => "String(Owned(" ++ quotedText s ++ "))"
  | .pointer p => "Pointer(Pointer(" ++ intText p.toNat ++ "))"

end Value

/-- What is wrong with code. -/
inductive Malformed where
  | noHeader
  | endOfCode
  | unknownOpcode (byte : UInt8)
  | unknownKind (byte : UInt8)
  | unterminatedText
  | invalidText (fault : Utf8.Fault)
  | noSlot (index : Nat)
  | noAddress (address : Nat)
  | storeOfNothing
  | notBool (got : Value)
  | notPointer (got : Value)
  | negation
  | complement
  | incomparable (k : Kind)
  | inapplicable (op : Opcode) (k : Kind)
  | notExpression (op : Opcode)
  | notStatement (op : Opcode)
  | jumpBeforeStart
  deriving DecidableEq, Repr

def Malformed.message : Malformed → String
  | .noHeader => "missing header"
  | .endOfCode => "unexpected end of bytecode"
  | .unknownOpcode byte => "unrecognized opcode " ++ toString byte.toNat
  | .unknownKind byte => "unrecognized data type " ++ toString byte.toNat
  | .unterminatedText => "unterminated string"
  | .invalidText fault => "invalid string: " ++ fault.message
  | .noSlot index => s!"string index {index} out of range"
  | .noAddress address => s!"address {address} out of range"
  | .storeOfNothing => "cannot store an uninitialized value"
  | .notBool got => "expected bool, got " ++ got.shown
  | .notPointer got => "expected pointer, got " ++ got.shown
  | .negation => "negation of a non-numeric value"
  | .complement => "bitwise negation of a non-integer value"
  | .incomparable k => "cannot compare " ++ k.name
  | .inapplicable op k => op.name ++ " cannot be applied to " ++ k.name
  | .notExpression op => op.name ++ " is not an expression"
  | .notStatement op => op.name ++ " is not a statement"
  | .jumpBeforeStart => "jump before start of program"

/-- What a host must do for scripts that ask for it. -/
inductive Service where
  | invokeFunction
  | invokeSubscript
  | assignProperty
  | assignSubscript
  deriving DecidableEq, Repr

def Service.name : Service → String
  | .invokeFunction => "invoke_function"
  | .invokeSubscript => "invoke_subscript"
  | .assignProperty => "assign_property"
  | .assignSubscript => "assign_subscript"

inductive Fault where
  | malformed (position : Nat) (reason : Malformed)
  | wrongReturn (expected : Kind) (found : Option Kind)
  | missing (service : Service)
  | subscriptOfNull
  | memberOfNull
  | divisionByZero
  deriving DecidableEq, Repr

def Fault.message : Fault → String
  | .malformed position reason =>
    s!"malformed bytecode at byte {position}: " ++ reason.message
  | .wrongReturn expected found =>
    "return value type mismatch: expected " ++ expected.name ++ ", got " ++
      (found.map Kind.name).getD "nothing"
  | .missing service => "missing callback: " ++ service.name
  | .subscriptOfNull => "subscript invoked on NULL"
  | .memberOfNull => "function or property invoked on NULL"
  | .divisionByZero => "integer division by zero"

end HostScript

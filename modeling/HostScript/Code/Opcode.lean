import HostScript.Operator

/-! The instructions of compiled scripts.

An instruction is one byte followed by its operands: bytes of its own, and the
codes of the expressions it works on, one after the other. -/
namespace HostScript

inductive Opcode where
  /-- A jump that was never filled in. -/
  | placeholder
  | noOp
  | literal
  | literalTrue
  | literalFalse
  | literalNull
  | variable
  | arith (op : ArithOp)
  | negate
  | concat
  | complement
  | and
  | or
  | not
  | compare (op : CompareOp)
  | ternary
  | coalesce
  | typecast
  | call
  /-- A call whose result is not used. -/
  | callUnused
  | subscript
  | assign
  | assignProperty
  | assignSubscript
  | conditional
  | forward
  | back
  | exit
  | metadata
  | debugLine
  | debugUpdate
  | debugDelete
  deriving DecidableEq, Repr

namespace Opcode

def code : Opcode → UInt8
  | .placeholder => 0
  | .noOp => 1
  | .literal => 2
  | .literalTrue => 3
  | .literalFalse => 4
  | .literalNull => 5
  | .variable => 6
  | .arith .add => 7
  | .arith .sub => 8
  | .arith .mul => 9
  | .arith .div => 10
  | .arith .mod => 11
  | .negate => 12
  | .concat => 13
  | .arith .and => 14
  | .arith .or => 15
  | .arith .xor => 16
  | .complement => 17
  | .arith .shl => 18
  | .arith .shr => 19
  | .and => 20
  | .or => 21
  | .not => 22
  | .compare .eq => 23
  | .compare .ne => 24
  | .compare .lt => 25
  | .compare .le => 26
  | .compare .gt => 27
  | .compare .ge => 28
  | .ternary => 29
  | .coalesce => 30
  | .typecast => 31
  | .call => 32
  | .callUnused => 33
  | .subscript => 34
  | .assign => 35
  | .assignProperty => 36
  | .assignSubscript => 37
  | .conditional => 38
  | .forward => 39
  | .back => 40
  | .exit => 41
  | .metadata => 42
  | .debugLine => 43
  | .debugUpdate => 44
  | .debugDelete => 45

def ofCode? (b : UInt8) : Option Opcode :=
  match b.toNat with
  | 0 => some .placeholder
  | 1 => some .noOp
  | 2 => some .literal
  | 3 => some .literalTrue
  | 4 => some .literalFalse
  | 5 => some .literalNull
  | 6 => some .variable
  | 7 => some (.arith .add)
  | 8 => some (.arith .sub)
  | 9 => some (.arith .mul)
  | 10 => some (.arith .div)
  | 11 => some (.arith .mod)
  | 12 => some .negate
  | 13 => some .concat
  | 14 => some (.arith .and)
  | 15 => some (.arith .or)
  | 16 => some (.arith .xor)
  | 17 => some .complement
  | 18 => some (.arith .shl)
  | 19 => some (.arith .shr)
  | 20 => some .and
  | 21 => some .or
  | 22 => some .not
  | 23 => some (.compare .eq)
  | 24 => some (.compare .ne)
  | 25 => some (.compare .lt)
  | 26 => some (.compare .le)
  | 27 => some (.compare .gt)
  | 28 => some (.compare .ge)
  | 29 => some .ternary
  | 30 => some .coalesce
  | 31 => some .typecast
  | 32 => some .call
  | 33 => some .callUnused
  | 34 => some .subscript
  | 35 => some .assign
  | 36 => some .assignProperty
  | 37 => some .assignSubscript
  | 38 => some .conditional
  | 39 => some .forward
  | 40 => some .back
  | 41 => some .exit
  | 42 => some .metadata
  | 43 => some .debugLine
  | 44 => some .debugUpdate
  | 45 => some .debugDelete
  | _ => none

theorem ofCode?_code (op : Opcode) : ofCode? op.code = some op := by
  cases op with
  | arith op => cases op <;> rfl
  | compare op => cases op <;> rfl
  | _ => rfl

def name : Opcode → String
  | .placeholder => "placeholder"
  | .noOp => "no_op"
  | .literal => "literal"
  | .literalTrue => "literal_true"
  | .literalFalse => "literal_false"
  | .literalNull => "literal_null"
  | .variable => "variable"
  | .arith .add => "add"
  | .arith .sub => "subtract"
  | .arith .mul => "multiply"
  | .arith .div => "divide"
  | .arith .mod => "modulo"
  | .negate => "numeric_negation"
  | .concat => "concat"
  | .arith .and => "bitwise_and"
  | .arith .or => "bitwise_or"
  | .arith .xor => "bitwise_xor"
  | .complement => "bitwise_negation"
  | .arith .shl => "bitwise_shift_left"
  | .arith .shr => "bitwise_shift_right"
  | .and => "logical_and"
  | .or => "logical_or"
  | .not => "logical_negation"
  | .compare .eq => "logical_equality"
  | .compare .ne => "logical_inequality"
  | .compare .lt => "less_than"
  | .compare .le => "less_than_or_equal"
  | .compare .gt => "greater_than"
  | .compare .ge => "greater_than_or_equal"
  | .ternary => "ternary_conditional"
  | .coalesce => "null_coalescing"
  | .typecast => "typecast"
  | .call => "function_invocation"
  | .callUnused => "unused_return_function_invocation"
  | .subscript => "subscript_invocation"
  | .assign => "assign"
  | .assignProperty => "assign_property"
  | .assignSubscript => "assign_subscript"
  | .conditional => "conditional"
  | .forward => "cursor_move_forward"
  | .back => "cursor_move_back"
  | .exit => "program_exit"
  | .metadata => "metadata"
  | .debugLine => "debug_line"
  | .debugUpdate => "debug_update_variable"
  | .debugDelete => "debug_delete_variable"

/-- The instruction of an operator between two expressions. -/
def ofBinary : BinaryOp → Opcode
  | .arith op => .arith op
  | .compare op => .compare op
  | .and => .and
  | .or => .or
  | .coalesce => .coalesce

end Opcode

/-- Bytes before the code: the size of primitive memory and the number of string slots. -/
def headerSize : Nat := 4

/-- The most bytes, header included, that jumps of 16 bits can move in. -/
def maxCodeSize : Nat := 65536

end HostScript

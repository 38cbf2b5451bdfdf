import HostScript.Script.Tree

/-! Operators in a row.

A chain is a first operand and further ones, each behind its operator. Its tree
is built from left to right with the left sides still open on a stack, tighter
ones on top: an operator first closes those that bind at least as tightly. So
operators of one precedence group to the left. -/
namespace HostScript.Chain

/-- An operator applied to both its operands. -/
def join (op : BinaryOp) (left right : Expr) : Expr :=
  .binary (left.span.join right.span) op left right

/-- Closes the open left sides whose operators bind at least as tightly as `level`. -/
def close (level : Nat) : List (Expr × BinaryOp) → Expr → List (Expr × BinaryOp) × Expr
  | (left, op) :: rest, right =>
    if level ≤ op.precedence then close level rest (join op left right)
    else ((left, op) :: rest, right)
  | [], right => ([], right)

def build : List (Expr × BinaryOp) → Expr → List (BinaryOp × Expr) → Expr
  | stack, last, [] => (close 0 stack last).2
  | stack, last, (op, next) :: rest =>
    let (stack, left) := close op.precedence stack last
    build ((left, op) :: stack) next rest

def tree (first : Expr) (rest : List (BinaryOp × Expr)) : Expr := build [] first rest

/-- An operator or a cast in front of an operand. -/
inductive Front where
  | op (span : Span) (op : UnaryOp)
  | cast (span : Span) (type : TypeRef)

/-- An operand behind what stands in front of it, which applies from the inside out. -/
def front (fronts : List Front) (operand : Expr) : Expr :=
  fronts.foldr (fun f e =>
    match f with
    | .op span op => .unary (span.join e.span) op e
    | .cast span type => .cast (span.join e.span) type e) operand

end HostScript.Chain

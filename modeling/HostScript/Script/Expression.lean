import HostScript.Script.Chain
import HostScript.Script.Lexeme

/-! The grammar of expressions.

Each part takes the reader of nested expressions as an argument; `expression` ties
the knot. A nested expression stands behind at least one character of its own, so
as many levels as the text has characters are enough. -/
namespace HostScript.Grammar

open Reader Lexeme

/-! ### Operators -/

/-- A type in parentheses in front of an operand. After a name there is no cast of a
negated operand: `(x) - 1` is a difference. -/
def typecast : Reader Chain.Front := rule do
  let (span, type) ← spanned <| orElse
    (do
      sym "("
      let type ← primitiveType
      skip
      lit ")"
      return type)
    (do
      sym "("
      let name ← identifier
      skip
      sym ")"
      notBefore "-"
      return ⟨.object name.name, name.span⟩)
  return .cast span type

def unaryOp (op : UnaryOp) : Reader Chain.Front := rule do
  let (span, _) ← spanned (lit op.symbol)
  return .op span op

def front : Reader Chain.Front :=
  choice [typecast, unaryOp .negate, unaryOp .not, unaryOp .complement]

/-- The order matters where one symbol starts another. -/
def binaryOps : List BinaryOp :=
  [.coalesce, .or, .and, .arith .or, .arith .xor, .arith .and, .compare .eq, .compare .ne,
    .arith .shl, .arith .shr, .compare .le, .compare .ge, .compare .lt, .compare .gt, .arith .add,
    .arith .sub, .arith .mul, .arith .div, .arith .mod]

def binaryOp : Reader BinaryOp :=
  choice (binaryOps.map fun op => rule (do lit op.symbol; return op))

/-! ### Objects -/

section Nested
variable (fuel : Nat) (expression : Reader Expr)

def arguments : Reader (List Expr) := rule do
  let first ← expression
  skip
  let rest ← many fuel (do sym ","; expression)
  return first :: rest

def call : Reader Access := rule do
  let (span, name, args) ← spanned do
    let name ← identifier
    skip
    sym "("
    let args ← optional (arguments fuel expression)
    skip
    lit ")"
    return (name, args.getD [])
  return .call span name args

def access : Reader Access :=
  orElse (call fuel expression) (rule (do let name ← identifier; return .name name))

/-- What follows an object in a chain. -/
inductive Suffix where
  | member (access : Access)
  | index (index : Expr)

def suffix : Reader (Span × Suffix) :=
  orElse
    (rule (spanned (do sym "."; let a ← access fuel expression; return .member a)))
    (rule (spanned (do sym "["; let e ← expression; skip; lit "]"; return .index e)))

def extend (object : Object) : Span × Suffix → Object
  | (span, .member a) => .member (object.span.join span) object a
  | (span, .index e) => .index (object.span.join span) object e

def object : Reader Object := rule do
  let root ← access fuel expression
  skip
  let suffixes ← many fuel (suffix fuel expression)
  return suffixes.foldl extend (.root root)

/-! ### Operands -/

def parens : Reader Expr := rule do
  let (span, inner) ← spanned do
    sym "("
    let inner ← expression
    skip
    lit ")"
    return inner
  return .parens span inner

def objectExpr : Reader Expr := do
  let (span, object) ← spanned (object fuel expression)
  return .object span object

def primary : Reader Expr :=
  choice [floatLiteral, intLiteral, stringLiteral, constant "true" (.bool true),
    constant "false" (.bool false), constant "NULL" .null, parens expression,
    objectExpr fuel expression]

def operand : Reader Expr := do
  let fronts ← many fuel front
  skip
  let e ← primary fuel expression
  return Chain.front fronts e

def binary : Reader Expr := rule do
  let first ← operand fuel expression
  skip
  let rest ← many fuel do
    let op ← binaryOp
    skip
    let e ← operand fuel expression
    return (op, e)
  return Chain.tree first rest

/-- A chain of operators, perhaps as the condition of a choice between two values. -/
def ternary : Reader Expr := rule do
  let (span, condition, choices) ← spanned do
    let condition ← binary fuel expression
    skip
    let choices ← optional do
      sym "?"
      let yes ← expression
      skip
      sym ":"
      let no ← expression
      return (yes, no)
    return (condition, choices)
  match choices with
  | some (yes, no) => return .ternary span condition yes no
  | none => return condition

end Nested

def expression : Nat → Reader Expr
  | 0 => fail
  | fuel + 1 => ternary fuel (expression fuel)

end HostScript.Grammar

import HostScript.Compile.Report

/-! Expressions that are known before the script runs.

An expression made of literals is computed once, with the operators that running
scripts use. Numbers that have no kind yet are computed exactly and refused when
the result needs more than 64 bits. -/
namespace HostScript

/-- The exact result of an operator on whole numbers. Shifts work within 128 bits. -/
def ArithOp.onIntegers? (op : ArithOp) (a b : Int) : Option Int :=
  match op with
  | .add => some (a + b)
  | .sub => some (a - b)
  | .mul => some (a * b)
  | .div => some (a.tdiv b)
  | .mod => some (a.tmod b)
  | .and => some (wide a &&& wide b).toInt
  | .or => some (wide a ||| wide b).toInt
  | .xor => some (wide a ^^^ wide b).toInt
  | .shl => if 0 ≤ b ∧ b < 128 then some (wide a <<< b.toNat).toInt else none
  | .shr => if 0 ≤ b ∧ b < 128 then some ((wide a).sshiftRight b.toNat).toInt else none
where
  wide (n : Int) : BitVec 128 := BitVec.ofInt 128 n

namespace Literal

/-- A whole number without a kind: as written if it is not negative. -/
def ofInteger? (n : Int) : Option Literal :=
  if n < 0 then
    if IntKind.least .int64 ≤ n then some (.untypedSigned (IntKind.ofInt .int64 n)) else none
  else if n ≤ IntKind.greatest .uint64 then some (.untypedInteger (IntKind.ofInt .uint64 n))
  else none

/-- The whole number of a literal without a kind. -/
def integer? : Literal → Option Int
  | .untypedSigned word => some (IntKind.toInt .int64 word)
  | .untypedInteger word => some (IntKind.toInt .uint64 word)
  | _ => none

/-- An operator on numbers of one kind, and on fractions without one. -/
def arith (op : ArithOp) : Literal → Literal → Option Literal
  | .int j a, .int k b => if h : k = j then some (.int j (op.onWords a (h ▸ b))) else none
  | .float j x, .float k y => if h : k = j then (op.onFloats x (h ▸ y)).map (.float j) else none
  | .untypedFloat x, .untypedFloat y => (op.onFloats x y).map .untypedFloat
  | _, _ => none

def unary? : UnaryOp → Literal → Option Literal
  | .not, .bool b => some (.bool !b)
  | .negate, .int k word => if k.signed then some (.int k (-word)) else none
  | .negate, .float k x => some (.float k x.neg)
  | .negate, .untypedFloat x => some (.untypedFloat x.neg)
  | .negate, .untypedSigned word => signed? (-(IntKind.toInt .int64 word))
  | .negate, .untypedInteger word => signed? (-(IntKind.toInt .uint64 word))
  | .complement, .int k word => some (.int k (~~~word))
  | .complement, .untypedSigned word => some (.untypedSigned (~~~word))
  | _, _ => none
where
  signed? (n : Int) : Option Literal :=
    if IntKind.least .int64 ≤ n ∧ n ≤ IntKind.greatest .int64 then
      some (.untypedSigned (IntKind.ofInt .int64 n))
    else none

/-- The order of two literals of one primitive, if they have one. -/
def order (l r : Literal) : Option Ordering := (l.value.compare? r.value).join

end Literal

namespace Fold

/-- Both operands as literals of the primitive they combine to. -/
def operands (span : Span) (l r : Literal) : Check (Option (Literal × Literal)) := do
  match l.primitive.reconcile r.primitive with
  | none => return none
  | some p =>
    let some l ← Check.converted span (l.cast p) | return none
    let some r ← Check.converted span (r.cast p) | return none
    return some (l, r)

def comparison (op : CompareOp) (l r : Literal) : Option Literal :=
  if op.isOrdering && !l.primitive.isNumeric then none else some (.bool (op.holds (l.order r)))

/-- An operator on literals of one primitive. -/
def arithmetic (span : Span) (op : ArithOp) (l r : Literal) : Check (Option Literal) := do
  if op.divides && l.primitive.isInteger && !(r.value.number?.any Number.isNonzero) then
    Check.refuse span .divisionByZero
  else
    match l.integer?, r.integer? with
    | some a, some b =>
      match (op.onIntegers? a b).bind Literal.ofInteger? with
      | some l => return some l
      | none => Check.refuse span .constantTooLarge
    | _, _ => return l.arith op r

def binary (span : Span) (op : BinaryOp) (l r : Literal) : Check (Option Literal) := do
  match op, l, r with
  | .arith .add, .string s, .string t => return some (.string (s ++ t))
  | .arith op, l, r =>
    let some (l, r) ← operands span l r | return none
    arithmetic span op l r
  | .compare op, l, r =>
    let some (l, r) ← operands span l r | return none
    return comparison op l r
  | .coalesce, l, r => return if l = .null then some r else none
  | _, _, _ => return none

/-- `&&` and `||`. The value `decisive` settles the result from either side; the right operand
is not looked at when the left one has it. -/
def logical (decisive : Bool) (left right : Check (Option Literal)) : Check (Option Literal) := do
  let l := (← left).bind Literal.bool?
  if l = some decisive then return some (.bool decisive)
  let r := (← right).bind Literal.bool?
  if r = some decisive then return some (.bool decisive)
  return if l.isSome && r.isSome then some (.bool !decisive) else none

end Fold

/-- The literal that an expression is, if it is known; what makes it impossible to compute is
reported. -/
def fold : Expr → Check (Option Literal)
  | .literal _ value => return some value
  | .object _ _ => return none
  | .parens _ inner => fold inner
  | .cast span type operand => do
    let some value ← fold operand | return none
    if value.primitive = .kind .pointer ∨ type.type.primitive = .kind .pointer then return none
    Check.converted span (value.cast type.type.primitive)
  | .unary _ op operand => do
    let some value ← fold operand | return none
    return value.unary? op
  | .binary span op left right => do
    match op with
    | .and => Fold.logical false (fold left) (fold right)
    | .or => Fold.logical true (fold left) (fold right)
    | op =>
      let some l ← fold left | return none
      let some r ← fold right | return none
      Fold.binary span op l r
  | .ternary _ condition yes no => do
    match (← fold condition).bind Literal.bool? with
    | some true => fold yes
    | some false => fold no
    | none => return none

end HostScript

import HostScript.Script.Declaration
import HostScript.Script.Expression

/-! The grammar of statements, and of whole scripts.

A nested block stands behind its opening brace, so here too as many levels as the
text has characters are enough. -/
namespace HostScript.Grammar

open Reader Lexeme

/-! ### Actions -/

section Actions
variable (fuel : Nat)

def declare : Reader ActionKind := rule do
  let type ← typeName
  skip
  let name ← identifier
  skip
  let value ← optional do
    sym "="
    notBefore "="
    skip
    expression fuel
  return .declare type name value

/-- The operators of compound assignments, by their symbols without the `=`. -/
def assignOps : List ArithOp :=
  [.shl, .shr, .add, .sub, .mul, .div, .mod, .and, .or, .xor]

def assignOp : Reader (Option ArithOp) :=
  rule <| orElse
    (choice (assignOps.map fun op => do lit (op.symbol ++ "="); return some op))
    (do lit "="; notBefore "="; return none)

def assign : Reader ActionKind := rule do
  let target ← object fuel (expression fuel)
  skip
  let op ← assignOp
  skip
  let value ← expression fuel
  return .assign target op value

def stepOp : Reader Bool :=
  rule (orElse (do lit "++"; return false) (do lit "--"; return true))

def step : Reader ActionKind := rule do
  let target ← object fuel (expression fuel)
  skip
  let down ← stepOp
  return .step target down

def action : Reader Action := rule do
  let (span, kind) ← spanned <| choice
    [do keyword "break"; return .breakLoop,
      do keyword "continue"; return .continueLoop,
      do keyword "exit"; return .exit,
      declare fuel,
      assign fuel,
      step fuel,
      do let target ← object fuel (expression fuel); return .call target]
  return ⟨span, kind⟩

end Actions

/-! ### Control flow -/

section Nested
variable (fuel : Nat) (statement : Reader Statement)

def block : Reader Block := rule do
  let (span, statements) ← spanned do
    sym "\x7b"
    let statements ← many fuel statement
    skip
    lit "\x7d"
    return statements
  return .mk span statements

/-- An expression in parentheses. -/
def condition : Reader Expr := do
  sym "("
  let e ← expression fuel
  skip
  lit ")"
  return e

def whileLoop : Reader Statement := rule do
  sym "while"
  let e ← condition fuel
  skip
  let body ← block fuel statement
  return .whileLoop e body

def forLoop : Reader Statement := rule do
  sym "for"
  sym "("
  let start ← rule (optional (action fuel))
  skip
  sym ";"
  let e ← rule (optional (expression fuel))
  skip
  sym ";"
  let next ← rule (optional (action fuel))
  skip
  sym ")"
  let body ← block fuel statement
  return .forLoop start e next body

def doWhile : Reader Statement := rule do
  sym "do"
  let body ← block fuel statement
  skip
  sym "while"
  let e ← condition fuel
  skip
  lit ";"
  return .doWhile body e

/-- An `if` with the branches after it; each further one stands behind an `else`. -/
def branch : Nat → Reader Branch
  | 0 => fail
  | more + 1 => rule do
    sym "if"
    let e ← condition fuel
    skip
    let body ← block fuel statement
    skip
    let otherwise ← optional <| rule do
      sym "else"
      orElse (do let b ← branch more; return Otherwise.branch b)
        (do let b ← block fuel statement; return Otherwise.block b)
    return .mk e body (otherwise.getD .nothing)

def statementWith : Reader Statement :=
  choice
    [importing, global fuel, typeDecl fuel, metadata,
      do let b ← block fuel statement; return .block b,
      whileLoop fuel statement,
      forLoop fuel statement,
      doWhile fuel statement,
      do let b ← branch fuel statement fuel; return .branch b,
      do let a ← action fuel; skip; lit ";"; return .action a]

end Nested

def statement : Nat → Reader Statement
  | 0 => fail
  | fuel + 1 => statementWith (fuel + 1) (statement fuel)

/-! ### Scripts -/

def endOfText : Reader Unit := rule fun c reach =>
  if c.rest.isEmpty then .ok () c reach else .fail reach

def script (fuel : Nat) : Reader Script := rule do
  skip
  let statements ← many fuel (statement fuel)
  skip
  endOfText
  return statements

end HostScript.Grammar

namespace HostScript

/-- Why a text is no script: from some place on it does not read, or a literal in it
has no value. -/
inductive ParseError where
  | unexpected (offset : Nat)
  | blemished (span : Span) (blemish : Blemish)
  deriving DecidableEq, Repr

/-- The script a text holds. -/
def Script.parse (file : Nat) (text : List Char) : Except ParseError Script :=
  match Grammar.script (text.length + 1) ⟨file, 0, text, none⟩ 0 with
  | .fail reach => .error (.unexpected reach)
  | .ok script cursor _ =>
    match cursor.blemish with
    | some (span, blemish) => .error (.blemished span blemish)
    | none => .ok script

end HostScript

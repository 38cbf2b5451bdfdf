import HostScript.Machine.Host

/-! Evaluating expressions in code.

An expression is read and evaluated in one go from the cursor on, and leaves the
cursor behind it. Memory is only read. A part whose value is not needed is evaluated
all the same, because that is the only way past it, but *dead*: the host is not asked,
and zero stands for what it would say. -/
namespace HostScript

/-- The variables of a running script. -/
structure Memory where
  bytes : Array UInt8
  strings : Array String
  deriving DecidableEq, Repr

namespace Memory

def load (m : Memory) (address : Nat) (k : Kind) : Except Malformed Value :=
  if k = .string then
    match m.strings[address]? with
    | some s => .ok (.string s)
    | none => .error (.noSlot address)
  else if address + k.size ≤ m.bytes.size then
    .ok (.ofBytes k (m.bytes.extract address (address + k.size)).toList)
  else .error (.noAddress address)

def write (bytes : Array UInt8) (address : Nat) : List UInt8 → Array UInt8
  | [] => bytes
  | b :: rest => write (bytes.setIfInBounds address b) (address + 1) rest

/-- The memory with a value stored at an address. -/
def store (m : Memory) (address : Nat) (v : Value) : Except Malformed Memory :=
  match v with
  | .nothing => .error .storeOfNothing
  | .string s =>
    if address < m.strings.size then .ok { m with strings := m.strings.setIfInBounds address s }
    else .error (.noSlot address)
  | v =>
    if address + v.bytes.length ≤ m.bytes.size then
      .ok { m with bytes := write m.bytes address v.bytes }
    else .error (.noAddress address)

end Memory

/-- A computation that moves a cursor, asks a host and may halt. The cursor and the host stay as
they are when it halts. -/
abbrev Exec (σ : Type) := ExceptT Fault (StateT Nat (StateM σ))

namespace Exec

variable {σ α : Type}

def halt (fault : Fault) : Exec σ α := throw fault

def malformed (position : Nat) (reason : Malformed) : Exec σ α := halt (.malformed position reason)

def cursor : Exec σ Nat := get

def goTo (position : Nat) : Exec σ Unit := set position

/-- A step of the host. -/
def ask (action : StateM σ α) : Exec σ α := fun cursor s =>
  let (a, s) := action s
  ((.ok a, cursor), s)

/-- The result of a check of code at a position. -/
def checked (position : Nat) : Except Malformed α → Exec σ α
  | .ok a => pure a
  | .error reason => malformed position reason

/-- A value, if there is one. -/
def orMalformed (position : Nat) (reason : Malformed) : Option α → Exec σ α
  | some a => pure a
  | none => malformed position reason

end Exec

/-! ### Operands -/

namespace Code

variable {σ : Type}

def byte (code : Array UInt8) : Exec σ UInt8 := do
  let c ← Exec.cursor
  let b ← Exec.orMalformed c .endOfCode code[c]?
  Exec.goTo (c + 1)
  return b

def bytes (code : Array UInt8) (n : Nat) : Exec σ (List UInt8) := do
  let c ← Exec.cursor
  if c + n ≤ code.size then
    Exec.goTo (c + n)
    return (code.extract c (c + n)).toList
  else Exec.malformed c .endOfCode

def word (code : Array UInt8) : Exec σ Nat := return Bytes.toNat (← bytes code 2)

def opcode (code : Array UInt8) : Exec σ Opcode := do
  let c ← Exec.cursor
  let b ← byte code
  Exec.orMalformed c (.unknownOpcode b) (Opcode.ofCode? b)

def kind (code : Array UInt8) : Exec σ Kind := do
  let c ← Exec.cursor
  let b ← byte code
  Exec.orMalformed c (.unknownKind b) (Kind.ofCode? b)

/-- Where the next zero byte is, among the first `n` bytes from a position on. -/
def zeroFrom (code : Array UInt8) : Nat → Nat → Option Nat
  | 0, _ => none
  | n + 1, position => if code[position]? = some 0 then some position else zeroFrom code n (position + 1)

/-- A text up to a zero byte. -/
def text (code : Array UInt8) : Exec σ String := do
  let c ← Exec.cursor
  let stop ← Exec.orMalformed c .unterminatedText (zeroFrom code (code.size - c) c)
  match Utf8.decode (code.extract c stop).toList with
  | .error fault => Exec.malformed c (.invalidText fault)
  | .ok chars =>
    Exec.goTo (stop + 1)
    return String.ofList chars

def literal (code : Array UInt8) (k : Kind) : Exec σ Value := do
  if k = .string then return .string (← text code)
  else return .ofBytes k (← bytes code k.size)

end Code

/-! ### Expressions -/

/-- What an expression is evaluated against. -/
structure Setting (σ : Type) where
  code : Array UInt8
  memory : Memory
  host : Host σ

/-- Evaluates what comes next as a value of a kind, dead or not. -/
abbrev Evaluator (σ : Type) := Bool → Kind → Exec σ Value

namespace Evaluator

variable {σ : Type}

def bool (eval : Evaluator σ) (dead : Bool) : Exec σ Bool := do
  let c ← Exec.cursor
  match ← eval dead .bool with
  | .bool b => return b
  | v => Exec.malformed c (.notBool v)

def pointer (eval : Evaluator σ) (dead : Bool) : Exec σ Pointer := do
  let c ← Exec.cursor
  match ← eval dead .pointer with
  | .pointer p => return p
  | v => Exec.malformed c (.notPointer v)

def skip (eval : Evaluator σ) (k : Kind) : Exec σ Unit := do
  let _ ← eval true k

end Evaluator

namespace Setting

variable {σ : Type}

/-- Two values under an operator whose instruction stands at a position. -/
def combine (op : Opcode) (k : Kind) (dead : Bool) (position : Nat) (l r : Value) : Exec σ Value :=
  match op with
  | .concat => return .string (l.text ++ r.text)
  | .arith op =>
    if op.divides && r.isIntegerZero then
      if dead then return .zero k else Exec.halt .divisionByZero
    else Exec.orMalformed position (.inapplicable (.arith op) k) (l.arith op r)
  | op => Exec.malformed position (.inapplicable op k)

/-- A result of the host, if it is of the kind that is expected. -/
def checkReturn (expected : Option Kind) (v : Value) : Exec σ Value :=
  match expected with
  | none => return v
  | some k => if v.kind? = some k then return v else Exec.halt (.wrongReturn k v.kind?)

def callFunction (s : Setting σ) (target : Pointer) (symbol : Symbol) (args : List Value)
    (expected : Option Kind) : Exec σ Value := do
  match s.host.invokeFunction with
  | none => Exec.halt (.missing .invokeFunction)
  | some f => checkReturn expected (← Exec.ask (f target symbol args))

def callSubscript (s : Setting σ) (target : Pointer) (index : Value) (expected : Kind) :
    Exec σ Value := do
  if target = 0 then Exec.halt .subscriptOfNull
  else
    match s.host.invokeSubscript with
    | none => Exec.halt (.missing .invokeSubscript)
    | some f => checkReturn (some expected) (← Exec.ask (f target index))

/-- The pointer that a member is reached through; none for a global one. -/
def target (s : Setting σ) (eval : Evaluator σ) (dead : Bool) : Exec σ (Option Pointer) := do
  let c ← Exec.cursor
  if s.code[c]? = some (Opcode.code .noOp) then
    Exec.goTo (c + 1)
    return none
  else return some (← eval.pointer dead)

/-- A pointer to ask the host with. -/
def requireTarget : Option Pointer → Exec σ Pointer
  | none => return 0
  | some p => if p = 0 then Exec.halt .memberOfNull else return p

/-- Arguments, each behind its kind. -/
def arguments (s : Setting σ) (eval : Evaluator σ) (dead : Bool) : Nat → Exec σ (List Value)
  | 0 => return []
  | n + 1 => do
    let k ← Code.kind s.code
    let v ← eval dead k
    return v :: (← s.arguments eval dead n)

/-- A call of a function, or of a property without arguments; `expected` is the kind of the
result if it matters. -/
def invokeFunction (s : Setting σ) (eval : Evaluator σ) (dead : Bool) (expected : Option Kind) :
    Exec σ Value := do
  let target ← s.target eval dead
  let symbol ← Code.word s.code
  let count ← Code.byte s.code
  let args ← s.arguments eval dead count.toNat
  if dead then return (expected.map Value.zero).getD .nothing
  else s.callFunction (← requireTarget target) symbol args expected

def invokeSubscript (s : Setting σ) (eval : Evaluator σ) (dead : Bool) (expected : Kind) :
    Exec σ Value := do
  let target ← eval.pointer dead
  let k ← Code.kind s.code
  let index ← eval dead k
  if dead then return .zero expected else s.callSubscript target index expected

/-- An expression, given how to evaluate its parts. -/
def expression (s : Setting σ) (eval : Evaluator σ) (dead : Bool) (k : Kind) : Exec σ Value := do
  let position ← Exec.cursor
  match ← Code.opcode s.code with
  | .literal => Code.literal s.code k
  | .literalTrue => return .bool true
  | .literalFalse => return .bool false
  | .literalNull => return .pointer 0
  | .variable =>
    let address ← Code.word s.code
    Exec.checked (← Exec.cursor) (s.memory.load address k)
  | .arith op =>
    let l ← eval dead k
    let r ← eval dead k
    combine (.arith op) k dead position l r
  | .concat =>
    let l ← eval dead .string
    let r ← eval dead .string
    combine .concat k dead position l r
  | .negate => Exec.orMalformed position .negation (← eval dead k).negate
  | .complement => Exec.orMalformed position .complement (← eval dead k).complement
  | .not => return .bool !(← eval.bool dead)
  | .and =>
    if ← eval.bool dead then return .bool (← eval.bool dead)
    else
      eval.skip .bool
      return .bool false
  | .or =>
    if ← eval.bool dead then
      eval.skip .bool
      return .bool true
    else return .bool (← eval.bool dead)
  | .compare op =>
    let operand ← Code.kind s.code
    let l ← eval dead operand
    let r ← eval dead operand
    let order ← Exec.orMalformed position (.incomparable operand) (l.compare? r)
    return .bool (op.holds order)
  | .ternary =>
    if ← eval.bool dead then
      let v ← eval dead k
      eval.skip k
      return v
    else
      eval.skip k
      eval dead k
  | .coalesce =>
    match ← eval dead k with
    | .pointer p =>
      if p = 0 then eval dead k
      else
        eval.skip k
        return .pointer p
    | _ => eval dead k
  | .typecast =>
    let source ← Code.kind s.code
    return (← eval dead source).cast k
  | .call => s.invokeFunction eval dead (some k)
  | .subscript => s.invokeSubscript eval dead k
  | op => Exec.malformed position (.notExpression op)

/-- Evaluates an expression of at most so many bytes. Every expression takes a byte before its
parts do, so the bytes that are left bound the depth. -/
def evaluateWithin (s : Setting σ) : Nat → Evaluator σ
  | 0, _, _ => do Exec.malformed (← Exec.cursor) .endOfCode
  | n + 1, dead, k => s.expression (s.evaluateWithin n) dead k

def evaluate (s : Setting σ) : Evaluator σ := fun dead k => do
  s.evaluateWithin (s.code.size - (← Exec.cursor)) dead k

end Setting

end HostScript

import HostScript.Machine.Evaluate

/-! Running code, statement by statement. -/
namespace HostScript

/-- A running script. -/
structure Machine where
  code : Array UInt8
  cursor : Nat
  memory : Memory
  deriving DecidableEq, Repr

/-- Whether to go on after a statement. -/
inductive Signal where
  | proceed
  | exit
  deriving DecidableEq, Repr

inductive Ending where
  /-- Behind the last statement. -/
  | ended
  /-- By the script's own will. -/
  | exited
  | halted (fault : Fault)
  /-- Not yet. -/
  | running
  deriving DecidableEq, Repr

namespace Setting

variable {σ : Type}

/-- The operator of a compound assignment. -/
def assignOperator (s : Setting σ) : Exec σ (Option Opcode) := do
  match ← Code.opcode s.code with
  | .noOp => return none
  | op => return some op

/-- The value to assign: the given one, or the current one combined with it. -/
def updated (op : Option Opcode) (k : Kind) (position : Nat) (current : Exec σ Value) (given : Value) :
    Exec σ Value := do
  match op with
  | none => return given
  | some op => combine op k false position (← current) given

def assignProperty (s : Setting σ) (position : Nat) : Exec σ Unit := do
  let k ← Code.kind s.code
  let target ← s.target s.evaluate false
  let symbol ← Code.word s.code
  let op ← s.assignOperator
  let given ← s.evaluate false k
  let target ← requireTarget target
  let value ← updated op k position (s.callFunction target symbol [] (some k)) given
  match s.host.assignProperty with
  | none => Exec.halt (.missing .assignProperty)
  | some f => Exec.ask (f target symbol value)

def assignSubscript (s : Setting σ) (position : Nat) : Exec σ Unit := do
  let k ← Code.kind s.code
  let target ← s.evaluate.pointer false
  let indexKind ← Code.kind s.code
  let index ← s.evaluate false indexKind
  let op ← s.assignOperator
  let given ← s.evaluate false k
  if target = 0 then Exec.halt .subscriptOfNull
  else
    let value ← updated op k position (s.callSubscript target index k) given
    match s.host.assignSubscript with
    | none => Exec.halt (.missing .assignSubscript)
    | some f => Exec.ask (f target index value)

/-- The memory after an assignment to a variable. -/
def assign (s : Setting σ) : Exec σ Memory := do
  let k ← Code.kind s.code
  let address ← Code.word s.code
  let value ← s.evaluate false k
  Exec.checked (← Exec.cursor) (s.memory.store address value)

/-- One statement: whether to go on, and the memory after it. -/
def statement (s : Setting σ) : Exec σ (Signal × Memory) := do
  let position ← Exec.cursor
  let proceed : Signal × Memory := (.proceed, s.memory)
  match ← Code.opcode s.code with
  | .noOp => return proceed
  | .assign => return (.proceed, ← s.assign)
  | .assignProperty =>
    s.assignProperty position
    return proceed
  | .assignSubscript =>
    s.assignSubscript position
    return proceed
  | .callUnused =>
    let _ ← s.invokeFunction s.evaluate false none
    return proceed
  | .conditional =>
    let condition ← s.evaluate.bool false
    let distance ← Code.word s.code
    if !condition then Exec.goTo ((← Exec.cursor) + distance)
    return proceed
  | .forward =>
    let distance ← Code.word s.code
    Exec.goTo ((← Exec.cursor) + distance)
    return proceed
  | .back =>
    let distance ← Code.word s.code
    let c ← Exec.cursor
    if headerSize + distance ≤ c then
      Exec.goTo (c - distance)
      return proceed
    else Exec.malformed position .jumpBeforeStart
  | .exit => return (.exit, s.memory)
  | .metadata =>
    let text ← Code.text s.code
    Exec.ask (Host.notify (s.host.metadata.map fun f => f text))
    return proceed
  | .debugLine =>
    let line ← Code.word s.code
    Exec.ask (Host.notify (s.host.debugLine.map fun f => f line))
    return proceed
  | .debugUpdate =>
    let name ← Code.text s.code
    let k ← Code.kind s.code
    let value ← s.evaluate false k
    Exec.ask (Host.notify (s.host.debugUpdate.map fun f => f name value))
    return proceed
  | .debugDelete =>
    let name ← Code.text s.code
    Exec.ask (Host.notify (s.host.debugDelete.map fun f => f name))
    return proceed
  | op => Exec.malformed position (.notStatement op)

end Setting

namespace Machine

variable {σ : Type}

/-- A machine at the start of code, with the storage that its header asks for. -/
def new (code : Array UInt8) : Except Fault Machine :=
  if code.size < headerSize then .error (.malformed 0 .noHeader)
  else
    let size := Bytes.toNat (code.extract 0 2).toList
    let slots := Bytes.toNat (code.extract 2 4).toList
    .ok ⟨code, headerSize, ⟨Array.replicate size 0, Array.replicate slots ""⟩⟩

def atEnd (m : Machine) : Bool := m.code.size ≤ m.cursor

/-- Runs one statement. A fault leaves the memory as it was. -/
def step (m : Machine) (host : Host σ) : StateM σ (Except Fault Signal × Machine) := fun s =>
  let ((result, cursor), s) := Setting.statement ⟨m.code, m.memory, host⟩ m.cursor s
  match result with
  | .ok (signal, memory) => ((.ok signal, { m with cursor, memory }), s)
  | .error fault => ((.error fault, { m with cursor }), s)

/-- Runs at most so many statements. -/
def run (host : Host σ) : Nat → Machine → StateM σ (Ending × Machine)
  | 0, m => return (if m.atEnd then .ended else .running, m)
  | n + 1, m => do
    if m.atEnd then return (.ended, m)
    else
      match ← m.step host with
      | (.ok .proceed, m) => run host n m
      | (.ok .exit, m) => return (.exited, m)
      | (.error fault, m) => return (.halted fault, m)

end Machine

/-- Runs code from the start, at most so many statements. A fault is told to the host once. -/
def execute {σ : Type} (host : Host σ) (limit : Nat) (code : Array UInt8) : StateM σ Ending := do
  let ending ← match Machine.new code with
    | .error fault => pure (.halted fault)
    | .ok m => (·.1) <$> m.run host limit
  match ending with
  | .halted fault => Host.notify (host.error.map fun f => f fault)
  | _ => pure ()
  return ending

end HostScript

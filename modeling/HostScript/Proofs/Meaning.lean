import HostScript.Proofs.Tree

/-! What trees do.

The meaning of a tree is what the machine does with its code, without the code: there
is no cursor, and a fault has no place. Only the memory, the host and the numbers of
its members matter. -/
namespace HostScript

/-- A computation that asks a host and may halt. -/
abbrev Effect (σ : Type) := ExceptT Fault (StateM σ)

namespace Effect

variable {σ α : Type}

def halt (fault : Fault) : Effect σ α := throw fault

def malformed (reason : Malformed) : Effect σ α := halt (.malformed 0 reason)

def ask (action : StateM σ α) : Effect σ α := fun s =>
  let (a, s) := action s
  (.ok a, s)

def checked : Except Malformed α → Effect σ α
  | .ok a => pure a
  | .error reason => malformed reason

def orMalformed (reason : Malformed) : Option α → Effect σ α
  | some a => pure a
  | none => malformed reason

theorem bind_apply (t : Effect σ α) (g : α → Effect σ β) (s : σ) :
    (t >>= g) s = match t s with
      | (.ok a, s') => g a s'
      | (.error e, s') => (.error e, s') := by
  show (ExceptT.bindCont g (t s).1) (t s).2 = _
  rcases t s with ⟨r | r, s'⟩ <;> rfl

end Effect

/-- What a tree is evaluated against. -/
structure World (σ : Type) where
  memory : Memory
  host : Host σ
  /-- The numbers of host members by descriptor, of which code holds the low 16 bits. -/
  numbers : String → Nat

namespace World

variable {σ : Type}

def symbol (w : World σ) (d : String) : Symbol := w.numbers d % 256 ^ 2

def combine (op : Opcode) (k : Kind) (dead : Bool) (l r : Value) : Effect σ Value :=
  match op with
  | .concat => return .string (l.text ++ r.text)
  | .arith op =>
    if op.divides && r.isIntegerZero then
      if dead then return .zero k else Effect.halt .divisionByZero
    else Effect.orMalformed (.inapplicable (.arith op) k) (l.arith op r)
  | op => Effect.malformed (.inapplicable op k)

def checkReturn (expected : Option Kind) (v : Value) : Effect σ Value :=
  match expected with
  | none => return v
  | some k => if v.kind? = some k then return v else Effect.halt (.wrongReturn k v.kind?)

def callFunction (w : World σ) (target : Pointer) (symbol : Symbol) (args : List Value)
    (expected : Option Kind) : Effect σ Value := do
  match w.host.invokeFunction with
  | none => Effect.halt (.missing .invokeFunction)
  | some f => checkReturn expected (← Effect.ask (f target symbol args))

def callSubscript (w : World σ) (target : Pointer) (index : Value) (expected : Kind) :
    Effect σ Value := do
  if target = 0 then Effect.halt .subscriptOfNull
  else
    match w.host.invokeSubscript with
    | none => Effect.halt (.missing .invokeSubscript)
    | some f => checkReturn (some expected) (← Effect.ask (f target index))

def requireTarget : Option Pointer → Effect σ Pointer
  | none => return 0
  | some p => if p = 0 then Effect.halt .memberOfNull else return p

def toBool : Value → Effect σ Bool
  | .bool b => return b
  | v => Effect.malformed (.notBool v)

def toPointer : Value → Effect σ Pointer
  | .pointer p => return p
  | v => Effect.malformed (.notPointer v)

end World

/-! ### Without the host -/

/-- The effect does not depend on the host, which sees nothing of it. -/
class Effect.Fixed {σ α : Type} (e : Effect σ α) : Prop where
  result : ∃ r, ∀ s, e s = (r, s)

section Fixed

open Effect World

variable {σ α : Type}

instance (a : α) : Fixed (pure a : Effect σ α) := ⟨.ok a, fun _ => rfl⟩

instance fixed_halt (f : Fault) : Fixed (halt f : Effect σ α) := ⟨.error f, fun _ => rfl⟩

instance {p : Prop} [Decidable p] (e e' : Effect σ α) [Fixed e] [Fixed e'] : Fixed (if p then e else e') := by
  split <;> infer_instance

instance (reason : Malformed) : Fixed (malformed reason : Effect σ α) := fixed_halt _

instance (reason : Malformed) (o : Option α) : Fixed (orMalformed reason o : Effect σ α) := by
  unfold orMalformed
  split <;> infer_instance

instance (r : Except Malformed α) : Fixed (checked r : Effect σ α) := by
  unfold checked
  split <;> infer_instance

instance (op : Opcode) (k : Kind) (dead : Bool) (l r : Value) : Fixed (combine op k dead l r : Effect σ Value) := by
  unfold combine
  split <;> infer_instance

instance (expected : Option Kind) (v : Value) : Fixed (checkReturn expected v : Effect σ Value) := by
  unfold checkReturn
  split <;> infer_instance

instance fixed_requireTarget (target : Option Pointer) : Fixed (requireTarget target : Effect σ Pointer) := by
  unfold requireTarget
  split <;> infer_instance

instance fixed_toBool (v : Value) : Fixed (toBool v : Effect σ Bool) := by
  unfold World.toBool
  split <;> infer_instance

instance fixed_toPointer (v : Value) : Fixed (toPointer v : Effect σ Pointer) := by
  unfold toPointer
  split <;> infer_instance

end Fixed

open World

mutual
/-- The value of an expression as one of a kind, dead or not. -/
def Node.eval {σ : Type} (w : World σ) (dead : Bool) : Kind → Node → Effect σ Value
  | _, .literal v => return v
  | _, .bool b => return .bool b
  | _, .null => return .pointer 0
  | k, .variable _ a => Effect.checked (w.memory.load a k)
  | k, .arith op l r => do
    let x ← l.eval w dead k
    let y ← r.eval w dead k
    combine (.arith op) k dead x y
  | k, .concat l r => do
    let x ← l.eval w dead .string
    let y ← r.eval w dead .string
    combine .concat k dead x y
  | k, .negate n => do Effect.orMalformed .negation (← n.eval w dead k).negate
  | k, .complement n => do Effect.orMalformed .complement (← n.eval w dead k).complement
  | _, .not n => do
    let b ← toBool (← n.eval w dead .bool)
    return .bool !b
  | _, .and l r => do
    if ← toBool (← l.eval w dead .bool) then
      let b ← toBool (← r.eval w dead .bool)
      return .bool b
    else
      let _ ← r.eval w true .bool
      return .bool false
  | _, .or l r => do
    if ← toBool (← l.eval w dead .bool) then
      let _ ← r.eval w true .bool
      return .bool true
    else
      let b ← toBool (← r.eval w dead .bool)
      return .bool b
  | _, .compare op j l r => do
    let x ← l.eval w dead j
    let y ← r.eval w dead j
    let order ← Effect.orMalformed (.incomparable j) (x.compare? y)
    return .bool (op.holds order)
  | k, .ternary c y n => do
    if ← toBool (← c.eval w dead .bool) then
      let v ← y.eval w dead k
      let _ ← n.eval w true k
      return v
    else
      let _ ← y.eval w true k
      n.eval w dead k
  | k, .coalesce l r => do
    match ← l.eval w dead k with
    | .pointer p =>
      if p = 0 then r.eval w dead k
      else
        let _ ← r.eval w true k
        return .pointer p
    | _ => r.eval w dead k
  | k, .cast j n => do return (← n.eval w dead j).cast k
  | k, .call t d args => do
    let target ← t.eval w dead
    let vs ← args.eval w dead
    if dead then return .zero k
    else w.callFunction (← requireTarget target) (w.symbol d) vs (some k)
  | k, .subscript t j i => do
    let target ← toPointer (← t.eval w dead .pointer)
    let index ← i.eval w dead j
    if dead then return .zero k else w.callSubscript target index k

def Target.eval {σ : Type} (w : World σ) (dead : Bool) : Target → Effect σ (Option Pointer)
  | .global => return none
  | .of n => do
    let p ← toPointer (← n.eval w dead .pointer)
    return some p

def Args.eval {σ : Type} (w : World σ) (dead : Bool) : Args → Effect σ (List Value)
  | .nil => return []
  | .cons k n rest => do
    let v ← n.eval w dead k
    return v :: (← rest.eval w dead)
end

/-! ### Statements -/

/-- Where to go after a statement, counted from its end. -/
inductive Move where
  | next
  | skip (distance : Nat)
  | back (distance : Nat)
  | exit
  deriving DecidableEq

namespace World

variable {σ : Type}

/-- The value to assign: the given one, or the current one combined with it. -/
def updated (op : Opcode) (k : Kind) (current : Effect σ Value) (given : Value) : Effect σ Value := do
  match op with
  | .noOp => return given
  | op => combine op k false (← current) given

/-- Gives a property a value, combined with the current one if there is an operator. -/
def updateProperty (w : World σ) (k : Kind) (target : Pointer) (symbol : Symbol) (op : Opcode)
    (given : Value) : Effect σ Unit := do
  let value ← updated op k (w.callFunction target symbol [] (some k)) given
  match w.host.assignProperty with
  | none => Effect.halt (.missing .assignProperty)
  | some f => Effect.ask (f target symbol value)

def updateSubscript (w : World σ) (k : Kind) (target : Pointer) (index : Value) (op : Opcode)
    (given : Value) : Effect σ Unit := do
  if target = 0 then Effect.halt .subscriptOfNull
  else
    let value ← updated op k (w.callSubscript target index k) given
    match w.host.assignSubscript with
    | none => Effect.halt (.missing .assignSubscript)
    | some f => Effect.ask (f target index value)

end World

/-- What a statement does: where to go, and the memory after it. -/
def Instr.exec {σ : Type} (w : World σ) : Instr → Effect σ (Move × Memory)
  | .assign k a v => do
    let value ← v.eval w false k
    return (.next, ← Effect.checked (w.memory.store a value))
  | .assignProperty k t d op v => do
    let target ← t.eval w false
    let given ← v.eval w false k
    let target ← requireTarget target
    w.updateProperty k target (w.symbol d) op given
    return (.next, w.memory)
  | .assignSubscript k t j i op v => do
    let target ← toPointer (← t.eval w false .pointer)
    let index ← i.eval w false j
    let given ← v.eval w false k
    w.updateSubscript k target index op given
    return (.next, w.memory)
  | .callUnused t d args => do
    let target ← t.eval w false
    let vs ← args.eval w false
    let _ ← w.callFunction (← requireTarget target) (w.symbol d) vs none
    return (.next, w.memory)
  | .conditional c d => do
    let b ← toBool (← c.eval w false .bool)
    return (if b then .next else .skip d, w.memory)
  | .forward d => return (.skip d, w.memory)
  | .back d => return (.back d, w.memory)
  | .exit => return (.exit, w.memory)
  | .metadata text => do
    Effect.ask (Host.notify (w.host.metadata.map fun f => f text))
    return (.next, w.memory)
  | .debugLine n => do
    Effect.ask (Host.notify (w.host.debugLine.map fun f => f n))
    return (.next, w.memory)
  | .clearedLine => do
    Effect.ask (Host.notify (w.host.debugLine.map fun f => f 0))
    return (.next, w.memory)
  | .debugUpdate name k v => do
    let value ← v.eval w false k
    Effect.ask (Host.notify (w.host.debugUpdate.map fun f => f name value))
    return (.next, w.memory)
  | .debugDelete name => do
    Effect.ask (Host.notify (w.host.debugDelete.map fun f => f name))
    return (.next, w.memory)
  | .leap _ => Effect.malformed (.notStatement .placeholder)

end HostScript

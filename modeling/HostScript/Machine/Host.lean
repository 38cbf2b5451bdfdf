import HostScript.Machine.Fault

/-! Hosts: everything a running script can reach.

A host has a state of its own and handlers that work on it. The first four are
services: a script that asks for one that is not there halts. The others only watch,
and what they would see is dropped when they are not there. Global functions and
properties are asked for with the pointer zero. -/
namespace HostScript

/-- The number of a function or property of the host. -/
abbrev Symbol := Nat

structure Host (σ : Type) where
  invokeFunction : Option (Pointer → Symbol → List Value → StateM σ Value)
  invokeSubscript : Option (Pointer → Value → StateM σ Value)
  assignProperty : Option (Pointer → Symbol → Value → StateM σ Unit)
  assignSubscript : Option (Pointer → Value → Value → StateM σ Unit)
  metadata : Option (String → StateM σ Unit)
  debugLine : Option (Nat → StateM σ Unit)
  debugUpdate : Option (String → Value → StateM σ Unit)
  debugDelete : Option (String → StateM σ Unit)
  error : Option (Fault → StateM σ Unit)

/-- What passes between a script and its host. -/
inductive Event where
  | call (target : Pointer) (symbol : Symbol) (args : List Value) (returned : Value)
  | subscript (target : Pointer) (index : Value) (returned : Value)
  | set (target : Pointer) (symbol : Symbol) (value : Value)
  | setSubscript (target : Pointer) (index value : Value)
  | metadata (text : String)
  | line (n : Nat)
  | update (name : String) (value : Value)
  | delete (name : String)
  | error (fault : Fault)
  deriving DecidableEq, Repr

namespace Host

/-- A host that neither does nor watches anything. -/
def idle : Host Unit := ⟨none, none, none, none, none, none, none, none, none⟩

variable {σ : Type}

/-- Tells a watching handler, if there is one. -/
def notify (handler : Option (StateM σ Unit)) : StateM σ Unit := handler.getD (pure ())

/-- A step of a host, with the event that it is. -/
def record {α : Type} (action : StateM σ α) (event : α → Event) : StateM (σ × Array Event) α :=
  fun (s, events) =>
    let (a, s) := action s
    (a, (s, events.push (event a)))

/-- The same host, with a record of everything that passes. -/
def recording (h : Host σ) : Host (σ × Array Event) where
  invokeFunction := h.invokeFunction.map fun f target symbol args =>
    record (f target symbol args) (.call target symbol args)
  invokeSubscript := h.invokeSubscript.map fun f target index =>
    record (f target index) (.subscript target index)
  assignProperty := h.assignProperty.map fun f target symbol value =>
    record (f target symbol value) fun _ => .set target symbol value
  assignSubscript := h.assignSubscript.map fun f target index value =>
    record (f target index value) fun _ => .setSubscript target index value
  metadata := h.metadata.map fun f text => record (f text) fun _ => .metadata text
  debugLine := h.debugLine.map fun f n => record (f n) fun _ => .line n
  debugUpdate := h.debugUpdate.map fun f name value => record (f name value) fun _ => .update name value
  debugDelete := h.debugDelete.map fun f name => record (f name) fun _ => .delete name
  error := h.error.map fun f fault => record (f fault) fun _ => .error fault

end Host

end HostScript

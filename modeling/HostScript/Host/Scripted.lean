import HostScript.Code.Fragment
import HostScript.Machine.Step

/-! A host that says what it was told to say.

Each function has a list of answers, used up one by one until the last, which is
repeated. What a script assigns is remembered: a property is a call without
arguments, and answers with what was last assigned to it; so does a subscript at the
same index. -/
namespace HostScript

namespace Scripted

/-- Answers that are left, by key. -/
abbrev Answers (κ : Type) := List (κ × List Value)

/-- The next answer, and what is left. The last one stays. -/
def Answers.take {κ : Type} [DecidableEq κ] (key : κ) : Answers κ → Value × Answers κ
  | [] => (.nothing, [])
  | (k, values) :: rest =>
    if k = key then
      match values with
      | [] => (.nothing, (k, []) :: rest)
      | [v] => (v, (k, [v]) :: rest)
      | v :: more => (v, (k, more) :: rest)
    else
      let (v, rest) := take key rest
      (v, (k, values) :: rest)

structure State where
  functions : Answers String
  subscripts : Answers Pointer
  /-- What was assigned, the latest first. -/
  properties : List ((Pointer × String) × Value)
  elements : List ((Pointer × Value) × Value)

def State.start (functions : Answers String) (subscripts : Answers Pointer) : State :=
  ⟨functions, subscripts, [], []⟩

/-- The name of a member: its descriptor, or its number in decimal. -/
def name (symbols : Fragment.Symbols) (symbol : Symbol) : String :=
  match symbols.reverse.find? (·.2 = symbol) with
  | some (descriptor, _) => descriptor
  | none => toString symbol

def call (symbols : Fragment.Symbols) (target : Pointer) (symbol : Symbol) (args : List Value) :
    StateM State Value := modifyGet fun s =>
  match args, s.properties.lookup (target, name symbols symbol) with
  | [], some v => (v, s)
  | _, _ =>
    let (v, functions) := s.functions.take (name symbols symbol)
    (v, { s with functions })

def subscript (target : Pointer) (index : Value) : StateM State Value := modifyGet fun s =>
  match s.elements.lookup (target, index) with
  | some v => (v, s)
  | none =>
    let (v, subscripts) := s.subscripts.take target
    (v, { s with subscripts })

def host (symbols : Fragment.Symbols) : Host State where
  invokeFunction := some (call symbols)
  invokeSubscript := some subscript
  assignProperty := some fun target symbol v => modify fun s =>
    { s with properties := ((target, name symbols symbol), v) :: s.properties }
  assignSubscript := some fun target index v => modify fun s =>
    { s with elements := ((target, index), v) :: s.elements }
  metadata := some fun _ => pure ()
  debugLine := some fun _ => pure ()
  debugUpdate := some fun _ _ => pure ()
  debugDelete := some fun _ => pure ()
  error := some fun _ => pure ()

end Scripted

end HostScript

import HostScript.Code.Fragment
import HostScript.Machine.Step

/-! A host that is a console.

Scripts declare `void print(...)` and `string readLine()` and reach standard output and
standard input by them. Metadata is written too, and the lines and variables of a
debugger if asked for. Output may be limited; what fits is written. After the first
failure the console neither writes nor reads, and that failure is the result of the
run, whatever else happens. -/
namespace HostScript

namespace Console

/-- Why input or output failed. -/
inductive Failure where
  | full
  | notText
  deriving DecidableEq, Repr

def Failure.message : Failure → String
  | .full => "failed to write whole buffer"
  | .notText => "stream did not contain valid UTF-8"

structure State where
  input : List UInt8
  output : Array UInt8
  /-- How many bytes the output takes, if that is limited. -/
  capacity : Option Nat
  failure : Option Failure
  deriving DecidableEq, Repr

/-- Writes bytes up to the capacity. -/
def State.write (s : State) (bytes : List UInt8) : State :=
  match s.capacity with
  | none => { s with output := s.output ++ bytes }
  | some n =>
    let room := n - s.output.size
    { s with
      output := s.output ++ bytes.take room
      failure := if room < bytes.length then some .full else s.failure }

def emit (text : String) : StateM State Unit := modify fun s =>
  if s.failure.isSome then s else s.write (Utf8.encode text)

/-- The bytes of a line with its end, and those after it. -/
def splitLine : List UInt8 → List UInt8 × List UInt8
  | input =>
    match input.span (· ≠ 10) with
    | (line, newline :: rest) => (line ++ [newline], rest)
    | (line, []) => (line, [])

/-- A line without the ends of lines behind it. -/
def trimEnd (line : List Char) : List Char :=
  (line.reverse.dropWhile fun c => c = '\n' || c = '\r').reverse

/-- The next line of the input, empty at its end and after a failure. -/
def readLine : StateM State String := modifyGet fun s =>
  if s.failure.isSome then ("", s)
  else
    let (line, rest) := splitLine s.input
    match Utf8.decode line with
    | .ok chars => (String.ofList (trimEnd chars), { s with input := rest })
    | .error _ => ("", { s with input := rest, failure := some .notText })

/-- A function of the console, by its number. -/
def invoke (symbols : Fragment.Symbols) (target : Pointer) (symbol : Symbol) (args : List Value) :
    StateM State Value := do
  if target ≠ 0 then return .nothing
  else if symbols.find? "GLOBAL_readLine" = some symbol then return .string (← readLine)
  else if symbols.find? "GLOBAL_print_VARIADIC" = some symbol then
    emit (" ".intercalate (args.map Value.text) ++ "\n")
    return .nothing
  else return .nothing

/-- The console as a host for code with these numbers of functions. -/
def host (symbols : Fragment.Symbols) (debug : Bool) : Host State where
  invokeFunction := some (invoke symbols)
  invokeSubscript := none
  assignProperty := none
  assignSubscript := none
  metadata := some fun text => emit ("<?" ++ text ++ "?>\n")
  debugLine := if debug then some fun line => emit s!"[line {line}]\n" else none
  debugUpdate :=
    if debug then some fun name value => emit ("[set " ++ name ++ " = " ++ value.text ++ "]\n") else none
  debugDelete := if debug then some fun name => emit ("[drop " ++ name ++ "]\n") else none
  error := none

/-- What a run on the console came to. -/
inductive Outcome where
  | done
  | halted (fault : Fault)
  | failed (failure : Failure)
  /-- The limit on the number of statements was reached. -/
  | running
  deriving DecidableEq, Repr

/-- What is said of a run that did not go well. -/
def Outcome.complaint? : Outcome → Option String
  | .halted fault => some ("script halted: " ++ fault.message)
  | .failed failure => some ("console I/O failed: " ++ failure.message)
  | .done | .running => none

def Outcome.of (ending : Ending) (failure : Option Failure) : Outcome :=
  match failure, ending with
  | some failure, _ => .failed failure
  | none, .halted fault => .halted fault
  | none, .running => .running
  | none, _ => .done

/-- Runs code on a console with some input; gives the output. -/
def run (code : Array UInt8) (symbols : Fragment.Symbols) (debug : Bool) (input : List UInt8)
    (capacity : Option Nat) (limit : Nat) : Outcome × Array UInt8 :=
  let (ending, s) := execute (host symbols debug) limit code ⟨input, #[], capacity, none⟩
  (Outcome.of ending s.failure, s.output)

end Console

end HostScript

import HostScript.Code.Storage
import HostScript.Compile.Report

/-! The variables of a file, scope by scope.

Each variable takes the next free storage above everything visible; leaving a scope
frees what was declared in it. What a file imports is laid out below its own
variables, with the storage that the imported file needed at most kept free. -/
namespace HostScript

structure Variable where
  type : Ty
  /-- A byte of primitive memory, or a slot of the string table. -/
  address : Nat
  span : Span
  deriving DecidableEq, Repr

def Variable.isString (v : Variable) : Bool := v.type.primitive = .kind .string

/-- The variables of one scope in the order of their declaration, and the storage that was in
use when the scope was entered. -/
structure Frame where
  vars : Array (String × Variable)
  base : Storage
  deriving DecidableEq, Repr

namespace Frame

def find? (f : Frame) (name : String) : Option Variable :=
  (f.vars.find? (·.1 = name)).map (·.2)

def add (f : Frame) (name : String) (v : Variable) : Frame :=
  { f with vars := f.vars.push (name, v) }

end Frame

/-- The scopes around a place in a file, the innermost on top. -/
structure Variables where
  top : Frame
  outer : List Frame
  inUse : Storage
  /-- The most storage that was ever in use. -/
  needed : Storage
  deriving DecidableEq, Repr

namespace Variables

def empty : Variables := ⟨⟨#[], .none⟩, [], .none, .none⟩

def frames (vs : Variables) : List Frame := vs.top :: vs.outer

def find? (vs : Variables) (name : String) : Option Variable :=
  vs.frames.findSome? (·.find? name)

/-- The frame of the file itself. -/
def globals (vs : Variables) : Frame := vs.outer.getLast?.getD vs.top

/-- Enters a scope. -/
def push (vs : Variables) : Variables :=
  { vs with top := ⟨#[], vs.inUse⟩, outer := vs.top :: vs.outer }

/-- Leaves a scope and gives what was declared in it. The file itself is never left. -/
def pop (vs : Variables) : List (String × Variable) × Variables :=
  match vs.outer with
  | [] => ([], vs)
  | frame :: outer =>
    (vs.top.vars.toList, { vs with top := frame, outer, inUse := vs.top.base })

/-- The storage that a variable of a type takes. -/
def storageOf (type : Ty) : Storage :=
  if type.primitive = .kind .string then ⟨0, 1⟩ else ⟨type.primitive.size, 0⟩

/-- Where a variable of a type goes when some storage is in use. -/
def addressIn (inUse : Storage) (type : Ty) : Nat :=
  if type.primitive = .kind .string then inUse.slots else inUse.bytes

/-- Declares a variable in the innermost scope, if its name is free and it can be addressed. -/
def declare (vs : Variables) (name : String) (type : Ty) (span : Span) :
    Except Problem (Variable × Variables) :=
  let inUse := vs.inUse + storageOf type
  if (vs.find? name).isSome then .error (.variableTaken name)
  else if Storage.limit < addressIn inUse type then .error .outOfMemory
  else
    let v : Variable := ⟨type, addressIn vs.inUse type, span⟩
    .ok (v, { vs with top := vs.top.add name v, inUse, needed := vs.needed.max inUse })

/-- A variable of an imported file above storage that is needed already. -/
def relocate (base : Storage) (v : Variable) : Variable :=
  { v with address := min (v.address + addressIn base v.type) Storage.limit }

/-- Adds a variable of an imported file, or keeps it as a clash of names. -/
def importOne (base : Storage) (acc : List (String × Variable) × Variables) (entry : String × Variable) :
    List (String × Variable) × Variables :=
  let (clashes, vs) := acc
  if (vs.find? entry.1).isSome then (entry :: clashes, vs)
  else (clashes, { vs with top := vs.top.add entry.1 (relocate base entry.2) })

/-- Makes the variables of an imported file visible, and gives those whose names were taken. -/
def append (vs other : Variables) : List (String × Variable) × Variables :=
  let inUse := vs.needed + other.needed
  let (clashes, merged) := other.globals.vars.foldl (importOne vs.needed) ([], vs)
  (clashes.reverse, { merged with inUse, needed := inUse })

end Variables

end HostScript

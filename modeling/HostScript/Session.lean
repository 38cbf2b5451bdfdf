import HostScript.Compile.Statement
import HostScript.Disk
import HostScript.Script.Statement

/-! Files and what they import.

A session loads files and everything they import, each once, and compiles each at
most once: first what it imports, then the file itself behind it. A file that can be
reached along two ways, or by way of itself, is refused, and so is one whose types
inherit in a circle. When an imported file has no code, the file has none either. -/
namespace HostScript

/-- A problem with its place as it is shown. -/
inductive Diagnostic where
  | located (location : Location) (problem : Problem)
  | inFile (path : String) (problem : Problem)
  | general (problem : Problem)
  deriving DecidableEq, Repr

namespace Diagnostic

def problem : Diagnostic → Problem
  | .located _ p | .inFile _ p | .general p => p

def text : Diagnostic → String
  | .located location p => location.toString ++ ": " ++ p.message
  | .inFile path p => path ++ ": " ++ p.message
  | .general p => p.message

end Diagnostic

/-- How far a file has got. -/
inductive Stage where
  | loaded
  | compiling
  | compiled
  deriving DecidableEq, Repr

structure FileUnit where
  /-- What the file says, if it could be read. -/
  script : Option Script
  /-- The files it imports, by index. -/
  imports : List Nat
  stage : Stage
  diagnostics : List Diagnostic
  /-- The code of the file and all it imports, and the variables it leaves. -/
  result : Option (Fragment × Variables)

structure Session where
  disk : Disk
  debug : Bool
  sources : Sources
  units : Array FileUnit

namespace Session

def new (disk : Disk) (debug : Bool) : Session := ⟨disk, debug, #[], #[]⟩

/-! ### Loading -/

def parseDiagnostic (source : Source) : ParseError → Diagnostic
  | .unexpected offset =>
    let (line, column) := source.position offset
    .located ⟨source.path.toString, line, column⟩ .unexpectedText
  | .blemished span fault => .located (source.locate span.start span.stop) (.literal fault)

/-- The file at a path, not yet with its imports. -/
def readFile (disk : Disk) (path : Path) (index : Nat) : Source × FileUnit :=
  match disk.text? path with
  | none => (⟨path, []⟩, ⟨none, [], .loaded, [.inFile path.toString .unreadable], none⟩)
  | some text =>
    let source : Source := ⟨path, text⟩
    match Script.parse index text with
    | .ok script => (source, ⟨some script, [], .loaded, [], none⟩)
    | .error e => (source, ⟨none, [], .loaded, [parseDiagnostic source e], none⟩)

def find? (s : Session) (path : Path) : Option Nat := s.sources.findIdx? (·.path = path)

def modifyUnit (s : Session) (i : Nat) (f : FileUnit → FileUnit) : Session :=
  { s with units := s.units.modify i f }

def add (s : Session) (path : Path) : Session :=
  let (source, unit) := readFile s.disk path s.sources.size
  { s with sources := s.sources.push source, units := s.units.push unit }

/-- The paths that a file imports, seen from its directory. -/
def importPaths (s : Session) (i : Nat) : List Path :=
  match s.sources[i]?, (s.units[i]?).bind (·.script) with
  | some source, some script =>
    script.imports.map fun p => source.path.directory.join (Path.ofString p)
  | _, _ => []

/-- Loads a file and, before it returns, everything it imports. -/
def loadFrom : Nat → Path → StateM Session Nat
  | fuel, path => do
    let path := path.normalize
    match (← get).find? path with
    | some i => return i
    | none =>
      let i := (← get).sources.size
      modify (·.add path)
      match fuel with
      | 0 => return i
      | fuel + 1 =>
        let imports ← ((← get).importPaths i).mapM (loadFrom fuel)
        modify (·.modifyUnit i fun u => { u with imports })
        return i

/-- Loads a file. Only files on the disk import others, so they bound how deep imports go. -/
def load (s : Session) (path : Path) : Nat × Session :=
  loadFrom s.disk.files.length path s

/-! ### Reach of imports -/

def importsOf (s : Session) (i : Nat) : List Nat := ((s.units[i]?).map (·.imports)).getD []

attribute [local instance (high)] Zero.ofOfNat0 in
/-- How many imports there are in all. A walk that follows each file once takes at most one step
more. -/
def links (s : Session) : Nat := (s.units.toList.map fun u => u.imports.length).sum

def visibleFrom (s : Session) : Nat → List Nat → List Nat → List Nat
  | 0, _, order => order
  | _ + 1, [], order => order
  | fuel + 1, i :: stack, order =>
    if i ∈ order then s.visibleFrom fuel stack order
    else s.visibleFrom fuel (s.importsOf i ++ stack) (order ++ [i])

/-- A file and everything it imports, depth first, each once. -/
def visible (s : Session) (i : Nat) : List Nat := s.visibleFrom (s.links + 1) [i] []

def repeatedFrom (s : Session) : Nat → List Nat → List Nat → Option Nat
  | 0, _, _ => none
  | _ + 1, [], _ => none
  | fuel + 1, i :: stack, seen =>
    if i ∈ seen then some i
    else s.repeatedFrom fuel ((s.importsOf i).reverse ++ stack) (i :: seen)

/-- A file that is reached along more than one way, or by way of itself. The walk looks at the
last import first. -/
def repeated? (s : Session) (i : Nat) : Option Nat := s.repeatedFrom (s.links + 1) [i] []

/-- The declarations that a file can see. -/
def api (s : Session) (i : Nat) : Api :=
  .ofScripts ((s.visible i).filterMap fun j => (s.units[j]?).bind (·.script))

/-- The first type of a script that runs into a cycle of inheritance. -/
def inheritanceCycle? (s : Session) (api : Api) (script : Script) : Option Diagnostic :=
  script.types.findSome? fun t =>
    (api.cycle? t.name.name).map fun names =>
      .located (s.sources.locate t.name.span) (.inheritanceCycle names)

def pathOf (s : Session) (i : Nat) : String := ((s.sources[i]?).map (·.path.toString)).getD ""

/-- Why a file cannot be compiled at all. -/
def obstacle? (s : Session) (i : Nat) (script : Script) : Option Diagnostic :=
  match s.inheritanceCycle? (s.api i) script with
  | some d => some d
  | none => (s.repeated? i).map fun j =>
    .inFile (s.pathOf i) (.importedTwice (s.pathOf j))

/-! ### Compiling -/

/-- The code of imported files one behind the other, and the clashes between their variables. -/
structure Linked where
  code : Fragment
  vars : Variables
  clashes : List (String × Variable)

def Linked.empty : Linked := ⟨∅, .empty, []⟩

/-- Adds an imported file above the storage that the ones before it need. -/
def Linked.add (l : Linked) (code : Fragment) (vars : Variables) : Linked :=
  let needed := l.vars.needed
  let base : Storage := ⟨min needed.bytes Storage.limit, min needed.slots Storage.limit⟩
  let (clashes, merged) := l.vars.append vars
  ⟨l.code.splice code base, merged, l.clashes ++ clashes⟩

/-- Compiles a script behind what it imports. -/
def compileScript (s : Session) (i : Nat) (script : Script) (l : Linked) : Session :=
  let (code, progress) :=
    script.compile ⟨s.sources, s.api i, s.debug⟩ l.code.zeroLines l.vars
  let clashes := l.clashes.map fun (name, v) =>
    Diagnostic.located (s.sources.locate v.span) (.variableTaken name)
  let reports := progress.reports.toList.map fun r =>
    Diagnostic.located (s.sources.locate r.span) r.problem
  s.modifyUnit i fun u =>
    { u with diagnostics := u.diagnostics ++ clashes ++ reports, result := some (code, progress.vars) }

/-- Compiles a file unless that has been done or is being done. -/
def compileFrom : Nat → Nat → StateM Session Unit
  | 0, _ => return ()
  | fuel + 1, i => do
    let s ← get
    let some unit := s.units[i]? | return ()
    if unit.stage ≠ .loaded then return ()
    set (s.modifyUnit i fun u => { u with stage := .compiling })
    match unit.script with
    | none => pure ()
    | some script =>
      match s.obstacle? i script with
      | some d => modify (·.modifyUnit i fun u => { u with diagnostics := u.diagnostics ++ [d] })
      | none =>
        let linked ← unit.imports.foldlM (fun linked j => do
          match linked with
          | none => pure none
          | some l =>
            compileFrom fuel j
            return (((← get).units[j]?).bind (·.result)).map fun (code, vs) => Linked.add l code vs)
          (some Linked.empty)
        match linked with
        | none => pure ()
        | some l => modify (·.compileScript i script l)
    modify (·.modifyUnit i fun u => { u with stage := .compiled })

def compile (s : Session) (i : Nat) : Session := (compileFrom s.units.size i s).2

/-! ### Results -/

/-- Every problem found so far, file by file in the order of loading. -/
def diagnostics (s : Session) : List Diagnostic := s.units.toList.flatMap (·.diagnostics)

/-- The descriptors of functions and properties that a script declares. -/
def descriptors (script : Script) : List String :=
  let members := script.globals.map (Member.mk none) ++
    script.types.flatMap fun t => t.members.map (Member.mk (some t.name.name))
  members.filterMap fun m =>
    match m.decl with
    | .function f => some (Member.functionDescriptor ⟨m.owner, f⟩)
    | .property p => some (Member.propertyDescriptor ⟨m.owner, p⟩)
    | .subscript _ => none

/-- The host members of all files, sorted by descriptor and numbered from one. -/
def symbols (s : Session) : Fragment.Symbols :=
  let all := (s.units.toList.filterMap (·.script)).flatMap descriptors
  ((all.mergeSort fun a b => a ≤ b).eraseReps).zipIdx 1

/-- The final code of a file: what storage it needs, then its instructions with the numbers of
host members. -/
def bytecode? (s : Session) (i : Nat) (symbols : Fragment.Symbols) : Option (Array UInt8) := do
  let (code, vars) ← (← s.units[i]?).result
  let needed := vars.needed
  guard (code.unresolved symbols).isEmpty
  guard (needed.bytes ≤ Storage.limit ∧ needed.slots ≤ Storage.limit)
  return (Fragment.word needed.bytes ++ .word needed.slots ++ code.resolveSymbols symbols).bytes

end Session

end HostScript

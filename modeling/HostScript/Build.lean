import HostScript.Session

/-! Compiling scripts to code for a host.

The result is the code of each script asked for, the numbers of the host's members,
and a table of these numbers as source text for a host. One problem anywhere leaves
no code at all. -/
namespace HostScript

structure Build where
  diagnostics : List Diagnostic
  symbols : Fragment.Symbols
  /-- The code of each script by path, in the order of paths. -/
  files : List (Path × Array UInt8)

namespace Build

/-- Loads and compiles one script after the other; gives the indices of those with a rooted path. -/
def compileAll : List String → StateM Session (List Diagnostic × List Nat)
  | [] => return ([], [])
  | path :: rest => do
    if Path.isRooted path then
      let i ← modifyGet (·.load (Path.ofString path))
      modify (·.compile i)
      let (diagnostics, roots) ← compileAll rest
      return (diagnostics, i :: roots)
    else
      let (diagnostics, roots) ← compileAll rest
      return (.general (.relativePath path) :: diagnostics, roots)

/-- The path and the code of a compiled file. -/
def fileAt? (s : Session) (symbols : Fragment.Symbols) (i : Nat) : Option (Path × Array UInt8) := do
  return ((← s.sources[i]?).path, ← s.bytecode? i symbols)

/-- Jumps cannot cross code that is too large. -/
def sizeProblem? (file : Path × Array UInt8) : Option Diagnostic :=
  if maxCodeSize < file.2.size then
    some (.inFile file.1.toString (.codeTooLarge file.2.size))
  else none

/-- The paths of all files that compiling some scripts looks at. -/
def reads (disk : Disk) (paths : List String) : List Path :=
  (compileAll paths (.new disk false)).2.sources.toList.map (·.path)

def run (disk : Disk) (debug : Bool) (paths : List String) : Build :=
  let ((refused, roots), s) := compileAll paths (.new disk debug)
  let diagnostics := refused ++ s.diagnostics
  let symbols := s.symbols
  if diagnostics.isEmpty then
    let files := roots.filterMap (fileAt? s symbols)
    let tooLarge := files.filterMap sizeProblem?
    if tooLarge.isEmpty then
      let sorted := files.mergeSort fun a b => a.1.le b.1
      ⟨[], symbols, sorted.eraseReps⟩
    else ⟨tooLarge, symbols, []⟩
  else ⟨diagnostics, symbols, []⟩

end Build

/-- The numbers of host members as constants of a named module. -/
def Fragment.Symbols.table (symbols : Fragment.Symbols) (name : String) : String :=
  "#[allow(non_upper_case_globals)]\n" ++
    "pub mod " ++ name ++ " \x7b\n" ++
    String.join (symbols.map fun (descriptor, n) =>
      "    pub const " ++ descriptor ++ ": u16 = " ++ Value.intText n ++ ";\n") ++
    "\x7d\n"

end HostScript

import HostScript.Command.Perform

/-! The command line: files, standard streams and the exit code. -/
namespace HostScript

namespace Main

def readFile? (path : Path) : IO (Option (List UInt8)) := do
  try
    return some (← IO.FS.readBinFile path.toString).toList
  catch _ => return none

def isDirectory (path : String) : IO Bool := do
  try
    (← IO.FS.realPath path).isDir
  catch _ => return false

/-- The directories along a rooted path. -/
def directoriesAlong (path : Path) : IO (List Path) := do
  let along := (List.range (path.parts.length + 1)).map fun n => Path.mk true (path.parts.take n)
  return (← along.filterM fun p => isDirectory p.toString).map Path.normalize

/-- Reads what a command needs, and what that imports, until nothing is new. -/
partial def gather (w : Command.World) (args : List String) (tried : List Path) :
    IO Command.World := do
  match (Command.reads w args).filter (· ∉ tried) with
  | [] => return w
  | wanted =>
    let found ← wanted.filterMapM fun p => do return (← readFile? p).map (p, ·)
    gather { w with disk := { w.disk with files := w.disk.files ++ found } } args (tried ++ wanted)

partial def readToEnd (stream : IO.FS.Stream) (bytes : Array UInt8) : IO (Array UInt8) := do
  let chunk ← stream.read 65536
  if chunk.isEmpty then return bytes else readToEnd stream (bytes ++ chunk.toList)

attribute [local instance (high)] instPowNat in
def start (args : List String) : IO UInt32 := do
  let cwd := Path.ofString (← IO.currentDir).toString
  let empty : Command.World := ⟨⟨[], []⟩, cwd, [], 2 ^ (64 : Nat)⟩
  let w ← gather empty args []
  let directories ← (Command.writes w args).flatMapM fun path =>
    directoriesAlong (Path.ofString (Command.absolute w path))
  let stdin ← match Command.parse args with
    | some (.run _ _) => readToEnd (← IO.getStdin) #[]
    | _ => pure #[]
  let w := { w with disk := { w.disk with directories }, stdin := stdin.toList }
  let outcome := Command.perform w args
  for (path, bytes) in outcome.disk.files do
    if w.disk.read? path ≠ some bytes then
      IO.FS.writeBinFile path.toString ⟨bytes.toArray⟩
  let stdout ← IO.getStdout
  stdout.write ⟨outcome.stdout⟩
  stdout.flush
  for line in outcome.stderr do
    IO.eprintln line
  return UInt32.ofNat outcome.code

end Main

end HostScript

def main (args : List String) : IO UInt32 := HostScript.Main.start args

import HostScript.Source.Path
import HostScript.Text.Utf8

/-! Files and directories as a value.

Files are kept by rooted paths without `.` and `..`; the directories are those on the
way to a file, and any others that are listed. Reading takes such a path. Writing
takes a path as it is given, and walks it component by component from a working
directory, so every directory on the way has to be there, also one that a `..` leaves
again. -/
namespace HostScript

structure Disk where
  files : List (Path × List UInt8)
  directories : List Path

namespace Disk

/-! ### Reading -/

def read? (d : Disk) (path : Path) : Option (List UInt8) := d.files.lookup path

/-- The text of a file, if it is text. -/
def text? (d : Disk) (path : Path) : Option (List Char) :=
  (d.read? path).bind fun bytes => (Utf8.decode bytes).toOption

/-! ### Writing -/

inductive WriteError where
  | missing
  | notDirectory
  | isDirectory
  deriving DecidableEq, Repr

def WriteError.message : WriteError → String
  | .missing => "No such file or directory (os error 2)"
  | .notDirectory => "Not a directory (os error 20)"
  | .isDirectory => "Is a directory (os error 21)"

/-- Whether components lead from the root to a directory. -/
def isDirectory (d : Disk) (parts : List Path.Part) : Bool :=
  parts.isEmpty || d.directories.any (fun dir => parts.isPrefixOf dir.parts) ||
    d.files.any (fun (file, _) => parts ≠ file.parts && parts.isPrefixOf file.parts)

def isFile (d : Disk) (parts : List Path.Part) : Bool := (d.read? ⟨true, parts⟩).isSome

/-- From a directory into what a component of a path names. -/
def enter (d : Disk) (parts : List Path.Part) : Path.Part → Except WriteError (List Path.Part)
  | .current => .ok parts
  | .parent => .ok parts.dropLast
  | .name text =>
    let next := parts ++ [.name text]
    if d.isDirectory next then .ok next
    else if d.isFile next then .error .notDirectory
    else .error .missing

/-- The rooted path of the file that a path names, if a file can be written there. -/
def target (d : Disk) (cwd : Path) (path : String) : Except WriteError Path := do
  let start := if Path.isRooted path then [] else cwd.parts
  match (Path.pieces path).reverse with
  | [] => throw (if Path.isRooted path then .isDirectory else .missing)
  | last :: before =>
    let parts ← (before.reverse.map Path.Part.ofText).foldlM d.enter start
    match Path.Part.ofText last with
    | .name text =>
      let file := parts ++ [.name text]
      if path.endsWith "/" || d.isDirectory file then throw .isDirectory
      else return ⟨true, file⟩
    | _ => throw .isDirectory

/-- The disk with a file set to some content. -/
def put (d : Disk) (path : Path) (bytes : List UInt8) : Disk :=
  { d with files := (path, bytes) :: d.files.filter (·.1 ≠ path) }

/-- Writes a file, new or not. -/
def write (d : Disk) (cwd : Path) (path : String) (bytes : List UInt8) : Except WriteError Disk :=
  (d.target cwd path).map fun path => d.put path bytes

end Disk

end HostScript

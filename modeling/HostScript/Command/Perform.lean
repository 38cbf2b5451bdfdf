import HostScript.Build
import HostScript.Command.Arguments
import HostScript.Host.Console

/-! What the command line does, on a disk that is a value.

`compile` writes the code of each script next to it or into one directory, and a
table of symbols; `run` compiles a script and runs it on a console. Anything wrong is
said on standard error and shows in the exit code. -/
namespace HostScript

namespace Command

/-- What a command leaves. -/
structure Outcome where
  code : Nat
  stdout : Array UInt8
  /-- The lines of standard error. -/
  stderr : List String
  disk : Disk

/-- Where and how a command runs. -/
structure World where
  disk : Disk
  cwd : Path
  stdin : List UInt8
  /-- The most statements that a script may run. -/
  limit : Nat

def failed (disk : Disk) (lines : List String) : Outcome := ⟨1, #[], lines, disk⟩

/-- A path as seen from the working directory. -/
def absolute (w : World) (path : String) : String := Path.joinText w.cwd.toString path

/-- Standard error for scripts that do not compile. -/
def complaints (diagnostics : List Diagnostic) : List String :=
  diagnostics.map Diagnostic.text ++
    [s!"Compilation failed with {diagnostics.length} error(s)."]

/-! ### Compiling -/

/-- A file to be written. -/
structure Output where
  path : String
  bytes : List UInt8

/-- Where the code of a script goes. -/
def codePath (options : CompileOptions) (script : Path) : String :=
  let directory := options.outDir.getD script.directory.toString
  Path.joinText directory (Path.withExtension "sknb" (script.fileName?.getD ""))

/-- Where the table of symbols goes: by default beside the first script. -/
def symbolsPath (w : World) (options : CompileOptions) : String :=
  let beside := (options.paths.head?.map fun p => Path.parentText (absolute w p)).getD ""
  options.symbolsFile.getD (Path.joinText (options.outDir.getD beside) (options.symbolsName ++ ".rs"))

/-- Everything that compiling writes, in order. -/
def outputs (w : World) (options : CompileOptions) (build : Build) : List Output :=
  build.files.map (fun (script, code) => ⟨codePath options script, code.toList⟩) ++
    [⟨symbolsPath w options, Utf8.encode (build.symbols.table options.symbolsName)⟩]

/-- Writes files up to the first that cannot be written. -/
def writeAll (w : World) : List Output → Disk → Outcome
  | [], disk => ⟨0, #[], [], disk⟩
  | output :: rest, disk =>
    match disk.write w.cwd output.path output.bytes with
    | .ok disk => writeAll w rest disk
    | .error e => failed disk ["Error: writing " ++ output.path, "", "Caused by:", "    " ++ e.message]

def performCompile (w : World) (options : CompileOptions) : Outcome :=
  if options.paths.isEmpty then failed w.disk ["Error: no scripts given"]
  else
    let build := Build.run w.disk options.debug (options.paths.map (absolute w))
    if build.diagnostics.isEmpty then writeAll w (outputs w options build) w.disk
    else failed w.disk (complaints build.diagnostics)

/-! ### Running -/

def performRun (w : World) (path : String) (debug : Bool) : Outcome :=
  let build := Build.run w.disk debug [absolute w path]
  if build.diagnostics.isEmpty then
    match build.files with
    | [] => failed w.disk ["Error: " ++ path ++ " produced no bytecode"]
    | (_, code) :: _ =>
      let (outcome, output) := Console.run code build.symbols debug w.stdin none w.limit
      match outcome.complaint? with
      | some text => ⟨1, output, ["Error: " ++ text], w.disk⟩
      | none => ⟨0, output, [], w.disk⟩
  else failed w.disk (complaints build.diagnostics)

def usage : List String :=
  ["usage: compile [--debug] [--symbols-prefix P] [--symbols-file F] [--out-dir D] PATH...",
    "       run [--debug] PATH"]

/-- The scripts that a command names. -/
def scripts : Command → List String
  | .compile options => options.paths
  | .run path _ => [path]

/-- The paths of all files that a command reads, as far as the disk tells what they import. -/
def reads (w : World) (args : List String) : List Path :=
  match parse args with
  | none => []
  | some command => Build.reads w.disk (command.scripts.map (absolute w))

/-- The paths of all files that a command writes if all goes well. -/
def writes (w : World) (args : List String) : List String :=
  match parse args with
  | some (.compile options) =>
    (outputs w options (Build.run w.disk options.debug (options.paths.map (absolute w)))).map (·.path)
  | _ => []

/-- Performs the command that some arguments give. -/
def perform (w : World) (args : List String) : Outcome :=
  match parse args with
  | none => ⟨2, #[], usage, w.disk⟩
  | some (.compile options) => performCompile w options
  | some (.run path debug) => performRun w path debug

end Command

end HostScript

/-! The words of a command line.

A command has flags, options with a value, and plain words. Flags and options may
stand anywhere, each at most once; `--` makes all words after it plain. -/
namespace HostScript

namespace Command

/-- What a command takes besides plain words, by name. -/
structure Grammar where
  flags : List String
  options : List String

/-- What was given. -/
structure Words where
  flags : List String
  options : List (String × String)
  plain : List String
  deriving DecidableEq, Repr

def Words.empty : Words := ⟨[], [], []⟩

/-- What a single word is. -/
inductive WordClass where
  | plain
  | flag (name : String)
  | option (name : String)
  | assignment (name value : String)
  | unknown
  deriving DecidableEq, Repr

/-- A lone `-` is a plain word. -/
def isPlain (word : String) : Bool :=
  match word.toList with
  | '-' :: _ :: _ => false
  | _ => true

/-- Splits `--name=value`. -/
def splitAssignment (word : String) : String × Option String :=
  match word.toList.span (· ≠ '=') with
  | (name, _ :: value) => (String.ofList name, some (String.ofList value))
  | (name, []) => (String.ofList name, none)

def classify (g : Grammar) (word : String) : WordClass :=
  if isPlain word then .plain
  else if word = "-v" then .flag "--verbose"
  else
    match splitAssignment word with
    | (name, none) =>
      if name ∈ g.flags then .flag name
      else if name ∈ g.options then .option name
      else .unknown
    | (name, some value) => if name ∈ g.options then .assignment name value else .unknown

def Words.addFlag (w : Words) (name : String) : Option Words :=
  if name ∈ w.flags then none else some { w with flags := name :: w.flags }

def Words.addOption (w : Words) (name value : String) : Option Words :=
  if (w.options.lookup name).isSome then none
  else some { w with options := (name, value) :: w.options }

/-- Sorts the words of a command; none if one of them makes no sense. -/
def sortWords (g : Grammar) : List String → Words → Option Words
  | [], w => some w
  | "--" :: rest, w => some { w with plain := w.plain ++ rest }
  | word :: rest, w =>
    match classify g word with
    | .plain => sortWords g rest { w with plain := w.plain ++ [word] }
    | .flag name => (w.addFlag name).bind (sortWords g rest)
    | .assignment name value => (w.addOption name value).bind (sortWords g rest)
    | .option name =>
      match rest with
      | [] => none
      | value :: rest =>
        if isPlain value then (w.addOption name value).bind (sortWords g rest) else none
    | .unknown => none

end Command

/-- How scripts are to be compiled. -/
structure CompileOptions where
  paths : List String
  debug : Bool
  /-- The name of the module in the table of symbols. -/
  symbolsName : String
  symbolsFile : Option String
  outDir : Option String
  deriving DecidableEq, Repr

inductive Command where
  | compile (options : CompileOptions)
  | run (path : String) (debug : Bool)
  deriving DecidableEq, Repr

namespace Command

def ofCompileWords (w : Words) : Option Command :=
  let file (name : String) := w.options.lookup name
  if "" ∈ w.plain ∨ file "--symbols-file" = some "" ∨ file "--out-dir" = some "" then none
  else some (.compile ⟨w.plain, "--debug" ∈ w.flags, (file "--symbols-prefix").getD "symbols",
    file "--symbols-file", file "--out-dir"⟩)

def ofRunWords (w : Words) : Option Command :=
  match w.plain with
  | [path] => if path = "" then none else some (.run path ("--debug" ∈ w.flags))
  | _ => none

/-- The command behind the words that all commands share. -/
def parseAfter (verbose : Bool) : List String → Option Command
  | "compile" :: rest =>
    (sortWords ⟨["--debug", "--verbose"], ["--symbols-prefix", "--symbols-file", "--out-dir"]⟩ rest
      .empty).bind ofCompileWords
  | "run" :: rest => (sortWords ⟨["--debug", "--verbose"], []⟩ rest .empty).bind ofRunWords
  | word :: rest =>
    if (word = "-v" ∨ word = "--verbose") ∧ !verbose then parseAfter true rest else none
  | [] => none

/-- The command that some arguments give, if they give one. -/
def parse (args : List String) : Option Command := parseAfter false args

end Command

end HostScript

/-! Paths as components.

A path is rooted or relative, and a list of names, `.` and `..`. Reading a path
drops what does not matter: repeated and trailing separators, and every `.` but
one that starts a relative path. `normalize` resolves `.` and `..` by the text
alone, without looking at any file. -/
namespace HostScript

inductive Path.Part where
  | current
  | parent
  | name (text : String)
  deriving DecidableEq, Repr

structure Path where
  rooted : Bool
  parts : List Path.Part
  deriving DecidableEq, Repr

namespace Path

def Part.text : Part → String
  | .current => "."
  | .parent => ".."
  | .name text => text

def Part.ofText : String → Part
  | "." => .current
  | ".." => .parent
  | text => .name text

def isRooted (text : String) : Bool :=
  text.toList.head? == some '/'

/-- The texts between separators. -/
def split (text : String) : List String :=
  (text.toList.splitOn '/').map String.ofList

/-- The pieces between separators, empty ones left out. -/
def pieces (text : String) : List String :=
  (split text).filter (· ≠ "")

def ofString (text : String) : Path :=
  match pieces text, isRooted text with
  | "." :: rest, false => ⟨false, .current :: named rest⟩
  | pieces, rooted => ⟨rooted, named pieces⟩
where
  named (pieces : List String) : List Part :=
    (pieces.map Part.ofText).filter (· ≠ .current)

def toString (p : Path) : String :=
  (if p.rooted then "/" else "") ++ "/".intercalate (p.parts.map Part.text)

instance : ToString Path := ⟨toString⟩

/-- The place of `q` seen from `p`. -/
def join (p q : Path) : Path :=
  if q.rooted then q else ⟨p.rooted, p.parts ++ q.parts⟩

/-- The text of a path with another one behind it, which replaces it if it is rooted. -/
def joinText (directory name : String) : String :=
  if isRooted name || directory.isEmpty then name
  else if directory.endsWith "/" then directory ++ name
  else directory ++ "/" ++ name

/-- The text of a rooted path without its last component. Only separators and `.` next to that
component go with it. -/
def parentText (text : String) : String :=
  let idle (piece : String) : Bool := piece = "" || piece = "."
  match (((split text).reverse.dropWhile idle).drop 1).dropWhile idle with
  | [] => "/"
  | before => "/".intercalate before.reverse

/-- One component more on a normalized path, given last component first. `..` takes
the last component away, whatever it is; with none left it stays at the root, or
starts a relative path. -/
def extend (rooted : Bool) (reversed : List Part) : Part → List Part
  | .current => reversed
  | .name text => .name text :: reversed
  | .parent =>
    match reversed with
    | _ :: rest => rest
    | [] => if rooted then [] else [.parent]

def normalize (p : Path) : Path :=
  ⟨p.rooted, (p.parts.foldl (extend p.rooted) []).reverse⟩

/-- The path without its last component. -/
def directory (p : Path) : Path :=
  ⟨p.rooted, p.parts.dropLast⟩

/-- The last component, if it is a name. -/
def fileName? (p : Path) : Option String :=
  match p.parts.getLast? with
  | some (.name text) => some text
  | _ => none

/-- A file name with its extension replaced. A name that starts with its only point has none. -/
def withExtension (extension : String) (name : String) : String :=
  match name.toList.reverse.span (· ≠ '.') with
  | (_, _ :: c :: stem) => String.ofList (c :: stem).reverse ++ "." ++ extension
  | _ => name ++ "." ++ extension

attribute [local instance (high)] List.instLE in
/-- The order of paths: component by component. -/
def le (p q : Path) : Bool :=
  if p.rooted = q.rooted then p.parts.map Part.text ≤ q.parts.map Part.text else p.rooted

end Path

end HostScript

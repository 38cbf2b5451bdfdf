import HostScript.Proofs.OneFile

/-! Files in the root directory that import each other.

Loading goes on until no file is new, so it does not unfold. With the imports of each
file known by name, loading files can be followed step by step, and what comes out of it
can be computed. -/
namespace HostScript

open List Option

namespace Session

/-- The path of a file in the root directory. -/
def fileNamed (name : String) : Path := ⟨true, [.name name]⟩

/-- A disk with files in the root directory. -/
def diskOf (files : List (String × String)) : Disk :=
  ⟨files.map fun (name, text) => (fileNamed name, Utf8.encode text), []⟩

/-- The imports of a file are known once they have been loaded. -/
def importing (s : Session) (i : Nat) (js : List Nat) : Session :=
  s.modifyUnit i fun u => { u with imports := js }

section Load

variable {s t u : Session} {fuel j n : Nat} {js : List Nat} {name : String}

/-- A file is new, and what it imports is loaded next. -/
theorem loadFrom_named (names : List String) (h : s.sources.size = n ∧ s.find? (fileNamed name) = none ∧
      (s.add (fileNamed name)).importPaths n = names.map fileNamed)
    (hrest : (names.map fileNamed).mapM (loadFrom fuel) (s.add (fileNamed name)) = (js, t)) :
    loadFrom (fuel + 1) (fileNamed name) s = (n, t.importing n js) := by
  obtain ⟨rfl, hnew, hpaths⟩ := h
  rw [loadFrom_new (show s.find? (fileNamed name).normalize = none from hnew),
    show (fileNamed name).normalize = fileNamed name from rfl, hpaths, hrest]
  rfl

theorem mapM_loadFrom_cons (names : List String) (hfirst : loadFrom fuel (fileNamed name) s = (j, t))
    (hrest : (names.map fileNamed).mapM (loadFrom fuel) t = (js, u)) :
    ((name :: names).map fileNamed).mapM (loadFrom fuel) s = (j :: js, u) := by
  rw [map_cons, mapM_cons]
  simp only [bind, StateT.bind, hfirst, hrest]
  rfl

end Load

/-! ### Four files -/

/-- A file that imports two others, and the first of these imports one more. -/
def fourFiles : Disk := diskOf [
  ("a", "#import \"b\"\n#import \"c\"\nstring t = s; if (n > m) \x7b int32 k = next(); n = k + m; \x7d"),
  ("b", "#import \"d\"\nint32 n = next(); \x7b int8 x = z; \x7d"),
  ("c", "string s = \"x\"; int32 m = 2;"),
  ("d", "#global \x7b int32 next(); \x7d int8 z = 3;")]

/-- The files in the order in which they are loaded. -/
def fourFilesLoaded (debug : Bool) : Session :=
  let s := ((Session.new fourFiles debug).add (fileNamed "a")).add (fileNamed "b")
  let s := ((s.add (fileNamed "d")).importing 2 []).importing 1 [2]
  ((s.add (fileNamed "c")).importing 3 []).importing 0 [1, 3]

theorem load_fourFiles (debug : Bool) :
    (Session.new fourFiles debug).load (fileNamed "a") = (0, fourFilesLoaded debug) := by
  show loadFrom 4 (fileNamed "a") (Session.new fourFiles debug) = _
  refine loadFrom_named ["b", "c"] ?_ <|
    mapM_loadFrom_cons ["c"] (loadFrom_named ["d"] ?_ <|
      mapM_loadFrom_cons [] (loadFrom_named [] ?_ rfl) rfl) <|
    mapM_loadFrom_cons [] (loadFrom_named [] ?_ rfl) rfl
  all_goals cases debug <;> decide +kernel

def fourFilesSession (debug : Bool) : Session := (fourFilesLoaded debug).compile 0

end Session

end HostScript

import HostScript.Proofs.Assembly

/-! Builds of one file.

When there is one file, a build is that file loaded and compiled, and everything about
it can be computed. -/
namespace HostScript

namespace Build

open Session

/-- The path of a file `a` in the root directory. -/
def rootFile : Path := ⟨true, [.name "a"]⟩

def oneFile (text : String) : Disk := ⟨[(rootFile, Utf8.encode text)], []⟩

/-- The session of a build of the only file there is. -/
def sessionOf (text : String) (debug : Bool) : Session :=
  ((Session.new (oneFile text) debug).load rootFile).2.compile 0

/-- Sorting names does not unfold. With names that are in order, everything else about a build with one root
can be computed. -/
theorem run_sorted {disk : Disk} {debug : Bool} {code : Array UInt8} (names : List String)
    (hsorted : names.Pairwise fun a b => a ≤ b)
    (h : (compileAll paths (.new disk debug)).1.1 = [] ∧ (compileAll paths (.new disk debug)).1.2 = [0] ∧
      ((session disk debug paths).units.toList.filterMap (·.script)).flatMap descriptors = names ∧
      (session disk debug paths).diagnostics = [] ∧
      fileAt? (session disk debug paths) (names.eraseReps.zipIdx 1) 0 = some (path, code) ∧ code.size ≤ maxCodeSize) :
    run disk debug paths = ⟨[], names.eraseReps.zipIdx 1, [(path, code)]⟩ := by
  obtain ⟨hrefused, hroots, hnames, hquiet, hfile, hsize⟩ := h
  have hall : compileAll paths (.new disk debug) = (([], [0]), session disk debug paths) :=
    Prod.ext (Prod.ext hrefused hroots) rfl
  have hsymbols : (session disk debug paths).symbols = names.eraseReps.zipIdx 1 := by
    rw [Session.symbols, hnames, List.mergeSort_of_pairwise (hsorted.imp fun h => decide_eq_true h)]
  unfold run
  rw [hall]
  dsimp only
  rw [List.nil_append, hquiet, hsymbols]
  simp only [List.isEmpty_nil, List.filterMap_cons, hfile, List.filterMap_nil, sizeProblem?,
    if_neg (Nat.not_lt.2 hsize), List.mergeSort_singleton, if_true]
  rfl

/-! ### Scripts with a loop -/

/-- A loop that asks the host for numbers. -/
def countdown : String := "#global \x7b int32 next(); \x7d int32 n = 9; while (n > 0) \x7b n -= next(); \x7d"

def countdownCode : Array UInt8 :=
  #[4, 0, 0, 0, 35, 3, 0, 0, 2, 9, 0, 0, 0, 38, 27, 3, 6, 0, 0, 2, 0, 0, 0, 0, 16, 0, 35, 3, 0, 0, 8, 6, 0, 0, 32,
    1, 1, 0, 0, 40, 29, 0]

theorem mem_countdown : (rootFile, countdownCode) ∈ (run (oneFile countdown) false ["/a"]).files := by
  decide +kernel

theorem clean_countdown : ∀ x ∈ (session (oneFile countdown) false ["/a"]).texts, Clean x := by
  decide +kernel

theorem solid_countdown : ∀ a ∈ (session (oneFile countdown) false ["/a"]).asks, a.hasVoidOperand = false := by
  decide +kernel

/-- A loop that is left when the host gives a large number. -/
def waiting : String := "#global \x7b int32 next(); \x7d while (true) \x7b int32 k = next(); if (k > 2) \x7b break; \x7d \x7d"

def waitingCode : Array UInt8 :=
  #[4, 0, 0, 0, 35, 3, 0, 0, 32, 1, 1, 0, 0, 38, 27, 3, 6, 0, 0, 2, 2, 0, 0, 0, 3, 0, 39, 3, 0, 40, 28, 0]

theorem mem_waiting : (rootFile, waitingCode) ∈ (run (oneFile waiting) false ["/a"]).files := by
  decide +kernel

end Build

end HostScript

import HostScript.Proofs.Reordered

/-! The order of scripts.

A build is the same for the same scripts in another order (`Build.order_irrelevant`): the session of
one order is that of the other with other numbers for its files, so files have the same problems and
the same code, and what is sorted in the end, host members by name and files by path, has one order. -/
namespace HostScript

open List Option

/-! ### Sorting -/

namespace Path

attribute [local instance (high)] List.instLE

theorem le_iff (p q : Path) :
    p.le q ↔ if p.rooted = q.rooted then p.parts.map Part.text ≤ q.parts.map Part.text else p.rooted := by
  unfold le
  split
  · exact decide_eq_true_iff
  · exact Iff.rfl

theorem le_total (p q : Path) : p.le q || q.le p := by
  rw [Bool.or_eq_true, le_iff, le_iff]
  by_cases h : p.rooted = q.rooted
  · rw [if_pos h, if_pos h.symm]
    exact List.le_total _ _
  · rw [if_neg h]
    cases hp : p.rooted <;> simp_all

theorem le_trans {p q r : Path} (hpq : p.le q) (hqr : q.le r) : p.le r := by
  rw [le_iff] at *
  by_cases h : p.rooted = q.rooted <;> by_cases h' : q.rooted = r.rooted
  · rw [if_pos h] at hpq
    rw [if_pos h'] at hqr
    rw [if_pos (h.trans h')]
    exact List.le_trans hpq hqr
  · simp_all
  · simp_all
  · cases hp : p.rooted <;> cases hq : q.rooted <;> cases hr : r.rooted <;> simp_all

/-- A path without `.` and `..`. -/
def Named (p : Path) : Prop := ∀ part ∈ p.parts, part = .name part.text

/-- Texts tell named paths apart, so their order does. Others it does not: `.` may be a name. -/
theorem Named.le_antisymm {p q : Path} (hp : p.Named) (hq : q.Named) (hpq : p.le q) (hqp : q.le p) : p = q := by
  have hrooted : p.rooted = q.rooted := by
    by_cases h : p.rooted = q.rooted
    · exact h
    · rw [le_iff, if_neg h] at hpq
      rw [le_iff, if_neg (Ne.symm h)] at hqp
      exact hpq.trans hqp.symm
  rw [le_iff, if_pos hrooted] at hpq
  rw [le_iff, if_pos hrooted.symm] at hqp
  have hname : ∀ {p : Path}, p.Named → p.parts = (p.parts.map Part.text).map Part.name := by
    intro p h
    rw [List.map_map]
    exact (List.map_id p.parts).symm.trans (List.map_congr_left h)
  have hparts : p.parts = q.parts := by
    rw [hname hp, hname hq, List.le_antisymm hpq hqp]
  exact Path.mk.injEq .. ▸ ⟨hrooted, hparts⟩

theorem rooted_ofString (h : isRooted text) : (ofString text).rooted := by
  unfold ofString
  rw [h]
  split
  · contradiction
  · rfl

theorem named_normalize {p : Path} (h : p.rooted) : p.normalize.Named := by
  have hfold : ∀ (parts reversed : List Part), (∀ part ∈ reversed, part = .name part.text) →
      ∀ part ∈ parts.foldl (extend true) reversed, part = .name part.text := by
    intro parts
    induction parts with
    | nil => exact fun _ h => h
    | cons part rest ih =>
      intro reversed h
      refine ih _ ?_
      cases part with
      | current => exact h
      | name text => exact forall_mem_cons.2 ⟨rfl, h⟩
      | parent =>
        cases reversed with
        | nil => exact h
        | cons last before => exact (forall_mem_cons.1 h).2
  intro part hpart
  rw [normalize, h] at hpart
  exact hfold p.parts [] nofun part (mem_reverse.1 hpart)

end Path

/-- Sorting forgets the order before if it tells all members apart. -/
theorem mergeSort_eq_of_perm {le : α → α → Bool} {xs ys : List α} (h : xs.Perm ys)
    (trans : ∀ a b c, le a b → le b c → le a c) (total : ∀ a b, le a b || le b a)
    (antisymm : ∀ a ∈ xs, ∀ b ∈ xs, le a b → le b a → a = b) : xs.mergeSort le = ys.mergeSort le := by
  have hperm : (xs.mergeSort le).Perm (ys.mergeSort le) :=
    ((mergeSort_perm xs le).trans h).trans (mergeSort_perm ys le).symm
  refine hperm.eq_of_pairwise ?_ (pairwise_mergeSort trans total xs) (pairwise_mergeSort trans total ys)
  intro a b ha hb
  exact antisymm a (mem_mergeSort.1 ha) b (h.mem_iff.2 (mem_mergeSort.1 hb))

theorem mergeSort_texts {xs ys : List String} (h : xs.Perm ys) :
    (xs.mergeSort fun a b => a ≤ b) = ys.mergeSort fun a b => a ≤ b :=
  mergeSort_eq_of_perm h
    (fun _ _ _ hab hbc => decide_eq_true (String.le_trans (of_decide_eq_true hab) (of_decide_eq_true hbc)))
    (fun a b => by simp [String.le_total a b])
    fun _ _ _ _ hab hba => String.le_antisymm (of_decide_eq_true hab) (of_decide_eq_true hba)

/-! ### Host members and code -/

namespace Session

theorem descriptors_renumber (f : Nat → Nat) (script : Script) :
    descriptors (script.renumber f) = descriptors script := by
  have hmembers : (script.renumber f).globals.map (Member.mk none) ++
      ((script.renumber f).types.flatMap fun t => t.members.map (Member.mk (some t.name.name))) =
      (script.globals.map (Member.mk none) ++ script.types.flatMap fun t => t.members.map (Member.mk (some t.name.name))).map
        (Member.renumber (MemberDecl.renumber f)) := by
    rw [Script.globals_renumber, Script.types_renumber, List.flatMap_map, List.map_append, List.map_flatMap]
    simp only [TypeDecl.renumber, List.map_map]
    rfl
  unfold descriptors
  rw [hmembers, List.filterMap_map]
  refine List.filterMap_congr fun m _ => ?_
  obtain ⟨owner, d⟩ := m
  cases d with
  | function d => exact congrArg some (Member.functionDescriptor_renumber ⟨owner, d⟩)
  | property _ | subscript _ => rfl

theorem flatMap_scripts (g : Script → List α) (units : List FileUnit) :
    (units.filterMap (·.script)).flatMap g = units.flatMap fun u => (u.script.map g).getD [] := by
  induction units with
  | nil => rfl
  | cons u rest ih =>
    rw [filterMap_cons, flatMap_cons, ← ih]
    cases u.script with
    | none => rfl
    | some script => exact flatMap_cons

/-- The final code for a result. -/
def finalCode? (symbols : Fragment.Symbols) (r : Fragment × Variables) : Option (Array UInt8) := do
  guard (r.1.unresolved symbols).isEmpty
  guard (r.2.needed.bytes ≤ Storage.limit ∧ r.2.needed.slots ≤ Storage.limit)
  return (Fragment.word r.2.needed.bytes ++ .word r.2.needed.slots ++ r.1.resolveSymbols symbols).bytes

theorem bytecode?_eq (s : Session) (i : Nat) (symbols : Fragment.Symbols) :
    s.bytecode? i symbols = (s.result? i).bind (finalCode? symbols) := by
  unfold bytecode? result?
  cases s.units[i]? with
  | none => rfl
  | some u =>
    cases u.result with
    | none | some _ => rfl

namespace Reorders

variable {f : Nat → Nat} {s t : Session}

section

variable (h : Reorders f s t) (hs : Reachable s) (ht : Reachable t)
include h hs ht

theorem symbols : t.symbols = s.symbols := by
  have hscript : ∀ (s : Session) (k : Nat), ((s.units[k]?).map fun u => (u.script.map descriptors).getD []).getD [] =
      ((s.script? k).map descriptors).getD [] := by
    intro s k
    unfold script?
    cases s.units[k]? <;> rfl
  have hperm : ((s.units.toList.filterMap (·.script)).flatMap descriptors).Perm
      ((t.units.toList.filterMap (·.script)).flatMap descriptors) := by
    rw [flatMap_scripts, flatMap_scripts]
    refine h.perm_flatMap hs ht fun k => ?_
    rw [hscript, hscript, h.script, Option.map_map]
    exact congrArg (fun g => ((s.script? k).map g).getD []) (funext (descriptors_renumber f))
  exact congrArg (fun names => names.eraseReps.zipIdx 1) (mergeSort_texts hperm).symm

theorem diagnostics : s.diagnostics.Perm t.diagnostics := by
  refine h.perm_flatMap hs ht fun k => ?_
  rw [(h.unit hs ht k).1]

theorem fileAt (symbols : Fragment.Symbols) (k : Nat) :
    Build.fileAt? t symbols (f k) = Build.fileAt? s symbols k := by
  have hcode : t.bytecode? (f k) symbols = s.bytecode? k symbols := by
    rw [bytecode?_eq, bytecode?_eq, (h.unit hs ht k).2, bind_map]
    rfl
  unfold Build.fileAt?
  rw [h.source, hcode]

end

end Reorders

end Session

/-! ### Builds -/

namespace Build

open Session

variable {disk : Disk} {debug : Bool} {paths paths' : List String}

/-- The files with final code, one for each script, in the order of scripts. -/
def outputs (disk : Disk) (debug : Bool) (paths : List String) : List (Path × Array UInt8) :=
  (compileAll paths (.new disk debug)).1.2.filterMap (fileAt? (session disk debug paths) (session disk debug paths).symbols)

theorem source_of_mem_outputs (h : file ∈ outputs disk debug paths) : file.1.Named ∧
    ∃ i, (session disk debug paths).pathAt? i = some file.1 ∧
      fileAt? (session disk debug paths) (session disk debug paths).symbols i = some file := by
  obtain ⟨i, hi, hfile⟩ := mem_filterMap.1 h
  have hp : (session disk debug paths).pathAt? i = some file.1 := by
    obtain ⟨source, hsource, hcode⟩ := bind_eq_some_iff.1 hfile
    obtain ⟨code, -, heq⟩ := bind_eq_some_iff.1 hcode
    cases heq
    exact congrArg (Option.map (·.path)) hsource
  refine ⟨?_, i, hp, hfile⟩
  have hroot := mem_map_of_mem (f := (session disk debug paths).pathAt?) hi
  rw [session, pathAt_roots (.new disk debug)] at hroot
  obtain ⟨path, hpath, heq⟩ := mem_map.1 hroot
  rw [← Option.some.inj (heq.trans hp)]
  exact Path.named_normalize (Path.rooted_ofString (mem_filter.1 hpath).2)

/-- At one path there is one file. -/
theorem outputs_antisymm (ha : a ∈ outputs disk debug paths) (hb : b ∈ outputs disk debug paths) (hab : a.1.le b.1)
    (hba : b.1.le a.1) : a = b := by
  obtain ⟨hnamed, i, hi, hfile⟩ := source_of_mem_outputs ha
  obtain ⟨hnamed', j, hj, hfile'⟩ := source_of_mem_outputs hb
  have hpath : a.1 = b.1 := hnamed.le_antisymm hnamed' hab hba
  have hij : i = j := pathAt_injective (distinct_session disk debug paths) hi (hpath ▸ hj)
  rw [hij, hfile'] at hfile
  exact (Option.some.inj hfile).symm

/-- Other numbers and another order make the roots of one session those of the other. -/
theorem roots_perm (h : paths.Perm paths') {f : Nat → Nat}
    (hf : Reorders f (session disk debug paths) (session disk debug paths')) :
    ((compileAll paths (.new disk debug)).1.2.map f).Perm (compileAll paths' (.new disk debug)).1.2 := by
  have hdistinct := distinct_session disk debug paths'
  have hroots : (compileAll paths (.new disk debug)).1.2.map f =
      ((paths.filter Path.isRooted).map fun path => (Path.ofString path).normalize).map (session disk debug paths').number := by
    refine eq_map_number hdistinct ?_
    have hpath : (session disk debug paths').pathAt? ∘ f = (session disk debug paths).pathAt? := funext hf.pathAt
    rw [List.map_map, List.map_map, hpath]
    exact pathAt_roots (.new disk debug)
  have hroots' : (compileAll paths' (.new disk debug)).1.2 =
      ((paths'.filter Path.isRooted).map fun path => (Path.ofString path).normalize).map (session disk debug paths').number := by
    refine eq_map_number hdistinct ?_
    rw [List.map_map]
    exact pathAt_roots (.new disk debug)
  rw [hroots, hroots']
  exact ((h.filter _).map _).map _

theorem outputs_perm (h : paths.Perm paths') (hf : Reorders f (session disk debug paths) (session disk debug paths')) :
    (outputs disk debug paths).Perm (outputs disk debug paths') := by
  have hs := reachable_session disk debug paths
  have ht := reachable_session disk debug paths'
  have hfile : fileAt? (session disk debug paths') (session disk debug paths').symbols ∘ f =
      fileAt? (session disk debug paths) (session disk debug paths).symbols := by
    rw [hf.symbols hs ht]
    exact funext (hf.fileAt hs ht _)
  have hfiles := (roots_perm h hf).filterMap (fileAt? (session disk debug paths') (session disk debug paths').symbols)
  rwa [filterMap_map, hfile] at hfiles

/-- The build from its problems, symbols and files. -/
def assemble (diagnostics : List Diagnostic) (symbols : Fragment.Symbols) (files : List (Path × Array UInt8)) : Build :=
  if diagnostics.isEmpty then
    if (files.filterMap sizeProblem?).isEmpty then ⟨[], symbols, (files.mergeSort fun a b => a.1.le b.1).eraseReps⟩
    else ⟨files.filterMap sizeProblem?, symbols, []⟩
  else ⟨diagnostics, symbols, []⟩

theorem run_eq (disk : Disk) (debug : Bool) (paths : List String) : run disk debug paths =
    assemble ((compileAll paths (.new disk debug)).1.1 ++ (session disk debug paths).diagnostics)
      (session disk debug paths).symbols (outputs disk debug paths) := rfl

theorem assemble_perm {problems problems' : List Diagnostic} {files files' : List (Path × Array UInt8)}
    (symbols : Fragment.Symbols) (hproblems : problems.Perm problems') (hfiles : files.Perm files')
    (antisymm : ∀ a ∈ files, ∀ b ∈ files, a.1.le b.1 → b.1.le a.1 → a = b) :
    (assemble problems symbols files).diagnostics.Perm (assemble problems' symbols files').diagnostics ∧
      (assemble problems symbols files).symbols = (assemble problems' symbols files').symbols ∧
      (assemble problems symbols files).files = (assemble problems' symbols files').files := by
  have hlarge := hfiles.filterMap sizeProblem?
  unfold assemble
  rw [← hproblems.isEmpty_eq, ← hlarge.isEmpty_eq]
  split
  · split
    · exact ⟨.refl _, rfl, congrArg List.eraseReps (mergeSort_eq_of_perm hfiles (fun _ _ _ => Path.le_trans)
        (fun a b => Path.le_total a.1 b.1) antisymm)⟩
    · exact ⟨hlarge, rfl, rfl⟩
  · exact ⟨hproblems, rfl, rfl⟩

/-- For the same scripts in another order, a build succeeds or not alike, with the same symbols and the same code for
each path, and has the same problems in some order. -/
theorem order_irrelevant (disk : Disk) (debug : Bool) {paths paths' : List String} (h : paths.Perm paths') :
    ((run disk debug paths).diagnostics = [] ↔ (run disk debug paths').diagnostics = []) ∧
      (run disk debug paths).symbols = (run disk debug paths').symbols ∧
      (run disk debug paths).files = (run disk debug paths').files ∧
      (run disk debug paths).diagnostics.Perm (run disk debug paths').diagnostics := by
  obtain ⟨f, hf⟩ := exists_reorders disk debug h
  have hs := reachable_session disk debug paths
  have ht := reachable_session disk debug paths'
  have hproblems : ((compileAll paths (.new disk debug)).1.1 ++ (session disk debug paths).diagnostics).Perm
      ((compileAll paths' (.new disk debug)).1.1 ++ (session disk debug paths').diagnostics) := by
    rw [refused_compileAll, refused_compileAll]
    exact ((h.filter _).map _).append (hf.diagnostics hs ht)
  obtain ⟨hdiagnostics, hsymbols, hsame⟩ := assemble_perm (session disk debug paths).symbols hproblems (outputs_perm h hf)
    fun a ha b hb => outputs_antisymm ha hb
  rw [run_eq, run_eq, hf.symbols hs ht]
  refine ⟨?_, hsymbols, hsame, hdiagnostics⟩
  rw [← List.isEmpty_iff, ← List.isEmpty_iff, hdiagnostics.isEmpty_eq]

theorem order_irrelevant_fourFiles : ["/b", "/a", "/b"].Perm ["/a", "/b", "/b"] ∧
    ((run fourFiles false ["/b", "/a", "/b"]).diagnostics = [] ↔
        (run fourFiles false ["/a", "/b", "/b"]).diagnostics = []) ∧
      (run fourFiles false ["/b", "/a", "/b"]).symbols = (run fourFiles false ["/a", "/b", "/b"]).symbols ∧
      (run fourFiles false ["/b", "/a", "/b"]).files = (run fourFiles false ["/a", "/b", "/b"]).files ∧
      (run fourFiles false ["/b", "/a", "/b"]).diagnostics.Perm (run fourFiles false ["/a", "/b", "/b"]).diagnostics :=
  ⟨.swap "/a" "/b" ["/b"], order_irrelevant fourFiles false (.swap "/a" "/b" ["/b"])⟩

end Build

end HostScript

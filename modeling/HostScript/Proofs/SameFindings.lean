import HostScript.Proofs.CompileOrder

/-! Problems are the same with and without a debugger.

What is found in a script does not depend on whether code for a debugger is made, and
neither do the variables that it leaves. So two sessions that differ in this only go
side by side: they load and compile the same files and find the same problems
(`Session.Mirrors`), whatever the files say. -/
namespace HostScript

open List Option

/-! ### Sessions -/

/-- A file of a session with its code left out. -/
def FileUnit.bare (u : FileUnit) : FileUnit := { u with result := u.result.map fun r => (∅, r.2) }

namespace Session

/-- The same files at the same stage, with the same problems found so far. Only code differs. -/
structure Mirrors (s t : Session) : Prop where
  disk : t.disk = s.disk
  sources : t.sources = s.sources
  units : t.units.map FileUnit.bare = s.units.map FileUnit.bare

section Mirrors

variable {s t : Session}

section

variable (h : Mirrors s t)
include h

theorem Mirrors.unit (i : Nat) :
    (t.units[i]?).map FileUnit.bare = (s.units[i]?).map FileUnit.bare := by
  rw [← Array.getElem?_map, h.units, Array.getElem?_map]

theorem Mirrors.alike : Alike s t := by
  refine ⟨by simpa using congrArg Array.size h.units, fun i => ?_⟩
  have hi := congrArg (Option.map fun u => (u.script, u.imports)) (h.unit i)
  rw [Option.map_map, Option.map_map] at hi
  exact hi

theorem Mirrors.diagnostics : t.diagnostics = s.diagnostics := by
  have hunits := congrArg (fun us => us.toList.flatMap FileUnit.diagnostics) h.units
  simp only [Array.toList_map, flatMap_map] at hunits
  exact hunits

theorem Mirrors.symbols : t.symbols = s.symbols := by
  have hunits := congrArg (fun us => us.toList.filterMap FileUnit.script) h.units
  simp only [Array.toList_map, filterMap_map] at hunits
  unfold Session.symbols
  rw [show t.units.toList.filterMap (·.script) = s.units.toList.filterMap (·.script) from hunits]

theorem Mirrors.importPaths (i : Nat) : t.importPaths i = s.importPaths i := by
  unfold Session.importPaths
  rw [h.sources, h.alike.script i]

theorem Mirrors.obstacle (i : Nat) (script : Script) :
    t.obstacle? i script = s.obstacle? i script := by
  unfold obstacle? inheritanceCycle? pathOf
  rw [h.sources, h.alike.api i, h.alike.repeated i]

theorem Mirrors.modify (i : Nat) (hfg : ∀ u v : FileUnit, v.bare = u.bare → (g v).bare = (f u).bare) :
    Mirrors (s.modifyUnit i f) (t.modifyUnit i g) := by
  refine ⟨h.disk, h.sources, Array.ext_getElem? fun j => ?_⟩
  have hj := h.unit j
  rw [Array.getElem?_map, Array.getElem?_map, getElem?_modifyUnit, getElem?_modifyUnit]
  split
  · cases ht : t.units[j]? <;> cases hs : s.units[j]? <;> rw [ht, hs] at hj
    · rfl
    · cases hj
    · cases hj
    · exact congrArg some (hfg _ _ (Option.some.inj hj))
  · exact hj

theorem Mirrors.add (path : Path) : Mirrors (s.add path) (t.add path) := by
  refine ⟨h.disk, ?_, ?_⟩
  · show t.sources.push (readFile t.disk path t.sources.size).1 = s.sources.push (readFile s.disk path s.sources.size).1
    rw [h.disk, h.sources]
  · show (t.units.push (readFile t.disk path t.sources.size).2).map _ =
      (s.units.push (readFile s.disk path s.sources.size).2).map _
    rw [Array.map_push, Array.map_push, h.disk, h.sources, h.units]

theorem Mirrors.find (path : Path) : t.find? path = s.find? path := by
  unfold find?
  rw [h.sources]

end

theorem abreast_loadFrom (fuel : Nat) (path : Path) : Abreast Mirrors Eq (loadFrom fuel path) (loadFrom fuel path) := by
  induction fuel generalizing path with
  | zero =>
    unfold loadFrom
    refine abreast_get.bind fun s t hst => ?_
    rw [hst.find]
    cases s.find? path.normalize with
    | some i => exact abreast_pure rfl
    | none =>
      refine abreast_get.bind fun s t hst => (abreast_modify fun s t h => h.add _).bind fun _ _ _ => abreast_pure ?_
      rw [hst.sources]
  | succ fuel ih =>
    unfold loadFrom
    refine abreast_get.bind fun s t hst => ?_
    rw [hst.find]
    cases s.find? path.normalize with
    | some i => exact abreast_pure rfl
    | none =>
      refine abreast_get.bind fun s t hst => (abreast_modify fun s t h => h.add _).bind fun _ _ _ => ?_
      rw [hst.sources]
      refine abreast_get.bind fun u v huv => ?_
      rw [huv.importPaths]
      refine (abreast_mapM _ ih).bind fun js js' hjs => ?_
      rw [hjs]
      refine (abreast_modify fun s t h => h.modify _ fun u v huv => ?_).bind fun _ _ _ => abreast_pure rfl
      exact congrArg (fun u : FileUnit => { u with imports := js' }) huv

theorem Mirrors.result (h : Mirrors s t) (i : Nat) : (t.result? i).map Prod.snd = (s.result? i).map Prod.snd := by
  have hi := congrArg (fun o => (o.bind FileUnit.result).map Prod.snd) (h.unit i)
  simpa [Option.bind_map, Function.comp_def, FileUnit.bare, Option.map_bind, Option.map_map, result?] using hi

theorem Mirrors.compileScript (h : Mirrors s t) (i : Nat) (script : Script) (hvars : l'.vars = l.vars)
    (hclashes : l'.clashes = l.clashes) : Mirrors (s.compileScript i script l) (t.compileScript i script l') := by
  have hprogress := script.compile_kinds t.sources (t.api i) t.debug s.debug l'.code.zeroLines l.code.zeroLines l'.vars
  unfold Session.compileScript
  rw [← h.sources, ← h.alike.api i, ← hvars, ← hclashes]
  generalize script.compile _ l'.code.zeroLines l'.vars = r' at hprogress ⊢
  generalize script.compile _ l.code.zeroLines l'.vars = r at hprogress ⊢
  obtain ⟨code, progress⟩ := r
  obtain ⟨code', progress'⟩ := r'
  obtain rfl : progress' = progress := hprogress
  dsimp only
  generalize l'.clashes.map _ = clashes
  generalize progress'.reports.toList.map _ = reports
  refine h.modify i fun u v huv => ?_
  exact congrArg (fun u : FileUnit => { u with
    diagnostics := u.diagnostics ++ clashes ++ reports, result := some (∅, progress'.vars) }) huv

theorem abreast_modifyUnit (i : Nat) (hf : ∀ u, (f u).bare = f u.bare) :
    Abreast Mirrors (fun _ _ => True) (modify (·.modifyUnit i f)) (modify (·.modifyUnit i f)) :=
  abreast_modify fun _ _ h => h.modify i fun u v huv => by rw [hf, hf, huv]

/-- What imported files leave, apart from their code. -/
def Linked.findings (l : Linked) : Variables × List (String × Variable) := (l.vars, l.clashes)

theorem findings_add {l l' : Linked} (h : l'.findings = l.findings) (code code' : Fragment) (vars : Variables) :
    (l'.add code' vars).findings = (l.add code vars).findings := by
  obtain ⟨hvars, hclashes⟩ := Prod.mk.inj h
  show ((l'.vars.append vars).2, l'.clashes ++ (l'.vars.append vars).1) = ((l.vars.append vars).2, l.clashes ++ (l.vars.append vars).1)
  rw [hvars, hclashes]

theorem abreast_linkNext (ih : ∀ i, Abreast Mirrors (fun _ _ => True) (compileFrom fuel i) (compileFrom fuel i))
    {o o' : Option Linked} (h : o'.map Linked.findings = o.map Linked.findings) (j : Nat) :
    Abreast Mirrors (fun o o' => o'.map Linked.findings = o.map Linked.findings) (linkNext fuel o j) (linkNext fuel o' j) := by
  unfold linkNext
  cases o <;> cases o' <;> try cases h
  · exact abreast_pure rfl
  · rename_i l l'
    dsimp only
    refine (ih j).bind fun _ _ _ => abreast_get.bind fun s t hst => abreast_pure ?_
    have hresult := hst.result j
    unfold result? at hresult
    generalize (t.units[j]?).bind (·.result) = r' at hresult ⊢
    generalize (s.units[j]?).bind (·.result) = r at hresult ⊢
    cases r <;> cases r' <;> try cases hresult
    · simp only [map_none]
    · rename_i r r'
      have hvars : r'.2 = r.2 := Option.some.inj hresult
      rw [map_some, map_some, map_some, map_some, hvars, findings_add (Option.some.inj h) r.1 r'.1]

theorem abreast_compileFrom (fuel i : Nat) :
    Abreast Mirrors (fun _ _ => True) (compileFrom fuel i) (compileFrom fuel i) := by
  induction fuel generalizing i with
  | zero => exact abreast_pure trivial
  | succ fuel ih =>
    have hfinish := abreast_modifyUnit i (f := fun u => { u with stage := .compiled }) fun _ => rfl
    refine abreast_get.bind fun s t hst => ?_
    have hunit := hst.unit i
    cases ht : t.units[i]? <;> cases hs : s.units[i]? <;> rw [ht, hs] at hunit
    · exact abreast_pure trivial
    · cases hunit
    · cases hunit
    · rename_i v u
      have hbare : v.bare = u.bare := Option.some.inj hunit
      have hscript : v.bare.script = u.bare.script := by rw [hbare]
      have himports : v.bare.imports = u.bare.imports := by rw [hbare]
      have hstage : v.bare.stage = u.bare.stage := by rw [hbare]
      dsimp only [FileUnit.bare] at hscript himports hstage ⊢
      rw [hscript, himports, hstage]
      split
      · exact abreast_pure trivial
      · refine (abreast_set (hst.modify i fun u v huv => congrArg (fun u => { u with stage := .compiling }) huv)).bind fun _ _ _ => ?_
        cases u.script with
        | none => exact hfinish
        | some script =>
          dsimp only
          rw [hst.obstacle]
          cases s.obstacle? i script with
          | some d =>
            have hrefuse := abreast_modifyUnit i (f := fun u => { u with diagnostics := u.diagnostics ++ [d] }) fun _ => rfl
            exact hrefuse.bind fun _ _ _ => hfinish
          | none =>
            refine (abreast_foldlM (f := linkNext fuel) (g := linkNext fuel) u.imports (fun o o' j h => abreast_linkNext ih h j) rfl).bind fun o o' h => ?_
            cases o <;> cases o' <;> try cases h
            · exact hfinish
            · refine (abreast_modify fun s t hst => ?_).bind fun _ _ _ => hfinish
              obtain ⟨hvars, hclashes⟩ := Prod.mk.inj (Option.some.inj h)
              exact hst.compileScript i script hvars hclashes

theorem Mirrors.load (h : Mirrors s t) (path : Path) :
    (s.load path).1 = (t.load path).1 ∧ Mirrors (s.load path).2 (t.load path).2 := by
  unfold Session.load
  rw [h.disk]
  exact abreast_loadFrom _ path s t h

theorem Mirrors.compile (h : Mirrors s t) (i : Nat) : Mirrors (s.compile i) (t.compile i) := by
  unfold Session.compile
  rw [h.alike.size]
  exact (abreast_compileFrom _ i s t h).2

end Mirrors

end Session

namespace Build

open Session

theorem abreast_compileAll (paths : List String) : Abreast Mirrors Eq (compileAll paths) (compileAll paths) := by
  induction paths with
  | nil => exact abreast_pure rfl
  | cons path rest ih =>
    unfold compileAll
    split
    · have hload : Abreast Mirrors Eq (modifyGet (·.load (Path.ofString path))) (modifyGet (·.load (Path.ofString path))) :=
        fun s t h => h.load _
      refine hload.bind fun i i' hi => (abreast_modify fun s t h => ?_).bind fun _ _ _ => ih.bind fun r r' hr => ?_
      · rw [hi]
        exact h.compile i'
      · rw [hi, hr]
        exact abreast_pure rfl
    · refine ih.bind fun r r' hr => ?_
      rw [hr]
      exact abreast_pure rfl

theorem compileAll_kinds (disk : Disk) (debug debug' : Bool) (paths : List String) :
    (compileAll paths (.new disk debug)).1 = (compileAll paths (.new disk debug')).1 ∧
      Mirrors (compileAll paths (.new disk debug)).2 (compileAll paths (.new disk debug')).2 :=
  abreast_compileAll paths (.new disk debug) (.new disk debug') ⟨rfl, rfl, rfl⟩

/-- Builds with and without a debugger load and compile the same files. -/
theorem mirrors_session (disk : Disk) (debug debug' : Bool) (paths : List String) :
    Mirrors (session disk debug paths) (session disk debug' paths) :=
  (compileAll_kinds disk debug debug' paths).2

/-- The size of code is a problem that depends on the kind of code. -/
def ofSize (d : Diagnostic) : Bool :=
  match d.problem with
  | .codeTooLarge _ => true
  | _ => false

/-- The problems of a build, apart from code that is too large. -/
def findings (b : Build) : List Diagnostic := b.diagnostics.filter (!ofSize ·)

/-- Only a build without other problems looks at the size of code. -/
theorem findings_run (disk : Disk) (debug : Bool) (paths : List String) : (run disk debug paths).findings =
      ((compileAll paths (.new disk debug)).1.1 ++ (session disk debug paths).diagnostics).filter (!ofSize ·) := by
  unfold run session findings
  generalize compileAll paths (.new disk debug) = r
  obtain ⟨⟨refused, roots⟩, s⟩ := r
  dsimp only
  split
  · rename_i hempty
    rw [isEmpty_iff.1 hempty]
    split
    · rfl
    · refine filter_eq_nil_iff.2 fun d hd => ?_
      obtain ⟨file, -, hfile⟩ := mem_filterMap.1 hd
      unfold sizeProblem? at hfile
      split at hfile
      · cases hfile
        simp [ofSize, Diagnostic.problem]
      · cases hfile
  · rfl

theorem findings_kinds (disk : Disk) (debug debug' : Bool) (paths : List String) :
    (run disk debug paths).findings = (run disk debug' paths).findings := by
  rw [findings_run, findings_run, (compileAll_kinds disk debug debug' paths).1,
    (mirrors_session disk debug debug' paths).diagnostics]

end Build

end HostScript

import HostScript.Proofs.Carried
import HostScript.Proofs.CodeOrder
import HostScript.Proofs.Loading

/-! What becomes of a file.

`judge` says what comes of compiling a file from its text and the texts of what it imports, and not
from what has been compiled before. It is told in steps, of which enough give the final answer.
Whatever was loaded and compiled, every compiled file has become what is said of it, and so has
every file that is said to be compiled for it (`Reachable.judged`). -/
namespace HostScript.Session

open List

variable {i : Nat} {s t : Session}

/-- What becomes of a file. -/
structure Verdict where
  diagnostics : List Diagnostic
  result : Option (Fragment × Variables)
  /-- The files that are compiled for it, itself among them. -/
  files : List Nat

/-- Imports put behind others up to the first one that has no code, and the files that are compiled for them. -/
def linkVerdicts (verdict : Nat → Verdict) : Linked → List Nat → Option Linked × List Nat
  | l, [] => (some l, [])
  | l, j :: rest =>
    match (verdict j).result with
    | none => (none, (verdict j).files)
    | some (code, vars) =>
      let (outcome, files) := linkVerdicts verdict (l.add code vars) rest
      (outcome, (verdict j).files ++ files)

/-- What becomes of a file as far as some steps tell. -/
def judge (s : Session) : Nat → Nat → Verdict
  | 0, _ => ⟨[], none, []⟩
  | n + 1, i =>
    match s.script? i with
    | none => ⟨[], none, [i]⟩
    | some script =>
      match s.obstacle? i script with
      | some d => ⟨[d], none, [i]⟩
      | none =>
        match linkVerdicts (s.judge n) .empty (s.importsOf i) with
        | (none, files) => ⟨[], none, i :: files⟩
        | (some l, files) => ⟨s.findings i script l, some (s.product i script l), i :: files⟩

/-! ### Other sessions -/

section

variable (h : Alike s t) (hsources : t.sources = s.sources) (hdebug : t.debug = s.debug)
include h hsources hdebug

theorem Alike.findings :
    t.findings = s.findings := by
  funext i script l
  rw [Session.findings, Session.findings, hsources, hdebug, h.api]

theorem Alike.product :
    t.product = s.product := by
  funext i script l
  rw [Session.product, Session.product, hsources, hdebug, h.api]

theorem judge_congr (n : Nat) :
    t.judge n = s.judge n := by
  have hobstacle : ∀ i script, t.obstacle? i script = s.obstacle? i script := fun i script => by
    unfold obstacle? inheritanceCycle? pathOf
    rw [hsources, h.api, h.repeated]
  have hscript : ∀ i, t.script? i = s.script? i := h.script
  induction n with
  | zero => rfl
  | succ n ih =>
    funext i
    simp only [judge, hscript, hobstacle, h.importsOf, h.findings hsources hdebug, h.product hsources hdebug, ih]

end

theorem Compiles.judge (h : Compiles s t) (n : Nat) : t.judge n = s.judge n := judge_congr h.alike h.sources h.debug n

def Verdict.renumber (f : Nat → Nat) (v : Verdict) : Verdict :=
  ⟨v.diagnostics, v.result.map fun r => (r.1, r.2.renumber f), v.files.map f⟩

theorem linkVerdicts_renumber (h : ∀ j, verdict' (f j) = (verdict j).renumber f) (l : Linked) (js : List Nat) :
    linkVerdicts verdict' (l.renumber f) (js.map f) =
      ((linkVerdicts verdict l js).1.map (Linked.renumber f), (linkVerdicts verdict l js).2.map f) := by
  induction js generalizing l with
  | nil => rfl
  | cons j rest ih =>
    rw [map_cons, linkVerdicts, linkVerdicts, h]
    cases hresult : (verdict j).result with
    | none => simp [Verdict.renumber, hresult]
    | some r =>
      obtain ⟨code, vars⟩ := r
      simp [Verdict.renumber, hresult, Linked.add_renumber, ih]

/-- The numbers of files do not matter to what becomes of them. -/
theorem Carries.judge (h : Carries f s t) (n i : Nat) : t.judge n (f i) = (s.judge n i).renumber f := by
  have hempty : Linked.renumber f .empty = .empty := by
    simp [Linked.renumber, Linked.empty, Variables.renumber, Variables.empty, Frame.renumber]
  induction n generalizing i with
  | zero => rfl
  | succ n ih =>
    rw [Session.judge, Session.judge, h.script]
    cases s.script? i with
    | none => rfl
    | some script =>
      dsimp only [Option.map_some]
      rw [h.obstacle]
      cases s.obstacle? i script with
      | some d => rfl
      | none =>
        have hlinked := linkVerdicts_renumber ih .empty (s.importsOf i)
        rw [hempty, ← h.imports] at hlinked
        rw [hlinked]
        cases hout : linkVerdicts (s.judge n) .empty (s.importsOf i) with
        | mk outcome files =>
          cases outcome with
          | none => rfl
          | some l =>
            simp only [Option.map_some, h.findings, h.product]
            rfl

/-! ### Files as they are read -/

/-- A file that is read under another number. -/
theorem readFile_renumber (f : Nat → Nat) (disk : Disk) (path : Path) (n : Nat) :
    (readFile disk path (f n)).1 = (readFile disk path n).1 ∧
      (readFile disk path (f n)).2.script = (readFile disk path n).2.script.map (Script.renumber f) ∧
      (readFile disk path (f n)).2.diagnostics = (readFile disk path n).2.diagnostics := by
  unfold readFile
  split
  · exact ⟨rfl, rfl, rfl⟩
  · rename_i text _
    rw [Script.parse_renumber]
    cases Script.parse n text with
    | ok script => exact ⟨rfl, rfl, rfl⟩
    | error e => cases e <;> exact ⟨rfl, rfl, rfl⟩

/-- Every file is what was read at some path. -/
def Faithful (s : Session) : Prop := s.Each fun i u =>
  ∃ path, s.sources[i]? = some (readFile s.disk path i).1 ∧ u.script = (readFile s.disk path i).2.script

section Faithful

variable {job : Job}

theorem Runs.disk (h : Runs job s t) : t.disk = s.disk := by
  induction h with
  | settled | unread | refused | done => rfl
  | failed _ _ _ _ _ ih | made _ _ _ _ _ ih | stop _ _ _ _ ih => exact ih
  | next _ _ _ _ _ ih ih' => exact ih'.trans ih

theorem Reachable.disk_compile (hs : Reachable s) (i : Nat) : (s.compile i).disk = s.disk := by
  by_cases hi : i < s.units.size
  · exact (hs.runs hi).disk
  · rw [compile_of_le (Nat.le_of_not_lt hi)]

theorem Reachable.compiles (hs : Reachable s) (i : Nat) : Compiles s (s.compile i) := compiles_compile hs.orderly.fresh i

theorem units_add (s : Session) (path : Path) :
    (s.add path).units = s.units.push (readFile s.disk path s.sources.size).2 := rfl

theorem sources_add (s : Session) (path : Path) :
    (s.add path).sources = s.sources.push (readFile s.disk path s.sources.size).1 := rfl

theorem Reachable.faithful (hs : Reachable s) : s.Faithful := by
  induction hs with
  | new disk debug => exact fun i u hu => by cases hu
  | @load s path hs ih =>
    refine loadFrom_keeps (P := Faithful) (fun s path hc _ h i u hu => ?_) (fun s k imports h i u hu => ?_) _ path s
      hs.orderly.complete ih
    · rw [units_add, Array.getElem?_push] at hu
      split at hu
      · rename_i hi
        cases hu
        rw [hi, ← hc.sources]
        exact ⟨path, by rw [sources_add, Array.getElem?_push_size]; rfl, rfl⟩
      · obtain ⟨path', hsource, hscript⟩ := h i u hu
        refine ⟨path', ?_, hscript⟩
        rw [sources_add, Array.getElem?_push_lt (Array.getElem?_eq_some_iff.1 hsource).1, ← Array.getElem?_eq_getElem]
        exact hsource
    · rw [getElem?_modifyUnit] at hu
      split at hu
      · obtain ⟨v, hv, rfl⟩ := Option.map_eq_some_iff.1 hu
        exact h i v hv
      · exact h i u hu
  | @compile s k hs ih =>
    intro i u hu
    obtain ⟨v, hv, hscript, -⟩ := (hs.compiles k).unit_of hu
    obtain ⟨path, hsource, hread⟩ := ih i v hv
    refine ⟨path, ?_, ?_⟩
    · rw [(hs.compiles k).sources, hs.disk_compile]
      exact hsource
    · rw [hs.disk_compile, hscript, hread]

/-- A script names its file by its own number only. -/
theorem Faithful.script_fixed (h : s.Faithful) (hf : f i = i) :
    (s.script? i).map (Script.renumber f) = s.script? i := by
  cases hu : s.units[i]? with
  | none => simp [script?, hu]
  | some u =>
    obtain ⟨path, -, hscript⟩ := h i u hu
    have hread := (readFile_renumber f s.disk path i).2.1
    rw [hf, ← hscript] at hread
    rw [script?, hu, Option.bind_some, ← hread]

end Faithful

/-! ### More files -/

section Growth

variable {n : Nat}

/-- Files keep their numbers, and numbers that belong to no file move out of the way. -/
def aside (size far k : Nat) : Nat := if k < size then k else k + far

section

variable (h : Loads s t) (hsources : s.sources.toList <+: t.sources.toList) (hc : Complete s) (ht : Complete t)
  (hs : s.Faithful)
include h hsources hc ht hs

theorem carries_aside (hfar : t.units.size ≤ far) : Carries (aside s.units.size far) s t := by
  have hin : ∀ {k}, k < s.units.size → aside s.units.size far k = k := fun hk => if_pos hk
  have hout : ∀ {k}, ¬ k < s.units.size → aside s.units.size far k = k + far := fun hk => if_neg hk
  have hsize := h.size
  refine ⟨fun a b hab => ?_, h.debug, fun k => ?_, fun k => ?_, fun k => ?_⟩
  · unfold aside at hab
    split at hab <;> split at hab <;> omega
  · by_cases hk : k < s.units.size
    · obtain ⟨rest, hrest⟩ := hsources
      rw [hin hk, ← Array.getElem?_toList, ← Array.getElem?_toList, ← hrest,
        List.getElem?_append_left (by rwa [Array.length_toList, hc.sources])]
    · rw [hout hk, Array.getElem?_eq_none (by rw [ht.sources]; omega), Array.getElem?_eq_none (by rw [hc.sources]; omega)]
  · by_cases hk : k < s.units.size
    · rw [hs.script_fixed (hin hk), hin hk, script?, h.kept k hk]
      rfl
    · rw [hout hk, script?, script?, Array.getElem?_eq_none (by omega), Array.getElem?_eq_none (by omega)]
      rfl
  · by_cases hk : k < s.units.size
    · have hinside : ∀ j ∈ s.importsOf k, aside s.units.size far j = j := fun j hj =>
        hin (hc.imports k _ (Array.getElem?_eq_getElem hk) j (importsOf_eq (Array.getElem?_eq_getElem hk) ▸ hj))
      rw [hin hk, importsOf, h.kept k hk, ← importsOf, map_congr_left hinside, map_id']
    · rw [hout hk, importsOf, importsOf, Array.getElem?_eq_none (by omega), Array.getElem?_eq_none (by omega)]
      rfl

/-- What becomes of a file does not depend on files that are loaded later. -/
theorem Loads.judge (hi : i < s.units.size) : t.judge n i = s.judge n i := by
  have hcarried := (carries_aside h hsources hc ht hs (Nat.le_refl _)).judge n i
  have hself := (carries_aside (Loads.refl s) (prefix_refl _) hc hc hs h.size).judge n i
  rw [aside, if_pos hi] at hcarried hself
  rw [hcarried, ← hself]

end

end Growth

/-! ### What became of files -/

/-- The problems with reading a file. -/
def complaints (s : Session) (i : Nat) : List Diagnostic :=
  ((s.pathAt? i).map fun path => (readFile s.disk path 0).2.diagnostics).getD []

/-- A file became what a verdict says. -/
structure Bears (s : Session) (i : Nat) (u : FileUnit) (v : Verdict) : Prop where
  result : u.result = v.result
  diagnostics : u.diagnostics = s.complaints i ++ v.diagnostics
  files : ∀ k ∈ v.files, k = i ∨ s.stage? k = some .compiled

/-- Every compiled file became what is said of it, and other files are as they were read. -/
structure Judged (s : Session) : Prop where
  waiting : s.Each fun i u => u.stage ≠ .compiled → u.diagnostics = s.complaints i
  done : s.Each fun i u => u.stage = .compiled → ∃ n, ∀ m ≥ n, s.Bears i u (s.judge m i)

section Judged

variable {k : Nat} {u : FileUnit} {job : Job}

theorem compiled_modify (hu : s.units[i]? = some u) (hf : (f u).stage = .compiled) :
    (s.modifyUnit i f).stage? k = some .compiled ↔ k = i ∨ s.stage? k = some .compiled := by
  rw [stage_modify]
  split
  · rename_i hik
    subst hik
    simp [hu, hf]
  · rename_i hik
    exact ⟨.inr, fun h => h.resolve_left fun hki => hik hki.symm⟩

theorem compiled_begin (hu : s.units[i]? = some u) (hstage : u.stage = .loaded) :
    (s.begin i).stage? k = some .compiled ↔ s.stage? k = some .compiled := by
  rw [begin, stage_modify]
  split
  · rename_i hik
    subst hik
    simp [stage?, hu, hstage]
  · rfl

/-- A file that is not done is changed. -/
theorem Judged.modify (h : Judged s) (hu : s.units[i]? = some u) (hstage : u.stage ≠ .compiled)
    (hf : ∀ v, (f v).script = v.script ∧ (f v).imports = v.imports)
    (hwaiting : (f u).stage ≠ .compiled → (f u).diagnostics = s.complaints i)
    (hdone : (f u).stage = .compiled → ∃ n, ∀ m ≥ n, s.Bears i (f u) (s.judge m i)) : Judged (s.modifyUnit i f) := by
  have hjudge : ∀ m, (s.modifyUnit i f).judge m = s.judge m := judge_congr (alike_modify s i hf) rfl rfl
  have hkept : ∀ {k}, s.stage? k = some .compiled → (s.modifyUnit i f).stage? k = some .compiled := by
    intro k hk
    rw [stage_modify, if_neg]
    · exact hk
    · rintro rfl
      rw [stage?, hu, Option.map_some] at hk
      exact hstage (Option.some.inj hk)
  have hunit : ∀ {k v}, (s.modifyUnit i f).units[k]? = some v → k = i ∧ v = f u ∨ s.units[k]? = some v := by
    intro k v hv
    rw [getElem?_modifyUnit] at hv
    split at hv
    · rename_i hik
      subst hik
      rw [hu] at hv
      exact .inl ⟨rfl, (Option.some.inj hv).symm⟩
    · exact .inr hv
  refine ⟨fun k v hv hne => ?_, fun k v hv hcompiled => ?_⟩
  · obtain ⟨rfl, rfl⟩ | hv := hunit hv
    · exact hwaiting hne
    · exact h.waiting k v hv hne
  · have hbears : ∃ n, ∀ m ≥ n, s.Bears k v (s.judge m k) := by
      obtain ⟨rfl, rfl⟩ | hv := hunit hv
      · exact hdone hcompiled
      · exact h.done k v hv hcompiled
    obtain ⟨n, hn⟩ := hbears
    refine ⟨n, fun m hm => ?_⟩
    obtain ⟨hresult, hdiagnostics, hfiles⟩ := hn m hm
    rw [hjudge]
    exact ⟨hresult, hdiagnostics, fun j hj => (hfiles j hj).imp_right hkept⟩

/-- What is true of a job once it is done. A file that is taken up must not be one that is being compiled. -/
def Job.Judged (s t : Session) : Job → Prop
  | .file i => s.stage? i ≠ some .compiling →
    ∃ n, ∀ m ≥ n, ∀ k, t.stage? k = some .compiled ↔ s.stage? k = some .compiled ∨ k ∈ (s.judge m i).files
  | .imports l js outcome => ∃ n, ∀ m ≥ n, (linkVerdicts (s.judge m) l js).1 = outcome ∧
    ∀ k, t.stage? k = some .compiled ↔ s.stage? k = some .compiled ∨ k ∈ (linkVerdicts (s.judge m) l js).2

theorem judged_begin (hu : s.units[i]? = some u) (hstage : u.stage = .loaded) (hs : Judged s) : Judged (s.begin i) := by
  have hne : u.stage ≠ .compiled := by rw [hstage]; exact Stage.noConfusion
  exact hs.modify hu hne (fun _ => ⟨rfl, rfl⟩) (fun _ => hs.waiting i u hu hne) Stage.noConfusion

/-- A file is taken up, others are compiled, and then it is done. -/
theorem judged_finish (hu : s.units[i]? = some u) (h : Compiles (s.begin i) t) (ht : Judged t)
    (hf : ∀ v, (f v).script = v.script ∧ (f v).imports = v.imports ∧ (f v).stage = .compiled)
    (hv : ∀ m ≥ n, ∃ ds files, s.judge m i = ⟨ds, (f { u with stage := .compiling }).result, i :: files⟩ ∧
      (f { u with stage := .compiling }).diagnostics = u.diagnostics ++ ds ∧
        ∀ k, t.stage? k = some .compiled ↔ s.stage? k = some .compiled ∨ k ∈ files) :
    Judged (t.modifyUnit i f) ∧ Job.Judged s (t.modifyUnit i f) (.file i) := by
  have hunit := unit_compiling hu h
  have hjudge : ∀ m, t.judge m = s.judge m := fun m => (h.judge m).trans (judge_congr (alike_begin s i) rfl rfl m)
  have hcomplaints := ht.waiting i _ hunit Stage.noConfusion
  refine ⟨ht.modify hunit Stage.noConfusion (fun v => ⟨(hf v).1, (hf v).2.1⟩) (fun hne => absurd (hf _).2.2 hne)
    fun _ => ⟨n, fun m hm => ?_⟩, fun _ => ⟨n, fun m hm k => ?_⟩⟩
  · obtain ⟨ds, files, hverdict, hdiagnostics, hfiles⟩ := hv m hm
    rw [hjudge, hverdict]
    refine ⟨rfl, hdiagnostics.trans (congrArg (· ++ ds) hcomplaints), fun k hk => ?_⟩
    exact (mem_cons.1 hk).imp_right fun hk => (hfiles k).2 (.inr hk)
  · obtain ⟨ds, files, hverdict, -, hfiles⟩ := hv m hm
    rw [compiled_modify hunit (hf _).2.2, hfiles, hverdict, mem_cons]
    exact or_left_comm

/-- What the imports of a file come to, said of the file. -/
theorem judge_succ (hu : s.units[i]? = some u) (hscript : u.script = some script)
    (hobstacle : s.obstacle? i script = none) (m : Nat) :
    s.judge (m + 1) i = match linkVerdicts ((s.begin i).judge m) .empty u.imports with
      | (none, files) => ⟨[], none, i :: files⟩
      | (some l, files) => ⟨s.findings i script l, some (s.product i script l), i :: files⟩ := by
  have hsome : s.script? i = some script := by rw [script?, hu, Option.bind_some, hscript]
  rw [judge, hsome, judge_congr (alike_begin s i) rfl rfl, ← importsOf_eq hu]
  dsimp only
  rw [hobstacle]

/-- What a file that is imported came to. -/
theorem judged_import (hfile : Runs (.file j) s t) (ht : Judged t) (hj : Job.Judged s t (.file j))
    (hv : t.units[j]? = some v) (hstage : v.stage = .compiled) : ∃ n, ∀ m ≥ n, (s.judge m j).result = v.result ∧
      ∀ k, t.stage? k = some .compiled ↔ s.stage? k = some .compiled ∨ k ∈ (s.judge m j).files := by
  have hcompiled : t.stage? j = some .compiled := by rw [stage?, hv, Option.map_some, hstage]
  have hidle : s.stage? j ≠ some .compiling := by
    intro hcompiling
    obtain h | ⟨h, -⟩ := hfile.stages j
    · rw [h, hcompiling] at hcompiled
      cases hcompiled
    · rw [hcompiling] at h
      cases h
  obtain ⟨n, hn⟩ := hj hidle
  obtain ⟨n', hn'⟩ := ht.done j v hv hstage
  refine ⟨max n n', fun m hm => ⟨?_, hn m (le_of_max_le_left hm)⟩⟩
  rw [(hn' m (le_of_max_le_right hm)).result, hfile.compiles.judge]

theorem Runs.judged (h : Runs job s t) (hf : Fresh s) (hs : Judged s) : Judged t ∧ Job.Judged s t job := by
  induction h with
  | @settled i s u hu hstage =>
    refine ⟨hs, fun hi => ?_⟩
    have hcompiled : u.stage = .compiled := by
      rw [stage?, hu, Option.map_some] at hi
      cases hs : u.stage with
      | loaded => exact absurd hs hstage
      | compiling => exact absurd (congrArg some hs) hi
      | compiled => rfl
    obtain ⟨n, hn⟩ := hs.done i u hu hcompiled
    refine ⟨n, fun m hm k => ⟨.inl, fun h => h.elim id fun hk => ?_⟩⟩
    obtain rfl | hk := (hn m hm).files k hk
    · rw [stage?, hu, Option.map_some, hcompiled]
    · exact hk
  | @unread i s u hu hstage hscript =>
    refine judged_finish (n := 1) hu (.refl _) (judged_begin hu hstage hs) (fun _ => ⟨rfl, rfl, rfl⟩) fun m hm => ?_
    obtain ⟨m, rfl⟩ := Nat.exists_eq_add_of_le' hm
    have hnone : s.script? i = none := by rw [script?, hu, Option.bind_some, hscript]
    refine ⟨[], [], ?_, (append_nil _).symm, fun k => by simp [compiled_begin hu hstage]⟩
    rw [judge, hnone, hf i u hu hstage]
  | @refused script d i s u hu hstage hscript hobstacle =>
    have hmodify : ((s.begin i).refuse i d).finish i = (s.begin i).modifyUnit i fun v =>
        { v with diagnostics := v.diagnostics ++ [d], stage := .compiled } := modifyUnit_modifyUnit _ _ _ _
    rw [hmodify]
    refine judged_finish (n := 1) hu (.refl _) (judged_begin hu hstage hs) (fun _ => ⟨rfl, rfl, rfl⟩) fun m hm => ?_
    obtain ⟨m, rfl⟩ := Nat.exists_eq_add_of_le' hm
    have hsome : s.script? i = some script := by rw [script?, hu, Option.bind_some, hscript]
    refine ⟨[d], [], ?_, rfl, fun k => by simp [compiled_begin hu hstage]⟩
    rw [judge, hsome, hf i u hu hstage]
    dsimp only
    rw [hobstacle]
  | @failed script i s t u hu hstage hscript hobstacle himports ih =>
    obtain ⟨ht, n, hn⟩ := ih (fresh_begin hf i) (judged_begin hu hstage hs)
    refine judged_finish (n := n + 1) hu himports.compiles ht (fun _ => ⟨rfl, rfl, rfl⟩) fun m hm => ?_
    obtain ⟨m, rfl⟩ : ∃ m', m = m' + 1 := ⟨m - 1, by omega⟩
    obtain ⟨hlinked, hfiles⟩ := hn m (by omega)
    refine ⟨[], _, ?_, (append_nil _).symm, fun k => (hfiles k).trans (or_congr_left (compiled_begin hu hstage))⟩
    have hout : linkVerdicts ((s.begin i).judge m) .empty u.imports = (none, _) := Prod.ext hlinked rfl
    rw [judge_succ hu hscript hobstacle, hout, hf i u hu hstage]
  | @made script l i s t u hu hstage hscript hobstacle himports ih =>
    obtain ⟨ht, n, hn⟩ := ih (fresh_begin hf i) (judged_begin hu hstage hs)
    have hcompiles := himports.compiles
    have halike := hcompiles.alike
    have hmodify : (t.compileScript i script l).finish i = t.modifyUnit i fun v =>
        { v with diagnostics := v.diagnostics ++ s.findings i script l, result := some (s.product i script l),
                 stage := .compiled } := by
      rw [compileScript_eq, finish, modifyUnit_modifyUnit, halike.findings hcompiles.sources hcompiles.debug,
        halike.product hcompiles.sources hcompiles.debug, (alike_begin s i).findings rfl rfl, (alike_begin s i).product rfl rfl]
    rw [hmodify]
    refine judged_finish (n := n + 1) hu hcompiles ht (fun _ => ⟨rfl, rfl, rfl⟩) fun m hm => ?_
    obtain ⟨m, rfl⟩ : ∃ m', m = m' + 1 := ⟨m - 1, by omega⟩
    obtain ⟨hlinked, hfiles⟩ := hn m (by omega)
    refine ⟨s.findings i script l, _, ?_, rfl, fun k => (hfiles k).trans (or_congr_left (compiled_begin hu hstage))⟩
    have hout : linkVerdicts ((s.begin i).judge m) .empty u.imports = (some l, _) := Prod.ext hlinked rfl
    rw [judge_succ hu hscript hobstacle, hout]
  | done => exact ⟨hs, 0, fun _ _ => ⟨rfl, fun k => by simp [linkVerdicts]⟩⟩
  | @stop j l rest s t v hfile hv hstage hresult ih =>
    obtain ⟨ht, hj⟩ := ih hf hs
    obtain ⟨n, hn⟩ := judged_import hfile ht hj hv hstage
    refine ⟨ht, n, fun m hm => ?_⟩
    obtain ⟨hverdict, hfiles⟩ := hn m hm
    rw [linkVerdicts, hverdict, hresult]
    exact ⟨rfl, hfiles⟩
  | @next j code vars rest outcome t' l s t v hfile hv hstage hresult hrest ih ih' =>
    obtain ⟨ht, hj⟩ := ih hf hs
    obtain ⟨ht', n', hn'⟩ := ih' (hfile.fresh hf) ht
    obtain ⟨n, hn⟩ := judged_import hfile ht hj hv hstage
    refine ⟨ht', max n n', fun m hm => ?_⟩
    obtain ⟨hverdict, hfiles⟩ := hn m (le_of_max_le_left hm)
    obtain ⟨hlinked, hfiles'⟩ := hn' m (le_of_max_le_right hm)
    rw [hfile.compiles.judge] at hlinked hfiles'
    rw [linkVerdicts, hverdict, hresult]
    refine ⟨hlinked, fun k => ?_⟩
    rw [hfiles', hfiles, mem_append, or_assoc]

theorem complaints_kept (hsources : s.sources.toList <+: t.sources.toList) (hdisk : t.disk = s.disk)
    (hi : i < s.sources.size) : t.complaints i = s.complaints i := by
  have hpath : s.pathAt? i = some s.sources[i].path := by rw [pathAt?, Array.getElem?_eq_getElem hi, Option.map_some]
  rw [complaints, complaints, pathAt_kept hsources hpath, hpath, hdisk]

/-- Files that are loaded and wait are as they were read. -/
theorem waiting_load (hs : Reachable s) (h : s.Each fun i u => u.stage ≠ .compiled → u.diagnostics = s.complaints i)
    (path : Path) : (s.load path).2.Each fun i u => u.stage ≠ .compiled → u.diagnostics = (s.load path).2.complaints i := by
  refine loadFrom_keeps (P := fun s => s.Each fun i u => u.stage ≠ .compiled → u.diagnostics = s.complaints i)
    (fun s path hc _ h i u hu hne => ?_) (fun s k imports h i u hu hne => ?_) _ path s hs.orderly.complete h
  · rw [units_add, Array.getElem?_push] at hu
    split at hu
    · rename_i hi
      cases hu
      rw [hi, ← hc.sources, complaints, pathAt_add]
      exact (readFile_renumber (fun _ => s.sources.size) s.disk path 0).2.2
    · rw [complaints_kept (prefix_add s path) rfl (by rw [hc.sources]; exact (Array.getElem?_eq_some_iff.1 hu).1)]
      exact h i u hu hne
  · rw [getElem?_modifyUnit] at hu
    split at hu
    · obtain ⟨v, hv, rfl⟩ := Option.map_eq_some_iff.1 hu
      exact h i v hv hne
    · exact h i u hu hne

/-- Loading compiles no file. -/
theorem compiled_load (hs : Reachable s) (path : Path) :
    (s.load path).2.stage? k = some .compiled ↔ s.stage? k = some .compiled := by
  have hc := hs.orderly.complete
  have hkept : ∀ {k : Nat}, k < s.units.size → (s.load path).2.stage? k = s.stage? k := fun hk =>
    congrArg (Option.map _) ((loads_loadFrom s.disk.files.length path s hc).1.kept _ hk)
  have hold : (s.load path).2.Each fun i u => u.stage = .compiled → i < s.units.size := by
    refine each_loadFrom (fun disk path n => ?_) (fun _ _ _ h => h) _ path s hc fun i u hu _ =>
      (Array.getElem?_eq_some_iff.1 hu).1
    rw [stage_readFile]
    exact Stage.noConfusion
  constructor
  · intro h
    obtain ⟨u, hu, hcompiled⟩ := Option.map_eq_some_iff.1 h
    rwa [← hkept (hold k u hu hcompiled)]
  · intro h
    obtain ⟨u, hu, -⟩ := Option.map_eq_some_iff.1 h
    rwa [hkept (Array.getElem?_eq_some_iff.1 hu).1]

theorem Reachable.judge_load (hs : Reachable s) (path : Path) (hi : i < s.units.size) (m : Nat) :
    (s.load path).2.judge m i = s.judge m i := by
  have hc := hs.orderly.complete
  obtain ⟨hloads, hcomplete, -⟩ := loads_loadFrom s.disk.files.length path s hc
  exact hloads.judge (prefix_loadFrom s.disk.files.length path hc) hc hcomplete hs.faithful hi

/-- Files that are loaded later change nothing. -/
theorem Judged.load (h : Judged s) (hs : Reachable s) (path : Path) : Judged (s.load path).2 := by
  have hc := hs.orderly.complete
  refine ⟨waiting_load hs h.waiting path, fun i u hu hcompiled => ?_⟩
  have hstage : (s.load path).2.stage? i = some .compiled := by rw [stage?, hu, Option.map_some, hcompiled]
  obtain ⟨v, hv, -⟩ := Option.map_eq_some_iff.1 ((compiled_load hs path).1 hstage)
  have hi := (Array.getElem?_eq_some_iff.1 hv).1
  have hkept : (s.load path).2.units[i]? = s.units[i]? := (loads_loadFrom s.disk.files.length path s hc).1.kept i hi
  have hcomplaints : (s.load path).2.complaints i = s.complaints i :=
    complaints_kept (prefix_loadFrom s.disk.files.length path hc) (disk_loadFrom _ path hc) (by rwa [hc.sources])
  obtain ⟨n, hn⟩ := h.done i u (hkept.symm.trans hu) hcompiled
  refine ⟨n, fun m hm => ?_⟩
  obtain ⟨hresult, hdiagnostics, hfiles⟩ := hn m hm
  rw [hs.judge_load path hi]
  exact ⟨hresult, by rw [hdiagnostics, hcomplaints], fun k hk => (hfiles k hk).imp_right (compiled_load hs path).2⟩

/-- Whatever was loaded and compiled, every compiled file became what is said of it. -/
theorem Reachable.judged (hs : Reachable s) : Judged s := by
  induction hs with
  | new disk debug => exact ⟨fun i u hu => (by cases hu), fun i u hu => (by cases hu)⟩
  | load path hs ih => exact ih.load hs path
  | @compile s i hs ih =>
    by_cases hi : i < s.units.size
    · exact ((hs.runs hi).judged hs.orderly.fresh ih).1
    · rwa [compile_of_le (Nat.le_of_not_lt hi)]

end Judged

end HostScript.Session

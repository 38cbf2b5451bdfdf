import HostScript.Proofs.ImportPaths
import HostScript.Proofs.TreeLayout
import Mathlib.Algebra.Order.BigOperators.Group.List
import Mathlib.Algebra.Order.Group.Nat

/-! The order in which files are compiled.

`Runs` says what compiling a file and putting imports behind each other comes to, step by
step and without a bound on the steps. A file is taken up only while no file that it
reaches is being compiled, as these form a tree (`runs_compileFrom`), so an import that is
put behind others is always one that is done. Between calls no file is being compiled,
whatever was loaded and compiled before (`Reachable.calm`). -/
namespace HostScript.Session

open List Option

variable {i k : Nat} {s : Session}

/-! ### Stages -/

def stage? (s : Session) (i : Nat) : Option Stage := (s.units[i]?).map (·.stage)

/-- Something to be done: a file to compile, or imports to put behind others, and what is to come of it. -/
inductive Job where
  | file (i : Nat)
  | imports (l : Linked) (js : List Nat) (outcome : Option Linked)

/-- How a job changes a session. Whatever is put behind others is done by then. -/
inductive Runs : Job → Session → Session → Prop
  | settled {i : Nat} {s : Session} {u : FileUnit} (hu : s.units[i]? = some u) (hstage : u.stage ≠ .loaded) :
      Runs (.file i) s s
  | unread {i : Nat} {s : Session} {u : FileUnit} (hu : s.units[i]? = some u) (hstage : u.stage = .loaded)
      (hscript : u.script = none) : Runs (.file i) s ((s.begin i).finish i)
  | refused {i : Nat} {s : Session} {u : FileUnit} (hu : s.units[i]? = some u) (hstage : u.stage = .loaded)
      (hscript : u.script = some script) (hobstacle : s.obstacle? i script = some d) :
      Runs (.file i) s (((s.begin i).refuse i d).finish i)
  | failed {i : Nat} {s t : Session} {u : FileUnit} (hu : s.units[i]? = some u) (hstage : u.stage = .loaded)
      (hscript : u.script = some script) (hobstacle : s.obstacle? i script = none)
      (himports : Runs (.imports .empty u.imports none) (s.begin i) t) : Runs (.file i) s (t.finish i)
  | made {i : Nat} {s t : Session} {u : FileUnit} (hu : s.units[i]? = some u) (hstage : u.stage = .loaded)
      (hscript : u.script = some script) (hobstacle : s.obstacle? i script = none)
      (himports : Runs (.imports .empty u.imports (some l)) (s.begin i) t) :
      Runs (.file i) s ((t.compileScript i script l).finish i)
  | done {s : Session} : Runs (.imports l [] (some l)) s s
  | stop {s t : Session} {v : FileUnit} (hfile : Runs (.file j) s t) (hv : t.units[j]? = some v)
      (hstage : v.stage = .compiled) (hresult : v.result = none) : Runs (.imports l (j :: rest) none) s t
  | next {l : Linked} {s t : Session} {v : FileUnit} (hfile : Runs (.file j) s t) (hv : t.units[j]? = some v)
      (hstage : v.stage = .compiled) (hresult : v.result = some (code, vars))
      (hrest : Runs (.imports (l.add code vars) rest outcome) t t') : Runs (.imports l (j :: rest) outcome) s t'

section Stages

variable {t : Session} {job : Job}

theorem stage_modify (s : Session) (i k : Nat) (f : FileUnit → FileUnit) :
    (s.modifyUnit i f).stage? k = if i = k then (s.units[k]?).map fun u => (f u).stage else s.stage? k := by
  unfold stage?
  rw [getElem?_modifyUnit]
  split
  · rw [Option.map_map]
    rfl
  · rfl

theorem stage_finish (hi : i < s.units.size) : (s.finish i).stage? i = some .compiled := by
  rw [finish, stage_modify, if_pos rfl, Array.getElem?_eq_getElem hi]
  rfl

/-- Files that are not changed and one that is done. -/
theorem stage_finish_ne (hk : i ≠ k) : (s.finish i).stage? k = s.stage? k := by
  rw [finish, stage_modify, if_neg hk]

theorem stage_begin_ne (hk : i ≠ k) : (s.begin i).stage? k = s.stage? k := by
  rw [begin, stage_modify, if_neg hk]

theorem stage_compileScript (s : Session) (i k : Nat) (script : Script) (l : Linked) :
    (s.compileScript i script l).stage? k = s.stage? k := by
  show (s.modifyUnit i _).stage? k = _
  rw [stage_modify]
  split
  · rfl
  · rfl

theorem stage_refuse (s : Session) (i k : Nat) (d : Diagnostic) : (s.refuse i d).stage? k = s.stage? k := by
  rw [refuse, stage_modify]
  split
  · rfl
  · rfl

/-- What a job does is what compiling does to a session. -/
theorem Runs.compiles (h : Runs job s t) : Compiles s t := by
  induction h with
  | settled | done => exact .refl _
  | unread hu hstage => exact compiles_finish hu hstage (.refl _) fun _ => ⟨rfl, rfl, id⟩
  | refused hu hstage =>
    rw [refuse, finish, modifyUnit_modifyUnit]
    exact compiles_finish hu hstage (.refl _) fun v => ⟨rfl, rfl, fun h => by simp at h⟩
  | failed hu hstage _ _ _ ih => exact compiles_finish hu hstage ih fun _ => ⟨rfl, rfl, id⟩
  | made hu hstage _ _ _ ih =>
    show Compiles _ ((Session.modifyUnit _ _ _).modifyUnit _ _)
    rw [modifyUnit_modifyUnit]
    refine compiles_finish hu hstage ih fun v => ⟨rfl, rfl, fun h => ?_⟩
    exact (append_eq_nil_iff.1 (append_eq_nil_iff.1 h).1).1
  | stop _ _ _ _ ih => exact ih
  | next _ _ _ _ _ ih ih' => exact ih.trans ih'

/-- A file stays at its stage, or it waited and is done. -/
theorem Runs.stages (h : Runs job s t) (k : Nat) :
    t.stage? k = s.stage? k ∨ s.stage? k = some .loaded ∧ t.stage? k = some .compiled := by
  -- a file that is done, after a change that leaves other files alone or is one of these
  have hdone : ∀ {i : Nat} {s t : Session} {u : FileUnit}, s.units[i]? = some u → u.stage = .loaded →
      t.units.size = s.units.size →
      (i ≠ k → t.stage? k = s.stage? k ∨ s.stage? k = some .loaded ∧ t.stage? k = some .compiled) →
      (t.finish i).stage? k = s.stage? k ∨ s.stage? k = some .loaded ∧ (t.finish i).stage? k = some .compiled := by
    intro i s t u hu hstage hsize hother
    by_cases hk : i = k
    · subst hk
      have hi : i < t.units.size := hsize ▸ (Array.getElem?_eq_some_iff.1 hu).1
      exact .inr ⟨by rw [stage?, hu, map_some, hstage], stage_finish hi⟩
    · rw [stage_finish_ne hk]
      exact hother hk
  induction h with
  | settled | done => exact .inl rfl
  | unread hu hstage => exact hdone hu hstage Array.size_modify fun hk => .inl (stage_begin_ne hk)
  | refused hu hstage =>
    refine hdone hu hstage (Array.size_modify.trans Array.size_modify) fun hk => .inl ?_
    rw [stage_refuse, stage_begin_ne hk]
  | failed hu hstage _ _ himports ih =>
    refine hdone hu hstage (himports.compiles.size.trans Array.size_modify) fun hk => ?_
    rwa [stage_begin_ne hk] at ih
  | made hu hstage _ _ himports ih =>
    refine hdone hu hstage (Array.size_modify.trans (himports.compiles.size.trans Array.size_modify)) fun hk => ?_
    rw [stage_compileScript]
    rwa [stage_begin_ne hk] at ih
  | stop _ _ _ _ ih => exact ih
  | next _ _ _ _ _ ih ih' =>
    obtain h | ⟨hl, hc⟩ := ih
    · rwa [h] at ih'
    · refine .inr ⟨hl, ?_⟩
      obtain h' | ⟨hl', -⟩ := ih'
      · rw [h', hc]
      · rw [hc] at hl'
        cases hl'

/-- A file that is not being compiled is done afterwards. -/
theorem Runs.compiled (h : Runs (.file i) s t) (hi : s.stage? i ≠ some .compiling) : t.stage? i = some .compiled := by
  cases h with
  | settled hu hstage =>
    rw [stage?, hu, map_some] at hi ⊢
    rename_i u
    cases hs : u.stage with
    | loaded => exact absurd hs hstage
    | compiling => exact absurd (congrArg some hs) hi
    | compiled => rfl
  | unread hu => exact stage_finish (by simpa [begin, modifyUnit] using (Array.getElem?_eq_some_iff.1 hu).1)
  | refused hu => exact stage_finish (by simpa [refuse, begin, modifyUnit] using (Array.getElem?_eq_some_iff.1 hu).1)
  | failed hu _ _ _ himports =>
    refine stage_finish ?_
    rw [himports.compiles.size]
    simpa [begin, modifyUnit] using (Array.getElem?_eq_some_iff.1 hu).1
  | made hu _ _ _ himports =>
    refine stage_finish (Nat.lt_of_lt_of_eq ?_ (Array.size_modify.trans himports.compiles.size).symm)
    simpa [begin, modifyUnit] using (Array.getElem?_eq_some_iff.1 hu).1

/-! ### Enough steps -/

def waiting (s : Session) : Nat :=
  ((List.range s.units.size).map fun k => if s.stage? k = some .loaded then 1 else 0).sum

theorem waiting_le (hsize : t.units.size = s.units.size)
    (h : ∀ k, t.stage? k = some .loaded → s.stage? k = some .loaded) : t.waiting ≤ s.waiting := by
  unfold waiting
  rw [hsize]
  refine sum_le_sum fun k _ => ?_
  split
  · rw [if_pos (h k ‹_›)]
  · exact Nat.zero_le _

theorem waiting_begin (hi : s.stage? i = some .loaded) : s.waiting = (s.begin i).waiting + 1 := by
  have hlt : i < s.units.size := by
    obtain ⟨u, hu, -⟩ := map_eq_some_iff.1 hi
    exact (Array.getElem?_eq_some_iff.1 hu).1
  unfold waiting
  rw [show (s.begin i).units.size = s.units.size from Array.size_modify]
  refine sum_map_change nodup_range (mem_range.2 hlt) ?_ fun k hk => ?_
  · rw [if_pos hi, begin, stage_modify, if_pos rfl, Array.getElem?_eq_getElem hlt]
    rfl
  · rw [stage_begin_ne (Ne.symm hk)]

theorem Runs.waiting_le (h : Runs job s t) : t.waiting ≤ s.waiting := by
  refine Session.waiting_le h.compiles.size fun k hk => ?_
  obtain h' | ⟨hl, -⟩ := h.stages k
  · rwa [← h']
  · exact hl

/-- No file that another one reaches is being compiled. -/
def Clear (s : Session) (i : Nat) : Prop := ∀ k, s.Reaches i k → s.stage? k ≠ some .compiling

theorem alike_begin (s : Session) (i : Nat) : Alike s (s.begin i) := alike_modify s i fun _ => ⟨rfl, rfl⟩

theorem Alike.reaches (h : Alike s t) (hr : t.Reaches i k) : s.Reaches i k := by
  induction hr with
  | refl => exact .refl
  | tail _ hk ih => exact ih.tail (by rwa [h.importsOf] at hk)

theorem Runs.clear (h : Runs job s t) (hc : s.Clear i) : t.Clear i := by
  intro k hk hstage
  obtain h' | ⟨-, hc'⟩ := h.stages k
  · exact hc k (h.compiles.alike.reaches hk) (h' ▸ hstage)
  · rw [hc'] at hstage
    cases hstage

/-- The imports of a file that reaches none twice do not reach it. -/
theorem not_reaches_of_repeated (h : s.repeated? i = none) (hj : j ∈ s.importsOf i) (hk : s.Reaches j k) : k ≠ i := by
  have hway : ∃ p, s.follow j p = some k := by
    induction hk with
    | refl => exact ⟨[], rfl⟩
    | @tail b c _ hc ih =>
      obtain ⟨p, hp⟩ := ih
      obtain ⟨m, hm⟩ := mem_iff_getElem?.1 hc
      exact ⟨p ++ [m], by rw [follow_concat, hp]; exact hm⟩
  rintro rfl
  obtain ⟨p, hp⟩ := hway
  obtain ⟨m, hm⟩ := mem_iff_getElem?.1 hj
  have hround : s.follow k (m :: p) = some k := by
    rw [follow, hm]
    exact hp
  cases repeated_eq_none_iff.1 h _ _ _ hround (rfl : s.follow k [] = some k)

theorem clear_begin (hc : s.Clear i) (h : s.repeated? i = none) (hj : j ∈ s.importsOf i) : (s.begin i).Clear j := by
  intro k hk hstage
  have hk' : s.Reaches j k := (alike_begin s i).reaches hk
  rw [stage_begin_ne (not_reaches_of_repeated h hj hk').symm] at hstage
  exact hc k (.head hj hk') hstage

theorem Alike.complete (h : Alike s t) (hsources : t.sources = s.sources) (hc : Complete s) : Complete t := by
  refine ⟨by rw [hsources, hc.sources, h.size], fun k v hv j hj => ?_⟩
  have hunit := h.unit k
  rw [hv] at hunit
  obtain ⟨w, hw, heq⟩ := map_eq_some_iff.1 hunit.symm
  rw [h.size]
  exact hc.imports k w hw j ((Prod.mk.inj heq).2 ▸ hj)

section Fuel

variable {fuel : Nat}

/-- Imports that are compiled one after the other, each with enough steps left. -/
theorem runs_imports
    (ih : ∀ i s, i < s.units.size → Complete s → s.waiting ≤ fuel → s.Clear i → Runs (.file i) s (compileFrom fuel i s).2)
    (js : List Nat) (l : Linked) (hjs : ∀ j ∈ js, j < s.units.size ∧ s.Clear j) (hc : Complete s)
    (hfuel : s.waiting ≤ fuel) :
    Runs (.imports l js (js.foldlM (linkNext fuel) (some l) s).1) s (js.foldlM (linkNext fuel) (some l) s).2 := by
  induction js generalizing l s with
  | nil => exact .done
  | cons j rest ihrest =>
    obtain ⟨⟨hj, hclear⟩, hrest⟩ := forall_mem_cons.1 hjs
    have hfile := ih j s hj hc hfuel hclear
    obtain ⟨v, hv, hstage⟩ := map_eq_some_iff.1 (hfile.compiled (hclear j .refl))
    have hstep : (j :: rest).foldlM (linkNext fuel) (some l) s =
        rest.foldlM (linkNext fuel) (v.result.map fun r => l.add r.1 r.2) (compileFrom fuel j s).2 := by
      show (rest.foldlM (linkNext fuel) ((((compileFrom fuel j s).2.units[j]?).bind (·.result)).map
        fun r => l.add r.1 r.2) : StateM Session (Option Linked)) (compileFrom fuel j s).2 = _
      rw [hv]
      rfl
    rw [hstep]
    cases hresult : v.result with
    | none =>
      -- nothing is done about the other imports
      have hstop : ∀ (js : List Nat) (t : Session), js.foldlM (linkNext fuel) none t = (none, t) := by
        intro js t
        induction js with
        | nil => rfl
        | cons k js ih => exact ih
      rw [map_none, hstop]
      exact .stop hfile hv hstage hresult
    | some r =>
      refine .next hfile hv hstage hresult (ihrest _ (fun k hk => ?_) ?_ ?_)
      · rw [hfile.compiles.size]
        exact ⟨(hrest k hk).1, hfile.clear (hrest k hk).2⟩
      · exact hfile.compiles.alike.complete hfile.compiles.sources hc
      · exact Nat.le_trans hfile.waiting_le hfuel

/-- With a step for each file that waits, compiling is not cut short, and it never comes across a file
that is being compiled. -/
theorem runs_compileFrom (fuel : Nat) : ∀ i s, i < s.units.size → Complete s → s.waiting ≤ fuel → s.Clear i →
    Runs (.file i) s (compileFrom fuel i s).2 := by
  induction fuel with
  | zero =>
    intro i s hi _ hfuel _
    refine .settled (Array.getElem?_eq_getElem hi) fun hstage => ?_
    have hloaded : s.stage? i = some .loaded := by rw [stage?, Array.getElem?_eq_getElem hi, map_some, hstage]
    have := waiting_begin hloaded
    omega
  | succ fuel ih =>
    intro i s hi hc hfuel hclear
    have hu := Array.getElem?_eq_getElem hi
    generalize s.units[i] = u at hu
    by_cases hl : u.stage = .loaded
    · have hloaded : s.stage? i = some .loaded := by rw [stage?, hu, map_some, hl]
      have hbegin := waiting_begin hloaded
      rw [compileFrom_succ fuel hu hl]
      cases hscript : u.script with
      | none =>
        rw [compileUnit_unread hscript]
        exact .unread hu hl hscript
      | some script =>
        cases hobstacle : s.obstacle? i script with
        | some d =>
          rw [compileUnit_refused hscript hobstacle]
          exact .refused hu hl hscript hobstacle
        | none =>
          have honce := repeated_of_obstacle hobstacle
          have hjs : ∀ j ∈ u.imports, j < (s.begin i).units.size ∧ (s.begin i).Clear j := fun j hj =>
            ⟨Nat.lt_of_lt_of_eq (hc.imports i u hu j hj) Array.size_modify.symm,
              clear_begin hclear honce (importsOf_eq hu ▸ hj)⟩
          have himports := runs_imports ih u.imports .empty hjs ((alike_begin s i).complete rfl hc) (by omega)
          change Runs _ _ (Session.finish (compileUnit fuel i u s (s.begin i)).2 i)
          rw [compileUnit_linked hscript hobstacle]
          generalize u.imports.foldlM (linkNext fuel) (some Linked.empty) (s.begin i) = r at himports ⊢
          obtain ⟨linked, t⟩ := r
          cases linked with
          | none => exact .failed hu hl hscript hobstacle himports
          | some l => exact .made hu hl hscript hobstacle himports
    · rw [compileFrom_settled _ fun v hv => by cases hu.symm.trans hv; exact hl]
      exact .settled hu hl

end Fuel

end Stages

/-! ### At any time -/

/-- Something holds of each file. -/
def Each (s : Session) (P : Nat → FileUnit → Prop) : Prop := ∀ (i : Nat) (u : FileUnit), s.units[i]? = some u → P i u

/-- What holds of a file that was read, whatever it imports, holds of each file that is loaded. -/
theorem each_loadFrom {P : Nat → FileUnit → Prop} (hread : ∀ disk path n, P n (readFile disk path n).2)
    (himports : ∀ n u imports, P n u → P n { u with imports }) (fuel : Nat) :
    ∀ path s, Complete s → s.Each P → (loadFrom fuel path s).2.Each P := by
  refine loadFrom_keeps (fun s path hc _ h i u hu => ?_) (fun s i imports h k u hu => ?_) fuel
  · have hunits : (s.add path).units = s.units.push (readFile s.disk path s.sources.size).2 := rfl
    rw [hunits, Array.getElem?_push] at hu
    split at hu
    · rename_i hi
      cases hu
      rw [hi, ← hc.sources]
      exact hread _ _ _
    · exact h i u hu
  · rw [getElem?_modifyUnit] at hu
    split at hu
    · obtain ⟨v, hv, rfl⟩ := map_eq_some_iff.1 hu
      exact himports k v imports (h k v hv)
    · exact h k u hu

theorem stage_readFile (disk : Disk) (path : Path) (n : Nat) : (readFile disk path n).2.stage = .loaded := by
  unfold readFile
  split
  · rfl
  · split <;> rfl

/-- A file that is not there is not compiled. -/
theorem compile_of_le (hi : s.units.size ≤ i) : s.compile i = s := by
  have hnone : s.units[i]? = none := Array.getElem?_eq_none hi
  unfold compile
  rw [compileFrom_settled _ fun u h => by cases hnone.symm.trans h]

theorem waiting_le_size (s : Session) : s.waiting ≤ s.units.size := by
  have h : s.waiting ≤ ((List.range s.units.size).map fun _ => 1).sum := by
    refine sum_le_sum fun k _ => ?_
    split
    · exact Nat.le_refl _
    · exact Nat.zero_le _
  simpa using h

/-- No file is being compiled. -/
def Calm (s : Session) : Prop := s.Each fun _ u => u.stage ≠ .compiling

theorem Calm.clear (h : s.Calm) (i : Nat) : s.Clear i := by
  intro k _ hk
  obtain ⟨u, hu, hstage⟩ := map_eq_some_iff.1 hk
  exact h k u hu hstage

theorem Calm.runs (h : s.Calm) (hc : Complete s) (hi : i < s.units.size) : Runs (.file i) s (s.compile i) :=
  runs_compileFrom s.units.size i s hi hc s.waiting_le_size (h.clear i)

theorem Reachable.calm (hs : Reachable s) : s.Calm := by
  induction hs with
  | new disk debug => exact fun i u hu => by cases hu
  | @load s path hs ih =>
    refine each_loadFrom (fun disk path n => ?_) (fun _ _ _ h => h) _ path s hs.orderly.complete ih
    rw [stage_readFile]
    exact Stage.noConfusion
  | @compile s i hs ih =>
    by_cases hi : i < s.units.size
    · intro k u hu hstage
      have hk : (s.compile i).stage? k = some .compiling := by rw [stage?, hu, Option.map_some, hstage]
      obtain h | ⟨-, h⟩ := (ih.runs hs.orderly.complete hi).stages k
      · obtain ⟨v, hv, hv'⟩ := Option.map_eq_some_iff.1 (h.symm.trans hk)
        exact ih k v hv hv'
      · cases h.symm.trans hk
    · rw [compile_of_le (Nat.le_of_not_lt hi)]
      exact ih

/-- Between calls, compiling a file runs to its end. -/
theorem Reachable.runs (hs : Reachable s) (hi : i < s.units.size) : Runs (.file i) s (s.compile i) :=
  hs.calm.runs hs.orderly.complete hi

end HostScript.Session

import HostScript.Build
import HostScript.Proofs.Lineage
import HostScript.Proofs.Linking

/-! Files of a session.

A session only adds files and compiles them, so what was compiled stays as it is, and
a file sees the same declarations when others are added. When no problem was found,
every file with code was compiled behind the files it imports (`Built`). -/
namespace HostScript

open List hiding get set

variable {debug : Bool} {disk : Disk} {u : FileUnit} {l' : Linked} {seen : List Nat} {paths : List String} {more : Nat}
  {t : Session} {l : Linked} {imports order stack : List Nat} {fuel i : Nat} {path : Path} {s : Session}

namespace Session

/-! ### What a file sees -/

section Visible

/-- Files whose imports are among them again, and the same in another session. -/
structure Closed (s t : Session) (P : Nat → Prop) : Prop where
  imports : ∀ i, P i → t.importsOf i = s.importsOf i
  inside : ∀ i, P i → ∀ j ∈ s.importsOf i, P j

variable {P : Nat → Prop}

/-- With the same imports, the same files are seen in the same order. -/
theorem visibleFrom_congr (hP : Closed s t P) (fuel : Nat) (hstack : ∀ i ∈ stack, P i) (order : List Nat) :
    t.visibleFrom fuel stack order = s.visibleFrom fuel stack order := by
  induction fuel generalizing stack order with
  | zero => rfl
  | succ fuel ih =>
    cases stack with
    | nil => rfl
    | cons i rest =>
      obtain ⟨hi, hrest⟩ := forall_mem_cons.1 hstack
      unfold visibleFrom
      rw [hP.imports i hi]
      split
      · exact ih hrest order
      · refine ih (fun j hj => ?_) _
        exact (mem_append.1 hj).elim (hP.inside i hi j) (hrest j)

/-- What files hand on to their imports holds of everything in sight. -/
theorem mem_visibleFrom (hP : ∀ i, P i → ∀ j ∈ s.importsOf i, P j) (fuel : Nat) (hstack : ∀ i ∈ stack, P i)
    (horder : ∀ i ∈ order, P i) : ∀ i ∈ s.visibleFrom fuel stack order, P i := by
  induction fuel generalizing stack order with
  | zero => exact horder
  | succ fuel ih =>
    cases stack with
    | nil => exact horder
    | cons i rest =>
      obtain ⟨hi, hrest⟩ := forall_mem_cons.1 hstack
      unfold visibleFrom
      split
      · exact ih hrest horder
      · refine ih (fun j hj => ?_) fun j hj => ?_
        · exact (mem_append.1 hj).elim (hP i hi j) (hrest j)
        · obtain hj | hj := mem_append.1 hj
          · exact horder j hj
          · rw [mem_singleton.1 hj]
            exact hi

/-- The imports of files that a walk has not followed yet. -/
def unfollowed (s : Session) (order : List Nat) : Nat :=
  ((List.range s.units.size).map fun j => if j ∈ order then 0 else (s.importsOf j).length).sum

theorem sum_map_change {f g : Nat → Nat} {xs : List Nat} (hnodup : xs.Nodup) (hi : i ∈ xs) (hf : f i = g i + c)
    (h : ∀ j, j ≠ i → f j = g j) : (xs.map f).sum = (xs.map g).sum + c := by
  induction xs with
  | nil => cases hi
  | cons x rest ih =>
    obtain ⟨hx, hrest⟩ := nodup_cons.1 hnodup
    rw [map_cons, map_cons, sum_cons, sum_cons]
    by_cases hxi : x = i
    · subst hxi
      have heq : rest.map f = rest.map g := map_congr_left fun j hj => h j fun hji => hx (hji ▸ hj)
      rw [heq, hf]
      omega
    · have hmem : i ∈ rest := (mem_cons.1 hi).resolve_left fun h => hxi h.symm
      rw [ih hrest hmem, h x hxi]
      omega

/-- A walk that follows one more file. -/
theorem unfollowed_follow (s : Session) (order' : List Nat) (hi : i ∉ order) (h : ∀ j, j ∈ order' ↔ j = i ∨ j ∈ order) :
    s.unfollowed order = s.unfollowed order' + (s.importsOf i).length := by
  by_cases hlt : i < s.units.size
  · refine sum_map_change nodup_range (mem_range.2 hlt) ?_ fun j hj => ?_
    · simp [hi, h]
    · simp [hj, h]
  · have hnone : s.importsOf i = [] := by simp [importsOf, Nat.le_of_not_lt hlt]
    rw [hnone, length_nil, Nat.add_zero]
    unfold unfollowed
    congr 1
    refine map_congr_left fun j hj => ?_
    have hji : j ≠ i := fun h => hlt (h ▸ mem_range.1 hj)
    simp [hji, h]

/-- At the start no file has been followed. -/
theorem links_eq (s : Session) : s.links = s.unfollowed [] := by
  unfold links unfollowed
  congr 1
  refine ext_getElem (by simp) fun i h₁ h₂ => ?_
  have hi : i < s.units.size := by simpa using h₁
  simp [importsOf, hi]

/-- There are enough steps for one file and everything behind it. -/
theorem singleton_le_links (s : Session) (i : Nat) : [i].length + s.unfollowed [] ≤ s.links + 1 := by
  rw [links_eq, length_singleton]
  omega

/-- A walk with enough steps does not depend on how many there are. -/
theorem visibleFrom_enough (s : Session) (h : s.links + 1 ≤ fuel) : s.visibleFrom fuel [i] [] = s.visible i := by
  refine @Api.walk_enough _ _ s.visibleFrom s.unfollowed (fun m n _ => by cases m <;> cases n <;> rfl)
    (fun i rest order => ?_) _ _ _ _ (s.singleton_le_links i) h
  by_cases hi : i ∈ order
  · exact ⟨rest, order, Nat.le_refl _, fun m n h => by rw [visibleFrom, visibleFrom, if_pos hi, if_pos hi, h]⟩
  · have := s.unfollowed_follow (order ++ [i]) hi (by simp [or_comm])
    refine ⟨s.importsOf i ++ rest, order ++ [i], by rw [length_append]; omega, fun m n h => ?_⟩
    rw [visibleFrom, visibleFrom, if_neg hi, if_neg hi, h]

/-- With more steps than there are imports nothing else is found. -/
theorem repeatedFrom_enough (s : Session) (h : s.links + 1 ≤ fuel) : s.repeatedFrom fuel [i] [] = s.repeated? i := by
  refine @Api.walk_enough _ _ s.repeatedFrom s.unfollowed (fun m n _ => by cases m <;> cases n <;> rfl)
    (fun i rest seen => ?_) _ _ _ _ (s.singleton_le_links i) h
  by_cases hi : i ∈ seen
  · exact ⟨rest, seen, Nat.le_refl _, fun m n _ => by rw [repeatedFrom, repeatedFrom, if_pos hi, if_pos hi]⟩
  · have := s.unfollowed_follow (i :: seen) hi (by simp)
    refine ⟨(s.importsOf i).reverse ++ rest, i :: seen, ?_, fun m n h => ?_⟩
    · rw [length_append, length_reverse]
      omega
    · rw [repeatedFrom, repeatedFrom, if_neg hi, if_neg hi, h]

/-- A file sees the same when files are added that it does not reach. -/
theorem api_congr (hP : Closed s t P) (hlinks : s.links ≤ t.links)
    (hscript : ∀ j, P j → (t.units[j]?).bind (·.script) = (s.units[j]?).bind (·.script)) (hi : P i) : t.api i = s.api i := by
  have hstack : ∀ j ∈ [i], P j := by simpa using hi
  have hvisible : t.visible i = s.visible i := by
    unfold visible
    rw [visibleFrom_congr hP _ hstack]
    exact visibleFrom_enough s (Nat.succ_le_succ hlinks)
  unfold api
  rw [hvisible]
  congr 1
  refine filterMap_congr fun j hj => hscript j ?_
  exact mem_visibleFrom hP.inside _ hstack (by simp) j hj

/-! Whether a file is reached along two ways does not change either. -/

theorem repeatedFrom_congr (hP : Closed s t P) (fuel : Nat) (hstack : ∀ i ∈ stack, P i) (seen : List Nat) :
    t.repeatedFrom fuel stack seen = s.repeatedFrom fuel stack seen := by
  induction fuel generalizing stack seen with
  | zero => rfl
  | succ fuel ih =>
    cases stack with
    | nil => rfl
    | cons i rest =>
      obtain ⟨hi, hrest⟩ := forall_mem_cons.1 hstack
      unfold repeatedFrom
      rw [hP.imports i hi, ih fun j hj => ?_]
      obtain hj | hj := mem_append.1 hj
      · exact hP.inside i hi j (mem_reverse.1 hj)
      · exact hrest j hj

/-- With the same imports, the same file is reached twice. -/
theorem repeated_congr (hP : Closed s t P) (hlinks : s.links ≤ t.links) (hi : P i) : t.repeated? i = s.repeated? i := by
  unfold repeated?
  rw [repeatedFrom_congr hP _ (by simpa using hi)]
  exact repeatedFrom_enough s (Nat.succ_le_succ hlinks)

end Visible

/-! ### Files with code -/

/-- The code of a file and the variables it leaves. -/
def result? (s : Session) (i : Nat) : Option (Fragment × Variables) := (s.units[i]?).bind (·.result)

/-- Imported files behind others. -/
def linkedFrom? (s : Session) (l : Linked) (imports : List Nat) : Option Linked :=
  imports.foldlM (fun l j => (s.result? j).map fun (code, vars) => l.add code vars) l

/-- Imported files one behind the other. -/
def linked? (s : Session) (imports : List Nat) : Option Linked := s.linkedFrom? .empty imports

/-- The code of a file was made from its script behind what it imports, without reports. No file
is reached twice. -/
inductive Built (s : Session) : Nat → Prop
  | intro {i : Nat} {u : FileUnit} {script : Script} {sources : Sources} {l : Linked} {code : Fragment}
      {vars : Variables} (hunit : s.units[i]? = some u) (hscript : u.script = some script)
      (honce : s.repeated? i = none) (hlinked : s.linked? u.imports = some l) (himports : ∀ j ∈ u.imports, Built s j)
      (hcompile : script.compile ⟨sources, s.api i, s.debug⟩ l.code.zeroLines l.vars = (code, ⟨vars, #[]⟩))
      (hresult : u.result = some (code, vars)) : Built s i

/-- What was compiled stays, and files see the same. -/
structure Extends (s t : Session) : Prop where
  debug : t.debug = s.debug
  unit : ∀ {i : Nat} {u : FileUnit}, s.units[i]? = some u → ∃ u' : FileUnit, t.units[i]? = some u' ∧ u'.script = u.script ∧
    u'.imports = u.imports ∧ ∀ r, u.result = some r → u'.result = some r
  api : ∀ {i : Nat}, i < s.units.size → t.api i = s.api i
  repeated : ∀ {i : Nat}, i < s.units.size → t.repeated? i = s.repeated? i

/-- Code that is there stays as it is. -/
theorem Extends.result (h : Extends s t) (hr : s.result? i = some r) : t.result? i = some r := by
  obtain ⟨v, hv, hresult⟩ := Option.bind_eq_some_iff.1 hr
  obtain ⟨v', hv', -, -, hkept⟩ := h.unit hv
  exact Option.bind_eq_some_iff.2 ⟨v', hv', hkept r hresult⟩

theorem linkedFrom_cons (s : Session) (l : Linked) (j : Nat) (rest : List Nat) :
    s.linkedFrom? l (j :: rest) = (s.result? j).bind fun r => s.linkedFrom? (l.add r.1 r.2) rest := by
  unfold linkedFrom?
  rw [foldlM_cons]
  cases s.result? j <;> rfl

/-- Linking files with code gives the same later on. -/
theorem Extends.linked (h : Extends s t) (hl : s.linkedFrom? l imports = some l') :
    t.linkedFrom? l imports = some l' := by
  induction imports generalizing l with
  | nil => exact hl
  | cons j rest ih =>
    rw [linkedFrom_cons] at hl ⊢
    obtain ⟨r, hr, hrest⟩ := Option.bind_eq_some_iff.1 hl
    exact Option.bind_eq_some_iff.2 ⟨r, h.result hr, ih hrest⟩

/-- What was built stays built. -/
theorem Extends.built (h : Extends s t) (hi : Built s i) : Built t i := by
  induction hi with
  | @intro i v script sources l code vars hunit hscript honce hlinked _ hcompile hresult ih =>
    obtain ⟨v', hv', hscript', himports', hkept⟩ := h.unit hunit
    have hlt : i < s.units.size := (Array.getElem?_eq_some_iff.1 hunit).1
    rw [← h.api hlt, ← h.debug] at hcompile
    refine .intro hv' (hscript'.trans hscript) ((h.repeated hlt).trans honce) ?_ ?_ hcompile (hkept _ hresult)
    · rw [himports']
      exact h.linked hlinked
    · rw [himports']
      exact ih

/-! ### Compiling -/

section Modify

variable {j : Nat} {f : FileUnit → FileUnit}

theorem getElem?_modifyUnit (s : Session) (i j : Nat) (f : FileUnit → FileUnit) :
    (s.modifyUnit i f).units[j]? = if i = j then (s.units[j]?).map f else s.units[j]? := by
  unfold modifyUnit
  rw [Array.getElem?_modify]

/-- There are no problems at all if no file has any. -/
theorem diagnostics_eq_nil (s : Session) :
    s.diagnostics = [] ↔ ∀ (i : Nat) (u : FileUnit), s.units[i]? = some u → u.diagnostics = [] := by
  unfold diagnostics
  rw [flatMap_eq_nil_iff]
  constructor
  · intro h i u hu
    exact h u (Array.mem_toList_iff.2 (Array.mem_of_getElem? hu))
  · intro h u hu
    obtain ⟨i, hi⟩ := Array.mem_iff_getElem?.1 (Array.mem_toList_iff.1 hu)
    exact h i u hi

end Modify

/-- The same scripts with the same imports. -/
structure Alike (s t : Session) : Prop where
  size : t.units.size = s.units.size
  unit : ∀ i : Nat, (t.units[i]?).map (fun u => (u.script, u.imports)) =
    (s.units[i]?).map fun u => (u.script, u.imports)

section

variable (h : Alike s t)
include h

theorem Alike.importsOf (i : Nat) : t.importsOf i = s.importsOf i := by
  have hi := congrArg (fun o => (o.map Prod.snd).getD []) (h.unit i)
  simpa [Session.importsOf, Option.map_map, Function.comp_def] using hi

theorem Alike.script (i : Nat) : (t.units[i]?).bind (·.script) = (s.units[i]?).bind (·.script) := by
  have hi := congrArg (fun o => o.bind Prod.fst) (h.unit i)
  simpa [Option.bind_map, Function.comp_def] using hi

theorem Alike.closed : Closed s t fun _ => True :=
  ⟨fun i _ => h.importsOf i, fun _ _ _ _ => trivial⟩

theorem Alike.links : t.links = s.links := by
  rw [links_eq, links_eq]
  unfold unfollowed
  rw [h.size]
  simp only [h.importsOf]

/-- A file sees the same declarations. -/
theorem Alike.api (i : Nat) : t.api i = s.api i :=
  api_congr h.closed (Nat.le_of_eq h.links.symm) (fun j _ => h.script j) trivial

/-- The same file is reached twice. -/
theorem Alike.repeated (i : Nat) : t.repeated? i = s.repeated? i :=
  repeated_congr h.closed (Nat.le_of_eq h.links.symm) trivial

end

theorem alike_modify (s : Session) (i : Nat) (hf : ∀ v, (f v).script = v.script ∧ (f v).imports = v.imports) :
    Alike s (s.modifyUnit i f) := by
  refine ⟨Array.size_modify, fun j => ?_⟩
  rw [getElem?_modifyUnit]
  split
  · cases s.units[j]? with
    | none => rfl
    | some v => simp [hf v]
  · rfl

/-- A file may be changed as long as it does not lose code that it has. -/
theorem extends_modify (hf : ∀ v, (f v).script = v.script ∧ (f v).imports = v.imports)
    (hresult : ∀ v, s.units[i]? = some v → ∀ r, v.result = some r → (f v).result = some r) :
    Extends s (s.modifyUnit i f) := by
  refine ⟨rfl, fun {j v} hv => ?_, fun _ => (alike_modify s i hf).api _, fun _ => (alike_modify s i hf).repeated _⟩
  by_cases hj : i = j
  · subst hj
    exact ⟨f v, by rw [getElem?_modifyUnit, if_pos rfl, hv]; rfl, (hf v).1, (hf v).2, hresult v hv⟩
  · exact ⟨v, by rw [getElem?_modifyUnit, if_neg hj, hv], rfl, rfl, fun _ h => h⟩

/-- Files without problems, along with the files that they import. -/
structure Quiet (s : Session) (P : Nat → Prop) : Prop where
  inside : ∀ i, P i → ∀ j ∈ s.importsOf i, P j
  diagnostics : ∀ (i : Nat) (u : FileUnit), P i → s.units[i]? = some u → u.diagnostics = []

/-- Without problems, all files are quiet. -/
theorem quiet_of_diagnostics (h : s.diagnostics = []) : s.Quiet fun _ => True :=
  ⟨fun _ _ _ _ => trivial, fun i u _ hu => (diagnostics_eq_nil s).1 h i u hu⟩

/-- Files that are quiet after a change that hides no problem were quiet before. -/
theorem quiet_modify (hf : ∀ v, (f v).script = v.script ∧ (f v).imports = v.imports)
    (hquiet : ∀ v, (f v).diagnostics = [] → v.diagnostics = []) (h : (s.modifyUnit i f).Quiet P) : s.Quiet P := by
  constructor
  · intro j hj k hk
    exact h.inside j hj k (by rwa [(alike_modify s i hf).importsOf])
  · intro j v hP hv
    by_cases hj : i = j
    · subst hj
      exact hquiet v (h.diagnostics i (f v) hP (by rw [getElem?_modifyUnit, if_pos rfl, hv]; rfl))
    · exact h.diagnostics j v hP (by rw [getElem?_modifyUnit, if_neg hj, hv])

/-- No file that waits to be compiled has code. -/
def Fresh (s : Session) : Prop := ∀ (i : Nat) (u : FileUnit), s.units[i]? = some u → u.stage = .loaded → u.result = none

/-- Every file with code was built, unless there are problems with it or with what it imports. -/
def Sound (s : Session) : Prop := ∀ P, s.Quiet P → ∀ i r, P i → s.result? i = some r → Built s i

/-- What compiling does to a session: files that do not wait for it stay as they are. -/
structure Compiles (s t : Session) : Prop where
  debug : t.debug = s.debug
  sources : t.sources = s.sources
  size : t.units.size = s.units.size
  unit : ∀ {i : Nat} {u : FileUnit}, s.units[i]? = some u → ∃ u' : FileUnit, t.units[i]? = some u' ∧ u'.script = u.script ∧
    u'.imports = u.imports ∧ (u'.diagnostics = [] → u.diagnostics = []) ∧ (u.stage ≠ .loaded → u' = u)

section Compiles

variable {u : Session}

theorem Compiles.refl (s : Session) : Compiles s s :=
  ⟨rfl, rfl, rfl, fun hu => ⟨_, hu, rfl, rfl, id, fun _ => rfl⟩⟩

theorem Compiles.trans (h : Compiles s t) (h' : Compiles t u) : Compiles s u := by
  refine ⟨h'.debug.trans h.debug, h'.sources.trans h.sources, h'.size.trans h.size, fun hv => ?_⟩
  obtain ⟨v', hv', hs, hi, hd, hkept⟩ := h.unit hv
  obtain ⟨v'', hv'', hs', hi', hd', hkept'⟩ := h'.unit hv'
  refine ⟨v'', hv'', hs'.trans hs, hi'.trans hi, fun hq => hd (hd' hq), fun hstage => ?_⟩
  obtain rfl := hkept hstage
  exact hkept' hstage

/-- Compiling changes no script and no import. -/
theorem Compiles.alike (h : Compiles s t) : Alike s t := by
  refine ⟨h.size, fun i => ?_⟩
  cases hs : s.units[i]? with
  | none =>
    have hnone : t.units[i]? = none := by
      rw [Array.getElem?_eq_none_iff] at hs ⊢
      rwa [h.size]
    rw [hnone]
  | some v =>
    obtain ⟨v', hv', hsc, hi, -⟩ := h.unit hs
    rw [hv', Option.map_some, Option.map_some, hsc, hi]

/-- Files that wait have no code, so compiling takes none back. -/
theorem Compiles.extends (h : Compiles s t) (hfresh : Fresh s) : Extends s t := by
  refine ⟨h.debug, fun {i v} hv => ?_, fun _ => h.alike.api _, fun _ => h.alike.repeated _⟩
  obtain ⟨v', hv', hs, hi, -, hkept⟩ := h.unit hv
  refine ⟨v', hv', hs, hi, fun r hr => ?_⟩
  have hstage : v.stage ≠ .loaded := by
    intro hl
    rw [hfresh i v hv hl] at hr
    cases hr
  rw [hkept hstage, hr]

end Compiles

/-- Compiles an imported file and puts it behind those before it. -/
def linkNext (fuel : Nat) (linked : Option Linked) (j : Nat) : StateM Session (Option Linked) := do
  match linked with
  | none => pure none
  | some l =>
    compileFrom fuel j
    return (((← get).units[j]?).bind (·.result)).map fun (code, vs) => Linked.add l code vs

def begin (s : Session) (i : Nat) : Session := s.modifyUnit i fun u => { u with stage := .compiling }

def finish (s : Session) (i : Nat) : Session := s.modifyUnit i fun u => { u with stage := .compiled }

def refuse (s : Session) (i : Nat) (d : Diagnostic) : Session :=
  s.modifyUnit i fun u => { u with diagnostics := u.diagnostics ++ [d] }

/-- What is done to a file between the start and the end of its compilation. -/
def compileUnit (fuel i : Nat) (u : FileUnit) (s : Session) : StateM Session Unit := do
  match u.script with
  | none => pure ()
  | some script =>
    match s.obstacle? i script with
    | some d => modify (·.modifyUnit i fun u => { u with diagnostics := u.diagnostics ++ [d] })
    | none =>
      match ← u.imports.foldlM (linkNext fuel) (some Linked.empty) with
      | none => pure ()
      | some l => modify (·.compileScript i script l)

/-- A file that waits is begun, compiled and finished. -/
theorem compileFrom_succ (fuel : Nat) (hu : s.units[i]? = some u) (hl : u.stage = .loaded) :
    (compileFrom (fuel + 1) i s).2 = (compileUnit fuel i u s (s.begin i)).2.finish i := by
  unfold compileFrom compileUnit linkNext begin
  simp only [bind, StateT.bind, get, getThe, MonadStateOf.get, StateT.get, pure, hu, hl, ne_eq, not_true_eq_false,
    if_false, set]
  cases u.script with
  | none => rfl
  | some script =>
    dsimp only
    cases s.obstacle? i script with
    | some d => rfl
    | none =>
      dsimp only
      generalize (List.foldlM _ (some Linked.empty) u.imports : StateM Session (Option Linked)) = m
      delta StateT.set
      simp only [StateT.bind, bind, pure]
      obtain ⟨r, t⟩ := m (s.modifyUnit i fun u => { u with stage := .compiling })
      cases r <;> rfl

/-- A file that waits for nothing stays as it is. -/
theorem compileFrom_settled (fuel : Nat) (h : ∀ u, s.units[i]? = some u → u.stage ≠ .loaded) :
    compileFrom fuel i s = ((), s) := by
  cases fuel with
  | zero => rfl
  | succ fuel =>
    unfold compileFrom
    simp only [bind, StateT.bind, get, getThe, MonadStateOf.get, StateT.get, pure]
    cases hu : s.units[i]? with
    | none => rfl
    | some u =>
      dsimp only
      rw [if_pos (h u hu)]
      rfl

section Unit

variable {script : Script}

theorem compileUnit_unread (hscript : u.script = none) (t : Session) : (compileUnit fuel i u s t).2 = t := by
  unfold compileUnit
  rw [hscript]
  rfl

theorem compileUnit_refused (hscript : u.script = some script) (hobstacle : s.obstacle? i script = some d) (t : Session) :
    (compileUnit fuel i u s t).2 = t.refuse i d := by
  unfold compileUnit
  rw [hscript]
  dsimp only
  rw [hobstacle]
  rfl

/-- A file is compiled behind its imports if all of them have code. -/
theorem compileUnit_linked (hscript : u.script = some script) (hobstacle : s.obstacle? i script = none) (t : Session) :
    (compileUnit fuel i u s t).2 = match u.imports.foldlM (linkNext fuel) (some Linked.empty) t with
      | (none, t) => t
      | (some l, t) => t.compileScript i script l := by
  unfold compileUnit
  rw [hscript]
  dsimp only
  rw [hobstacle]
  simp only [bind, StateT.bind]
  obtain ⟨linked, t⟩ := u.imports.foldlM (linkNext fuel) (some Linked.empty) t
  cases linked <;> rfl

end Unit

/-- Only files with code are linked. -/
theorem linkedFrom_some (h : s.linkedFrom? l imports = some l') : ∀ j ∈ imports, ∃ r, s.result? j = some r := by
  induction imports generalizing l with
  | nil => simp
  | cons j rest ih =>
    rw [linkedFrom_cons] at h
    obtain ⟨r, hr, hrest⟩ := Option.bind_eq_some_iff.1 h
    exact forall_mem_cons.2 ⟨⟨r, hr⟩, ih hrest⟩

/-- What compiling a file keeps. -/
structure Advances (P : Session → Prop) (s t : Session) : Prop extends Compiles s t where
  fresh : Fresh t
  kept : P t

/-- Imported files are compiled one after the other, and each keeps its code from then on. -/
theorem advances_imports (ih : ∀ i s, Fresh s → P s → Advances P s (compileFrom fuel i s).2) (imports : List Nat)
    (acc : Option Linked) (hf : Fresh s) (hs : P s) : Advances P s (imports.foldlM (linkNext fuel) acc s).2 ∧
      ∀ l', (imports.foldlM (linkNext fuel) acc s).1 = some l' →
        ∃ l, acc = some l ∧ (imports.foldlM (linkNext fuel) acc s).2.linkedFrom? l imports = some l' := by
  induction imports generalizing acc s with
  | nil => exact ⟨⟨.refl s, hf, hs⟩, fun l' h => ⟨l', h, rfl⟩⟩
  | cons j rest ihrest =>
    rw [foldlM_cons]
    cases acc with
    | none =>
      obtain ⟨hadv, hlinked⟩ := ihrest none hf hs
      refine ⟨hadv, fun l' h => ?_⟩
      obtain ⟨l, hl, -⟩ := hlinked l' h
      cases hl
    | some l =>
      have hj := ih j s hf hs
      obtain ⟨hadv, hlinked⟩ := ihrest (((compileFrom fuel j s).2.result? j).map fun (code, vs) => l.add code vs)
        hj.fresh hj.kept
      refine ⟨⟨hj.toCompiles.trans hadv.toCompiles, hadv.fresh, hadv.kept⟩, fun l' h => ⟨l, rfl, ?_⟩⟩
      obtain ⟨l₁, hl₁, hrest⟩ := hlinked l' h
      obtain ⟨r, hr, rfl⟩ := Option.map_eq_some_iff.1 hl₁
      rw [linkedFrom_cons]
      exact Option.bind_eq_some_iff.2 ⟨r, (hadv.toCompiles.extends hj.fresh).result hr, hrest⟩

/-- A file that is taken up stays so while others are compiled. -/
theorem unit_compiling (hu : s.units[i]? = some u) (h : Compiles (s.begin i) t) :
    t.units[i]? = some { u with stage := .compiling } := by
  have hstart : (s.begin i).units[i]? = some { u with stage := .compiling } := by
    rw [begin, getElem?_modifyUnit, if_pos rfl, hu]
    rfl
  obtain ⟨u', hu', -, -, -, hkept⟩ := h.unit hstart
  rw [hu', hkept Stage.noConfusion]

/-- A file that waits is taken up, others are compiled, and then it is done. -/
theorem compiles_finish (hu : s.units[i]? = some u) (hl : u.stage = .loaded)
    (h : Compiles (s.begin i) t)
    (hf : ∀ v, (f v).script = v.script ∧ (f v).imports = v.imports ∧ ((f v).diagnostics = [] → v.diagnostics = [])) :
    Compiles s (t.modifyUnit i f) := by
  refine ⟨h.debug, h.sources, ?_, fun {j v} hv => ?_⟩
  · rw [show (t.modifyUnit i f).units.size = t.units.size from Array.size_modify, h.size]
    exact Array.size_modify
  · by_cases hj : i = j
    · subst hj
      obtain rfl : u = v := Option.some.inj (hu.symm.trans hv)
      refine ⟨f { u with stage := .compiling }, ?_, (hf _).1, (hf _).2.1, (hf _).2.2, fun hne => absurd hl hne⟩
      rw [getElem?_modifyUnit, if_pos rfl, unit_compiling hu h]
      rfl
    · have hv' : (s.begin i).units[j]? = some v := by
        rw [begin, getElem?_modifyUnit, if_neg hj, hv]
      obtain ⟨v', hv'', hrest⟩ := h.unit hv'
      exact ⟨v', by rw [getElem?_modifyUnit, if_neg hj, hv''], hrest⟩

theorem fresh_modify (hf : Fresh s) (hstage : ∀ v, (f v).stage ≠ .loaded) : Fresh (s.modifyUnit i f) := by
  intro j v hv hl
  rw [getElem?_modifyUnit] at hv
  split at hv
  · obtain ⟨w, -, rfl⟩ := Option.map_eq_some_iff.1 hv
    exact absurd hl (hstage w)
  · exact hf j v hv hl

theorem modifyUnit_modifyUnit (s : Session) (i : Nat) (f g : FileUnit → FileUnit) :
    (s.modifyUnit i f).modifyUnit i g = s.modifyUnit i fun u => g (f u) := by
  unfold modifyUnit
  congr 1
  refine Array.ext_getElem? fun j => ?_
  simp only [Array.getElem?_modify]
  split
  · rw [Option.map_map]
    rfl
  · rfl

/-- Without an obstacle no file is reached twice. -/
theorem repeated_of_obstacle (h : s.obstacle? i script = none) : s.repeated? i = none := by
  unfold obstacle? at h
  split at h
  · cases h
  · exact Option.map_eq_none_iff.1 h

/-- What the steps of compiling keep. -/
structure Lasts (P : Session → Prop) : Prop where
  /-- A change that gives no file any code. -/
  change : ∀ {s : Session} {i : Nat} {f : FileUnit → FileUnit}, P s →
    (∀ v, (f v).script = v.script ∧ (f v).imports = v.imports) → (∀ v, (f v).diagnostics = [] → v.diagnostics = []) →
      (∀ v, (f v).result = v.result) → P (s.modifyUnit i f)
  /-- A file without code is compiled behind what it imports. -/
  made : ∀ {s : Session} {i : Nat} {u : FileUnit} {script : Script} {l : Linked}, P s → s.units[i]? = some u →
    u.result = none → u.script = some script → s.repeated? i = none → s.linked? u.imports = some l →
      P (s.compileScript i script l)

theorem lasts_any : Lasts fun _ => True := ⟨fun _ _ _ _ => trivial, fun _ _ _ _ _ _ => trivial⟩

/-- A file that waited is done once its imports have been compiled. -/
theorem advances_loaded (hP : Lasts P) (ih : ∀ i s, Fresh s → P s → Advances P s (compileFrom fuel i s).2)
    (hu : s.units[i]? = some u) (hl : u.stage = .loaded) (hf : Fresh s) (hs : P s) :
    Advances P s (compileFrom (fuel + 1) i s).2 := by
  have hf₁ : Fresh (s.begin i) := fresh_modify hf fun _ => Stage.noConfusion
  have hs₁ : P (s.begin i) := hP.change hs (fun _ => ⟨rfl, rfl⟩) (fun _ => id) fun _ => rfl
  have hfinish : ∀ {t : Session}, P t → P (t.finish i) := fun ht => hP.change ht (fun _ => ⟨rfl, rfl⟩) (fun _ => id) fun _ => rfl
  rw [compileFrom_succ fuel hu hl]
  cases hscript : u.script with
  | none =>
    rw [compileUnit_unread hscript]
    exact ⟨compiles_finish hu hl (.refl _) fun _ => ⟨rfl, rfl, id⟩, fresh_modify hf₁ fun _ => Stage.noConfusion,
      hfinish hs₁⟩
  | some script =>
    cases hobstacle : s.obstacle? i script with
    | some d =>
      have hquiet : ∀ v : FileUnit, v.diagnostics ++ [d] = [] → v.diagnostics = [] := fun v h => by simp at h
      have hkept := hfinish (hP.change (i := i) (f := fun u => { u with diagnostics := u.diagnostics ++ [d] }) hs₁
        (fun _ => ⟨rfl, rfl⟩) hquiet fun _ => rfl)
      rw [compileUnit_refused hscript hobstacle]
      rw [refuse, finish, modifyUnit_modifyUnit]
      rw [finish, modifyUnit_modifyUnit] at hkept
      exact ⟨compiles_finish hu hl (.refl _) fun v => ⟨rfl, rfl, hquiet v⟩, fresh_modify hf₁ fun _ => Stage.noConfusion,
        hkept⟩
    | none =>
      obtain ⟨hadv, hlinked⟩ := advances_imports ih u.imports (some .empty) hf₁ hs₁
      rw [compileUnit_linked hscript hobstacle]
      generalize u.imports.foldlM (linkNext fuel) (some Linked.empty) (s.begin i) = r at hadv hlinked ⊢
      obtain ⟨linked, t⟩ := r
      cases linked with
      | none =>
        exact ⟨compiles_finish hu hl hadv.toCompiles fun _ => ⟨rfl, rfl, id⟩,
          fresh_modify hadv.fresh fun _ => Stage.noConfusion, hfinish hadv.kept⟩
      | some l =>
        obtain ⟨l₀, hl₀, hfrom⟩ := hlinked l rfl
        cases hl₀
        have honce : t.repeated? i = none := by
          have halike : Alike s (s.begin i) := alike_modify s i fun _ => ⟨rfl, rfl⟩
          rw [hadv.toCompiles.alike.repeated, halike.repeated]
          exact repeated_of_obstacle hobstacle
        have hkept : P ((t.modifyUnit i _).modifyUnit i _) :=
          hfinish (hP.made hadv.kept (unit_compiling hu hadv.toCompiles) (hf i u hu hl) hscript honce hfrom)
        show Advances P s ((t.modifyUnit i _).modifyUnit i _)
        rw [modifyUnit_modifyUnit] at hkept ⊢
        refine ⟨compiles_finish hu hl hadv.toCompiles fun v => ⟨rfl, rfl, fun hv => ?_⟩,
          fresh_modify hadv.fresh fun _ => Stage.noConfusion, hkept⟩
        exact (append_eq_nil_iff.1 (append_eq_nil_iff.1 hv).1).1

/-- Whatever becomes of a file, other files keep their code, and what the steps keep is kept. -/
theorem advances_compileFrom (hP : Lasts P) (fuel : Nat) :
    ∀ i s, Fresh s → P s → Advances P s (compileFrom fuel i s).2 := by
  induction fuel with
  | zero => exact fun _ s hf hs => ⟨.refl s, hf, hs⟩
  | succ fuel ih =>
    intro i s hf hs
    by_cases hu : ∃ u, s.units[i]? = some u ∧ u.stage = .loaded
    · obtain ⟨u, hu, hl⟩ := hu
      exact advances_loaded hP ih hu hl hf hs
    · rw [compileFrom_settled _ fun u hu' hl => hu ⟨u, hu', hl⟩]
      exact ⟨.refl s, hf, hs⟩

theorem compiles_compile (hf : Fresh s) (i : Nat) : Compiles s (s.compile i) :=
  (advances_compileFrom lasts_any s.units.size i s hf trivial).toCompiles

/-! ### Where code is from -/

section Traced

variable {Q : Session → Nat → Prop}

/-- Something holds of every file with code. -/
def Traced (Q : Session → Nat → Prop) (s : Session) : Prop := ∀ i r, s.result? i = some r → Q s i

/-- What holds of files with code is kept if it stays while nothing is taken back, and if it holds of a file that
is compiled behind such files. -/
theorem lasts_traced
    (hstays : ∀ {s t : Session} {i : Nat}, Extends s t → t.sources = s.sources → (∀ {P}, t.Quiet P → s.Quiet P) →
      Q s i → Q t i)
    (hmade : ∀ {t : Session} {i : Nat} {u : FileUnit} {script : Script} {l : Linked} {code : Fragment}
      {progress : Progress}, t.units[i]? = some u → u.script = some script → t.repeated? i = none →
        t.linked? u.imports = some l →
          script.compile ⟨t.sources, t.api i, t.debug⟩ l.code.zeroLines l.vars = (code, progress) →
            u.result = some (code, progress.vars) → (u.diagnostics = [] → progress.reports = #[]) →
              (∀ j ∈ u.imports, Q t j) → Q t i) : Lasts (Traced Q) where
  change {s i f} h hf hquiet hresult k r hr := by
    refine hstays (extends_modify hf fun v _ r hr => (hresult v).trans hr) rfl (quiet_modify hf hquiet) (h k r ?_)
    obtain ⟨v, hv, hvr⟩ := Option.bind_eq_some_iff.1 hr
    rw [getElem?_modifyUnit] at hv
    split at hv
    · obtain ⟨w, hw, rfl⟩ := Option.map_eq_some_iff.1 hv
      exact Option.bind_eq_some_iff.2 ⟨w, hw, (hresult w).symm.trans hvr⟩
    · exact Option.bind_eq_some_iff.2 ⟨v, hv, hvr⟩
  made {s i u script l} h hu hnone hscript honce hlinked k r hr := by
    have halike : Alike s (s.compileScript i script l) := alike_modify s i fun _ => ⟨rfl, rfl⟩
    have hextends : Extends s (s.compileScript i script l) := by
      refine extends_modify (fun _ => ⟨rfl, rfl⟩) fun v hv r hr => ?_
      obtain rfl : u = v := Option.some.inj (hu.symm.trans hv)
      rw [hnone] at hr
      cases hr
    have hkept : ∀ j r, s.result? j = some r → Q (s.compileScript i script l) j := fun j r hr =>
      hstays hextends rfl (quiet_modify (fun _ => ⟨rfl, rfl⟩) fun v hv =>
        (append_eq_nil_iff.1 (append_eq_nil_iff.1 hv).1).1) (h j r hr)
    by_cases hk : i = k
    · subst hk
      refine hmade ((getElem?_modifyUnit ..).trans ((if_pos rfl).trans (congrArg (Option.map _) hu))) hscript
        ((halike.repeated i).trans honce) (hextends.linked hlinked) (by rw [halike.api]; rfl) rfl (fun hv => ?_) fun j hj => ?_
      · simpa using (append_eq_nil_iff.1 hv).2
      · obtain ⟨r, hr⟩ := linkedFrom_some hlinked j hj
        exact hkept j r hr
    · refine hkept k r ?_
      unfold result? compileScript at hr
      rwa [getElem?_modifyUnit, if_neg hk] at hr

end Traced

theorem sound_iff : Sound s ↔ Traced (fun s i => ∀ P, s.Quiet P → P i → Built s i) s :=
  ⟨fun h i r hr P hq hP => h P hq i r hP hr, fun h P hq i r hP hr => h i r hr P hq hP⟩

/-- A step gives code only to a file whose imports were built. -/
theorem lasts_sound : Lasts Sound := by
  rw [funext fun s => propext (@sound_iff s)]
  refine lasts_traced (fun hextends _ hquiet h P hq hP => hextends.built (h P (hquiet hq) hP)) ?_
  intro t i u script l code progress hu hscript honce hlinked hcompile hresult hreports himports P hq hP
  have hprogress : progress = ⟨progress.vars, #[]⟩ := by rw [← hreports (hq.diagnostics i u hP hu)]
  rw [hprogress] at hcompile
  refine .intro hu hscript honce hlinked (fun j hj => himports j hj P hq ?_) hcompile hresult
  exact hq.inside i hP j (by simpa [importsOf, hu] using hj)

/-! ### Loading -/

/-- The script of a file was read from a text. -/
def FromText (u : FileUnit) : Prop :=
  ∀ script, u.script = some script → ∃ n text, Script.parse n text = .ok script

/-- Files that are imported are there, and each has a source. -/
structure Complete (s : Session) : Prop where
  sources : s.sources.size = s.units.size
  imports : ∀ (i : Nat) (u : FileUnit), s.units[i]? = some u → ∀ j ∈ u.imports, j < s.units.size

/-- What loading does to a session: files that are there stay as they are. -/
structure Loads (s t : Session) : Prop where
  debug : t.debug = s.debug
  size : s.units.size ≤ t.units.size
  kept : ∀ i : Nat, i < s.units.size → t.units[i]? = s.units[i]?
  added : ∀ (i : Nat) (u : FileUnit), s.units.size ≤ i → t.units[i]? = some u → u.result = none ∧ FromText u

section Loads

variable {u : Session}

theorem Loads.refl (s : Session) : Loads s s := by
  refine ⟨rfl, Nat.le_refl _, fun _ _ => rfl, fun i v hi hv => ?_⟩
  rw [Array.getElem?_eq_none hi] at hv
  cases hv

section

variable (h : Loads s t)
include h

theorem Loads.trans (h' : Loads t u) : Loads s u := by
  refine ⟨h'.debug.trans h.debug, Nat.le_trans h.size h'.size, fun i hi => ?_, fun i v hi hv => ?_⟩
  · rw [h'.kept i (Nat.lt_of_lt_of_le hi h.size), h.kept i hi]
  · by_cases hit : i < t.units.size
    · rw [h'.kept i hit] at hv
      exact h.added i v hi hv
    · exact h'.added i v (Nat.le_of_not_lt hit) hv

theorem Loads.links : s.links ≤ t.links := by
  have htake : t.units.toList.take s.units.size = s.units.toList := by
    refine ext_getElem? fun i => ?_
    rw [List.getElem?_take]
    split
    · rename_i hi
      simpa using h.kept i hi
    · rename_i hi
      simp [Nat.le_of_not_lt hi]
  unfold Session.links
  rw [← take_append_drop s.units.size t.units.toList, htake, map_append, sum_append]
  exact Nat.le_add_right _ _

/-- Loading more files leaves those that are there as they are. -/
theorem Loads.extends (hc : Complete s) : Extends s t := by
  have hclosed : Closed s t (· < s.units.size) := by
    refine ⟨fun j hj => ?_, fun j hj k hk => ?_⟩
    · unfold importsOf
      rw [h.kept j hj]
    · unfold importsOf at hk
      rw [Array.getElem?_eq_getElem hj] at hk
      exact hc.imports j _ (Array.getElem?_eq_getElem hj) k hk
  refine ⟨h.debug, fun {i v} hv => ?_, fun {i} hi => ?_, fun hi => repeated_congr hclosed h.links hi⟩
  · have hi := (Array.getElem?_eq_some_iff.1 hv).1
    exact ⟨v, by rw [h.kept i hi, hv], rfl, rfl, fun _ hr => hr⟩
  · exact api_congr hclosed h.links (fun j hj => by rw [h.kept j hj]) hi

/-- Files that are quiet after loading were quiet before. -/
theorem Loads.quiet (hq : t.Quiet P) : s.Quiet P := by
  have hunit : ∀ {i : Nat} {v : FileUnit}, s.units[i]? = some v → t.units[i]? = some v := fun {i v} hv => by
    rw [h.kept i (Array.getElem?_eq_some_iff.1 hv).1, hv]
  constructor
  · intro i hi j hj
    cases hv : s.units[i]? with
    | none => simp [importsOf, hv] at hj
    | some v =>
      refine hq.inside i hi j ?_
      unfold importsOf at hj ⊢
      rwa [hunit hv, ← hv]
  · exact fun i v hP hv => hq.diagnostics i v hP (hunit hv)

theorem Loads.fresh (hf : Fresh s) : Fresh t := by
  intro i v hv hl
  by_cases hi : i < s.units.size
  · rw [h.kept i hi] at hv
    exact hf i v hv hl
  · exact (h.added i v (Nat.le_of_not_lt hi) hv).1

theorem Loads.traced {Q : Session → Nat → Prop} (hstays : ∀ {i}, Q s i → Q t i) (hs : Traced Q s) :
    Traced Q t := by
  intro i r hr
  obtain ⟨v, hv, hresult⟩ := Option.bind_eq_some_iff.1 hr
  have hi : i < s.units.size := by
    refine Nat.lt_of_not_le fun hle => ?_
    rw [(h.added i v hle hv).1] at hresult
    cases hresult
  rw [h.kept i hi] at hv
  exact hstays (hs i r (Option.bind_eq_some_iff.2 ⟨v, hv, hresult⟩))

/-- New files have no code, and what was built stays built. -/
theorem Loads.sound (hc : Complete s) (hs : Sound s) : Sound t :=
  sound_iff.2 (h.traced (fun hi P hq hP => (h.extends hc).built (hi P (h.quiet hq) hP)) (sound_iff.1 hs))

end

/-- A file that was just read has no code and no imports, and a script only from its text. -/
theorem read_readFile (disk : Disk) (path : Path) (n : Nat) :
    (readFile disk path n).2.result = none ∧ (readFile disk path n).2.imports = [] ∧
      FromText (readFile disk path n).2 := by
  unfold readFile
  split
  · exact ⟨rfl, rfl, nofun⟩
  · rename_i text _
    split
    · rename_i script hparse
      refine ⟨rfl, rfl, fun script' h => ⟨n, text, ?_⟩⟩
      cases h
      exact hparse
    · exact ⟨rfl, rfl, nofun⟩

theorem loads_add (hc : Complete s) (path : Path) :
    Loads s (s.add path) ∧ Complete (s.add path) ∧ (s.add path).units.size = s.units.size + 1 := by
  obtain ⟨hresult, himports, hread⟩ := read_readFile s.disk path s.sources.size
  have hunits : (s.add path).units = s.units.push (readFile s.disk path s.sources.size).2 := rfl
  have hsize : (s.add path).units.size = s.units.size + 1 := by rw [hunits, Array.size_push]
  refine ⟨⟨rfl, by omega, fun i hi => ?_, fun i v hi hv => ?_⟩, ⟨?_, fun i v hv j hj => ?_⟩, hsize⟩
  · rw [hunits, Array.getElem?_push_lt hi, Array.getElem?_eq_getElem hi]
  · rw [hunits, Array.getElem?_push] at hv
    split at hv
    · cases hv
      exact ⟨hresult, hread⟩
    · rw [Array.getElem?_eq_none hi] at hv
      cases hv
  · show (s.sources.push _).size = _
    rw [Array.size_push, hc.sources, hsize]
  · rw [hunits, Array.getElem?_push] at hv
    split at hv
    · cases hv
      rw [himports] at hj
      cases hj
    · have := hc.imports i v hv j hj
      omega

theorem loads_mapM (ih : ∀ path s, Complete s → Loads s (loadFrom fuel path s).2 ∧
      Complete (loadFrom fuel path s).2 ∧ (loadFrom fuel path s).1 < (loadFrom fuel path s).2.units.size)
    (paths : List Path) (hc : Complete s) :
    Loads s (paths.mapM (loadFrom fuel) s).2 ∧ Complete (paths.mapM (loadFrom fuel) s).2 ∧
      ∀ j ∈ (paths.mapM (loadFrom fuel) s).1, j < (paths.mapM (loadFrom fuel) s).2.units.size := by
  induction paths generalizing s with
  | nil => exact ⟨.refl s, hc, nofun⟩
  | cons path rest ihrest =>
    rw [mapM_cons]
    obtain ⟨hloads, hcomplete, hlt⟩ := ih path s hc
    obtain ⟨hloads', hcomplete', hlt'⟩ := ihrest hcomplete
    refine ⟨hloads.trans hloads', hcomplete', fun j hj => ?_⟩
    obtain rfl | hj := mem_cons.1 hj
    · exact Nat.lt_of_lt_of_le hlt hloads'.size
    · exact hlt' j hj

/-- A new file, once everything it imports is there. -/
theorem loads_new (hc : Complete s) (hloads : Loads (s.add path) t)
    (hcomplete : Complete t) (hlt : ∀ j ∈ imports, j < t.units.size) :
    Loads s (t.modifyUnit s.sources.size fun u => { u with imports }) ∧
      Complete (t.modifyUnit s.sources.size fun u => { u with imports }) ∧
      s.sources.size < (t.modifyUnit s.sources.size fun u => { u with imports }).units.size := by
  obtain ⟨hadd, -, hsize⟩ := loads_add hc path
  have hsize' : (t.modifyUnit s.sources.size fun u => { u with imports }).units.size = t.units.size := Array.size_modify
  have hall := hadd.trans hloads
  refine ⟨⟨hall.debug, hsize' ▸ hall.size, fun i hi => ?_, fun i v hi hv => ?_⟩, ⟨?_, fun i v hv j hj => ?_⟩, ?_⟩
  · rw [getElem?_modifyUnit, if_neg (by rw [hc.sources]; omega)]
    exact hall.kept i hi
  · rw [getElem?_modifyUnit] at hv
    split at hv
    · obtain ⟨w, hw, rfl⟩ := Option.map_eq_some_iff.1 hv
      exact hall.added i w hi hw
    · exact hall.added i v hi hv
  · exact hcomplete.sources.trans hsize'.symm
  · rw [hsize']
    rw [getElem?_modifyUnit] at hv
    split at hv
    · obtain ⟨w, hw, rfl⟩ := Option.map_eq_some_iff.1 hv
      exact hlt j hj
    · exact hcomplete.imports i v hv j hj
  · rw [hsize', hc.sources]
    have := hloads.size
    omega

/-- A file that is there is not loaded again. -/
theorem loadFrom_found (h : s.find? path.normalize = some i) : loadFrom fuel path s = (i, s) := by
  unfold loadFrom
  simp only [bind, StateT.bind, get, getThe, MonadStateOf.get, StateT.get, pure, h]
  rfl

/-- A new file is followed by what it imports, and its imports are known behind that. -/
theorem loadFrom_new (h : s.find? path.normalize = none) :
    loadFrom (fuel + 1) path s =
      let r := ((s.add path.normalize).importPaths s.sources.size).mapM (loadFrom fuel) (s.add path.normalize)
      (s.sources.size, r.2.modifyUnit s.sources.size fun u => { u with imports := r.1 }) := by
  conv => lhs; unfold loadFrom
  simp only [bind, StateT.bind, get, getThe, MonadStateOf.get, StateT.get, pure, h]
  rfl

theorem loadFrom_last (h : s.find? path.normalize = none) :
    loadFrom 0 path s = (s.sources.size, s.add path.normalize) := by
  unfold loadFrom
  simp only [bind, StateT.bind, get, getThe, MonadStateOf.get, StateT.get, pure, h]
  rfl

theorem find_lt (hc : Complete s) (h : s.find? path = some i) : i < s.units.size := by
  rw [← hc.sources]
  exact (Array.findIdx?_eq_some_iff_getElem.1 h).1

/-- Loading a path only adds files, and gives the number of one that is there. -/
theorem loads_loadFrom (fuel : Nat) : ∀ path s, Complete s → Loads s (loadFrom fuel path s).2 ∧
    Complete (loadFrom fuel path s).2 ∧ (loadFrom fuel path s).1 < (loadFrom fuel path s).2.units.size := by
  induction fuel with
  | zero =>
    intro path s hc
    cases hfind : s.find? path.normalize with
    | some i =>
      rw [loadFrom_found hfind]
      exact ⟨.refl s, hc, find_lt hc hfind⟩
    | none =>
      obtain ⟨hadd, hcomplete, hsize⟩ := loads_add hc path.normalize
      rw [loadFrom_last hfind]
      refine ⟨hadd, hcomplete, ?_⟩
      rw [hsize, hc.sources]
      exact Nat.lt_succ_self _
  | succ fuel ih =>
    intro path s hc
    cases hfind : s.find? path.normalize with
    | some i =>
      rw [loadFrom_found hfind]
      exact ⟨.refl s, hc, find_lt hc hfind⟩
    | none =>
      obtain ⟨hloads, hcomplete, hlt⟩ := loads_mapM ih ((s.add path.normalize).importPaths s.sources.size)
        (loads_add hc path.normalize).2.1
      rw [loadFrom_new hfind]
      exact loads_new hc hloads hcomplete hlt

/-- What a new file at a path of some sort and links between files keep, loading keeps, if the files there name
such paths. -/
theorem loadFrom_among {P : Session → Prop} {R : Path → Prop}
    (hadd : ∀ s path, Complete s → s.find? path = none → R path → P s → P (s.add path))
    (hlink : ∀ s i imports, P s → P (s.modifyUnit i fun u => { u with imports }))
    (hpaths : ∀ s path, Complete s → R path → P s → ∀ q ∈ (s.add path).importPaths s.sources.size, R q.normalize)
    (fuel : Nat) : ∀ path s, Complete s → R path.normalize → P s → P (loadFrom fuel path s).2 := by
  induction fuel with
  | zero =>
    intro path s hc hpath h
    cases hfind : s.find? path.normalize with
    | some i => rwa [loadFrom_found hfind]
    | none =>
      rw [loadFrom_last hfind]
      exact hadd s _ hc hfind hpath h
  | succ fuel ih =>
    intro path s hc hpath h
    have hall : ∀ (paths : List Path) (s : Session), Complete s → (∀ q ∈ paths, R q.normalize) → P s →
        P (paths.mapM (loadFrom fuel) s).2 := by
      intro paths
      induction paths with
      | nil => exact fun _ _ _ h => h
      | cons path rest ihrest =>
        intro s hc hpaths h
        obtain ⟨hpath, hrest⟩ := forall_mem_cons.1 hpaths
        rw [mapM_cons]
        exact ihrest _ (loads_loadFrom fuel path s hc).2.1 hrest (ih path s hc hpath h)
    cases hfind : s.find? path.normalize with
    | some i => rwa [loadFrom_found hfind]
    | none =>
      rw [loadFrom_new hfind]
      exact hlink _ _ _ (hall _ _ (loads_add hc _).2.1 (hpaths s _ hc hpath h) (hadd s _ hc hfind hpath h))

/-- What a new file and links between files keep, loading keeps. -/
theorem loadFrom_keeps {P : Session → Prop} (hadd : ∀ s path, Complete s → s.find? path = none → P s → P (s.add path))
    (hlink : ∀ s i imports, P s → P (s.modifyUnit i fun u => { u with imports })) (fuel : Nat) (path : Path)
    (s : Session) (hc : Complete s) (h : P s) : P (loadFrom fuel path s).2 :=
  loadFrom_among (R := fun _ => True) (fun s path hc hfind _ => hadd s path hc hfind) hlink
    (fun _ _ _ _ _ _ _ => trivial) fuel path s hc trivial h

theorem prefix_add (s : Session) (path : Path) : s.sources.toList <+: (s.add path).sources.toList := by
  show _ <+: (s.sources.push _).toList
  rw [Array.toList_push]
  exact prefix_append _ _

/-- Files keep their numbers. -/
theorem prefix_loadFrom (fuel : Nat) (path : Path) (hc : Complete s) :
    s.sources.toList <+: (loadFrom fuel path s).2.sources.toList :=
  loadFrom_keeps (P := fun t => s.sources.toList <+: t.sources.toList)
    (fun t path _ _ h => h.trans (prefix_add t path)) (fun _ _ _ h => h) fuel path s hc (prefix_refl _)

end Loads

/-! ### Whole sessions -/

/-- What holds of a session all the time. -/
structure Orderly (s : Session) : Prop where
  complete : Complete s
  fresh : Fresh s
  sound : Sound s
  read : ∀ (i : Nat) (u : FileUnit), s.units[i]? = some u → FromText u

theorem orderly_new (disk : Disk) (debug : Bool) : Orderly (.new disk debug) := by
  refine ⟨⟨rfl, ?_⟩, ?_, ?_, ?_⟩
  · simp [new]
  · simp [Fresh, new]
  · simp [Sound, result?, new]
  · simp [new]

/-- Loading keeps a session orderly. -/
theorem Orderly.load (h : Orderly s) (path : Path) :
    Orderly (s.load path).2 ∧ (s.load path).1 < (s.load path).2.units.size := by
  obtain ⟨hloads, hcomplete, hlt⟩ := loads_loadFrom s.disk.files.length path s h.complete
  refine ⟨⟨hcomplete, hloads.fresh h.fresh, hloads.sound h.complete h.sound, fun i u hu => ?_⟩, hlt⟩
  by_cases hi : i < s.units.size
  · rw [show (s.load path).2.units[i]? = _ from hloads.kept i hi] at hu
    exact h.read i u hu
  · exact (hloads.added i u (Nat.le_of_not_lt hi) hu).2

theorem Compiles.unit_of (h : Compiles s t) (hu : t.units[i]? = some u) :
    ∃ v, s.units[i]? = some v ∧ u.script = v.script ∧ u.imports = v.imports := by
  have hi : i < s.units.size := h.size ▸ (Array.getElem?_eq_some_iff.1 hu).1
  obtain ⟨u', hu', hscript, himports, -⟩ := h.unit (Array.getElem?_eq_getElem hi)
  obtain rfl : u = u' := Option.some.inj (hu.symm.trans hu')
  exact ⟨_, Array.getElem?_eq_getElem hi, hscript, himports⟩

/-- Compiling keeps a session orderly and loads nothing. -/
theorem Orderly.compile (h : Orderly s) (i : Nat) :
    Orderly (s.compile i) ∧ (s.compile i).units.size = s.units.size := by
  have hadv := advances_compileFrom lasts_sound s.units.size i s h.fresh h.sound
  refine ⟨⟨⟨?_, fun j u hu k hk => ?_⟩, hadv.fresh, hadv.kept, fun j u hu script hscript => ?_⟩, hadv.size⟩
  · exact (congrArg Array.size hadv.sources).trans (h.complete.sources.trans hadv.size.symm)
  · obtain ⟨v, hv, -, himports⟩ := hadv.toCompiles.unit_of hu
    rw [himports] at hk
    exact Nat.lt_of_lt_of_eq (h.complete.imports j v hv k hk) hadv.size.symm
  · obtain ⟨v, hv, hs, -⟩ := hadv.toCompiles.unit_of hu
    exact h.read j v hv script (hs.symm.trans hscript)

/-- No path is loaded twice. -/
def Distinct (s : Session) : Prop := (s.sources.toList.map (·.path)).Nodup

theorem path_readFile (disk : Disk) (path : Path) (n : Nat) : (readFile disk path n).1.path = path := by
  unfold readFile
  split
  · rfl
  · split <;> rfl

theorem distinct_add (hs : Distinct s) (h : s.find? path = none) : Distinct (s.add path) := by
  have hnew : path ∉ s.sources.toList.map (·.path) := by
    intro hmem
    obtain ⟨source, hsource, hp⟩ := mem_map.1 hmem
    have := Array.findIdx?_eq_none_iff.1 h source (Array.mem_toList_iff.1 hsource)
    simp [hp] at this
  show ((s.sources.push (readFile s.disk path s.sources.size).1).toList.map (·.path)).Nodup
  rw [Array.toList_push, map_append, map_singleton, path_readFile]
  exact nodup_append.2 ⟨hs, by simp, fun x hx y hy => by
    rw [mem_singleton.1 hy]
    exact fun hxy => hnew (hxy ▸ hx)⟩

/-- No path is loaded twice, however many files import it. -/
theorem distinct_loadFrom (fuel : Nat) (path : Path) (hc : Complete s) (hs : Distinct s) :
    Distinct (loadFrom fuel path s).2 :=
  loadFrom_keeps (fun _ _ _ hfind hs => distinct_add hs hfind) (fun _ _ _ h => h) fuel path s hc hs

/-- A path belongs to one file. -/
theorem Distinct.index (hs : Distinct s) (hi : s.sources[i]? = some a) (hj : s.sources[j]? = some b)
    (h : a.path = b.path) : i = j := by
  have hlt : i < (s.sources.toList.map (·.path)).length := by
    simpa using (Array.getElem?_eq_some_iff.1 hi).1
  refine (List.getElem?_inj hlt hs).1 ?_
  simp [hi, hj, h]

end Session

namespace Build

open Session

/-- What loading and compiling a file keep holds after a whole build. -/
theorem compileAll_induction {motive : Session → Prop} (paths : List String) (ho : Orderly s) (h : motive s)
    (hload : ∀ {s}, Orderly s → motive s → ∀ path, motive (s.load path).2)
    (hcompile : ∀ {s}, Orderly s → motive s → ∀ i, motive (s.compile i)) : motive (compileAll paths s).2 := by
  induction paths generalizing s with
  | nil => exact h
  | cons path rest ih =>
    unfold compileAll
    split
    · have hloaded := (ho.load (Path.ofString path)).1
      exact ih (hloaded.compile _).1 (hcompile hloaded (hload ho h _) _)
    · exact ih ho h

theorem mem_loop (h : x ∈ List.eraseRepsBy.loop r a as acc) : x ∈ acc ∨ x = a ∨ x ∈ as := by
  induction as generalizing a acc with
  | nil => simpa [List.eraseRepsBy.loop, or_comm] using h
  | cons b rest ih =>
    unfold List.eraseRepsBy.loop at h
    split at h
    · obtain h | h | h := ih h
      · exact .inl h
      · exact .inr (.inl h)
      · exact .inr (.inr (mem_cons_of_mem _ h))
    · obtain h | rfl | h := ih h
      · obtain rfl | h := mem_cons.1 h
        · exact .inr (.inl rfl)
        · exact .inl h
      · exact .inr (.inr (mem_cons_self ..))
      · exact .inr (.inr (mem_cons_of_mem _ h))

theorem mem_of_mem_eraseReps [BEq α] {xs : List α} (h : x ∈ xs.eraseReps) : x ∈ xs := by
  cases xs with
  | nil => exact h
  | cons a rest =>
    obtain h | rfl | h := mem_loop h
    · cases h
    · exact mem_cons_self ..
    · exact mem_cons_of_mem _ h

def session (disk : Disk) (debug : Bool) (paths : List String) : Session := (compileAll paths (.new disk debug)).2

/-- A build leaves an orderly session, whatever there is on the disk. -/
theorem orderly_session (disk : Disk) (debug : Bool) (paths : List String) : Orderly (session disk debug paths) :=
  have ho := orderly_new disk debug
  compileAll_induction paths ho ho (fun ho _ path => (ho.load path).1) fun ho _ i => (ho.compile i).1

/-- A build loads no path twice. -/
theorem distinct_session (disk : Disk) (debug : Bool) (paths : List String) : Distinct (session disk debug paths) := by
  refine compileAll_induction paths (orderly_new disk debug) nodup_nil
    (fun ho hs path => distinct_loadFrom _ path ho.complete hs) fun {s} ho hs i => ?_
  unfold Distinct
  rwa [(compiles_compile ho.fresh i).sources]

theorem debug_session (disk : Disk) (debug : Bool) (paths : List String) : (session disk debug paths).debug = debug :=
  compileAll_induction (motive := fun s => s.debug = debug) paths (orderly_new disk debug) rfl
    (fun {s} ho hs path => (loads_loadFrom _ path s ho.complete).1.debug.trans hs)
    fun ho hs i => (compiles_compile ho.fresh i).debug.trans hs

/-- Code that a build gives is that of a file, and no problem was found anywhere. -/
theorem mem_files (h : file ∈ (run disk debug paths).files) :
    (session disk debug paths).diagnostics = [] ∧ file.2.size ≤ maxCodeSize ∧
      ∃ i, fileAt? (session disk debug paths) (session disk debug paths).symbols i = some file := by
  unfold run at h
  unfold session
  generalize compileAll paths (.new disk debug) = r at h ⊢
  obtain ⟨⟨refused, roots⟩, s⟩ := r
  dsimp only at h ⊢
  split at h
  · rename_i hempty
    split at h
    · rename_i hsmall
      have hmem : file ∈ roots.filterMap (fileAt? s s.symbols) := mem_mergeSort.1 (mem_of_mem_eraseReps h)
      obtain ⟨i, -, hi⟩ := mem_filterMap.1 hmem
      refine ⟨(append_eq_nil_iff.1 (isEmpty_iff.1 hempty)).2, ?_, i, hi⟩
      have hnone := filterMap_eq_nil_iff.1 (isEmpty_iff.1 hsmall) file hmem
      unfold sizeProblem? at hnone
      split at hnone
      · cases hnone
      · omega
    · cases h
  · cases h

/-- A file with code was built, and has the path that the code is given for. -/
theorem built_of_mem_files (h : (path, code) ∈ (run disk debug paths).files) :
    ∃ i source, (session disk debug paths).sources[i]? = some source ∧ source.path = path ∧
      (session disk debug paths).bytecode? i (session disk debug paths).symbols = some code ∧
      Built (session disk debug paths) i := by
  obtain ⟨hquiet, -, i, hi⟩ := mem_files h
  obtain ⟨source, hsource, hcode⟩ := Option.bind_eq_some_iff.1 hi
  obtain ⟨final, hfinal, heq⟩ := Option.bind_eq_some_iff.1 hcode
  cases heq
  refine ⟨i, source, hsource, rfl, hfinal, ?_⟩
  obtain ⟨u, hu, hr⟩ := Option.bind_eq_some_iff.1 hfinal
  obtain ⟨r, hresult, -⟩ := Option.bind_eq_some_iff.1 hr
  exact (orderly_session disk debug paths).sound _ (quiet_of_diagnostics hquiet) i r trivial
    (Option.bind_eq_some_iff.2 ⟨u, hu, hresult⟩)

end Build

end HostScript

import HostScript.Proofs.CodeOrder
import HostScript.Proofs.Noted

/-! Distances in the code of a build.

A whole build is written here once more, with a record of the distances that are written while each
file is compiled. But for the record it is the same build (`Build.recorded`). What stands in the
record for a file never goes beyond the code of that file, and code only grows where it is put behind
other code, so that code which a build gives is too small for a distance of it to be cut off. -/
namespace HostScript

open List Option

variable {debug : Bool} {disk : Disk} {r : Fragment × Variables} {l : Linked} {paths : List String} {i : Nat} {log : Record}
  {s : Session}

/-! ### Sizes -/

namespace Fragment

theorem size_foldl_marks (hstep : ∀ bytes m, (step bytes m).size = bytes.size) (marks : Array Mark)
    (bytes : Array UInt8) : (marks.foldl step bytes).size = bytes.size :=
  Array.foldl_induction (fun _ b => b.size = bytes.size) rfl fun _ b hb => (hstep b _).trans hb

theorem size_relocate (base : Storage) (f : Fragment) : (f.relocate base).size = f.size :=
  size_foldl_marks (size_relocateMark base) f.marks f.bytes

theorem size_zeroLines (f : Fragment) : f.zeroLines.size = f.size := by
  refine size_foldl_marks (fun bytes m => ?_) f.marks f.bytes
  split
  · exact size_patchWord _ _ _
  · rfl

theorem size_resolveSymbols (symbols : Symbols) (f : Fragment) : (f.resolveSymbols symbols).size = f.size := by
  refine size_foldl_marks (fun bytes m => ?_) f.marks f.bytes
  split
  · exact size_patchWord _ _ _
  · rfl

end Fragment

namespace Session

section Sizes

variable {k : Nat}

/-- Code that is put behind other code is part of what comes of it. -/
theorem size_le_linkedFrom (h : s.linkedFrom? l js = some l') :
    l.code.size ≤ l'.code.size ∧ ∀ j ∈ js, ∀ r, s.result? j = some r → r.1.size ≤ l'.code.size := by
  induction js generalizing l with
  | nil =>
    cases h
    exact ⟨Nat.le_refl _, nofun⟩
  | cons j rest ih =>
    rw [linkedFrom_cons] at h
    obtain ⟨r, hr, hrest⟩ := bind_eq_some_iff.1 h
    obtain ⟨hle, hall⟩ := ih hrest
    obtain ⟨base, hadd⟩ : ∃ base, (l.add r.1 r.2).code = l.code ++ r.1.relocate base := ⟨_, rfl⟩
    rw [hadd, Fragment.size_append, Fragment.size_relocate] at hle
    refine ⟨by omega, forall_mem_cons.2 ⟨fun r' hr' => ?_, hall⟩⟩
    cases hr.symm.trans hr'
    omega

/-- A file has at least as much code as each file that it imports. -/
theorem Made.size_le (h : s.Made i) (hr : s.result? i = some r) (hk : k ∈ s.importsOf i) :
    ∃ r', s.result? k = some r' ∧ r'.1.size ≤ r.1.size := by
  obtain ⟨⟨-, hlinked, -, -, hresult⟩, -, -⟩ := h
  cases hresult.symm.trans hr
  obtain ⟨r', hr'⟩ := linkedFrom_some hlinked k hk
  have hle := (size_le_linkedFrom hlinked).2 k hk r' hr'
  refine ⟨r', hr', ?_⟩
  rw [Fragment.size_append, Fragment.size_zeroLines]
  omega

theorem Coded.size_le (hs : s.Coded) (hk : s.Reaches i k) (hr : s.result? i = some r) :
    ∃ r', s.result? k = some r' ∧ r'.1.size ≤ r.1.size := by
  induction hk with
  | refl => exact ⟨r, hr, Nat.le_refl _⟩
  | tail _ hjk ih =>
    obtain ⟨rj, hrj, hle⟩ := ih
    obtain ⟨rk, hrk, hle'⟩ := (hs _ _ hrj).size_le hrj hjk
    exact ⟨rk, hrk, Nat.le_trans hle' hle⟩

theorem size_bytecode {symbols : Fragment.Symbols} {final : Array UInt8} (h : s.bytecode? i symbols = some final) :
    ∃ r, s.result? i = some r ∧ final.size = 4 + r.1.size := by
  obtain ⟨code, vars, hr, -, hfinal⟩ := bytecode_eq h
  have hsize := congrArg List.length hfinal
  have hcode := Fragment.size_resolveSymbols symbols code
  rw [Array.length_toList, length_append, length_append, Bytes.length_ofNat, Bytes.length_ofNat,
    Array.length_toList, show (code.resolveSymbols symbols).bytes.size = code.size from hcode] at hsize
  exact ⟨_, hr, hsize⟩

end Sizes

/-! ### Builds with a record -/

/-- The distances that were written while each file was compiled. -/
abbrev Record := List (Nat × Written)

/-- What a session does, along with a record. -/
abbrev Recording := StateT Record (StateM Session)

def recordScript (i : Nat) (script : Script) (l : Linked) : Recording Unit := do
  let s ← getThe Session
  let ((_, written), _) := script.noted ⟨s.sources, s.api i, s.debug⟩ l.code.zeroLines l.vars
  modifyThe Record (· ++ written.map (i, ·))
  modifyThe Session (·.compileScript i script l)

def recordNext (file : Nat → Recording Unit) (linked : Option Linked) (j : Nat) : Recording (Option Linked) := do
  match linked with
  | none => pure none
  | some l =>
    file j
    return (((← getThe Session).units[j]?).bind (·.result)).map fun (code, vs) => Linked.add l code vs

def recordUnit (file : Nat → Recording Unit) (i : Nat) (u : FileUnit) (s : Session) : Recording Unit := do
  match u.script with
  | none => pure ()
  | some script =>
    match s.obstacle? i script with
    | some d => modifyThe Session (·.refuse i d)
    | none =>
      match ← u.imports.foldlM (recordNext file) (some Linked.empty) with
      | none => pure ()
      | some l => recordScript i script l

def recordFrom : Nat → Nat → Recording Unit
  | 0, _ => return ()
  | fuel + 1, i => do
    let s ← getThe Session
    let some u := s.units[i]? | return ()
    if u.stage ≠ .loaded then return ()
    modifyThe Session (·.begin i)
    recordUnit (recordFrom fuel) i u s
    modifyThe Session (·.finish i)

/-- Everything on record for a file lies within its code. -/
def Recorded (log : Record) (s : Session) : Prop :=
  ∀ e ∈ log, ∃ r, s.result? e.1 = some r ∧ e.2.Fits r.1.size

/-- With a record the same is done, and what is on record lies within code. -/
def Records (x : Recording α) (c : StateM Session α) : Prop :=
  ∀ log s, Fresh s → Recorded log s →
    ∃ log', x log s = (((c s).1, log'), (c s).2) ∧ Recorded log' (c s).2

section Records

variable {t : Session} {fuel : Nat} {u : FileUnit}

theorem Recorded.extends (h : Recorded log s) (hst : Extends s t) : Recorded log t := by
  intro e he
  obtain ⟨r, hr, hfits⟩ := h e he
  exact ⟨r, hst.result hr, hfits⟩

theorem Recorded.modify (h : Recorded log s) (hresult : ∀ v, (f v).result = v.result) :
    Recorded log (s.modifyUnit i f) := by
  intro e he
  obtain ⟨r, hr, hfits⟩ := h e he
  obtain ⟨v, hv, hvr⟩ := bind_eq_some_iff.1 hr
  refine ⟨r, ?_, hfits⟩
  rw [result?, getElem?_modifyUnit, hv]
  split
  · exact (hresult v).trans hvr
  · exact hvr

/-- A file that had no code has all the distances that are written while it is compiled. -/
theorem Recorded.script {script : Script} (h : Recorded log t) (hu : t.units[i]? = some u) (hnone : u.result = none) :
    ∃ log', recordScript i script l log t = (((), log'), t.compileScript i script l) ∧
      Recorded log' (t.compileScript i script l) := by
  obtain ⟨written, heq, hfits⟩ := script.noted_eq ⟨t.sources, t.api i, t.debug⟩ l.code.zeroLines l.vars
  have hunit : (t.compileScript i script l).result? i =
      some ((script.compile ⟨t.sources, t.api i, t.debug⟩ l.code.zeroLines l.vars).1,
        (script.compile ⟨t.sources, t.api i, t.debug⟩ l.code.zeroLines l.vars).2.vars) := by
    unfold result? compileScript
    rw [getElem?_modifyUnit, if_pos rfl, hu]
    rfl
  have hother : ∀ k, i ≠ k → (t.compileScript i script l).result? k = t.result? k := fun k hk => by
    unfold result? compileScript
    rw [getElem?_modifyUnit, if_neg hk]
  refine ⟨log ++ written.map (i, ·), ?_, forall_mem_append.2 ⟨fun e he => ?_, fun e he => ?_⟩⟩
  · show (((), log ++ (script.noted ⟨t.sources, t.api i, t.debug⟩ l.code.zeroLines l.vars).1.2.map (i, ·)),
      t.compileScript i script l) = _
    rw [heq]
  · obtain ⟨r, hr, hwithin⟩ := h e he
    refine ⟨r, (hother _ fun hi => ?_).trans hr, hwithin⟩
    rw [← hi, result?, hu, bind_some, hnone] at hr
    cases hr
  · obtain ⟨w, hw, rfl⟩ := mem_map.1 he
    exact ⟨_, hunit, hfits w hw⟩

theorem records_imports (ih : ∀ i, Records (recordFrom fuel i) (compileFrom fuel i)) (imports : List Nat)
    (acc : Option Linked) :
    Records (imports.foldlM (recordNext (recordFrom fuel)) acc) (imports.foldlM (linkNext fuel) acc) := by
  induction imports generalizing acc with
  | nil => exact fun log s _ h => ⟨log, rfl, h⟩
  | cons j rest ihrest =>
    intro log s hf h
    rw [foldlM_cons]
    cases acc with
    | none => exact ihrest none log s hf h
    | some l =>
      obtain ⟨log₁, heq, h₁⟩ := ih j log s hf h
      have hnext : recordNext (recordFrom fuel) (some l) j log s =
          ((((compileFrom fuel j s).2.result? j).map (fun (code, vs) => l.add code vs), log₁), (compileFrom fuel j s).2) := by
        show (do
          recordFrom fuel j
          return (((← getThe Session).units[j]?).bind (·.result)).map fun (code, vs) => Linked.add l code vs : Recording _)
            log s = _
        simp only [bind, StateT.bind, heq]
        rfl
      obtain ⟨log₂, heq₂, h₂⟩ := ihrest _ log₁ _ (advances_compileFrom lasts_any fuel j s hf trivial).fresh h₁
      refine ⟨log₂, ?_, h₂⟩
      simp only [bind, StateT.bind, hnext]
      exact heq₂

theorem records_loaded (ih : ∀ i, Records (recordFrom fuel i) (compileFrom fuel i)) (hu : s.units[i]? = some u)
    (hl : u.stage = .loaded) (hf : Fresh s) (h : Recorded log s) :
    ∃ log', recordUnit (recordFrom fuel) i u s log (s.begin i) = (((), log'), (compileUnit fuel i u s (s.begin i)).2) ∧
      Recorded log' (compileUnit fuel i u s (s.begin i)).2 := by
  have hf₁ : Fresh (s.begin i) := fresh_begin hf i
  have h₁ : Recorded log (s.begin i) := h.modify fun _ => rfl
  unfold recordUnit compileUnit
  cases u.script with
  | none => exact ⟨log, rfl, h₁⟩
  | some script =>
    dsimp only
    cases s.obstacle? i script with
    | some d => exact ⟨log, rfl, h₁.modify fun _ => rfl⟩
    | none =>
      obtain ⟨log₁, heq, h₂⟩ := records_imports ih u.imports (some .empty) log _ hf₁ h₁
      obtain ⟨hadv, -⟩ := advances_imports (advances_compileFrom lasts_any fuel) u.imports (some .empty) hf₁ trivial
      simp only [bind, StateT.bind, heq]
      generalize u.imports.foldlM (linkNext fuel) (some Linked.empty) (s.begin i) = r at hadv h₂
      obtain ⟨linked, t⟩ := r
      cases linked with
      | none => exact ⟨log₁, rfl, h₂⟩
      | some l => exact h₂.script (unit_compiling hu hadv.toCompiles) (hf i u hu hl)

theorem recordFrom_eq : recordFrom (fuel + 1) i log s = (match s.units[i]? with
    | some u => do
      if u.stage ≠ .loaded then return ()
      modifyThe Session (·.begin i)
      recordUnit (recordFrom fuel) i u s
      modifyThe Session (·.finish i)
    | _ => return () : Recording Unit) log s := rfl

theorem recordFrom_succ (hu : s.units[i]? = some u) (hl : u.stage = .loaded) : recordFrom (fuel + 1) i log s =
      ((recordUnit (recordFrom fuel) i u s log (s.begin i)).1, (recordUnit (recordFrom fuel) i u s log (s.begin i)).2.finish i) := by
  rw [recordFrom_eq, hu]
  dsimp only
  rw [if_neg (not_not_intro hl)]
  rfl

theorem recordFrom_settled (h : ∀ u, s.units[i]? = some u → u.stage ≠ .loaded) :
    recordFrom fuel i log s = (((), log), s) := by
  cases fuel with
  | zero => rfl
  | succ fuel =>
    rw [recordFrom_eq]
    cases hu : s.units[i]? with
    | none => rfl
    | some u =>
      dsimp only
      rw [if_pos (h u hu)]
      rfl

theorem records_compileFrom (fuel : Nat) : ∀ i, Records (recordFrom fuel i) (compileFrom fuel i) := by
  induction fuel with
  | zero => exact fun _ log s _ h => ⟨log, rfl, h⟩
  | succ fuel ih =>
    intro i log s hf h
    by_cases hu : ∃ u, s.units[i]? = some u ∧ u.stage = .loaded
    · obtain ⟨u, hu, hl⟩ := hu
      obtain ⟨log', heq, h'⟩ := records_loaded ih hu hl hf h
      refine ⟨log', ?_, ?_⟩
      · rw [recordFrom_succ hu hl, heq, compileFrom_succ fuel hu hl]
      · rw [compileFrom_succ fuel hu hl]
        exact h'.modify fun _ => rfl
    · have hsettled : ∀ u, s.units[i]? = some u → u.stage ≠ .loaded := fun u hu' hl => hu ⟨u, hu', hl⟩
      refine ⟨log, ?_, ?_⟩
      · rw [recordFrom_settled hsettled, compileFrom_settled _ hsettled]
      · rwa [compileFrom_settled _ hsettled]

end Records

end Session

namespace Build

open Session

def recordAll : List String → Recording (List Diagnostic × List Nat)
  | [] => return ([], [])
  | path :: rest => do
    if Path.isRooted path then
      let i ← modifyGetThe Session (·.load (Path.ofString path))
      recordFrom (← getThe Session).units.size i
      let (diagnostics, roots) ← recordAll rest
      return (diagnostics, i :: roots)
    else
      let (diagnostics, roots) ← recordAll rest
      return (.general (.relativePath path) :: diagnostics, roots)

theorem records_compileAll (paths : List String) (ho : Orderly s) (h : Recorded log s) :
    ∃ log', recordAll paths log s = (((compileAll paths s).1, log'), (compileAll paths s).2) ∧
      Recorded log' (compileAll paths s).2 := by
  induction paths generalizing log s with
  | nil => exact ⟨log, rfl, h⟩
  | cons path rest ih =>
    unfold recordAll compileAll
    split
    · have hloaded := (ho.load (Path.ofString path)).1
      have hextends : Extends s (s.load (Path.ofString path)).2 :=
        (loads_loadFrom s.disk.files.length (Path.ofString path) s ho.complete).1.extends ho.complete
      obtain ⟨log₁, heq, h₁⟩ := records_compileFrom (s.load (Path.ofString path)).2.units.size
        (s.load (Path.ofString path)).1 log _ hloaded.fresh (h.extends hextends)
      obtain ⟨log₂, heq₂, h₂⟩ := ih (hloaded.compile _).1 h₁
      refine ⟨log₂, ?_, h₂⟩
      show (do
        recordFrom (s.load (Path.ofString path)).2.units.size (s.load (Path.ofString path)).1
        let (diagnostics, roots) ← recordAll rest
        return (diagnostics, (s.load (Path.ofString path)).1 :: roots) : Recording _) log (s.load (Path.ofString path)).2 = _
      simp only [bind, StateT.bind, heq]
      rw [show recordAll rest log₁ (compileFrom (s.load (Path.ofString path)).2.units.size
        (s.load (Path.ofString path)).1 (s.load (Path.ofString path)).2).2 = _ from heq₂]
      rfl
    · obtain ⟨log₁, heq, h₁⟩ := ih ho h
      refine ⟨log₁, ?_, h₁⟩
      simp only [bind, StateT.bind, heq]
      rfl

def record (disk : Disk) (debug : Bool) (paths : List String) : Record := (recordAll paths [] (.new disk debug)).1.2

theorem recorded (disk : Disk) (debug : Bool) (paths : List String) : recordAll paths [] (.new disk debug) =
        (((compileAll paths (.new disk debug)).1, record disk debug paths), session disk debug paths) ∧
      Recorded (record disk debug paths) (session disk debug paths) := by
  have hempty : Recorded [] (.new disk debug) := nofun
  obtain ⟨log, heq, h⟩ := records_compileAll paths (orderly_new disk debug) hempty
  unfold record
  rw [heq]
  exact ⟨rfl, h⟩

theorem reachable_compileAll (paths : List String) (hs : Reachable s) : Reachable (compileAll paths s).2 := by
  induction paths generalizing s with
  | nil => exact hs
  | cons path rest ih =>
    unfold compileAll
    split
    · exact ih ((hs.load (Path.ofString path)).compile _)
    · exact ih hs

/-- Code that is small enough for every jump holds every distance that was written for it. -/
theorem exact_of_size_le (hr : (session disk debug paths).result? i = some r) (hsize : 4 + r.1.size ≤ maxCodeSize) :
    ∀ e ∈ record disk debug paths, (session disk debug paths).Reaches i e.1 → e.2.Exact := by
  intro e he hreaches
  obtain ⟨rk, hrk, hfits⟩ := (recorded disk debug paths).2 e he
  obtain ⟨rk', hrk', hle⟩ := (reachable_compileAll paths (.new disk debug)).coded.size_le hreaches hr
  cases hrk.symm.trans hrk'
  have hmax : maxCodeSize = 65536 := rfl
  exact hfits.exact (by omega)

/-- A file whose code is too large leaves no code at all. -/
theorem files_of_sizeProblem (hi : i ∈ (compileAll paths (.new disk debug)).1.2)
    (hfile : fileAt? (session disk debug paths) (session disk debug paths).symbols i = some file)
    (hsize : maxCodeSize < file.2.size) : (run disk debug paths).files = [] ∧
      ((compileAll paths (.new disk debug)).1.1 ++ (session disk debug paths).diagnostics = [] →
        Diagnostic.inFile file.1.toString (.codeTooLarge file.2.size) ∈ (run disk debug paths).diagnostics) := by
  unfold run session at *
  generalize compileAll paths (.new disk debug) = r at hi hfile
  obtain ⟨⟨refused, roots⟩, s⟩ := r
  dsimp only
  have hmem : Diagnostic.inFile file.1.toString (.codeTooLarge file.2.size) ∈
      (roots.filterMap (fileAt? s s.symbols)).filterMap sizeProblem? :=
    mem_filterMap.2 ⟨file, mem_filterMap.2 ⟨i, hi, hfile⟩, if_pos hsize⟩
  split
  · rw [if_neg (fun hempty => ne_nil_of_mem hmem (isEmpty_iff.1 hempty))]
    exact ⟨rfl, fun _ => hmem⟩
  · rename_i hne
    exact ⟨rfl, fun hnil => absurd (isEmpty_iff.2 hnil) hne⟩

/-- The distances of jumps in code that a build gives are all as they were computed, in whichever file of
an import tree they were written. A distance is cut off, at the largest word, only in code that is too large. -/
theorem distances_exact (disk : Disk) (debug : Bool) (paths : List String) :
    recordAll paths [] (.new disk debug) =
        (((compileAll paths (.new disk debug)).1, record disk debug paths), session disk debug paths) ∧
      (∀ path code, (path, code) ∈ (run disk debug paths).files → code.size ≤ maxCodeSize ∧
        ∃ i source, (session disk debug paths).sources[i]? = some source ∧ source.path = path ∧
          (session disk debug paths).bytecode? i (session disk debug paths).symbols = some code ∧
          ∀ e ∈ record disk debug paths, (session disk debug paths).Reaches i e.1 → e.2.Exact) ∧
      ∀ e ∈ record disk debug paths, ¬ e.2.Exact → e.2.word = 65535 ∧ e.2.word < e.2.distance ∧
        ∀ i final, (session disk debug paths).Reaches i e.1 →
          (session disk debug paths).bytecode? i (session disk debug paths).symbols = some final →
          maxCodeSize < final.size ∧
            (i ∈ (compileAll paths (.new disk debug)).1.2 → (run disk debug paths).files = [] ∧
              ((compileAll paths (.new disk debug)).1.1 ++ (session disk debug paths).diagnostics = [] →
                .inFile ((session disk debug paths).pathOf i) (.codeTooLarge final.size) ∈
                  (run disk debug paths).diagnostics)) := by
  refine ⟨(recorded disk debug paths).1, fun path code hmem => ?_, fun e he hcut => ?_⟩
  · have hsize := (mem_files hmem).2.1
    obtain ⟨i, source, hsource, hpath, hcode, -⟩ := built_of_mem_files hmem
    obtain ⟨r, hr, hfinal⟩ := size_bytecode hcode
    exact ⟨hsize, i, source, hsource, hpath, hcode, exact_of_size_le hr (hfinal ▸ hsize)⟩
  · obtain ⟨rk, hrk, hfits⟩ := (recorded disk debug paths).2 e he
    have hword := hfits.word
    have hne : e.2.word ≠ e.2.distance := hcut
    refine ⟨by omega, by omega, fun i final hreaches hfinal => ?_⟩
    obtain ⟨r, hr, hsize⟩ := size_bytecode hfinal
    have hlarge : maxCodeSize < final.size :=
      Nat.lt_of_not_le fun hle => hcut (exact_of_size_le hr (hsize ▸ hle) e he hreaches)
    refine ⟨hlarge, fun hi => ?_⟩
    obtain ⟨u, hu, -⟩ := Option.bind_eq_some_iff.1 hr
    obtain ⟨source, hsource⟩ : ∃ source, (session disk debug paths).sources[i]? = some source := by
      have hi := (Array.getElem?_eq_some_iff.1 hu).1
      rw [← (orderly_session disk debug paths).complete.sources] at hi
      exact ⟨_, Array.getElem?_eq_getElem hi⟩
    have hfile : fileAt? (session disk debug paths) (session disk debug paths).symbols i = some (source.path, final) := by
      simp [fileAt?, hsource, hfinal]
    rw [pathOf, hsource]
    exact files_of_sizeProblem hi hfile hlarge

/-- Three jumps: over the branch, back to the start of the loop, and out of it, which is filled in last. -/
theorem distances_exact_waiting :
    record (oneFile waiting) false ["/a"] = [(0, ⟨3, 3⟩), (0, ⟨28, 28⟩), (0, ⟨3, 3⟩)] ∧
      ∃ i source, (session (oneFile waiting) false ["/a"]).sources[i]? = some source ∧ source.path = rootFile ∧
        (session (oneFile waiting) false ["/a"]).bytecode? i (session (oneFile waiting) false ["/a"]).symbols =
          some waitingCode ∧
        ∀ e ∈ record (oneFile waiting) false ["/a"],
          (session (oneFile waiting) false ["/a"]).Reaches i e.1 → e.2.Exact := by
  refine ⟨?_, ((distances_exact (oneFile waiting) false ["/a"]).2.1 rootFile waitingCode mem_waiting).2⟩
  decide +kernel

end Build

end HostScript

import HostScript.Proofs.CompileOrder

/-! What loading leaves.

A file is found again by its path, and the imports of a file are the files at the paths that it
names (`Wired`). While a file waits for its imports this does not hold of it yet, so that it is
stated for all files but some. Only files on the disk name others, and each is read once, so that
as many steps as there are files on the disk are enough. -/
namespace HostScript.Session

open List Option

/-! ### Paths -/

def pathAt? (s : Session) (i : Nat) : Option Path := (s.sources[i]?).map (·.path)

section Paths

variable {s t : Session} {fuel i : Nat} {path : Path} {paths : List Path}

theorem complete_loadFrom (fuel : Nat) (path : Path) (hc : Complete s) : Complete (loadFrom fuel path s).2 :=
  (loads_loadFrom fuel path s hc).2.1

theorem prefix_mapM (fuel : Nat) (paths : List Path) (hc : Complete s) :
    s.sources.toList <+: (paths.mapM (loadFrom fuel) s).2.sources.toList ∧ Complete (paths.mapM (loadFrom fuel) s).2 := by
  induction paths generalizing s with
  | nil => exact ⟨prefix_refl _, hc⟩
  | cons path rest ih =>
    obtain ⟨hkept, hcomplete⟩ := ih (complete_loadFrom fuel path hc)
    rw [mapM_cons]
    exact ⟨(prefix_loadFrom fuel path hc).trans hkept, hcomplete⟩

theorem pathAt_kept (h : s.sources.toList <+: t.sources.toList) (hi : s.pathAt? i = some path) :
    t.pathAt? i = some path := by
  obtain ⟨source, hsource, hpath⟩ := map_eq_some_iff.1 hi
  obtain ⟨rest, hrest⟩ := h
  refine map_eq_some_iff.2 ⟨source, ?_, hpath⟩
  rw [← Array.getElem?_toList] at hsource ⊢
  rw [← hrest, List.getElem?_append_left (List.getElem?_eq_some_iff.1 hsource).1, hsource]

theorem pathAt_find (h : s.find? path = some i) : s.pathAt? i = some path := by
  obtain ⟨hi, hpath, -⟩ := Array.findIdx?_eq_some_iff_getElem.1 h
  exact map_eq_some_iff.2 ⟨_, Array.getElem?_eq_getElem hi, of_decide_eq_true hpath⟩

theorem pathAt_add (s : Session) (path : Path) : (s.add path).pathAt? s.sources.size = some path := by
  show ((s.sources.push (readFile s.disk path s.sources.size).1)[s.sources.size]?).map (·.path) = _
  rw [Array.getElem?_push_size, map_some, path_readFile]

/-- A file is loaded under its normal path. -/
theorem pathAt_loadFrom (fuel : Nat) (path : Path) (hc : Complete s) :
    (loadFrom fuel path s).2.pathAt? (loadFrom fuel path s).1 = some path.normalize := by
  cases hfind : s.find? path.normalize with
  | some i =>
    rw [loadFrom_found hfind]
    exact pathAt_find hfind
  | none =>
    cases fuel with
    | zero =>
      rw [loadFrom_last hfind]
      exact pathAt_add s _
    | succ fuel =>
      rw [loadFrom_new hfind]
      exact pathAt_kept (prefix_mapM fuel _ (loads_add hc _).2.1).1 (pathAt_add s _)

theorem pathAt_mapM (fuel : Nat) (paths : List Path) (hc : Complete s) :
    (paths.mapM (loadFrom fuel) s).1.map (paths.mapM (loadFrom fuel) s).2.pathAt? = paths.map fun p => some p.normalize := by
  induction paths generalizing s with
  | nil => rfl
  | cons path rest ih =>
    have hcomplete := complete_loadFrom fuel path hc
    have hhead := pathAt_kept (prefix_mapM fuel rest hcomplete).1 (pathAt_loadFrom fuel path hc)
    rw [mapM_cons]
    exact congrArg₂ List.cons hhead (ih hcomplete)

theorem pathAt_compile (ho : Orderly s) (k i : Nat) : (s.compile k).pathAt? i = s.pathAt? i := by
  unfold pathAt?
  rw [(compiles_compile ho.fresh k).sources]

end Paths

/-! ### Imports -/

/-- The imports of a file are the files at the paths that it names. -/
def Wired (s : Session) (i : Nat) : Prop := (s.importsOf i).map s.pathAt? = (s.importPaths i).map fun p => some p.normalize

/-- Every file has its imports, but for some that wait for them. -/
def WiredBut (s : Session) (waiting : List Nat) : Prop := ∀ i, i < s.units.size → i ∉ waiting → s.Wired i

/-- How many files on the disk were not read. -/
def unread (s : Session) : Nat := s.disk.files.countP fun f => (s.find? f.1).isNone

section Wired

variable {s t : Session} {fuel i : Nat} {path : Path} {waiting : List Nat}

theorem disk_loadFrom (fuel : Nat) (path : Path) (hc : Complete s) : (loadFrom fuel path s).2.disk = s.disk :=
  loadFrom_keeps (P := fun t => t.disk = s.disk) (fun _ _ _ _ h => h) (fun _ _ _ h => h) fuel path s hc rfl

theorem importPaths_congr (hsource : t.sources[i]? = s.sources[i]?)
    (hscript : (t.units[i]?).bind (·.script) = (s.units[i]?).bind (·.script)) : t.importPaths i = s.importPaths i := by
  unfold importPaths
  rw [hsource, hscript]

/-- What a file names does not change while others are loaded. -/
theorem importPaths_of_loads (hloads : Loads s t) (h : s.sources.toList <+: t.sources.toList) (hc : Complete s)
    (hi : i < s.units.size) : t.importPaths i = s.importPaths i := by
  have hsource : t.sources[i]? = s.sources[i]? := by
    obtain ⟨rest, hrest⟩ := h
    rw [← Array.getElem?_toList, ← Array.getElem?_toList, ← hrest,
      List.getElem?_append_left (by rw [Array.length_toList, hc.sources]; exact hi)]
  exact importPaths_congr hsource (by rw [hloads.kept i hi])

theorem Wired.of_loads (hwired : s.Wired i) (hloads : Loads s t) (h : s.sources.toList <+: t.sources.toList)
    (hc : Complete s) (hi : i < s.units.size) : t.Wired i := by
  have hsame : t.importsOf i = s.importsOf i := by rw [importsOf, importsOf, hloads.kept i hi]
  unfold Wired at *
  rw [hsame, importPaths_of_loads hloads h hc hi, ← hwired]
  refine map_congr_left fun j hj => ?_
  obtain ⟨p, -, hp⟩ : ∃ p ∈ s.importPaths i, some p.normalize = s.pathAt? j := mem_map.1 (hwired ▸ mem_map_of_mem hj)
  rw [← hp]
  exact pathAt_kept h hp.symm

theorem find_kept (h : s.sources.toList <+: t.sources.toList) (hfind : s.find? path ≠ none) : t.find? path ≠ none := by
  intro hnone
  refine hfind (Array.findIdx?_eq_none_iff.2 fun source hsource => ?_)
  exact Array.findIdx?_eq_none_iff.1 hnone source (Array.mem_toList_iff.1 (h.subset (Array.mem_toList_iff.2 hsource)))

theorem countP_kept (h : s.sources.toList <+: t.sources.toList) (files : List (Path × List UInt8)) :
    files.countP (fun f => (t.find? f.1).isNone) ≤ files.countP fun f => (s.find? f.1).isNone := by
  refine countP_mono_left fun f _ hf => ?_
  rw [isNone_iff_eq_none] at hf ⊢
  by_contra hne
  exact find_kept h hne hf

theorem unread_kept (hdisk : t.disk = s.disk) (h : s.sources.toList <+: t.sources.toList) : t.unread ≤ s.unread := by
  unfold unread
  rw [hdisk]
  exact countP_kept h _

theorem unit_add (hc : Complete s) (path : Path) :
    (s.add path).units[s.sources.size]? = some (readFile s.disk path s.sources.size).2 := by
  show (s.units.push (readFile s.disk path s.sources.size).2)[s.sources.size]? = _
  rw [hc.sources, Array.getElem?_push_size]

/-- Only a file on the disk names others. -/
theorem read_of_importPaths (h : (s.add path).importPaths s.sources.size ≠ []) (hc : Complete s) :
    ∃ bytes, (path, bytes) ∈ s.disk.files := by
  cases htext : s.disk.text? path with
  | none =>
    refine absurd ?_ h
    unfold importPaths
    rw [unit_add hc, readFile, htext]
    split <;> simp_all
  | some text =>
    obtain ⟨bytes, hbytes, -⟩ := bind_eq_some_iff.1 htext
    exact ⟨bytes, lookup_eq_some_iff.1 hbytes |>.elim fun l h => by grind⟩

/-- A file that is read for the first time and names others is one fewer on the disk. -/
theorem unread_add (hc : Complete s) (hfind : s.find? path = none)
    (hnames : (s.add path).importPaths s.sources.size ≠ []) : (s.add path).unread < s.unread := by
  obtain ⟨bytes, hmem⟩ := read_of_importPaths hnames hc
  obtain ⟨before, after, hfiles⟩ := append_of_mem hmem
  have hkept := prefix_add s path
  have hfound : (s.add path).find? path ≠ none := by
    intro hnone
    have hnot := Array.findIdx?_eq_none_iff.1 hnone (readFile s.disk path s.sources.size).1 Array.mem_push_self
    rw [path_readFile, decide_eq_false_iff_not] at hnot
    exact hnot rfl
  have hb := countP_kept hkept before
  have ha := countP_kept hkept after
  unfold unread
  rw [show (s.add path).disk = s.disk from rfl, hfiles]
  simp [countP_append, hfind, hfound]
  omega

theorem importsOf_add (hc : Complete s) : (s.add path).importsOf s.sources.size = [] := by
  rw [importsOf, unit_add hc, readFile]
  split
  · rfl
  · split <;> rfl

theorem wiredBut_add (hc : Complete s) (h : s.WiredBut waiting) :
    (s.add path).WiredBut (s.sources.size :: waiting) := by
  intro k hk hnot
  rw [mem_cons, not_or] at hnot
  obtain ⟨hne, hnot⟩ := hnot
  have hsize := (loads_add hc path).2.2
  have hk' : k < s.units.size := by
    have := hc.sources
    omega
  exact (h k hk' hnot).of_loads (loads_add hc path).1 (prefix_add s path) hc hk'

theorem WiredBut.settle (h : s.WiredBut (i :: waiting)) (hi : s.Wired i) : s.WiredBut waiting := by
  intro k hk hnot
  by_cases hki : k = i
  · exact hki ▸ hi
  · exact h k hk fun hmem => (mem_cons.1 hmem).elim hki hnot

/-- A file that has its imports no longer waits for them. -/
theorem WiredBut.link (h : s.WiredBut (i :: waiting)) (hi : i < s.units.size)
    (himports : imports.map s.pathAt? = (s.importPaths i).map fun p => some p.normalize) :
    (s.modifyUnit i fun u => { u with imports }).WiredBut waiting := by
  have hpaths : ∀ k, (s.modifyUnit i fun u => { u with imports }).importPaths k = s.importPaths k := fun k => by
    refine importPaths_congr rfl ?_
    rw [getElem?_modifyUnit]
    split
    · cases s.units[k]? <;> rfl
    · rfl
  have hself : (s.modifyUnit i fun u => { u with imports }).importsOf i = imports := by
    rw [importsOf, getElem?_modifyUnit, if_pos rfl, Array.getElem?_eq_getElem hi]
    rfl
  have hother : ∀ k, i ≠ k → (s.modifyUnit i fun u => { u with imports }).importsOf k = s.importsOf k := fun k hk => by
    rw [importsOf, getElem?_modifyUnit, if_neg hk, importsOf]
  intro k hk hnot
  unfold Wired
  rw [hpaths]
  by_cases hik : i = k
  · subst hik
    rw [hself]
    exact himports
  · rw [hother k hik]
    exact h k (by simpa [modifyUnit] using hk) fun hmem => (mem_cons.1 hmem).elim (fun h => hik h.symm) hnot

theorem wired_mapM (ih : ∀ path s waiting, Complete s → s.unread ≤ fuel → s.WiredBut waiting →
      (loadFrom fuel path s).2.WiredBut waiting) (paths : List Path) (hc : Complete s)
    (hunread : s.unread ≤ fuel) (h : s.WiredBut waiting) : (paths.mapM (loadFrom fuel) s).2.WiredBut waiting := by
  induction paths generalizing s with
  | nil => exact h
  | cons path rest ihrest =>
    rw [mapM_cons]
    exact ihrest (complete_loadFrom fuel path hc)
      (Nat.le_trans (unread_kept (disk_loadFrom fuel path hc) (prefix_loadFrom fuel path hc)) hunread)
      (ih path s waiting hc hunread h)

theorem wired_loadFrom (fuel : Nat) : ∀ path s waiting, Complete s → s.unread ≤ fuel → s.WiredBut waiting →
    (loadFrom fuel path s).2.WiredBut waiting := by
  induction fuel with
  | zero =>
    intro path s waiting hc hunread h
    cases hfind : s.find? path.normalize with
    | some i => rwa [loadFrom_found hfind]
    | none =>
      rw [loadFrom_last hfind]
      refine (wiredBut_add hc h).settle ?_
      have hnone : (s.add path.normalize).importPaths s.sources.size = [] := by
        by_contra hne
        have := unread_add hc hfind hne
        omega
      unfold Wired
      rw [hnone, importsOf_add hc]
      rfl
  | succ fuel ih =>
    intro path s waiting hc hunread h
    cases hfind : s.find? path.normalize with
    | some i => rwa [loadFrom_found hfind]
    | none =>
      rw [loadFrom_new hfind]
      obtain ⟨hadd, hcadd, hsize⟩ := loads_add hc path.normalize
      obtain ⟨hloads, -, -⟩ := loads_mapM (loads_loadFrom fuel) ((s.add path.normalize).importPaths s.sources.size) hcadd
      have hkept := (prefix_mapM fuel ((s.add path.normalize).importPaths s.sources.size) hcadd).1
      have hi : s.sources.size < (s.add path.normalize).units.size := by
        rw [hsize, hc.sources]
        exact Nat.lt_succ_self _
      have hwired : (((s.add path.normalize).importPaths s.sources.size).mapM (loadFrom fuel) (s.add path.normalize)).2.WiredBut
          (s.sources.size :: waiting) := by
        by_cases hnone : (s.add path.normalize).importPaths s.sources.size = []
        · rw [hnone]
          exact wiredBut_add hc h
        · exact wired_mapM ih _ hcadd (by have := unread_add hc hfind hnone; omega) (wiredBut_add hc h)
      refine hwired.link (Nat.lt_of_lt_of_le hi hloads.size) ?_
      rw [importPaths_of_loads hloads hkept hcadd hi]
      exact pathAt_mapM fuel _ hcadd

theorem Wired.of_alike (h : s.Wired i) (halike : Alike s t) (hsources : t.sources = s.sources) : t.Wired i := by
  unfold Wired pathAt? at *
  rw [halike.importsOf, hsources, importPaths_congr (congrArg (·[i]?) hsources) (halike.script i)]
  exact h

/-- Whatever was loaded and compiled before, every file has its imports. -/
theorem Reachable.wired (hs : Reachable s) : ∀ i, i < s.units.size → s.Wired i := by
  induction hs with
  | new disk debug => exact fun i hi => absurd hi (Nat.not_lt_zero i)
  | @load s path hs ih =>
    exact fun i hi => wired_loadFrom s.disk.files.length path s [] hs.orderly.complete countP_le_length
      (fun k hk _ => ih k hk) i hi (by simp)
  | @compile s j hs ih =>
    have hcompiles := compiles_compile hs.orderly.fresh j
    exact fun i hi => (ih i (hcompiles.size ▸ hi)).of_alike hcompiles.alike hcompiles.sources

end Wired

end HostScript.Session

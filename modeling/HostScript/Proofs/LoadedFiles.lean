import HostScript.Proofs.RootOrder

/-! What a sequence of loads leaves.

Files import each other in any way, also in a circle, and `Visits` says what loading some of them
means without a bound on its depth: a path that was loaded before has its number, and any other is
added before the files that it imports are visited. Every file can be visited so, to one end, and
that is where `load` comes out (`visits_iff`). What it leaves is tidy: each file is at a normal
path of its own, and its imports are the numbers of the files at the paths that it names. -/
namespace HostScript

open List Option

namespace Path

theorem foldl_extend_of_names (rooted : Bool) (parts reversed : List Part)
    (h : ∀ part ∈ parts, part = .name part.text) :
    parts.foldl (extend rooted) reversed = parts.reverse ++ reversed := by
  induction parts generalizing reversed with
  | nil => rfl
  | cons part rest ih =>
    obtain ⟨hpart, hrest⟩ := forall_mem_cons.1 h
    rw [foldl_cons, ih _ hrest, hpart, reverse_cons, append_assoc]
    rfl

theorem Named.normalize_eq {p : Path} (h : p.Named) : p.normalize = p := by
  rw [normalize, foldl_extend_of_names _ _ _ h, append_nil, reverse_reverse]

theorem rooted_join {p : Path} (hp : p.rooted) (q : Path) : (p.join q).rooted := by
  unfold join
  split
  · assumption
  · exact hp

end Path

namespace Session

/-! ### Visits -/

/-- Visits files one after the other, and before the next all that the last one imports. -/
inductive Visits : Session → List Path → List Nat → Session → Prop
  | nil (s : Session) : Visits s [] [] s
  | found {s : Session} {path : Path} (h : s.find? path.normalize = some i) (hrest : Visits s rest is t) :
      Visits s (path :: rest) (i :: is) t
  | new {s t : Session} {path : Path} (h : s.find? path.normalize = none)
      (himports : Visits (s.add path.normalize) ((s.add path.normalize).importPaths s.sources.size) imports t)
      (hrest : Visits (t.modifyUnit s.sources.size fun u => { u with imports }) rest is u) :
      Visits s (path :: rest) (s.sources.size :: is) u

/-- Loads files one after the other. -/
def loadAll (s : Session) : List Path → List Nat × Session
  | [] => ([], s)
  | path :: rest =>
    let (i, s) := s.load path
    let (is, s) := s.loadAll rest
    (i :: is, s)

section Visits

variable {s t u : Session} {fuel i : Nat} {path : Path} {rest : List Path} {is js : List Nat}

theorem Visits.unique (h : Visits s rest is t) (h' : Visits s rest js u) : is = js ∧ t = u := by
  induction h generalizing js u with
  | nil s =>
    cases h'
    exact ⟨rfl, rfl⟩
  | found hfind _ ih =>
    cases h' with
    | found hfind' hrest' =>
      obtain ⟨rfl, rfl⟩ := ih hrest'
      rw [hfind] at hfind'
      cases hfind'
      exact ⟨rfl, rfl⟩
    | new hfind' => exact nomatch hfind.symm.trans hfind'
  | new hfind _ _ ihimports ih =>
    cases h' with
    | found hfind' => exact nomatch hfind.symm.trans hfind'
    | new _ himports' hrest' =>
      obtain ⟨rfl, rfl⟩ := ihimports himports'
      obtain ⟨rfl, rfl⟩ := ih hrest'
      exact ⟨rfl, rfl⟩

theorem Visits.append (h : Visits s [path] [i] t) (hrest : Visits t rest is u) :
    Visits s (path :: rest) (i :: is) u := by
  cases h with
  | found hfind hnil =>
    cases hnil
    exact .found hfind hrest
  | new hfind himports hnil =>
    cases hnil
    exact .new hfind himports hrest

/-- A file that imports nothing has its imports when it is added. -/
theorem link_add (hc : Complete s) :
    (s.add path).modifyUnit s.sources.size (fun u => { u with imports := [] }) = s.add path := by
  have himports : (s.add path).importsOf s.sources.size = [] := importsOf_add hc
  have hunits : (s.add path).units.modify s.sources.size (fun u => { u with imports := [] }) = (s.add path).units := by
    refine Array.ext_getElem? fun k => ?_
    rw [Array.getElem?_modify]
    split
    · next hk =>
      subst hk
      rw [importsOf] at himports
      cases hunit : (s.add path).units[s.sources.size]? with
      | none => rfl
      | some v =>
        rw [hunit] at himports
        rw [map_some, ← show v.imports = [] from himports]
    · rfl
  rw [modifyUnit, hunits]

theorem visits_mapM (ih : ∀ path s, Complete s → s.unread ≤ fuel →
      Visits s [path] [(loadFrom fuel path s).1] (loadFrom fuel path s).2)
    (paths : List Path) (hc : Complete s) (hunread : s.unread ≤ fuel) :
    Visits s paths (paths.mapM (loadFrom fuel) s).1 (paths.mapM (loadFrom fuel) s).2 := by
  induction paths generalizing s with
  | nil => exact .nil s
  | cons path rest ihrest =>
    rw [mapM_cons]
    exact (ih path s hc hunread).append (ihrest (complete_loadFrom fuel path hc)
      (Nat.le_trans (unread_kept (disk_loadFrom fuel path hc) (prefix_loadFrom fuel path hc)) hunread))

/-- As many steps are enough as there are files on the disk that were not read. -/
theorem visits_loadFrom (fuel : Nat) : ∀ path s, Complete s → s.unread ≤ fuel →
    Visits s [path] [(loadFrom fuel path s).1] (loadFrom fuel path s).2 := by
  induction fuel with
  | zero =>
    intro path s hc hunread
    cases hfind : s.find? path.normalize with
    | some i =>
      rw [loadFrom_found hfind]
      exact .found hfind (.nil s)
    | none =>
      have hnone : (s.add path.normalize).importPaths s.sources.size = [] := by
        by_contra hne
        have := unread_add hc hfind hne
        omega
      rw [loadFrom_last hfind]
      have hnil : Visits (s.add path.normalize) ((s.add path.normalize).importPaths s.sources.size) [] (s.add path.normalize) := by
        rw [hnone]
        exact .nil _
      refine .new hfind hnil ?_
      rw [link_add hc]
      exact .nil _
  | succ fuel ih =>
    intro path s hc hunread
    cases hfind : s.find? path.normalize with
    | some i =>
      rw [loadFrom_found hfind]
      exact .found hfind (.nil s)
    | none =>
      rw [loadFrom_new hfind]
      refine .new hfind ?_ (.nil _)
      by_cases hnone : (s.add path.normalize).importPaths s.sources.size = []
      · rw [hnone]
        exact .nil _
      · exact visits_mapM ih _ (loads_add hc _).2.1 (by have := unread_add hc hfind hnone; omega)

theorem visits_load (path : Path) (hc : Complete s) : Visits s [path] [(s.load path).1] (s.load path).2 :=
  visits_loadFrom s.disk.files.length path s hc countP_le_length

theorem visits_loadAll (paths : List Path) (hc : Complete s) :
    Visits s paths (s.loadAll paths).1 (s.loadAll paths).2 := by
  induction paths generalizing s with
  | nil => exact .nil s
  | cons path rest ih =>
    exact (visits_load path hc).append (ih (complete_loadFrom _ path hc))

/-- Files are visited to one end, and loading comes out there. -/
theorem visits_iff (paths : List Path) (hc : Complete s) : Visits s paths is t ↔ s.loadAll paths = (is, t) := by
  constructor
  · intro h
    obtain ⟨his, ht⟩ := (visits_loadAll paths hc).unique h
    exact Prod.ext his ht
  · intro h
    have hvisits := visits_loadAll paths hc
    rwa [h] at hvisits

end Visits

/-! ### Tidy sessions -/

/-- A session after files were loaded by rooted paths. -/
structure Tidy (s : Session) : Prop where
  reachable : Reachable s
  distinct : Distinct s
  rooted : s.Within fun p => p.rooted ∧ p.Named

section Tidy

variable {s : Session} {i : Nat} {path : Path}

theorem tidy_new (disk : Disk) (debug : Bool) : Tidy (.new disk debug) where
  reachable := .new disk debug
  distinct := nodup_nil
  rooted := nofun

theorem rooted_importsAt (disk : Disk) (p : Path) (hp : p.rooted ∧ p.Named) :
    ∀ q ∈ importsAt disk p, q.normalize.rooted ∧ q.normalize.Named := by
  intro q hq
  have hrooted : q.rooted := by
    unfold importsAt at hq
    cases hscript : (readFile disk p 0).2.script with
    | none =>
      rw [hscript] at hq
      cases hq
    | some script =>
      rw [hscript] at hq
      obtain ⟨text, -, rfl⟩ := mem_map.1 hq
      have hdirectory : p.directory.rooted := hp.1
      exact Path.rooted_join hdirectory _
  exact ⟨hrooted, Path.named_normalize hrooted⟩

theorem Tidy.load (h : Tidy s) (hpath : path.rooted) : Tidy (s.load path).2 where
  reachable := h.reachable.load path
  distinct := distinct_loadFrom _ path h.reachable.orderly.complete h.distinct
  rooted := within_loadFrom (rooted_importsAt s.disk) _ path s h.reachable.orderly.complete rfl
    ⟨hpath, Path.named_normalize hpath⟩ h.rooted

theorem Tidy.loadAll (h : Tidy s) (hpaths : ∀ p ∈ paths, p.rooted) : Tidy (s.loadAll paths).2 := by
  induction paths generalizing s with
  | nil => exact h
  | cons path rest ih =>
    obtain ⟨hpath, hrest⟩ := forall_mem_cons.1 hpaths
    exact ih (h.load hpath) hrest

theorem find_pathAt (h : Distinct s) (hi : s.pathAt? i = some path) : s.find? path = some i := by
  obtain ⟨source, hsource, hpath⟩ := map_eq_some_iff.1 hi
  cases hfind : s.find? path with
  | none => exact absurd hpath (of_decide_eq_false (Array.findIdx?_eq_none_iff.1 hfind source (Array.mem_of_getElem? hsource)))
  | some j => rw [pathAt_injective h hi (pathAt_find hfind)]

/-- A file is loaded once, however its path is spelled. -/
theorem Distinct.load_eq (h : Distinct s) (hi : s.pathAt? i = some path.normalize) : s.load path = (i, s) :=
  loadFrom_found (find_pathAt h hi)

/-- The imports of a file are the numbers of the files at the paths that it names, seen from its directory. -/
theorem Tidy.imports {u : FileUnit} {source : Source} {script : Script} (h : Tidy s) (hunit : s.units[i]? = some u)
    (hsource : s.sources[i]? = some source) (hscript : u.script = some script) :
    u.imports.map some = script.imports.map fun text => s.find? (source.path.directory.join (.ofString text)).normalize := by
  have hwired := h.reachable.wired i (Array.getElem?_eq_some_iff.1 hunit).1
  have himports : s.importsOf i = u.imports := by rw [importsOf, hunit, Option.map_some, Option.getD_some]
  have hpaths : s.importPaths i = script.imports.map fun text => source.path.directory.join (.ofString text) := by
    unfold importPaths
    rw [hsource, hunit, Option.bind_some, hscript]
  rw [Wired, himports, hpaths] at hwired
  -- The file at a path is found there, so what is known of paths is known of numbers.
  have hfind : ∀ {j : Nat} {p : Path}, s.pathAt? j = some p → some j = s.find? p := fun hj => (find_pathAt h.distinct hj).symm
  generalize script.imports = texts at hwired
  generalize u.imports = js at hwired
  induction texts generalizing js with
  | nil => rw [List.map_eq_nil_iff.1 hwired]; rfl
  | cons text rest ih =>
    obtain ⟨j, js, rfl, hj, hjs⟩ := List.map_eq_cons_iff.1 hwired
    rw [List.map_cons, List.map_cons, ih js hjs, hfind hj]

theorem kept_loadAll (paths : List Path) (hc : Complete s) :
    s.sources.toList <+: (s.loadAll paths).2.sources.toList ∧ (s.loadAll paths).2.disk = s.disk := by
  induction paths generalizing s with
  | nil => exact ⟨prefix_refl _, rfl⟩
  | cons path rest ih =>
    obtain ⟨hkept, hdisk⟩ := ih (complete_loadFrom s.disk.files.length path hc)
    exact ⟨(prefix_loadFrom _ path hc).trans hkept, hdisk.trans (disk_loadFrom _ path hc)⟩

theorem pathAt_loadAll (paths : List Path) (hc : Complete s) :
    (s.loadAll paths).1.map (s.loadAll paths).2.pathAt? = paths.map fun p => some p.normalize := by
  induction paths generalizing s with
  | nil => rfl
  | cons path rest ih =>
    have hcomplete : Complete (s.load path).2 := complete_loadFrom s.disk.files.length path hc
    exact congrArg₂ List.cons (pathAt_kept (kept_loadAll rest hcomplete).1 (pathAt_loadFrom _ path hc)) (ih hcomplete)

end Tidy

/-- Whatever is on a disk, and whatever rooted paths are loaded from it one after the other: the files are
visited to an end, and to one end only. Then there is a unit for every source, which holds what the text of the
source says; the paths of the sources are normal and different; the imports of a file are, in order, the files at
the paths that it names; and to load any path again, in any spelling, gives its number and changes nothing. -/
theorem loads_settle (disk : Disk) (debug : Bool) (paths : List Path) (hrooted : ∀ p ∈ paths, p.rooted) :
    (∀ is t, Visits (.new disk debug) paths is t ↔ (new disk debug).loadAll paths = (is, t)) ∧
      ∀ is s, (new disk debug).loadAll paths = (is, s) →
        s.sources.size = s.units.size ∧
        (∀ source ∈ s.sources, source.path.rooted ∧ source.path.Named ∧ source.path.normalize = source.path) ∧
        (s.sources.toList.map (·.path)).Nodup ∧
        (∀ (i : Nat) source u, s.sources[i]? = some source → s.units[i]? = some u →
          source = (readFile disk source.path i).1 ∧ u.script = (readFile disk source.path i).2.script ∧
          ∀ script, u.script = some script → u.imports.map some =
            script.imports.map fun text => s.find? (source.path.directory.join (.ofString text)).normalize) ∧
        is.map (fun i => (s.sources[i]?).map (·.path)) = paths.map (fun p => some p.normalize) ∧
        ∀ i source path, s.sources[i]? = some source → path.normalize = source.path → s.load path = (i, s) := by
  have hnew := tidy_new disk debug
  have hcomplete := hnew.reachable.orderly.complete
  refine ⟨fun is t => visits_iff paths hcomplete, fun is s hload => ?_⟩
  have htidy : Tidy s := by
    have h := hnew.loadAll hrooted
    rwa [hload] at h
  have hdisk : s.disk = disk := by
    have h := (kept_loadAll paths hcomplete).2
    rwa [hload] at h
  have hpaths := pathAt_loadAll paths hcomplete
  rw [hload] at hpaths
  refine ⟨htidy.reachable.orderly.complete.sources, fun source hsource => ?_, htidy.distinct,
    fun i source u hsource hunit => ?_, hpaths, fun i source path hsource hpath => ?_⟩
  · obtain ⟨i, hi⟩ := Array.mem_iff_getElem?.1 hsource
    obtain ⟨hroot, hnamed⟩ := htidy.rooted i source.path (Option.map_eq_some_iff.2 ⟨source, hi, rfl⟩)
    exact ⟨hroot, hnamed, hnamed.normalize_eq⟩
  · obtain ⟨hread, hscript⟩ := htidy.reachable.read (Option.map_eq_some_iff.2 ⟨source, hsource, rfl⟩)
    rw [hdisk] at hread hscript
    rw [script?, hunit] at hscript
    exact ⟨Option.some.inj (hsource.symm.trans hread), hscript, fun script => htidy.imports hunit hsource⟩
  · exact htidy.distinct.load_eq (Option.map_eq_some_iff.2 ⟨source, hsource, hpath.symm⟩)

/-- Two files that import each other, the second also one that is not there, and itself by another name. -/
def circle : Disk := diskOf [
  ("a", "#import \"b\""),
  ("b", "#import \"x/../a\"\n#import \"gone\"\n#import \"/./b\"")]

def circlePaths : List Path :=
  [fileNamed "a", ⟨true, [.parent, .name "gone"]⟩, ⟨true, [.name "y", .parent, .name "b"]⟩]

/-- Of three loads the first visits all files, and the others find them by other spellings of their paths. -/
theorem loads_settle_circle :
    let s := ((new circle false).loadAll circlePaths).2
    (∀ p ∈ circlePaths, p.rooted) ∧ s.sources.toList.map (·.path) = [fileNamed "a", fileNamed "b", fileNamed "gone"] ∧
      s.units.toList.map (·.imports) = [[1], [0, 2, 1], []] ∧ Visits (.new circle false) circlePaths [0, 2, 1] s ∧
      s.load ⟨true, [.name "z", .parent, .name "a"]⟩ = (0, s) := by
  intro s
  have hrooted : ∀ p ∈ circlePaths, p.rooted := by decide
  have hindices : ((new circle false).loadAll circlePaths).1 = [0, 2, 1] := by decide +kernel
  have hpaths : s.sources.toList.map (·.path) = [fileNamed "a", fileNamed "b", fileNamed "gone"] := by decide +kernel
  have hload : (new circle false).loadAll circlePaths = ([0, 2, 1], s) := Prod.ext hindices rfl
  obtain ⟨hvisits, hsettled⟩ := loads_settle circle false circlePaths hrooted
  obtain ⟨-, -, -, -, hnames, hagain⟩ := hsettled _ _ hload
  obtain ⟨source, hsource, hpath⟩ := Option.map_eq_some_iff.1 (List.cons.inj hnames).1
  exact ⟨hrooted, hpaths, by decide +kernel, (hvisits _ _).2 hload, hagain 0 source _ hsource hpath.symm⟩

end Session

end HostScript

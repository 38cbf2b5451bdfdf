import HostScript.Proofs.Output
import HostScript.Proofs.Verdicts

/-! The same files in another order.

The paths that a session loads are those of its roots and everything that files at these paths
import, in whatever order the roots come (`within_compileAll`). So the files of one session are
those of another one with the same roots under other numbers (`carries_of_paths`), the same of them
are compiled, and to the same code with the same problems (`Reorders`). -/
namespace HostScript

open List

variable {disk : Disk} {paths' : List String} {i : Nat} {s t : Session}

namespace Session

section Paths

variable {k : Nat} {path : Path} {f : Nat → Nat} {P : Path → Prop}

/-! ### Imports by path -/

/-- The paths that a file at a path imports. -/
def importsAt (disk : Disk) (path : Path) : List Path :=
  (((readFile disk path 0).2.script).map fun script =>
    script.imports.map fun p => path.directory.join (Path.ofString p)).getD []

theorem importPaths_of_read (hsource : s.sources[i]? = some source) (hpath : source.path = path)
    (hscript : s.script? i = (readFile disk path n).2.script) : s.importPaths i = importsAt disk path := by
  subst hpath
  have hread := (readFile_renumber (fun _ => n) disk source.path 0).2.1
  unfold importPaths importsAt
  rw [hsource, show (s.units[i]?).bind (·.script) = s.script? i from rfl, hscript, hread]
  cases (readFile disk source.path 0).2.script with
  | none => rfl
  | some script => simp [Script.imports_renumber]

theorem Reachable.read (hs : Reachable s) (hp : s.pathAt? i = some path) :
    s.sources[i]? = some (readFile s.disk path i).1 ∧ s.script? i = (readFile s.disk path i).2.script := by
  obtain ⟨source, hsource, rfl⟩ := Option.map_eq_some_iff.1 hp
  have hi : i < s.units.size := by
    rw [← hs.orderly.complete.sources]
    exact (Array.getElem?_eq_some_iff.1 hsource).1
  obtain ⟨path, hread, hscript⟩ := hs.faithful i _ (Array.getElem?_eq_getElem hi)
  obtain rfl := Option.some.inj (hsource.symm.trans hread)
  rw [path_readFile]
  exact ⟨hread, by rw [script?, Array.getElem?_eq_getElem hi, Option.bind_some, hscript]⟩

theorem Reachable.importPaths_eq (hs : Reachable s) (hp : s.pathAt? i = some path) :
    s.importPaths i = importsAt s.disk path :=
  importPaths_of_read (hs.read hp).1 (path_readFile ..) (hs.read hp).2

/-! ### Paths that are loaded -/

/-- All files are at paths of some sort. -/
def Within (P : Path → Prop) (s : Session) : Prop := ∀ i path, s.pathAt? i = some path → P path

theorem Within.add (h : s.Within P) (hpath : P path) : (s.add path).Within P := by
  intro i p hp
  obtain ⟨source, hsource, rfl⟩ := Option.map_eq_some_iff.1 hp
  rw [sources_add, Array.getElem?_push] at hsource
  split at hsource
  · cases hsource
    rwa [path_readFile]
  · exact h i _ (Option.map_eq_some_iff.2 ⟨source, hsource, rfl⟩)

/-- Files at paths of a sort that imports do not leave only load such files. -/
theorem within_loadFrom (hclosed : ∀ p, P p → ∀ q ∈ importsAt disk p, P q.normalize) (fuel : Nat) :
    ∀ path s, Complete s → s.disk = disk → P path.normalize → s.Within P → (loadFrom fuel path s).2.Within P := by
  intro path s hc hdisk hpath h
  refine (loadFrom_among (P := fun s => s.disk = disk ∧ s.Within P) (fun _ _ _ _ hpath h => ⟨h.1, h.2.add hpath⟩)
    (fun _ _ _ h => h) (fun s path hc hpath h => ?_) fuel path s hc hpath ⟨hdisk, h⟩).2
  have hunit : (s.add path).script? s.sources.size = (readFile s.disk path s.sources.size).2.script := by
    rw [script?, units_add, hc.sources, Array.getElem?_push_size, Option.bind_some]
  have hsource : (s.add path).sources[s.sources.size]? = some (readFile s.disk path s.sources.size).1 := by
    rw [sources_add, Array.getElem?_push_size]
  rw [importPaths_of_read hsource (path_readFile ..) hunit, h.1]
  exact hclosed path hpath

/-! ### Numbers by path -/

theorem pathAt_injective (h : Distinct s) (hi : s.pathAt? i = some path) (hj : s.pathAt? j = some path) : i = j := by
  obtain ⟨a, ha, hap⟩ := Option.map_eq_some_iff.1 hi
  obtain ⟨b, hb, hbp⟩ := Option.map_eq_some_iff.1 hj
  exact h.index ha hb (hap.trans hbp.symm)

def number (s : Session) (path : Path) : Nat := (s.find? path).getD 0

theorem number_pathAt (h : Distinct s) (hi : s.pathAt? i = some path) : s.number path = i := by
  obtain ⟨j, hj⟩ : ∃ j, s.find? path = some j := by
    refine Option.ne_none_iff_exists'.1 fun hnone => ?_
    obtain ⟨source, hsource, hpath⟩ := Option.map_eq_some_iff.1 hi
    exact of_decide_eq_false (Array.findIdx?_eq_none_iff.1 hnone source (Array.mem_of_getElem? hsource)) hpath
  rw [number, hj, Option.getD_some]
  exact pathAt_injective h (pathAt_find hj) hi

/-- Files are known by their paths. -/
theorem eq_map_number (h : Distinct s) {js : List Nat} {paths : List Path} (hjs : js.map s.pathAt? = paths.map some) :
    js = paths.map s.number := by
  induction paths generalizing js with
  | nil => rw [map_eq_nil_iff.1 hjs, map_nil]
  | cons path rest ih =>
    obtain ⟨j, js, rfl, hj, hjs⟩ := map_eq_cons_iff.1 hjs
    rw [map_cons, number_pathAt h hj, ih hjs]

theorem pathAt_lt (h : Complete s) (hp : s.pathAt? i = some path) : i < s.units.size := by
  obtain ⟨source, hsource, -⟩ := Option.map_eq_some_iff.1 hp
  rw [← h.sources]
  exact (Array.getElem?_eq_some_iff.1 hsource).1

theorem pathAt_none (h : Complete s) (hp : s.pathAt? i = none) : s.sources[i]? = none ∧ s.units[i]? = none := by
  have hsource := Option.map_eq_none_iff.1 hp
  refine ⟨hsource, ?_⟩
  rw [Array.getElem?_eq_none_iff] at hsource ⊢
  rwa [← h.sources]

/-- Numbers for the files of one session in another one that has files at all their paths. -/
theorem exists_numbers (h : Distinct s) (hpaths : s.Within fun p => ∃ j, t.pathAt? j = some p) :
    ∃ f : Nat → Nat, Function.Injective f ∧ ∀ k, t.pathAt? (f k) = s.pathAt? k := by
  -- numbers of no file go beyond all files of the other session
  have hnumber : ∀ k, ∃ j, t.pathAt? j = s.pathAt? k ∧ (s.pathAt? k = none → j = k + t.sources.size) := by
    intro k
    cases hp : s.pathAt? k with
    | none => exact ⟨k + t.sources.size, by simp [pathAt?], fun _ => rfl⟩
    | some p =>
      obtain ⟨j, hj⟩ := hpaths k p hp
      exact ⟨j, hj, fun h => by cases h⟩
  choose f hpath hbeyond using hnumber
  refine ⟨f, fun a b hab => ?_, hpath⟩
  have hsame : s.pathAt? a = s.pathAt? b := by rw [← hpath, ← hpath, hab]
  cases hp : s.pathAt? a with
  | some p => exact pathAt_injective h hp (hsame ▸ hp)
  | none =>
    have ha := hbeyond a hp
    have hb := hbeyond b (hsame ▸ hp)
    omega

/-- A session is carried into another one by numbers that keep paths. -/
theorem carries_of_paths (hs : Reachable s) (ht : Reachable t) (hdistinct : Distinct t) (hdisk : t.disk = s.disk)
    (hdebug : t.debug = s.debug) (hf : Function.Injective f) (hpath : ∀ k, t.pathAt? (f k) = s.pathAt? k) : Carries f s t where
  injective := hf
  debug := hdebug
  source k := by
    cases hp : s.pathAt? k with
    | none => rw [(pathAt_none hs.orderly.complete hp).1, (pathAt_none ht.orderly.complete ((hpath k).trans hp)).1]
    | some path => rw [(hs.read hp).1, (ht.read ((hpath k).trans hp)).1, hdisk, (readFile_renumber f s.disk path k).1]
  script k := by
    cases hp : s.pathAt? k with
    | none => simp [script?, (pathAt_none hs.orderly.complete hp).2, (pathAt_none ht.orderly.complete ((hpath k).trans hp)).2]
    | some path => rw [(hs.read hp).2, (ht.read ((hpath k).trans hp)).2, hdisk, (readFile_renumber f s.disk path k).2.1]
  imports k := by
    cases hp : s.pathAt? k with
    | none => simp [importsOf, (pathAt_none hs.orderly.complete hp).2, (pathAt_none ht.orderly.complete ((hpath k).trans hp)).2]
    | some path =>
      have hp' := (hpath k).trans hp
      have hwired := hs.wired k (pathAt_lt hs.orderly.complete hp)
      have hwired' := ht.wired (f k) (pathAt_lt ht.orderly.complete hp')
      unfold Wired at hwired hwired'
      rw [hs.importPaths_eq hp] at hwired
      rw [ht.importPaths_eq hp', hdisk] at hwired'
      have hnumbers : t.importsOf (f k) = ((importsAt s.disk path).map Path.normalize).map t.number := by
        refine eq_map_number hdistinct ?_
        rw [hwired', map_map]
        rfl
      rw [hnumbers]
      refine (eq_map_number hdistinct ?_).symm
      rw [map_map, show t.pathAt? ∘ f = s.pathAt? from funext hpath, hwired, map_map]
      rfl

end Paths

/-! ### The same outcome -/

/-- The files of one session in another order, where the same of them are compiled. -/
structure Reorders (f : Nat → Nat) (s t : Session) : Prop extends Carries f s t where
  disk : t.disk = s.disk
  onto : ∀ k, k < t.units.size → ∃ j, f j = k
  compiled : ∀ k, t.stage? (f k) = some .compiled ↔ s.stage? k = some .compiled

namespace Reorders

variable {f : Nat → Nat}

theorem pathAt (h : Reorders f s t) (k : Nat) : t.pathAt? (f k) = s.pathAt? k := by
  unfold pathAt?
  rw [h.source]

theorem complaints (h : Reorders f s t) (k : Nat) : t.complaints (f k) = s.complaints k := by
  unfold Session.complaints
  rw [h.pathAt, h.disk]

section

variable (h : Reorders f s t) (hs : Reachable s) (ht : Reachable t)
include h hs ht

/-- A file has the same problems and the same code. -/
theorem unit (k : Nat) :
    (t.units[f k]?).map (·.diagnostics) = (s.units[k]?).map (·.diagnostics) ∧
      t.result? (f k) = (s.result? k).map fun r => (r.1, r.2.renumber f) := by
  unfold result?
  cases hp : s.pathAt? k with
  | none =>
    rw [(pathAt_none hs.orderly.complete hp).2, (pathAt_none ht.orderly.complete ((h.pathAt k).trans hp)).2]
    exact ⟨rfl, rfl⟩
  | some path =>
    obtain ⟨u, hu⟩ : ∃ u, s.units[k]? = some u := ⟨_, Array.getElem?_eq_getElem (pathAt_lt hs.orderly.complete hp)⟩
    obtain ⟨v, hv⟩ : ∃ v, t.units[f k]? = some v :=
      ⟨_, Array.getElem?_eq_getElem (pathAt_lt ht.orderly.complete ((h.pathAt k).trans hp))⟩
    have hstage : v.stage = .compiled ↔ u.stage = .compiled := by
      have := h.compiled k
      rwa [stage?, stage?, hu, hv, Option.map_some, Option.map_some, Option.some_inj, Option.some_inj] at this
    rw [hu, hv, Option.map_some, Option.map_some, Option.bind_some, Option.bind_some, Option.some_inj]
    by_cases hcompiled : u.stage = .compiled
    · obtain ⟨n, hn⟩ := hs.judged.done k u hu hcompiled
      obtain ⟨n', hn'⟩ := ht.judged.done (f k) v hv (hstage.2 hcompiled)
      have hbears := hn (max n n') (Nat.le_max_left _ _)
      have hbears' := hn' (max n n') (Nat.le_max_right _ _)
      rw [h.judge] at hbears'
      refine ⟨?_, by rw [hbears'.result, hbears.result]; rfl⟩
      rw [hbears'.diagnostics, hbears.diagnostics, h.complaints]
      rfl
    · have hne : v.stage ≠ .compiled := fun hv => hcompiled (hstage.1 hv)
      -- between calls no file is being compiled
      have hloaded : ∀ {s : Session} {k : Nat} {u : FileUnit}, Reachable s → s.units[k]? = some u → u.stage ≠ .compiled →
          u.result = none := by
        intro s k u hs hu hne
        refine hs.orderly.fresh k u hu ?_
        have hcalm := hs.calm k u hu
        cases hstage : u.stage with
        | loaded => rfl
        | compiling => exact absurd hstage hcalm
        | compiled => exact absurd hstage hne
      refine ⟨?_, by rw [hloaded hs hu hcompiled, hloaded ht hv hne]; rfl⟩
      rw [hs.judged.waiting k u hu hcompiled, ht.judged.waiting (f k) v hv hne, h.complaints]

/-- The files of the other session, in any order. -/
theorem perm_range :
    ((List.range s.units.size).map f).Perm (List.range t.units.size) := by
  have hlt : ∀ k, f k < t.units.size ↔ k < s.units.size := by
    intro k
    have hbeyond : t.sources.size ≤ f k ↔ s.sources.size ≤ k := by
      rw [← Array.getElem?_eq_none_iff, ← Array.getElem?_eq_none_iff, h.source]
    rw [← hs.orderly.complete.sources, ← ht.orderly.complete.sources]
    omega
  rw [perm_ext_iff_of_nodup (nodup_range.map h.injective) nodup_range]
  intro k
  rw [mem_map, mem_range]
  constructor
  · rintro ⟨j, hj, rfl⟩
    exact (hlt j).2 (mem_range.1 hj)
  · intro hk
    obtain ⟨j, rfl⟩ := h.onto k hk
    exact ⟨j, mem_range.2 ((hlt j).1 hk), rfl⟩

/-- What is gathered from all files, and is the same for each of them. -/
theorem perm_flatMap (hg : ∀ k : Nat, ((t.units[f k]?).map g).getD [] = ((s.units[k]?).map g).getD []) :
    (s.units.toList.flatMap g).Perm (t.units.toList.flatMap g) := by
  have hrange : ∀ s : Session, s.units.toList.flatMap g =
      (List.range s.units.size).flatMap fun k => ((s.units[k]?).map g).getD [] := by
    intro s
    rw [flatMap_def, flatMap_def]
    congr 1
    refine ext_getElem (by simp) fun k h₁ h₂ => ?_
    have hk : k < s.units.size := by simpa using h₁
    simp [hk]
  rw [hrange, hrange]
  refine List.Perm.trans ?_ ((h.perm_range hs ht).flatMap_right _)
  rw [flatMap_map]
  simp only [hg]
  exact .refl _

end

end Reorders

end Session

namespace Build

open Session Path

section CompileAll

variable {paths rest : List String} {path : String} {debug : Bool}

def compileFirst (s : Session) (path : String) : Session :=
  (s.load (ofString path)).2.compile (s.load (ofString path)).1

theorem compileAll_rooted (h : isRooted path) : compileAll (path :: rest) s =
    (((compileAll rest (compileFirst s path)).1.1,
      (s.load (ofString path)).1 :: (compileAll rest (compileFirst s path)).1.2),
      (compileAll rest (compileFirst s path)).2) := by
  conv => lhs; unfold compileAll
  rw [if_pos h]
  rfl

theorem compileAll_relative (h : ¬ isRooted path) : compileAll (path :: rest) s =
    ((.general (.relativePath path) :: (compileAll rest s).1.1, (compileAll rest s).1.2), (compileAll rest s).2) := by
  conv => lhs; unfold compileAll
  rw [if_neg h]
  rfl

theorem reachable_compileFirst (hs : Reachable s) (path : String) :
    Reachable (compileFirst s path) := (hs.load _).compile _

theorem disk_compileFirst (hs : Reachable s) (path : String) : (compileFirst s path).disk = s.disk :=
  ((hs.load _).disk_compile _).trans (disk_loadFrom _ _ hs.orderly.complete)

theorem reachable_session (disk : Disk) (debug : Bool) (paths : List String) : Reachable (session disk debug paths) :=
  reachable_compileAll paths (.new disk debug)

theorem refused_compileAll (paths : List String) (s : Session) :
    (compileAll paths s).1.1 = (paths.filter fun path => !isRooted path).map fun path => .general (.relativePath path) := by
  induction paths generalizing s with
  | nil => rfl
  | cons path rest ih =>
    by_cases h : isRooted path
    · rw [compileAll_rooted h, ih, filter_cons_of_neg (by simp [h])]
    · rw [compileAll_relative h, ih, filter_cons_of_pos (by simp [h]), map_cons]

section

variable (hs : Reachable s)
include hs

theorem disk_compileAll : (compileAll paths s).2.disk = s.disk := by
  induction paths generalizing s with
  | nil => rfl
  | cons path rest ih =>
    by_cases h : isRooted path
    · rw [compileAll_rooted h, ih (reachable_compileFirst hs path), disk_compileFirst hs]
    · rw [compileAll_relative h, ih hs]

/-- What becomes of a file is clear once it is loaded. -/
theorem judge_compileAll (hi : i < s.units.size) (m : Nat) :
    (compileAll paths s).2.judge m i = s.judge m i := by
  induction paths generalizing s with
  | nil => rfl
  | cons path rest ih =>
    by_cases h : isRooted path
    · have hsize : i < (compileFirst s path).units.size := by
        rw [compileFirst, ((hs.load _).compiles _).size]
        exact Nat.lt_of_lt_of_le hi (loads_loadFrom _ _ s hs.orderly.complete).1.size
      rw [compileAll_rooted h, ih (reachable_compileFirst hs path) hsize, compileFirst, ((hs.load _).compiles _).judge,
        hs.judge_load _ hi]
    · rw [compileAll_relative h, ih hs hi]

/-- The files that are compiled are those of the roots. -/
theorem compiled_iff : ∃ n, ∀ m ≥ n, ∀ k, (compileAll paths s).2.stage? k = some .compiled ↔
    s.stage? k = some .compiled ∨ ∃ i ∈ (compileAll paths s).1.2, k ∈ ((compileAll paths s).2.judge m i).files := by
  induction paths generalizing s with
  | nil => exact ⟨0, fun _ _ k => ⟨.inl, fun h => h.resolve_right fun ⟨_, hi, _⟩ => not_mem_nil hi⟩⟩
  | cons path rest ih =>
    by_cases h : isRooted path
    · have hloaded := hs.load (ofString path)
      have hi : (s.load (ofString path)).1 < (s.load (ofString path)).2.units.size :=
        (loads_loadFrom _ _ s hs.orderly.complete).2.2
      have hidle : (s.load (ofString path)).2.stage? (s.load (ofString path)).1 ≠ some .compiling := fun h => by
        obtain ⟨u, hu, hstage⟩ := Option.map_eq_some_iff.1 h
        exact hloaded.calm _ u hu hstage
      obtain ⟨n, hn⟩ := ((hloaded.runs hi).judged hloaded.orderly.fresh hloaded.judged).2 hidle
      obtain ⟨n', hn'⟩ := ih (reachable_compileFirst hs path)
      refine ⟨max n n', fun m hm k => ?_⟩
      have hsize : (s.load (ofString path)).1 < (compileFirst s path).units.size := by
        rw [compileFirst, (hloaded.compiles _).size]
        exact hi
      have hjudge : (compileAll rest (compileFirst s path)).2.judge m (s.load (ofString path)).1 =
          (s.load (ofString path)).2.judge m (s.load (ofString path)).1 := by
        rw [judge_compileAll (reachable_compileFirst hs path) hsize, compileFirst, (hloaded.compiles _).judge]
      rw [compileAll_rooted h, exists_mem_cons_iff, hjudge, hn' m (le_of_max_le_right hm) k, ← or_assoc]
      refine or_congr_left ?_
      rw [compileFirst, hn m (le_of_max_le_left hm) k, compiled_load hs]
    · rw [compileAll_relative h]
      exact ih hs

theorem pathAt_compileAll (hp : s.pathAt? i = some p) : (compileAll paths s).2.pathAt? i = some p :=
  compileAll_induction (motive := fun t => t.pathAt? i = some p) paths hs.orderly hp
    (fun ho h path => pathAt_kept (prefix_loadFrom _ path ho.complete) h) fun ho h k => (pathAt_compile ho k i).trans h

/-- The roots are the files at the normal paths of scripts. -/
theorem pathAt_roots : (compileAll paths s).1.2.map (compileAll paths s).2.pathAt? =
    (paths.filter isRooted).map fun path => some (ofString path).normalize := by
  induction paths generalizing s with
  | nil => rfl
  | cons path rest ih =>
    by_cases h : isRooted path
    · have hfirst : (compileFirst s path).pathAt? (s.load (ofString path)).1 = some (ofString path).normalize :=
        (pathAt_compile (hs.load _).orderly _ _).trans (pathAt_loadFrom _ _ hs.orderly.complete)
      rw [compileAll_rooted h, filter_cons_of_pos h, map_cons, map_cons,
        pathAt_compileAll (reachable_compileFirst hs path) hfirst, ih (reachable_compileFirst hs path)]
    · rw [compileAll_relative h, filter_cons_of_neg h, ih hs]

end

/-- Roots at paths of a sort that imports do not leave only load such files. -/
theorem within_compileAll (hclosed : ∀ p, P p → ∀ q ∈ importsAt disk p, P q.normalize) (hs : Reachable s)
    (hdisk : s.disk = disk) (hpaths : ∀ path ∈ paths, isRooted path → P (ofString path).normalize) (h : s.Within P) :
    (compileAll paths s).2.Within P := by
  induction paths generalizing s with
  | nil => exact h
  | cons path rest ih =>
    obtain ⟨hpath, hrest⟩ := forall_mem_cons.1 hpaths
    by_cases hrooted : isRooted path
    · rw [compileAll_rooted hrooted]
      refine ih (reachable_compileFirst hs path) ((disk_compileFirst hs path).trans hdisk) hrest fun i p hp => ?_
      rw [compileFirst, pathAt_compile (hs.load _).orderly] at hp
      exact within_loadFrom hclosed _ _ s hs.orderly.complete hdisk (hpath hrooted) h i p hp
    · rw [compileAll_relative hrooted]
      exact ih hs hdisk hrest h

/-- The files that a session compiles are those that are compiled for its scripts. -/
theorem compiled_session (disk : Disk) (debug : Bool) (paths : List String) :
    ∃ n, ∀ m ≥ n, ∀ k, (session disk debug paths).stage? k = some .compiled ↔
      ∃ path ∈ paths, isRooted path ∧ ∃ i, (session disk debug paths).pathAt? i = some (ofString path).normalize ∧
        k ∈ ((session disk debug paths).judge m i).files := by
  have hnew : Reachable (.new disk debug) := .new disk debug
  obtain ⟨n, hn⟩ : ∃ n, ∀ m ≥ n, ∀ k, (session disk debug paths).stage? k = some .compiled ↔
      (Session.new disk debug).stage? k = some .compiled ∨
        ∃ i ∈ (compileAll paths (.new disk debug)).1.2, k ∈ ((session disk debug paths).judge m i).files := compiled_iff hnew
  refine ⟨n, fun m hm k => (hn m hm k).trans ⟨fun h => ?_, ?_⟩⟩
  · obtain ⟨i, hi, hk⟩ := h.resolve_left nofun
    have hroot : (session disk debug paths).pathAt? i ∈
        (paths.filter isRooted).map fun path => some (ofString path).normalize := by
      rw [← pathAt_roots hnew]
      exact mem_map_of_mem hi
    obtain ⟨path, hpath, hp⟩ := mem_map.1 hroot
    obtain ⟨hpath, hrooted⟩ := mem_filter.1 hpath
    exact ⟨path, hpath, hrooted, i, hp.symm, hk⟩
  · rintro ⟨path, hpath, hrooted, i, hi, hk⟩
    obtain ⟨j, hj, hp, -⟩ := roots_compileAll hnew hpath hrooted
    exact .inr ⟨j, hj, pathAt_injective (distinct_session disk debug paths) hi hp ▸ hk⟩

/-- The paths that a session loads do not depend on the order of its roots. -/
theorem within_session (disk : Disk) (debug : Bool) (h : ∀ path ∈ paths, path ∈ paths') :
    (session disk debug paths).Within fun p => ∃ j, (session disk debug paths').pathAt? j = some p := by
  have hnew : Reachable (.new disk debug) := .new disk debug
  have hs := reachable_session disk debug paths'
  have hdisk : (session disk debug paths').disk = disk := disk_compileAll hnew
  refine within_compileAll (fun p ⟨j, hj⟩ q hq => ?_) hnew rfl (fun path hpath hrooted => ?_) fun i p hp => by cases hp
  · have hwired := hs.wired j (pathAt_lt hs.orderly.complete hj)
    have hmem : some q.normalize ∈ ((session disk debug paths').importsOf j).map (session disk debug paths').pathAt? := by
      rw [hwired, hs.importPaths_eq hj, hdisk]
      exact mem_map_of_mem hq
    obtain ⟨k, -, hk⟩ := mem_map.1 hmem
    exact ⟨k, hk⟩
  · obtain ⟨i, -, hi, -⟩ := roots_compileAll hnew (h path hpath) hrooted
    exact ⟨i, hi⟩

/-- With the roots in another order, the files of a session get other numbers and nothing else changes. -/
theorem exists_reorders (disk : Disk) (debug : Bool) (h : paths.Perm paths') :
    ∃ f, Reorders f (session disk debug paths) (session disk debug paths') := by
  have hs := reachable_session disk debug paths
  have ht := reachable_session disk debug paths'
  have hdistinct := distinct_session disk debug paths'
  have hdisk : (session disk debug paths').disk = (session disk debug paths).disk :=
    (disk_compileAll (.new disk debug)).trans (disk_compileAll (.new disk debug)).symm
  have hdebug : (session disk debug paths').debug = (session disk debug paths).debug :=
    (debug_session disk debug paths').trans (debug_session disk debug paths).symm
  obtain ⟨f, hf, hpath⟩ := exists_numbers (distinct_session disk debug paths) (within_session disk debug fun _ => h.mem_iff.1)
  have hcarries := carries_of_paths hs ht hdistinct hdisk hdebug hf hpath
  have honto : ∀ {k p}, (session disk debug paths').pathAt? k = some p →
      ∃ j, f j = k ∧ (session disk debug paths).pathAt? j = some p := by
    intro k p hp
    obtain ⟨j, hj⟩ := within_session disk debug (fun _ => h.mem_iff.2) k p hp
    exact ⟨j, pathAt_injective hdistinct ((hpath j).trans hj) hp, hj⟩
  obtain ⟨n, hn⟩ := compiled_session disk debug paths
  obtain ⟨n', hn'⟩ := compiled_session disk debug paths'
  refine ⟨f, hcarries, hdisk, fun k hk => ?_, fun k => ?_⟩
  · cases hp : (session disk debug paths').pathAt? k with
    | none => exact absurd (pathAt_none ht.orderly.complete hp).2 (by simp [hk])
    | some p =>
      obtain ⟨j, hj, -⟩ := honto hp
      exact ⟨j, hj⟩
  · rw [hn (max n n') (Nat.le_max_left _ _), hn' (max n n') (Nat.le_max_right _ _)]
    constructor
    · rintro ⟨path, hmem, hrooted, i, hi, hk⟩
      obtain ⟨j, rfl, hj⟩ := honto hi
      rw [hcarries.judge] at hk
      exact ⟨path, h.mem_iff.2 hmem, hrooted, j, hj, (mem_map_of_injective hf).1 hk⟩
    · rintro ⟨path, hmem, hrooted, i, hi, hk⟩
      refine ⟨path, h.mem_iff.1 hmem, hrooted, f i, (hpath i).trans hi, ?_⟩
      rw [hcarries.judge]
      exact mem_map_of_mem hk

end CompileAll

end Build

end HostScript

import HostScript.Proofs.Distances
import HostScript.Proofs.Loading
import HostScript.Proofs.RootFiles
import HostScript.Proofs.Symbols

/-! What a build without problems gives.

When no problem is found, every file that was compiled has code (`Reachable.fruitful`): a file that
has none was refused, or could not be read, or imports such a file. Every host member that the code
names has a number, as it was taken from a file of the session (`Coded.resolved`). So a script gets
final code unless its variables and those of all that it imports need more storage than can be
addressed. This is looked at only when a variable is declared, not when imports are put behind each
other, and such a script gets no code although nothing is reported. -/
namespace HostScript

open List

variable {l : Linked} {js : List Nat} {paths : List String} {i : Nat} {s : Session}

/-! ### Numbers of host members -/

/-- A member that can be looked up was declared. -/
theorem Api.of_mem_members {api : Api} (h : m ∈ api.members owner) (ho : Offer.of? m = some o) : o ∈ api.offers := by
  refine mem_filterMap.2 ⟨m, ?_, ho⟩
  cases owner with
  | none => exact mem_append_left _ h
  | some owner =>
    obtain ⟨t, ht, hm⟩ := mem_flatMap.1 h
    exact mem_append_right _ (mem_flatMap.2 ⟨t, mem_types_of_mem_lineageFrom ht, hm⟩)

instance Api.grants_offers (api : Api) : api.Grants fun d => ∃ o ∈ api.offers, o.descriptor = d where
  property := by
    intro owner name p hp
    obtain ⟨m, hm, hpart⟩ := mem_filterMap.1 (mem_filter.1 hp).1
    obtain ⟨decl, hdecl, rfl⟩ := Option.map_eq_some_iff.1 hpart
    refine ⟨.property ⟨m.owner, decl⟩, of_mem_members hm ?_, rfl⟩
    obtain ⟨own, d⟩ := m
    cases d <;> cases hdecl
    rfl
  callee := by
    intro owner name types f hf
    obtain ⟨m, hm, hpart⟩ := mem_filterMap.1 (mem_filter.1 hf).1
    obtain ⟨decl, hdecl, rfl⟩ := Option.map_eq_some_iff.1 hpart
    refine ⟨.function ⟨m.owner, decl⟩, of_mem_members hm ?_, rfl⟩
    obtain ⟨own, d⟩ := m
    cases d <;> cases hdecl
    rfl

namespace Fragment

variable {names : String → Prop} {f : Fragment}

theorem Naming.relocate (hf : f.Naming names) (base : Storage) : (f.relocate base).Naming names :=
  ⟨hf.pieced.relocate base, hf.named⟩

theorem Naming.zeroLines (hf : f.Naming names) : f.zeroLines.Naming names :=
  ⟨hf.pieced.zeroLines, fun m hm => hf.named m (Array.mem_filter.1 hm).1⟩

theorem Naming.mono (hf : f.Naming names) (h : ∀ d, names d → others d) : f.Naming others :=
  ⟨hf.pieced, fun m hm d hd => h d (hf.named m hm d hd)⟩

/-- Nothing is missing where every name has a number. -/
theorem Naming.unresolved (hf : f.Naming fun d => ∃ n, symbols.find? d = some n) : f.unresolved symbols = [] := by
  refine filterMap_eq_nil_iff.2 fun m hm => ?_
  cases hkind : m.kind with
  | symbol d =>
    obtain ⟨n, hn⟩ := hf.named m (Array.mem_toList_iff.1 hm) d hkind
    simp [MarkKind.descriptor?, hn]
  | _ => rfl

end Fragment

namespace Session

section Resolved

variable {names : String → Prop}

theorem naming_linkedFrom (hjs : ∀ j ∈ js, ∀ r, s.result? j = some r → r.1.Naming names) (hl : l.code.Naming names)
    (h : s.linkedFrom? l js = some l') : l'.code.Naming names := by
  induction js generalizing l with
  | nil =>
    cases h
    exact hl
  | cons j rest ih =>
    rw [linkedFrom_cons] at h
    obtain ⟨r, hr, hrest⟩ := Option.bind_eq_some_iff.1 h
    obtain ⟨hj, hjs⟩ := forall_mem_cons.1 hjs
    obtain ⟨base, hadd⟩ : ∃ base, (l.add r.1 r.2).code = l.code ++ r.1.relocate base := ⟨_, rfl⟩
    exact ih hjs (hadd ▸ hl.append ((hj r hr).relocate base)) hrest

/-- Code names host members of the files of the session. -/
theorem Made.naming (h : s.Made i) :
    ∀ r, s.result? i = some r → r.1.Naming fun d => ∃ n, s.symbols.find? d = some n := by
  induction h with
  | @intro i own hown _ _ ih =>
    intro r hr
    obtain @⟨script, sources, l, progress, -, hlinked, -, hcompile, hresult⟩ := hown
    cases hresult.symm.trans hr
    have hown : own.Naming fun d => ∃ o ∈ (s.api i).offers, o.descriptor = d := by
      have hnaming := @Script.naming_compile ⟨sources, s.api i, s.debug⟩ _ (s.api i).grants_offers script l.vars
      rwa [hcompile] at hnaming
    refine (naming_linkedFrom ih Fragment.naming_empty hlinked).zeroLines.append (hown.mono ?_)
    rintro d ⟨o, ho, rfl⟩
    obtain ⟨n, hn, -⟩ := find_symbol ho
    exact ⟨n, hn⟩

theorem Coded.resolved (hs : s.Coded) (hr : s.result? i = some r) : r.1.unresolved s.symbols = [] :=
  ((hs i r hr).naming r hr).unresolved

end Resolved

/-! ### Files with code -/

/-- Where there is no problem, every file could be read, and every file that is done has code. -/
structure Fruitful (s : Session) : Prop where
  read : s.Each fun _ u => u.script = none → u.diagnostics ≠ []
  done : s.Each fun _ u => u.stage = .compiled → u.result = none → s.diagnostics ≠ []

section Fruitful

variable {t : Session} {job : Job}

theorem ne_nil_of_unit (hu : s.units[i]? = some u) (h : u.diagnostics ≠ []) : s.diagnostics ≠ [] :=
  fun hnil => h ((diagnostics_eq_nil s).1 hnil i u hu)

theorem ne_nil_modify (hf : ∀ v, (f v).diagnostics = [] → v.diagnostics = []) (h : s.diagnostics ≠ []) :
    (s.modifyUnit i f).diagnostics ≠ [] := by
  refine fun hnil => h ((diagnostics_eq_nil s).2 fun k u hu => ?_)
  have hk := (diagnostics_eq_nil _).1 hnil k (if i = k then f u else u) (by
    rw [getElem?_modifyUnit, hu]
    split <;> rfl)
  split at hk
  · exact hf u hk
  · exact hk

/-- A file with a problem does not make others fruitless. -/
theorem Fruitful.troubled (h : s.diagnostics ≠ []) (hread : s.Each fun _ u => u.script = none → u.diagnostics ≠ []) :
    Fruitful s := ⟨hread, fun _ _ _ _ _ => h⟩

theorem Compiles.read (h : Compiles s t) (hs : s.Each fun _ u => u.script = none → u.diagnostics ≠ []) :
    t.Each fun _ u => u.script = none → u.diagnostics ≠ [] := by
  intro k u hu hscript hnil
  have hk : k < s.units.size := h.size ▸ (Array.getElem?_eq_some_iff.1 hu).1
  obtain ⟨u', hu', hscript', -, hquiet, -⟩ := h.unit (Array.getElem?_eq_getElem hk)
  cases hu.symm.trans hu'
  exact hs k _ (Array.getElem?_eq_getElem hk) (hscript'.symm.trans hscript) (hquiet hnil)

theorem Runs.barren (h : Runs job s t) (hjob : job = .imports l js none) :
    ∃ (j : Nat) (v : FileUnit), t.units[j]? = some v ∧ v.stage = .compiled ∧ v.result = none := by
  induction h generalizing l js with
  | stop _ hv hstage hresult => exact ⟨_, _, hv, hstage, hresult⟩
  | next _ _ _ _ _ _ ih =>
    cases hjob
    exact ih rfl
  | _ => cases hjob

theorem Fruitful.begin (h : Fruitful s) (i : Nat) : Fruitful (s.begin i) := by
  have hunit : ∀ {k : Nat} {u : FileUnit}, (s.begin i).units[k]? = some u →
      ∃ v, s.units[k]? = some v ∧ u.script = v.script ∧ u.diagnostics = v.diagnostics ∧
        (u.stage = .compiled → v.stage = .compiled ∧ u.result = v.result) := by
    intro k u hu
    rw [Session.begin, getElem?_modifyUnit] at hu
    split at hu
    · obtain ⟨v, hv, rfl⟩ := Option.map_eq_some_iff.1 hu
      exact ⟨v, hv, rfl, rfl, fun h => by cases h⟩
    · exact ⟨u, hu, rfl, rfl, fun h => ⟨h, rfl⟩⟩
  refine ⟨fun k u hu hscript => ?_, fun k u hu hstage hresult => ?_⟩
  · obtain ⟨v, hv, hs, hd, -⟩ := hunit hu
    rw [hd]
    exact h.read k v hv (hs.symm.trans hscript)
  · obtain ⟨v, hv, -, -, hdone⟩ := hunit hu
    obtain ⟨hstage', hresult'⟩ := hdone hstage
    exact ne_nil_modify (fun _ => id) (h.done k v hv hstage' (hresult'.symm.trans hresult))

theorem Runs.fruitful (h : Runs job s t) (hs : Fruitful s) : Fruitful t := by
  have hfinish : ∀ {t : Session} (i : Nat), t.diagnostics ≠ [] → (t.finish i).diagnostics ≠ [] := fun i =>
    ne_nil_modify fun _ => id
  induction h with
  | settled | done => exact hs
  | @unread i s u hu hstage hscript =>
    refine .troubled (hfinish i (ne_nil_modify (fun _ => id) (ne_nil_of_unit hu (hs.read i u hu hscript)))) ?_
    exact (Runs.unread hu hstage hscript).compiles.read hs.read
  | @refused script d i s u hu hstage hscript hobstacle =>
    refine .troubled (hfinish i (ne_nil_of_unit (i := i) (u := { u with stage := .compiling, diagnostics := u.diagnostics ++ [d] }) ?_ ?_)) ?_
    · rw [refuse, begin, modifyUnit_modifyUnit, getElem?_modifyUnit, if_pos rfl, hu]
      rfl
    · simp
    · exact (Runs.refused hu hstage hscript hobstacle).compiles.read hs.read
  | @failed script i s t u hu hstage hscript hobstacle himports ih =>
    obtain ⟨j, v, hv, hdone, hnone⟩ := himports.barren rfl
    refine .troubled (hfinish i ((ih (hs.begin i)).done j v hv hdone hnone)) ?_
    exact (Runs.failed hu hstage hscript hobstacle himports).compiles.read hs.read
  | @made script l i s t u hu hstage hscript hobstacle himports ih =>
    refine ⟨(Runs.made hu hstage hscript hobstacle himports).compiles.read hs.read, fun k v hv hdone hnone => ?_⟩
    obtain ⟨f, hmodify, hquiet, hresult⟩ : ∃ f : FileUnit → FileUnit,
        (t.compileScript i script l).finish i = t.modifyUnit i f ∧ (∀ v, (f v).diagnostics = [] → v.diagnostics = []) ∧
          ∀ v, (f v).result ≠ none := by
      refine ⟨_, modifyUnit_modifyUnit t i _ _, fun v hv => ?_, fun v => Option.some_ne_none _⟩
      exact (append_eq_nil_iff.1 (append_eq_nil_iff.1 hv).1).1
    rw [hmodify] at hv ⊢
    rw [getElem?_modifyUnit] at hv
    split at hv
    · obtain ⟨w, -, rfl⟩ := Option.map_eq_some_iff.1 hv
      exact absurd hnone (hresult w)
    · exact ne_nil_modify hquiet ((ih (hs.begin i)).done k v hv hdone hnone)
  | stop _ _ _ _ ih => exact ih hs
  | next _ _ _ _ _ ih ih' => exact ih' (ih hs)

theorem Reachable.fruitful (hs : Reachable s) : Fruitful s := by
  induction hs with
  | new disk debug =>
    have hnone : ∀ P, Each (.new disk debug) P := fun P i u hu => by cases hu
    exact ⟨hnone _, hnone _⟩
  | @load s path hs ih =>
    have hc := hs.orderly.complete
    obtain ⟨hloads, -⟩ := loads_loadFrom s.disk.files.length path s hc
    have hmore : s.diagnostics ≠ [] → (s.load path).2.diagnostics ≠ [] := fun h hnil =>
      h ((diagnostics_eq_nil s).2 fun k u hu => (diagnostics_eq_nil _).1 hnil k u
        ((hloads.kept k (Array.getElem?_eq_some_iff.1 hu).1).trans hu))
    refine ⟨each_loadFrom (fun disk path n => ?_) (fun _ _ _ h => h) _ path s hc ih.read, fun k u hu hdone hnone => ?_⟩
    · unfold readFile
      split
      · exact fun _ => cons_ne_nil _ _
      · split
        · exact nofun
        · exact fun _ => cons_ne_nil _ _
    · have hold : (s.load path).2.Each fun n u => u.stage = .compiled → n < s.units.size := by
        refine each_loadFrom (fun disk path n => ?_) (fun _ _ _ h => h) _ path s hc
          fun n u hu _ => (Array.getElem?_eq_some_iff.1 hu).1
        unfold readFile
        split
        · exact nofun
        · split <;> exact nofun
      exact hmore (ih.done k u ((hloads.kept k (hold k u hu hdone)).symm.trans hu) hdone hnone)
  | @compile s i hs ih =>
    by_cases hi : i < s.units.size
    · exact (hs.runs hi).fruitful ih
    · rwa [compile_of_le (Nat.le_of_not_lt hi)]

end Fruitful

end Session

/-! ### Final code -/

section Final

variable {code : Fragment} {vars : Variables} {symbols : Fragment.Symbols}

theorem Session.addressable_of_bytecode (hr : s.result? i = some (code, vars)) (h : s.bytecode? i symbols = some final) :
    Session.Addressable vars.needed := by
  obtain ⟨code', vars', hr', haddr, -⟩ := Session.bytecode_eq h
  cases hr.symm.trans hr'
  exact haddr

theorem Session.bytecode_of_addressable (hr : s.result? i = some (code, vars)) (hsymbols : code.unresolved symbols = [])
    (haddr : Session.Addressable vars.needed) : ∃ final, s.bytecode? i symbols = some final := by
  obtain ⟨u, hu, hresult⟩ := Option.bind_eq_some_iff.1 hr
  simp [Session.bytecode?, hu, hresult, guard, hsymbols, haddr.1, haddr.2]

end Final

namespace Build

open Session Path

/-! ### Builds -/

/-- A file that is done stays where it is. -/
theorem compiled_compileAll (paths : List String) (ho : Orderly s) (hp : s.pathAt? i = some p)
    (hstage : s.stage? i = some .compiled) :
    (compileAll paths s).2.pathAt? i = some p ∧ (compileAll paths s).2.stage? i = some .compiled := by
  refine compileAll_induction (motive := fun t => t.pathAt? i = some p ∧ t.stage? i = some .compiled) paths ho ⟨hp, hstage⟩
    (fun {s} ho h path => ?_) fun {s} ho h k => ?_
  · obtain ⟨u, hu, hdone⟩ := Option.map_eq_some_iff.1 h.2
    refine ⟨pathAt_kept (prefix_loadFrom _ path ho.complete) h.1, ?_⟩
    have hkept := (loads_loadFrom s.disk.files.length path s ho.complete).1.kept i (Array.getElem?_eq_some_iff.1 hu).1
    exact Option.map_eq_some_iff.2 ⟨u, hkept.trans hu, hdone⟩
  · obtain ⟨u, hu, hdone⟩ := Option.map_eq_some_iff.1 h.2
    obtain ⟨u', hu', -, -, -, hkept⟩ := (compiles_compile ho.fresh k).unit hu
    refine ⟨(pathAt_compile ho k i).trans h.1, Option.map_eq_some_iff.2 ⟨u', hu', ?_⟩⟩
    rw [hkept (by rw [hdone]; exact Stage.noConfusion), hdone]

/-- Every script with a rooted path is loaded under its normal path and compiled. -/
theorem roots_compileAll (hs : Reachable s) (hpath : path ∈ paths) (hrooted : isRooted path) :
    ∃ i ∈ (compileAll paths s).1.2, (compileAll paths s).2.pathAt? i = some (ofString path).normalize ∧
      (compileAll paths s).2.stage? i = some .compiled := by
  induction paths generalizing s with
  | nil => cases hpath
  | cons first rest ih =>
    unfold compileAll
    obtain rfl | hpath := mem_cons.1 hpath
    · rw [if_pos hrooted]
      have hloaded := hs.load (ofString path)
      have hi := (hs.orderly.load (ofString path)).2
      have hcompiled := hloaded.compile (s.load (ofString path)).1
      have hpathAt : ((s.load (ofString path)).2.compile (s.load (ofString path)).1).pathAt?
          (s.load (ofString path)).1 = some (ofString path).normalize := by
        rw [pathAt_compile hloaded.orderly]
        exact pathAt_loadFrom _ _ hs.orderly.complete
      have hstage : (s.load (ofString path)).2.stage? (s.load (ofString path)).1 ≠ some .compiling := fun h => by
        obtain ⟨u, hu, hstage⟩ := Option.map_eq_some_iff.1 h
        exact hloaded.calm _ u hu hstage
      exact ⟨_, mem_cons_self .., compiled_compileAll rest hcompiled.orderly hpathAt ((hloaded.runs hi).compiled hstage)⟩
    · split
      · obtain ⟨i, hi, hrest⟩ := ih ((hs.load (ofString first)).compile _) hpath
        exact ⟨i, mem_cons_of_mem _ hi, hrest⟩
      · exact ih hs hpath

theorem rooted_of_refused (h : (compileAll paths s).1.1 = []) : ∀ path ∈ paths, isRooted path := by
  induction paths generalizing s with
  | nil => exact nofun
  | cons first rest ih =>
    unfold compileAll at h
    split at h
    · rename_i hrooted
      exact forall_mem_cons.2 ⟨hrooted, ih h⟩
    · cases h

variable {disk : Disk} {debug : Bool} {paths : List String}

/-- Without a problem, the files of a build are all the scripts that have final code. -/
theorem files_of_success (h : (run disk debug paths).diagnostics = []) :
    (compileAll paths (.new disk debug)).1.1 = [] ∧ (session disk debug paths).diagnostics = [] ∧
      ∀ file, file ∈ (run disk debug paths).files ↔ ∃ i ∈ (compileAll paths (.new disk debug)).1.2,
          fileAt? (session disk debug paths) (session disk debug paths).symbols i = some file := by
  unfold run session at *
  generalize compileAll paths (.new disk debug) = r at h
  obtain ⟨⟨refused, roots⟩, s⟩ := r
  dsimp only at h ⊢
  split at h
  · rename_i hempty
    obtain ⟨hrefused, hquiet⟩ := append_eq_nil_iff.1 (isEmpty_iff.1 hempty)
    split at h
    · rename_i hsmall
      refine ⟨hrefused, hquiet, fun file => ?_⟩
      rw [if_pos hempty, if_pos hsmall, mem_eraseReps, mem_mergeSort, mem_filterMap]
    · rename_i hlarge
      exact absurd (isEmpty_iff.2 h) hlarge
  · rename_i hproblem
    exact absurd (isEmpty_iff.2 h) hproblem

/-- In a build without problems every script has code, and it gets final code, under its normal path and
small enough for every jump, exactly if its storage and that of all it imports can be addressed. -/
theorem success_gives_code (hsuccess : (run disk debug paths).diagnostics = []) {path : String} (hpath : path ∈ paths) :
    ∃ i code vars, (session disk debug paths).pathAt? i = some (ofString path).normalize ∧
      (session disk debug paths).result? i = some (code, vars) ∧
      (∀ final, ((ofString path).normalize, final) ∈ (run disk debug paths).files ↔
        (session disk debug paths).bytecode? i (run disk debug paths).symbols = some final) ∧
      (∀ final, ((ofString path).normalize, final) ∈ (run disk debug paths).files → final.size ≤ maxCodeSize) ∧
      ((∃ final, ((ofString path).normalize, final) ∈ (run disk debug paths).files) ↔ Addressable vars.needed) := by
  obtain ⟨hrefused, hquiet, hfiles⟩ := files_of_success hsuccess
  have hs := reachable_compileAll paths (.new disk debug)
  obtain ⟨i, hi, hp, hstage⟩ := roots_compileAll (.new disk debug) hpath (rooted_of_refused hrefused path hpath)
  obtain ⟨u, hu, hdone⟩ := Option.map_eq_some_iff.1 hstage
  obtain ⟨⟨code, vars⟩, hresult⟩ := Option.ne_none_iff_exists'.1 fun hnone => hs.fruitful.done i u hu hdone hnone hquiet
  have hr : (session disk debug paths).result? i = some (code, vars) := Option.bind_eq_some_iff.2 ⟨u, hu, hresult⟩
  rw [symbols_run]
  have hmem : ∀ final, ((ofString path).normalize, final) ∈ (run disk debug paths).files ↔
      (session disk debug paths).bytecode? i (session disk debug paths).symbols = some final := by
    intro final
    obtain ⟨source, hsource, hsp⟩ := Option.map_eq_some_iff.1 hp
    rw [hfiles]
    constructor
    · rintro ⟨j, -, hj⟩
      obtain ⟨source', hsource', hcode⟩ := Option.bind_eq_some_iff.1 hj
      obtain ⟨final', hfinal', heq⟩ := Option.bind_eq_some_iff.1 hcode
      obtain ⟨hpath', rfl⟩ := Prod.mk.inj (Option.some.inj heq)
      obtain rfl := (distinct_session disk debug paths).index hsource hsource' (hsp.trans hpath'.symm)
      exact hfinal'
    · intro hfinal
      refine ⟨i, hi, Option.bind_eq_some_iff.2 ⟨source, hsource, Option.bind_eq_some_iff.2 ⟨final, hfinal, ?_⟩⟩⟩
      rw [← hsp]
      rfl
  refine ⟨i, code, vars, hp, hr, hmem, fun final h => (mem_files h).2.1, ?_⟩
  simp only [hmem]
  exact ⟨fun ⟨final, hfinal⟩ => addressable_of_bytecode hr hfinal, bytecode_of_addressable hr (hs.coded.resolved hr)⟩

/-- The storage of four files that import each other can be addressed, so there is code. -/
theorem success_gives_code_fourFiles :
    (run fourFiles false ["/a"]).diagnostics = [] ∧ ∃ i code vars final,
      (session fourFiles false ["/a"]).pathAt? i = some (fileNamed "a") ∧
      (session fourFiles false ["/a"]).result? i = some (code, vars) ∧ Addressable vars.needed ∧
      (session fourFiles false ["/a"]).bytecode? i (run fourFiles false ["/a"]).symbols = some final ∧
      final.size ≤ maxCodeSize := by
  have hsuccess : (run fourFiles false ["/a"]).diagnostics = [] := by decide +kernel
  obtain ⟨i, code, vars, hpath, hresult, hcode, hsize, haddressable⟩ :=
    success_gives_code hsuccess (List.mem_singleton_self "/a")
  have hfiles : (run fourFiles false ["/a"]).files.map (·.1) = [fileNamed "a"] := by decide +kernel
  have hmem : fileNamed "a" ∈ (run fourFiles false ["/a"]).files.map (·.1) := hfiles ▸ List.mem_singleton_self _
  obtain ⟨⟨path, final⟩, hfinal, rfl⟩ := List.mem_map.1 hmem
  exact ⟨hsuccess, i, code, vars, final, hpath, hresult, haddressable.1 ⟨final, hfinal⟩, (hcode final).1 hfinal,
    hsize final hfinal⟩

end Build

namespace Session

/-- A file that was compiled, whose variables take up half of the storage that can be addressed. -/
def roomy : FileUnit := ⟨some [], [], .compiled, [], some (∅, ⟨⟨#[], .none⟩, [], ⟨32768, 0⟩, ⟨32768, 0⟩⟩)⟩

/-- A file that imports two such files. -/
def crammed : Session := ⟨⟨[], []⟩, false, #[], #[⟨some [], [1, 2], .loaded, [], none⟩, roomy, roomy]⟩

/-- The storage that files need together is not looked at when they are put behind each other. -/
theorem totals_unchecked : ((crammed.compile 0).bytecode? 1 []).isSome = true ∧ (crammed.compile 0).diagnostics = [] ∧
    ((crammed.compile 0).result? 0).isSome = true ∧ (crammed.compile 0).bytecode? 0 [] = none := by decide +kernel

end Session

end HostScript

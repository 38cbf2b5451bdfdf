import HostScript.Proofs.SameFindings

/-! Files become dual code.

Two sessions that differ in whether code is made for a debugger make two kinds of code
for each file, and both are one dual code (`Pair.hasDualCode`): what a file imports is one, moved
up and with its lines cleared, and the file's own statements follow. The induction is on
how the result was built. -/
namespace HostScript

open DualCode Compiling List Option

variable {vars : Variables}

/-! ### Code moved and cleared -/

namespace DualCode

theorem place_line (base : Storage) (i : Instr) :
    Line.place base (fun _ => True) ⟨i, fun _ => True⟩ = ⟨i.relocate base, fun _ => True⟩ := by
  unfold Line.place
  congr 1
  funext b
  exact propext ⟨fun _ => trivial, fun _ => .inr trivial⟩

theorem lines_relocate (debug : Bool) (base : Storage) (ws : DualCode) :
    lines debug (ws.map (Dual.relocate base)) = (lines debug ws).map (Line.place base fun _ => True) := by
  unfold lines
  rw [List.filterMap_map, List.map_map]
  simp only [Function.comp_def, Dual.instr_relocate, place_line]
  rw [← List.map_filterMap, List.map_map]
  rfl

/-- Plain code has no lines to clear. -/
theorem lines_clear_false (ws : DualCode) : lines false (ws.map Dual.clear) = lines false ws := by
  unfold lines
  rw [filterMap_map]
  congr 1
  refine filterMap_congr fun x _ => ?_
  cases x <;> rfl

end DualCode

/-- Dual lines of which nothing is known have the same lines. -/
theorem DualCode.lines_dualLines (debug : Bool) (ws : DualCode) :
    DualLine.lines debug (ws.map (⟨·, fun _ => True⟩)) = lines debug ws := by
  unfold DualLine.lines lines
  rw [filterMap_map, map_filterMap]
  rfl

theorem Aligned.lines_clear {ws : DualCode} (h : Aligned g ws) (debug : Bool) :
    lines debug (ws.map Dual.clear) = (lines debug ws).map Line.clear := by
  have hclear : ∀ x ∈ ws, x.clear.instr? debug = (x.instr? debug).map Instr.clearLine := by
    intro x hx
    obtain ⟨pre, post, hws⟩ := List.append_of_mem hx
    have hlands := h.lands
    rw [hws] at hlands
    exact Dual.instr_clear hlands.at debug
  unfold lines
  rw [List.filterMap_map, List.map_map, show ws.filterMap ((·.instr? debug) ∘ Dual.clear) =
    ws.filterMap fun x => (x.instr? debug).map Instr.clearLine from List.filterMap_congr hclear, ← List.map_filterMap,
    List.map_map]
  rfl

/-- Code of both kinds that is one dual code. Leaps of some kinds are filled in. -/
def HasDualCode (g : Regime) (filled : Leap → Prop) (f : Bool → Fragment) : Prop :=
  ∃ ws, (∀ debug, f debug = Line.code (lines debug ws)) ∧ Aligned g ws ∧ ∀ l, filled l → Dual.same (.leap l) ∉ ws

section HasDualCode

variable {g g' : Regime} {filled : Leap → Prop} {f f' : Bool → Fragment}

theorem hasDualCode_empty : HasDualCode g filled fun _ => ∅ := ⟨[], fun _ => rfl, .nil g, by simp⟩

theorem HasDualCode.append (h : HasDualCode g filled f) (h' : HasDualCode g filled f') :
    HasDualCode g filled fun debug => f debug ++ f' debug := by
  obtain ⟨as, hf, ha, hfa⟩ := h
  obtain ⟨bs, hf', hb, hfb⟩ := h'
  refine ⟨as ++ bs, fun debug => ?_, ha.append hb, fun l hl => ?_⟩
  · dsimp only
    rw [hf, hf', lines_append, Line.code_append]
  · simpa using ⟨hfa l hl, hfb l hl⟩

theorem HasDualCode.congr (h : HasDualCode g filled f) (heq : ∀ debug, f' debug = f debug) : HasDualCode g filled f' := by
  rwa [show f' = f from funext heq]

/-- What is known may be forgotten. -/
theorem HasDual.hasDualCode (h : HasDual g inn filled f out) : HasDualCode g filled f := by
  obtain ⟨ts, hf, hts, hfree⟩ := h
  refine ⟨DualLine.duals ts, fun debug => (hf debug).trans ?_, hts.aligned, hfree⟩
  clear hf hts hfree
  induction ts with
  | nil => rfl
  | cons t rest ih =>
    rw [DualLine.lines_cons, DualLine.duals_cons, lines_cons, Line.code_append, Line.code_append, ih]
    cases t.dual.instr? debug <;> rfl

theorem HasDualCode.relocate (h : HasDualCode g filled f) (hbits : g.floatBits → g'.floatBits)
    (hroom : ∀ k a, g.room.Holds k a → g'.room.Holds k (base.move k a)) :
    HasDualCode g' filled fun debug => (f debug).relocate base := by
  obtain ⟨ws, hf, hws, hfree⟩ := h
  refine ⟨ws.map (Dual.relocate base), fun debug => ?_, hws.relocate hbits hroom, fun l hl hmem => ?_⟩
  · dsimp only
    rw [hf, Line.code_place base fun _ => True, lines_relocate]
  · obtain ⟨x, hx, heq⟩ := mem_map.1 hmem
    cases x with
    | same i =>
      cases i <;> cases heq
      exact hfree l hl hx
    | _ => cases heq

theorem HasDualCode.zeroLines (h : HasDualCode g filled f) : HasDualCode g filled fun debug => (f debug).zeroLines := by
  obtain ⟨ws, hf, hws, hfree⟩ := h
  refine ⟨ws.map Dual.clear, fun debug => ?_, hws.clear, fun l hl hmem => ?_⟩
  · dsimp only
    rw [hf, Line.code_clear, hws.lines_clear]
  · obtain ⟨x, hx, heq⟩ := mem_map.1 hmem
    cases x <;> cases heq
    exact hfree l hl hx

theorem HasDualCode.zeroLines_plain (h : HasDualCode g filled f) : (f false).zeroLines = f false := by
  obtain ⟨ws, hf, hws, -⟩ := h
  rw [hf, Line.code_clear, ← hws.lines_clear, lines_clear_false]

end HasDualCode

/-! ### Images -/

/-- The final code of one kind. -/
theorem Aligned.image (h : Aligned ⟨room, bits, False⟩ ws) (hfree : ∀ l, Dual.same (.leap l) ∉ ws)
    (haddr : Session.Addressable room) (hfinal : final.toList = Bytes.ofNat 2 room.bytes ++ Bytes.ofNat 2 room.slots ++
      ((Line.code (lines debug ws)).resolveSymbols symbols).bytes.toList) (hsmall : final.size ≤ maxCodeSize) :
    Image ⟨room, bits, False⟩ symbols.number (lines debug ws) final := by
  have hleads := h.dualLeads id fun _ => False
  rw [← lines_dualLines] at hfinal ⊢
  refine ⟨?_, haddr, hsmall, hleads.leads debug, fun l => hleads.free (by simpa [DualLine.duals] using hfree l) debug⟩
  rw [hfinal, Line.bytes_resolveSymbols]

/-! ### Two sessions -/

namespace Session

variable {s : Bool → Session} {bits : Prop} {i : Nat}

/-- A session without a debugger and one for a debugger, with the same files. -/
structure Pair (bits : Prop) (s : Bool → Session) : Prop where
  debug : ∀ debug, (s debug).debug = debug
  mirrors : ∀ debug, Mirrors (s false) (s debug)
  orderly : Orderly (s false)
  proper : Proper bits False (s false)

/-- What the code of a file was made from. -/
theorem Built.parts {s : Session} (h : Built s i) (hresult : s.result? i = some (code, vars)) :
    ∃ u script sources l, s.units[i]? = some u ∧ u.script = some script ∧ s.linked? u.imports = some l ∧
      (∀ j ∈ u.imports, Built s j) ∧
      script.compile ⟨sources, s.api i, s.debug⟩ l.code.zeroLines l.vars = (code, ⟨vars, #[]⟩) := by
  obtain ⟨hunit, hscript, -, hlinked, himports, hcompile, hresult'⟩ := h
  rw [result?, hunit] at hresult
  obtain ⟨rfl, rfl⟩ := Prod.mk.inj (Option.some.inj (hresult'.symm.trans hresult))
  exact ⟨_, _, _, _, hunit, hscript, hlinked, himports, hcompile⟩

namespace Pair

/-- What both kinds of code of a file were made from. -/
structure Parts (s : Bool → Session) (i : Nat) (imports : List Nat) (script : Script) (sources : Bool → Sources)
    (l : Bool → Linked) (code : Bool → Fragment) (vars : Variables) : Prop where
  unit : ∀ debug, ∃ u, (s debug).units[i]? = some u ∧ u.script = some script ∧ u.imports = imports
  built : ∀ debug, ∀ j ∈ imports, Built (s debug) j
  linked : ∀ debug, (s debug).linked? imports = some (l debug)
  compile : ∀ debug, script.compile (.kinds sources ((s false).api i) debug) (l debug).code.zeroLines (l debug).vars =
    (code debug, ⟨vars, #[]⟩)

theorem parts (h : Pair bits s) (hi : ∀ debug, Built (s debug) i) {code : Bool → Fragment}
    (hresult : ∀ debug, (s debug).result? i = some (code debug, vars)) :
    ∃ imports script sources l, Parts s i imports script sources l code vars := by
  choose u script sources l hunit hscript hlinked hbuilt hcompile using fun debug => (hi debug).parts (hresult debug)
  have halike : ∀ debug, ((u debug).script, (u debug).imports) = ((u false).script, (u false).imports) := fun debug => by
    have hunits := (h.mirrors debug).alike.unit i
    rw [hunit, hunit] at hunits
    exact Option.some.inj hunits
  have himports : ∀ debug, (u debug).imports = (u false).imports := fun debug => (Prod.mk.inj (halike debug)).2
  have hsame : ∀ debug, script debug = script false := fun debug =>
    Option.some.inj ((hscript debug).symm.trans ((Prod.mk.inj (halike debug)).1.trans (hscript false)))
  refine ⟨(u false).imports, script false, sources, l, fun debug => ⟨u debug, hunit debug, ?_, himports debug⟩, ?_, ?_, ?_⟩
  · rw [hscript, hsame]
  · exact fun debug j hj => hbuilt debug j (by rwa [himports])
  · exact fun debug => by rw [← himports debug, hlinked]
  · intro debug
    have hc := hcompile debug
    rw [hsame, (h.mirrors debug).alike.api, h.debug] at hc
    exact hc

variable {g : Regime} {imports : List Nat}

/-- Files that are imported one after the other. -/
theorem hasDualCode_linkedFrom (h : Pair bits s) {l l' : Bool → Linked}
    (hl : ∀ debug, (s debug).linkedFrom? (l debug) imports = some (l' debug))
    (hvars : ∀ debug, (l debug).vars = (l false).vars) (hw : HasDualCode g (fun _ => True) fun debug => (l debug).code)
    (hroom : (l' false).vars.needed.Le g.room) (haddr : Addressable (l' false).vars.needed)
    (himports : ∀ j ∈ imports, ∀ (code : Bool → Fragment) (vars : Variables),
      (∀ debug, (s debug).result? j = some (code debug, vars)) → Addressable vars.needed →
      HasDualCode ⟨vars.needed, g.floatBits, g.tracked⟩ (fun _ => True) code) :
    (∀ debug, (l' debug).vars = (l' false).vars) ∧ HasDualCode g (fun _ => True) fun debug => (l' debug).code := by
  induction imports generalizing l with
  | nil =>
    obtain rfl : l = l' := funext fun debug => Option.some.inj (hl debug)
    exact ⟨hvars, hw⟩
  | cons j rest ih =>
    choose r hr hrest using fun debug => bind_eq_some_iff.1 ((linkedFrom_cons ..).symm.trans (hl debug))
    have hrvars : ∀ debug, (r debug).2 = (r false).2 := fun debug => by
      have hresult := (h.mirrors debug).result j
      rw [hr, hr] at hresult
      exact Option.some.inj hresult
    have hle : ((l false).vars.needed + (r false).2.needed).Le (l' false).vars.needed := needed_linkedFrom (hrest false)
    have hlimit := haddr.mono hle
    have hown := himports j (mem_cons_self ..) (fun debug => (r debug).1) (r false).2
      (fun debug => by rw [hr, ← hrvars debug]) (hlimit.mono (Storage.le_add_left _ _))
    refine ih hrest (fun debug => ?_) ?_
      fun k hk => himports k (mem_cons_of_mem _ hk)
    · show ((l debug).vars.append (r debug).2).2 = ((l false).vars.append (r false).2).2
      rw [hvars, hrvars]
    · refine (hw.append (hown.relocate id fun k a hin => hin.move.mono (hle.trans hroom))).congr fun debug => ?_
      rw [← hvars debug] at hlimit
      rw [← hvars debug, Assembled.add_code (Nat.le_trans (Nat.le_add_right _ _) hlimit.1)
        (Nat.le_trans (Nat.le_add_right _ _) hlimit.2)]

section Parts

variable {script : Script} {sources : Bool → Sources} {l : Bool → Linked} {code : Bool → Fragment}

/-- The variables of imported files are settled when the file itself starts. -/
theorem Parts.settled (h : Pair bits s) (hp : Parts s i imports script sources l code vars)
    (haddr : Addressable vars.needed) :
    (l false).vars.Settled ∧ (l false).vars.inUse = (l false).vars.needed ∧ (l false).vars.needed.Le vars.needed := by
  have hle : (l false).vars.needed.Le vars.needed := needed_compile (hp.compile false)
  obtain ⟨hassembled, hfull⟩ := assembled_linkedFrom (hp.linked false) (.empty ⟨vars.needed, bits, False⟩) rfl hle
    (haddr.mono hle) fun j hj _ _ hr => (hp.built false j hj).assembled h.orderly h.proper hr
  exact ⟨hassembled.toSettled, hfull, hle⟩

/-- The statements of the file itself. -/
theorem Parts.hasDualCode_own (h : Pair bits s) (hp : Parts s i imports script sources l code vars)
    (hvars : ∀ debug, (l debug).vars = (l false).vars) (haddr : Addressable vars.needed) :
    HasDualCode ⟨vars.needed, bits, False⟩ (fun _ => True) fun debug =>
      (script.compile (.kinds sources ((s false).api i) debug) ∅ (l false).vars).1 := by
  obtain ⟨hsettled, hfull, -⟩ := hp.settled h haddr
  obtain ⟨u, hunit, hscript, himports⟩ := hp.unit false
  have hapi := h.orderly.formed_api i
  have hformed := h.orderly.formed_script hunit hscript
  have hclean : ∀ x ∈ script.texts, Clean x := fun x hx => h.proper.clean hunit hscript hx
  have hsurvey : script.survey ((s false).api i) (l false).vars ∈ (s false).surveys := by
    refine mem_filterMap.2 ⟨i, mem_range.2 (Array.getElem?_eq_some_iff.1 hunit).1, ?_⟩
    simp [survey?, hunit, hscript, himports, hp.linked false]
  have hproper := h.proper.survey _ hsurvey
  have hpasses : ∀ debug, Passes (statements (.kinds sources ((s false).api i) debug) ⟨false, false⟩ script ∅)
      (l false).vars (script.compile (.kinds sources ((s false).api i) debug) ∅ (l false).vars).1 vars := fun debug => by
    have hc := hp.compile debug
    rw [Script.compile_behind, hvars] at hc
    have hprogress := (Prod.mk.inj hc).2
    exact Prod.ext rfl hprogress
  -- the storage that the survey finds is the storage that the file needs
  let g : Regime := ⟨(Statement.surveyAll ((s false).api i) script (l false).vars).2.needed, bits, False⟩
  have hready := (Assembled.ready_own (g := g) rfl hsettled hfull).2
  have hadmits := Assembled.admits_own (g := g) rfl hproper
  have htwins : Twins g (Assembled.spared g (script.survey ((s false).api i) (l false).vars)) false
      (fun debug => statements (.kinds sources ((s false).api i) debug) ⟨false, false⟩ script ∅)
      (Statement.surveyAll ((s false).api i) script) := twins_statements hapi ⟨false, false⟩ script hformed hclean
  obtain ⟨hvs, -, hdual⟩ := htwins.passes hready hadmits hpasses
  obtain rfl : vars = _ := congrFun hvs false
  exact (hdual.imp fun _ _ => rfl).hasDualCode

end Parts

/-- Both kinds of code of a file are one dual code. -/
theorem hasDualCode (h : Pair bits s) (hi : Built (s false) i) (hi' : Built (s true) i) {code : Bool → Fragment}
    (hresult : ∀ debug, (s debug).result? i = some (code debug, vars)) (haddr : Addressable vars.needed) :
    HasDualCode ⟨vars.needed, bits, False⟩ (fun _ => True) code := by
  induction hi generalizing code vars with
  | @intro i u script' sources' l' code' vars' hunit hscript honce hlinked himports hcompile hresult' ih =>
    have hbuilt : ∀ debug, Built (s debug) i := fun debug => by
      cases debug
      · exact .intro hunit hscript honce hlinked himports hcompile hresult'
      · exact hi'
    obtain ⟨imports, script, sources, l, hp⟩ := h.parts hbuilt hresult
    obtain ⟨v, hv, -, hsame⟩ := hp.unit false
    obtain rfl : u = v := Option.some.inj (hunit.symm.trans hv)
    obtain ⟨-, -, hle⟩ := hp.settled h haddr
    obtain ⟨hvars, hw⟩ := h.hasDualCode_linkedFrom (g := ⟨vars.needed, bits, False⟩) hp.linked (fun _ => rfl) hasDualCode_empty hle
      (haddr.mono hle) fun j hj code vars hr haddr' => ih j (hsame ▸ hj) (hp.built true j hj) hr haddr'
    refine (hw.zeroLines.append (hp.hasDualCode_own h hvars haddr)).congr fun debug => ?_
    have hc := hp.compile debug
    rw [Script.compile_behind, hvars] at hc
    exact (Prod.mk.inj hc).1.symm

end Pair

end Session

namespace Build

open Session

variable {disk : Disk} {paths : List String}

/-- The sessions of two builds that differ in whether there is a debugger. -/
theorem pair_session (htexts : ∀ x ∈ (session disk false paths).texts, Clean x)
    (hvoid : ∀ a ∈ (session disk false paths).asks, a.hasVoidOperand = false) :
    Pair (∃ a ∈ (session disk false paths).asks, a.wantsFloatBits = true) fun debug => session disk debug paths where
  debug debug := debug_session disk debug paths
  mirrors debug := mirrors_session disk false debug paths
  orderly := orderly_session disk false paths
  proper := proper_of htexts hvoid False.elim

/-- Code that two builds give for one path is both kinds of one dual code. -/
theorem images (hplain : (path, plain) ∈ (run disk false paths).files)
    (htold : (path, told) ∈ (run disk true paths).files) (htexts : ∀ x ∈ (session disk false paths).texts, Clean x)
    (hvoid : ∀ a ∈ (session disk false paths).asks, a.hasVoidOperand = false) :
    ∃ g numbers ws, Aligned g ws ∧ Image g numbers (lines false ws) plain ∧ Image g numbers (lines true ws) told := by
  have hpair := pair_session htexts hvoid
  have hmirrors := hpair.mirrors true
  obtain ⟨i, source, hsource, hpath, hfinal, hbuilt⟩ := built_of_mem_files hplain
  obtain ⟨j, source', hsource', hpath', hfinal', hbuilt'⟩ := built_of_mem_files htold
  rw [hmirrors.sources] at hsource'
  obtain rfl : i = j := (distinct_session disk false paths).index hsource hsource' (hpath.trans hpath'.symm)
  rw [hmirrors.symbols] at hfinal'
  obtain ⟨code, vars, hresult, haddr, hlayout⟩ := bytecode_eq hfinal
  obtain ⟨code', vars', hresult', -, hlayout'⟩ := bytecode_eq hfinal'
  obtain rfl : vars' = vars := by
    have hsame := hmirrors.result i
    rw [hresult, hresult'] at hsame
    exact Option.some.inj hsame
  have hresults : ∀ debug, (session disk debug paths).result? i = some (bif debug then code' else code, vars') := by
    rintro (_ | _)
    · exact hresult
    · exact hresult'
  obtain ⟨ws, hcode, hws, hfree⟩ := hpair.hasDualCode hbuilt hbuilt' hresults haddr
  have hfree' := fun l => hfree l trivial
  rw [show code = _ from hcode false] at hlayout
  rw [show code' = _ from hcode true] at hlayout'
  exact ⟨_, _, ws, hws, hws.image hfree' haddr hlayout (mem_files hplain).2.1,
    hws.image hfree' haddr hlayout' (mem_files htold).2.1⟩

end Build

end HostScript

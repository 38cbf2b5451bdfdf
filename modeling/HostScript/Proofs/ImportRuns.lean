import HostScript.Proofs.InTurn
import HostScript.Proofs.Output
import HostScript.Proofs.DualFiles

/-! Imports run first, and in storage of their own.

The final code of a file starts with that of the files it imports, moved up so that each has
variables of its own, and every imported file also has final code by itself (`Lets`). So the code of
a file does to every host what the codes of its imports do in turn, and then what its own statements
do, on top of the memory that the imports have left (`imports_run_in_turn`). -/
namespace HostScript

open DualCode List Option

variable {final : Array UInt8} {symbols : Fragment.Symbols} {bits : Prop} {base : Storage}

namespace Fragment

theorem append_left_cancel {f g g' : Fragment} (h : f ++ g = f ++ g') : g = g' := by
  have hbytes : f.bytes ++ g.bytes = f.bytes ++ g'.bytes := congrArg Fragment.bytes h
  have hmarks : f.marks ++ g.marks.map (moved f.bytes.size) = f.marks ++ g'.marks.map (moved f.bytes.size) :=
    congrArg Fragment.marks h
  have hmoved : Function.Injective (moved f.bytes.size) := fun m m' hm => by
    obtain ⟨hlocation, hkind⟩ := Mark.mk.inj hm
    exact congrArg₂ Mark.mk (Nat.add_right_cancel hlocation) hkind
  have hsame := congrArg Array.toList ((Array.append_right_inj _).1 hmarks)
  rw [Array.toList_map, Array.toList_map] at hsame
  exact congrArg₂ Fragment.mk ((Array.append_right_inj _).1 hbytes)
    (Array.toList_inj.1 (map_injective_iff.2 hmoved hsame))

end Fragment

theorem Dual.leap_relocate {x : Dual} (h : x.relocate base = .same (.leap l)) : x = .same (.leap l) := by
  cases x with
  | same i =>
    cases i <;> cases h
    rfl
  | _ => cases h

/-! ### Rows of codes -/

namespace Standalone

variable {g : Regime} {numbers : String → Nat} {ts : List Standalone}

theorem aligned_row (hts : ∀ t ∈ ts, t.Settled numbers) (hbits : ∀ t ∈ ts, t.regime.floatBits → g.floatBits)
    (hroom : (base + room ts).Le g.room) : Aligned g (row base ts) := by
  induction ts generalizing base with
  | nil => exact .nil g
  | cons t rest ih =>
    obtain ⟨ht, hrest⟩ := forall_mem_cons.1 hts
    obtain ⟨hbit, hbits⟩ := forall_mem_cons.1 hbits
    have hsum : base + room (t :: rest) = base + t.regime.room + room rest := (Storage.add_assoc ..).symm
    rw [hsum] at hroom
    have hfirst : (base + t.regime.room).Le g.room := (Storage.le_add _ _).trans hroom
    exact (ht.aligned.relocate hbit fun k a hin => hin.move.mono hfirst).append (ih hrest hbits hroom)

theorem free_row (hts : ∀ t ∈ ts, Dual.same (.leap l) ∉ t.duals) : Dual.same (.leap l) ∉ row base ts := by
  induction ts generalizing base with
  | nil => exact not_mem_nil
  | cons t rest ih =>
    obtain ⟨ht, hrest⟩ := forall_mem_cons.1 hts
    refine fun hmem => (mem_append.1 hmem).elim (fun hmem => ?_) (ih hrest)
    obtain ⟨x, hx, heq⟩ := mem_map.1 hmem
    exact ht (Dual.leap_relocate heq ▸ hx)

/-- Where codes in a row end. -/
theorem extent_row (hts : ∀ t ∈ ts, t.Settled numbers) :
    extent (row base ts) false = ((ts.map (·.code)).map fun code => code.size - headerSize).sum := by
  induction ts generalizing base with
  | nil => rfl
  | cons t rest ih =>
    obtain ⟨ht, hrest⟩ := forall_mem_cons.1 hts
    rw [row, extent_append, Pi.add_apply, Aligned.extent_map (Dual.size_relocate base), ih hrest, map_cons,
      map_cons, sum_cons, ht.image.size, extent_lines, Nat.add_sub_cancel_left]

end Standalone

/-! ### Imported files -/

namespace Session

/-- A file as code of its own. -/
structure Lets (s : Session) (symbols : Fragment.Symbols) (bits : Prop) (j : Nat) (t : Standalone) : Prop where
  settled : t.Settled symbols.number
  final : s.bytecode? j symbols = some t.code
  result : ∃ vars, s.result? j = some (Line.code (lines false t.duals), vars) ∧ t.regime = ⟨vars.needed, bits, False⟩
  free : ∀ l, Dual.same (.leap l) ∉ t.duals

/-- Linked code is a row of the codes of the files. -/
theorem linked_row {s : Session} {t : Nat → Standalone} {js : List Nat} {l l' : Linked}
    (hjs : ∀ j ∈ js, s.Lets symbols bits j (t j)) (h : s.linkedFrom? l js = some l') (haddr : Addressable l'.vars.needed) :
    l'.code = l.code ++ Line.code (lines false (Standalone.row l.vars.needed (js.map t))) ∧
      l'.vars.needed = l.vars.needed + Standalone.room (js.map t) := by
  induction js generalizing l with
  | nil =>
    cases h
    exact ⟨(Fragment.append_empty _).symm, rfl⟩
  | cons j rest ih =>
    obtain ⟨hj, hjs⟩ := forall_mem_cons.1 hjs
    rw [linkedFrom_cons] at h
    obtain ⟨r, hr, hrest⟩ := bind_eq_some_iff.1 h
    obtain ⟨vars, hresult, hregime⟩ := hj.result
    cases hresult.symm.trans hr
    have hlimit := haddr.mono ((Storage.le_add _ _).trans (needed_linkedFrom hrest : (l.vars.needed + vars.needed).Le _))
    obtain ⟨hcode, hneeded⟩ := ih hjs hrest
    have hroom : (t j).regime.room = vars.needed := congrArg Regime.room hregime
    constructor
    · rw [hcode, Assembled.add_code hlimit.1 hlimit.2, Fragment.append_assoc, map_cons, Standalone.row, lines_append,
        Line.code_append, lines_relocate, ← Line.code_place, hroom]
      rfl
    · rw [hneeded, needed_add, Storage.add_assoc, ← hroom]
      rfl

namespace Pair

variable {s : Bool → Session} {i j : Nat} {code : Fragment} {vars : Variables}

theorem results (h : Pair bits s) (hr : (s false).result? j = some (code, vars)) :
    ∃ codes : Bool → Fragment, codes false = code ∧ ∀ debug, (s debug).result? j = some (codes debug, vars) := by
  have hboth : ∀ debug, ∃ code, (s debug).result? j = some (code, vars) := fun debug => by
    have hsame := (h.mirrors debug).result j
    rw [hr] at hsame
    obtain ⟨r, hr', hvars⟩ := map_eq_some_iff.1 hsame
    exact ⟨r.1, hr'.trans (congrArg some (Prod.ext rfl hvars))⟩
  choose codes hcodes using hboth
  cases (hcodes false).symm.trans hr
  exact ⟨codes, rfl, hcodes⟩

/-- A file that was built has code of its own, if there is room for it. -/
theorem lets (h : Pair bits s) (hj : ∀ debug, Built (s debug) j) (hr : (s false).result? j = some (code, vars))
    (haddr : Addressable vars.needed) (hresolved : code.unresolved symbols = []) (hsmall : 4 + code.size ≤ maxCodeSize) :
    ∃ t, (s false).Lets symbols bits j t := by
  obtain ⟨codes, rfl, hresults⟩ := h.results hr
  obtain ⟨ws, hcode, hws, hfree⟩ := h.hasDualCode (hj false) (hj true) hresults haddr
  have hfree' := fun l => hfree l trivial
  obtain ⟨final, hfinal⟩ := bytecode_of_addressable hr hresolved haddr
  obtain ⟨code', vars', hr', -, hlayout⟩ := bytecode_eq hfinal
  cases hr.symm.trans hr'
  obtain ⟨r, hr'', hsize⟩ := size_bytecode hfinal
  cases hr.symm.trans hr''
  rw [hcode false] at hlayout hr
  exact ⟨⟨⟨vars.needed, bits, False⟩, ws, final⟩, ⟨hws, hws.image hfree' haddr hlayout (hsize ▸ hsmall)⟩, hfinal,
    ⟨vars, hr, rfl⟩, hfree'⟩

section

variable (h : Pair bits s) (hcoded : (s false).Coded) (hi : ∀ debug, Built (s debug) i)
include h hcoded hi

/-- The imports of a file with final code have code of their own. -/
theorem lets_imports
    (hr : (s false).result? i = some (code, vars)) (haddr : Addressable vars.needed) (hsmall : 4 + code.size ≤ maxCodeSize) :
    ∀ j ∈ (s false).importsOf i, ∃ t, (s false).Lets (s false).symbols bits j t := by
  intro j hj
  obtain ⟨⟨code', vars'⟩, hr', hle⟩ := (hcoded i _ hr).size_le hr hj
  obtain ⟨codes, rfl, hresults⟩ := h.results hr
  obtain ⟨imports, script, sources, l, hp⟩ := h.parts hi hresults
  obtain ⟨u, hu, -, rfl⟩ := hp.unit false
  rw [importsOf_eq hu] at hj
  have hneeded : vars'.needed.Le vars.needed := by
    refine Storage.Le.trans ?_ (hp.settled h haddr).2.2
    rw [← needed_eq hr', neededBy_linkedFrom (hp.linked false)]
    exact (le_neededBy hj).trans (Storage.le_add_left _ _)
  exact h.lets (fun debug => hp.built debug j hj) hr' (haddr.mono hneeded) (hcoded.resolved hr')
    (Nat.le_trans (Nat.add_le_add_left hle 4) hsmall)

/-- The final code of a file is a row of the codes of its imports, with its own code behind them. -/
theorem imports_laid_out (hfinal : (s false).bytecode? i (s false).symbols = some final) (hsmall : final.size ≤ maxCodeSize) :
    ∃ (ts : List Standalone) (ws : DualCode) (g : Regime) (rest : Storage), (∀ t ∈ ts, t.Settled (s false).symbols.number) ∧
      ((s false).importsOf i).map (fun j => (s false).bytecode? j (s false).symbols) = (ts.map (·.code)).map some ∧
      (s false).Owns i (Line.code (lines false ws)) ∧
      (s false).needed i = (s false).neededBy ((s false).importsOf i) + rest ∧ Aligned g (Standalone.row .none ts ++ ws) ∧
      Image g (s false).symbols.number (lines false (Standalone.row .none ts ++ ws)) final ∧
      g.room = Standalone.room ts + rest := by
  obtain ⟨code, vars, hr, haddr, hlayout⟩ := bytecode_eq hfinal
  obtain ⟨r, hr', hsize⟩ := size_bytecode hfinal
  cases hr.symm.trans hr'
  have hlets := h.lets_imports hcoded hi hr haddr (hsize ▸ hsmall)
  obtain ⟨codes, rfl, hresults⟩ := h.results hr
  obtain ⟨imports, script, sources, l, hp⟩ := h.parts hi hresults
  obtain ⟨u, hu, -, rfl⟩ := hp.unit false
  rw [importsOf_eq hu] at hlets ⊢
  have hsome : Nonempty Standalone := ⟨⟨⟨.none, True, True⟩, [], #[]⟩⟩
  choose! t ht using hlets
  obtain ⟨-, -, hle⟩ := hp.settled h haddr
  obtain ⟨hvars, hw⟩ := h.hasDualCode_linkedFrom (g := ⟨vars.needed, bits, False⟩) hp.linked (fun _ => rfl) hasDualCode_empty hle
    (haddr.mono hle) fun j hj _ _ => h.hasDualCode (hp.built false j hj) (hp.built true j hj)
  obtain ⟨ws, hown, hws, hfree⟩ := hp.hasDualCode_own h hvars haddr
  obtain ⟨hcode, hneeded⟩ := linked_row ht (hp.linked false) (haddr.mono hle)
  -- plain code has no lines to clear, so that the imports stand in front of the file's own code as they are
  have hbefore : (l false).code.zeroLines = Line.code (lines false (Standalone.row .none (u.imports.map t))) :=
    hw.zeroLines_plain.trans (hcode.trans (Fragment.empty_append _))
  have hboth : codes false = (l false).code.zeroLines ++ Line.code (lines false ws) := by
    have hc := hp.compile false
    rw [Script.compile_behind] at hc
    rw [← (Prod.mk.inj hc).1, ← hown false]
  have hts : ∀ x ∈ u.imports.map t, ∃ j ∈ u.imports, t j = x := fun x hx => List.mem_map.1 hx
  have hsettled : ∀ x ∈ u.imports.map t, x.Settled (s false).symbols.number := by
    rintro x hx
    obtain ⟨j, hj, rfl⟩ := hts x hx
    exact (ht j hj).settled
  have haligned : Aligned ⟨vars.needed, bits, False⟩ (Standalone.row .none (u.imports.map t) ++ ws) := by
    refine (Standalone.aligned_row hsettled ?_ (hneeded ▸ hle)).append hws
    rintro x hx
    obtain ⟨j, hj, rfl⟩ := hts x hx
    obtain ⟨_, -, hregime⟩ := (ht j hj).result
    exact fun hbits => (congrArg Regime.floatBits hregime).mp hbits
  obtain ⟨rest, hrest⟩ : ∃ rest, vars.needed = (l false).vars.needed + rest :=
    ⟨⟨vars.needed.bytes - (l false).vars.needed.bytes, vars.needed.slots - (l false).vars.needed.slots⟩,
      congrArg₂ Storage.mk (Nat.add_sub_of_le hle.bytes).symm (Nat.add_sub_of_le hle.slots).symm⟩
  refine ⟨u.imports.map t, ws, ⟨vars.needed, bits, False⟩, rest, hsettled, ?_, ?_, ?_, haligned, ?_, ?_⟩
  · rw [List.map_map, List.map_map]
    exact List.map_congr_left fun j hj => (ht j hj).final
  · obtain ⟨howns, -, -⟩ := hcoded i _ hr
    obtain ⟨-, hlinked, -, -, hresult⟩ := id howns
    rw [importsOf_eq hu] at hlinked
    obtain rfl := Option.some.inj (hlinked.symm.trans (hp.linked false))
    have hsame := (Prod.mk.inj (Option.some.inj (hresult.symm.trans hr))).1
    rwa [← Fragment.append_left_cancel (hsame.trans hboth)]
  · rw [needed_eq hr, ← (neededBy_linkedFrom (hp.linked false)).trans (Storage.none_add _)]
    exact hrest
  · refine haligned.image (fun m hmem => ?_) haddr ?_ hsmall
    · refine (List.mem_append.1 hmem).elim (Standalone.free_row fun x hx => ?_) (hfree m trivial)
      obtain ⟨j, hj, rfl⟩ := hts x hx
      exact (ht j hj).free m
    · rw [lines_append, Line.code_append, ← hbefore, ← hboth]
      exact hlayout
  · rw [← hneeded.trans (Storage.none_add _)]
    exact hrest

end

end Pair

end Session

namespace Build

open Session

variable {disk : Disk} {paths : List String} {path : Path} {final : Array UInt8}

/-- Where a file's own code starts, behind the codes of its imports without their headers. -/
def ownStart (codes : List (Array UInt8)) : Nat := headerSize + (codes.map fun code => code.size - headerSize).sum

/-- The final code of a file does to every host what the codes of its imports do, one after the other and
each from where the one before it left the host, and then, if all of them came to their end, what its own
statements do, with the memory that the imports have left in front of storage of its own. -/
theorem imports_run_in_turn (hfile : (path, final) ∈ (run disk false paths).files)
    (htexts : ∀ x ∈ (session disk false paths).texts, Clean x)
    (hvoid : ∀ a ∈ (session disk false paths).asks, a.hasVoidOperand = false) :
    ∃ i codes own rest, (session disk false paths).pathAt? i = some path ∧
      ((session disk false paths).importsOf i).map
        (fun j => (session disk false paths).bytecode? j (run disk false paths).symbols) = codes.map some ∧
      (session disk false paths).Owns i own ∧
      (session disk false paths).needed i =
        (session disk false paths).neededBy ((session disk false paths).importsOf i) + rest ∧
      final.toList.drop (ownStart codes) = (own.resolveSymbols (run disk false paths).symbols).bytes.toList ∧
      ∀ {σ : Type} (host : Host σ) (n : Nat) (s : σ), ∃ m, Machine.new final = .ok m ∧
        (m.leg host n s).Alike ((inTurn host codes n s).andThen fun memory left state =>
          (⟨final, ownStart codes, memory ++ .blank rest⟩ : Machine).leg host left state) := by
  have hpair := pair_session htexts hvoid
  have hmirrors := hpair.mirrors true
  obtain ⟨i, source, hsource, rfl, hfinal, hbuilt⟩ := built_of_mem_files hfile
  obtain ⟨hquiet, hsmall, -⟩ := mem_files hfile
  have hcoded := (reachable_compileAll paths (.new disk false)).coded
  have hboth : ∀ debug, Built (session disk debug paths) i := by
    rintro (_ | _)
    · exact hbuilt
    · obtain ⟨code, vars, hr, -⟩ := bytecode_eq hfinal
      obtain ⟨codes, -, hresults⟩ := hpair.results hr
      exact (orderly_session disk true paths).sound _ (quiet_of_diagnostics (hmirrors.diagnostics.trans hquiet)) i _ trivial
        (hresults true)
  obtain ⟨ts, ws, g, rest, hts, hcodes, howns, hneeded, hws, himage, hroom⟩ := hpair.imports_laid_out hcoded hboth hfinal hsmall
  have hstart : ownStart (ts.map (·.code)) = headerSize + extent (Standalone.row .none ts) false :=
    congrArg (headerSize + ·) (Standalone.extent_row hts).symm
  rw [symbols_run]
  refine ⟨i, ts.map (·.code), _, rest, Option.map_eq_some_iff.2 ⟨source, hsource, rfl⟩, hcodes, howns, hneeded, ?_, ?_⟩
  · rw [hstart, himage.layout, Line.bytes_resolveSymbols, lines_append, Line.bytes_append, ← List.append_assoc]
    refine List.drop_left' ?_
    rw [List.length_append, List.length_append, Bytes.length_ofNat, Bytes.length_ofNat, Line.length_bytes, extent_lines]
    rfl
  · rw [hstart]
    exact Standalone.leg_row hts hws himage hroom

/-! ### Four files -/

theorem imports_run_in_turn_fourFiles :
    (fileNamed "a", fourFilesCode) ∈ (run fourFiles false ["/a"]).files ∧
      (∀ x ∈ (session fourFiles false ["/a"]).texts, Clean x) ∧
      (∀ a ∈ (session fourFiles false ["/a"]).asks, a.hasVoidOperand = false) ∧
      ∃ i codes own rest, (session fourFiles false ["/a"]).pathAt? i = some (fileNamed "a") ∧
        ((session fourFiles false ["/a"]).importsOf i).map
          (fun j => (session fourFiles false ["/a"]).bytecode? j (run fourFiles false ["/a"]).symbols) = codes.map some ∧
        (session fourFiles false ["/a"]).Owns i own ∧
        (session fourFiles false ["/a"]).needed i =
          (session fourFiles false ["/a"]).neededBy ((session fourFiles false ["/a"]).importsOf i) + rest ∧
        fourFilesCode.toList.drop (ownStart codes) =
          (own.resolveSymbols (run fourFiles false ["/a"]).symbols).bytes.toList ∧
        ∀ {σ : Type} (host : Host σ) (n : Nat) (s : σ), ∃ m, Machine.new fourFilesCode = .ok m ∧
          (m.leg host n s).Alike ((inTurn host codes n s).andThen fun memory left state =>
            (⟨fourFilesCode, ownStart codes, memory ++ .blank rest⟩ : Machine).leg host left state) := by
  have hfile : (fileNamed "a", fourFilesCode) ∈ (run fourFiles false ["/a"]).files := by
    decide +kernel
  have htexts : ∀ x ∈ (session fourFiles false ["/a"]).texts, Clean x := by decide +kernel
  have hvoid : ∀ a ∈ (session fourFiles false ["/a"]).asks, a.hasVoidOperand = false := by decide +kernel
  exact ⟨hfile, htexts, hvoid, imports_run_in_turn hfile htexts hvoid⟩

end Build

end HostScript

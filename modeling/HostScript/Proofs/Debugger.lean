import HostScript.Host.Console
import HostScript.Proofs.Embedded
import HostScript.Proofs.Pointers
import HostScript.Proofs.Symbols
import HostScript.Proofs.DualFiles

/-! Code for a debugger does the same.

A build with a debugger finds the same problems as one without, apart from the limit on
the size of code. Where both give code for a file, the code for a debugger asks the same
of the host in the same order and ends in the same way, as long as the host does not mind
what a debugger is told. All it takes are more statements, so that the two runs are
compared up to how many statements they are granted. -/
namespace HostScript

open DualCode Machine List Option

/-! ### Runs -/

/-- Two runs have asked the same of the host, and the second one is not over or both are. -/
def Trails {σ : Type} (S : σ → σ → Prop) (r r' : (Ending × Machine) × σ) : Prop :=
  S r.2 r'.2 ∧ (r'.1.1 = .running ∨ r'.1.1.placeless = r.1.1.placeless)

namespace Embeds

variable {σ : Type} {S : σ → σ → Prop} {host : Host σ} {g g' : Regime} {numbers : String → Nat} {base : Storage}
  {debug : Bool} {ws : DualCode} {code code' : Array UInt8} {left right : Memory} {p : Spot} {s t : σ}

theorem atEnd_within (h : Embeds g g' numbers base debug ws [] [] code code') (hp : p.pre = ws) :
    (p.within code' debug (extent [] debug) left right).atEnd = true := by
  simp [atEnd, Spot.within, h.within.size, hp, Aligned.extent_map (Dual.size_relocate base)]

/-- However far the plain code has come, the other one comes as far. -/
theorem forth (h : Embeds g g' numbers base debug ws [] [] code code') (right : Memory) (hS : host.Takes S)
    (hI : debug = true → host.Ignores S) (hleft : left.Fits base) (n : Nat) (hp : p.On ws g.room) (hst : S s t) :
    ∃ n', n ≤ n' ∧ Level S ((p.alone code).run host n s)
      ((p.within code' debug (extent [] debug) left right).run host n' t) := by
  induction n generalizing p s t with
  | zero =>
    obtain ⟨k, p', t', hp', halone, hst', -, hreach, hnext⟩ := h.catch_up hI hleft hp hst
    refine ⟨k + 0, Nat.zero_le _, ?_⟩
    rw [← halone, hreach]
    obtain hend | ⟨x, post, hws, hx⟩ := hnext
    · rw [run_atEnd (h.atEnd_alone hend), run_atEnd (h.atEnd_within hend)]
      exact ⟨hst', rfl⟩
    · obtain ⟨hend, hend', -⟩ := h.together right hS hleft hp' hws hx hst'
      rw [run_zero hend, run_zero hend']
      exact ⟨hst', rfl⟩
  | succ n ih =>
    obtain ⟨k, p', t', hp', halone, hst', -, hreach, hnext⟩ := h.catch_up hI hleft hp hst
    obtain hend | ⟨x, post, hws, hx⟩ := hnext
    · refine ⟨k + (n + 1), Nat.le_add_left _ _, ?_⟩
      rw [← halone, hreach, run_atEnd (h.atEnd_alone hend), run_atEnd (h.atEnd_within hend)]
      exact ⟨hst', rfl⟩
    · obtain ⟨hend, hend', htogether⟩ := h.together right hS hleft hp' hws hx hst'
      have hrun : ∃ n', n ≤ n' ∧ Level S ((p'.alone code).run host (n + 1) s)
          ((p'.within code' debug (extent [] debug) left right).run host (n' + 1) t') := by
        simp only [run_succ, hend, hend']
        generalize (p'.alone code).step host s = r at htogether
        generalize (p'.within code' debug (extent [] debug) left right).step host t' = r' at htogether
        cases htogether with
        | proceed hp hst => exact ih hp hst
        | exit hst => exact ⟨n, Nat.le_refl n, hst, rfl⟩
        | halt hf hst => exact ⟨n, Nat.le_refl n, hst, congrArg Ending.halted hf⟩
      obtain ⟨n', hle, hlevel⟩ := hrun
      refine ⟨k + (n' + 1), by omega, ?_⟩
      rwa [← halone, hreach]

/-- However far the code for a debugger has come, plain code has come as far, unless it is about to
tell a debugger something. -/
theorem back (h : Embeds g g' numbers base true ws [] [] code code') (right : Memory) (hS : host.Takes S)
    (hI : host.Ignores S) (hleft : left.Fits base) (n' : Nat) (hp : p.On ws g.room) (hst : S s t) :
    ∃ n, n ≤ n' ∧ Trails S ((p.alone code).run host n s)
      ((p.within code' true (extent [] true) left right).run host n' t) := by
  induction n' generalizing p s t with
  | zero =>
    refine ⟨0, Nat.le_refl 0, ?_⟩
    obtain ⟨post, hpost⟩ := hp.place
    cases post with
    | nil =>
      have hend : p.pre = ws := by simpa using hpost.symm
      rw [run_atEnd (h.atEnd_alone hend), run_atEnd (h.atEnd_within hend)]
      exact ⟨hst, .inr rfl⟩
    | cons x post =>
      obtain ⟨i, hi⟩ : ∃ i, x.instr? true = some i := by cases x <;> exact ⟨_, rfl⟩
      have hend : (p.within code' true (extent [] true) left right).atEnd = false :=
        h.within.atEnd_line (at_within true base [] [] hpost hi) _
      rw [run_zero hend]
      exact ⟨hst, .inl rfl⟩
  | succ n' ih =>
    obtain ⟨post, hpost⟩ := hp.place
    cases post with
    | nil =>
      have hend : p.pre = ws := by simpa using hpost.symm
      refine ⟨0, Nat.zero_le _, ?_⟩
      rw [run_atEnd (h.atEnd_alone hend), run_atEnd (h.atEnd_within hend)]
      exact ⟨hst, .inr rfl⟩
    | cons x post =>
      cases hx : x.instr? false with
      | none =>
        obtain ⟨p', t', hp', halone, -, hst', hreach⟩ := h.hush (fun _ => hI) hleft hp hpost hx hst
        have hrun : (p.within code' true (extent [] true) left right).run host (1 + n') t =
            (p'.within code' true (extent [] true) left right).run host n' t' := hreach n'
        obtain ⟨n, hle, htrails⟩ := ih hp' hst'
        refine ⟨n, by omega, ?_⟩
        rwa [Nat.add_comm n' 1, hrun, ← halone]
      | some i =>
        obtain ⟨hend, hend', htogether⟩ := h.together right hS hleft hp hpost (by simp [hx]) hst
        suffices hrun : ∃ n, n ≤ n' ∧ Trails S ((p.alone code).run host (n + 1) s) _ by
          obtain ⟨n, hle, htrails⟩ := hrun
          exact ⟨n + 1, Nat.succ_le_succ hle, htrails⟩
        simp only [run_succ, hend, hend', Bool.false_eq_true, if_false]
        generalize (p.alone code).step host s = r at htogether ⊢
        generalize (p.within code' true (extent [] true) left right).step host t = r' at htogether ⊢
        cases htogether with
        | proceed hp hst => exact ih hp hst
        | exit hst => exact ⟨n', Nat.le_refl n', hst, .inr rfl⟩
        | halt hf hst => exact ⟨n', Nat.le_refl n', hst, .inr (congrArg Ending.halted hf)⟩

/-- Two kinds of code that are one dual code. -/
theorem whole (hws : Aligned g ws) (hplain : Image g numbers (lines false ws) plain)
    (htold : Image g numbers (lines true ws) told) : Embeds g g numbers .none true ws [] [] plain told := by
  refine ⟨hws, hplain, ?_⟩
  rwa [List.append_nil, List.map_congr_left fun x _ => x.relocate_none, List.map_id']

end Embeds

/-! ### Events -/

/-- What a script does to its host. The rest is told to those who watch a run. -/
def Event.ofScript : Event → Bool
  | .line _ | .update _ _ | .delete _ | .error _ => false
  | _ => true

namespace Host

variable {σ : Type} {S : σ → σ → Prop} {host : Host σ}

/-- What a script has done to its host when some statements were run. -/
def doings (host : Host σ) (limit : Nat) (code : Array UInt8) (s : σ) : List Event :=
  (host.events limit code s).filter Event.ofScript

/-- How a run of at most so many statements ends. -/
def ending (host : Host σ) (limit : Nat) (code : Array UInt8) (s : σ) : Ending :=
  (execute host.recording limit code (s, #[])).1

/-- Related states, with records of the same doings. -/
def Recorded (S : σ → σ → Prop) (a b : σ × Array Event) : Prop :=
  S a.1 b.1 ∧ a.2.toList.filter Event.ofScript = b.2.toList.filter Event.ofScript

theorem abreast_record {action : StateM σ α} (h : Abreast S Eq action action) (event : α → Event) :
    Abreast (Recorded S) Eq (record action event) (record action event) := by
  rintro ⟨s, es⟩ ⟨t, es'⟩ ⟨hst, hes⟩
  obtain ⟨hsame, hst'⟩ := h s t hst
  refine ⟨hsame, hst', ?_⟩
  show (es.push (event (action s).1)).toList.filter _ = (es'.push (event (action t).1)).toList.filter _
  rw [Array.toList_push, Array.toList_push, filter_append, filter_append, hsame, hes]

theorem unminded_record (h : Unminded S action) (he : event.ofScript = false) :
    Unminded (Recorded S) (record action fun _ => event) := by
  rintro ⟨s, es⟩ ⟨t, es'⟩ ⟨hst, hes⟩
  refine ⟨h s t hst, ?_⟩
  show _ = (es'.push event).toList.filter _
  rw [Array.toList_push, filter_append, filter_singleton, he, ← hes]
  exact (append_nil _).symm

theorem takes_recording (h : host.Takes S) : host.recording.Takes (Recorded S) where
  invokeFunction f hf target symbol args := by
    obtain ⟨action, haction, rfl⟩ := Option.map_eq_some_iff.1 hf
    exact abreast_record (h.invokeFunction action haction target symbol args) _
  invokeSubscript f hf target index := by
    obtain ⟨action, haction, rfl⟩ := Option.map_eq_some_iff.1 hf
    exact abreast_record (h.invokeSubscript action haction target index) _
  assignProperty f hf target symbol value := by
    obtain ⟨action, haction, rfl⟩ := Option.map_eq_some_iff.1 hf
    exact abreast_record (h.assignProperty action haction target symbol value) _
  assignSubscript f hf target index value := by
    obtain ⟨action, haction, rfl⟩ := Option.map_eq_some_iff.1 hf
    exact abreast_record (h.assignSubscript action haction target index value) _
  metadata f hf text := by
    obtain ⟨action, haction, rfl⟩ := Option.map_eq_some_iff.1 hf
    exact abreast_record (h.metadata action haction text) _

theorem ignores_recording (h : host.Ignores S) : host.recording.Ignores (Recorded S) where
  debugLine f hf n := by
    obtain ⟨action, haction, rfl⟩ := map_eq_some_iff.1 hf
    exact unminded_record (h.debugLine action haction n) rfl
  debugUpdate f hf name value := by
    obtain ⟨action, haction, rfl⟩ := map_eq_some_iff.1 hf
    exact unminded_record (h.debugUpdate action haction name value) rfl
  debugDelete f hf name := by
    obtain ⟨action, haction, rfl⟩ := map_eq_some_iff.1 hf
    exact unminded_record (h.debugDelete action haction name) rfl

/-- That a run has halted is not something that the script does. -/
theorem ofScript_error (fault : Fault) (r : σ × Array Event) :
    (notify (host.recording.error.map fun f => f fault) r).2.2.toList.filter Event.ofScript =
      r.2.toList.filter Event.ofScript := by
  unfold recording
  cases host.error with
  | none => rfl
  | some f =>
    show (r.2.push (.error fault)).toList.filter _ = _
    rw [Array.toList_push, filter_append]
    exact append_nil _

theorem doings_eq {code : Array UInt8} {m : Machine} (h : new code = .ok m) (n : Nat) (s : σ) :
    host.doings n code s = (m.run host.recording n (s, #[])).2.2.toList.filter Event.ofScript := by
  unfold doings events
  rw [execute_eq _ _ _ h]
  split
  · exact ofScript_error _ _
  · rfl

theorem ending_eq {code : Array UInt8} {m : Machine} (h : new code = .ok m) (n : Nat) (s : σ) :
    host.ending n code s = (m.run host.recording n (s, #[])).1.1 := by
  unfold ending
  rw [execute_eq _ _ _ h]

end Host

namespace Build

open Session

/-- A debugger changes nothing: with one a build finds the same problems, but for code that is too
large, and gives the same numbers to the members of the host. Where both builds give code for a file,
both do the same to every host that does not mind what a debugger is told. However far one of them
has run, there is a point up to which the other one has done just as much, and both end alike. -/
theorem debugger_changes_nothing (disk : Disk) (paths : List String) :
    (run disk true paths).findings = (run disk false paths).findings ∧
    (run disk true paths).symbols = (run disk false paths).symbols ∧
    ∀ (path : Path) (plain told : Array UInt8),
      (path, plain) ∈ (run disk false paths).files → (path, told) ∈ (run disk true paths).files →
      (∀ x ∈ (session disk false paths).texts, Clean x) →
      (∀ a ∈ (session disk false paths).asks, a.hasVoidOperand = false) →
      ∀ {σ : Type} (host : Host σ) (S : σ → σ → Prop), host.Takes S → host.Ignores S → ∀ s t, S s t →
        (∀ n, ∃ n', n ≤ n' ∧ host.doings n' told t = host.doings n plain s ∧
          (host.ending n' told t).placeless = (host.ending n plain s).placeless) ∧
        ∀ n', ∃ n, n ≤ n' ∧ host.doings n' told t = host.doings n plain s ∧
          (host.ending n' told t = .running ∨
            (host.ending n' told t).placeless = (host.ending n plain s).placeless) := by
  refine ⟨findings_kinds disk true false paths, ?_, ?_⟩
  · rw [symbols_run, symbols_run, (mirrors_session disk false true paths).symbols]
  intro path plain told hplain htold htexts hvoid σ host S hS hI s t hst
  obtain ⟨g, numbers, ws, hws, hplain, htold⟩ := images hplain htold htexts hvoid
  have hembeds := Embeds.whole hws hplain htold
  have hstart : Spot.On ws g.room ⟨[], .blank g.room⟩ := ⟨⟨ws, rfl⟩, Memory.fits_blank _⟩
  have hleft : (Memory.blank .none).Fits .none := Memory.fits_blank _
  have hrecorded : Host.Recorded S (s, #[]) (t, #[]) := ⟨hst, rfl⟩
  have hwithin : Spot.within told true (extent [] true) (.blank .none) (.blank .none) ⟨[], .blank g.room⟩ =
      ⟨told, headerSize, .blank g.room⟩ := by
    rw [Spot.within, Memory.blank_none_append, Memory.append_blank_none]
    rfl
  constructor
  · intro n
    obtain ⟨n', hle, hstates, hending⟩ := hembeds.forth (.blank .none) (Host.takes_recording hS)
      (fun _ => Host.ignores_recording hI) hleft n hstart hrecorded
    rw [hwithin] at hstates hending
    refine ⟨n', hle, ?_, ?_⟩
    · rw [Host.doings_eq htold.new, Host.doings_eq hplain.new]
      exact hstates.2.symm
    · rw [Host.ending_eq htold.new, Host.ending_eq hplain.new]
      exact hending
  · intro n'
    obtain ⟨n, hle, hstates, hending⟩ := hembeds.back (.blank .none) (Host.takes_recording hS)
      (Host.ignores_recording hI) hleft n' hstart hrecorded
    rw [hwithin] at hstates hending
    refine ⟨n, hle, ?_, ?_⟩
    · rw [Host.doings_eq htold.new, Host.doings_eq hplain.new]
      exact hstates.2.symm
    · rw [Host.ending_eq htold.new, Host.ending_eq hplain.new]
      exact hending

/-! ### A script that waits -/

/-- The code of the loop with lines, with the value of the variable, and with the end of its life. -/
def waitingToldCode : Array UInt8 :=
  #[4, 0, 0, 0, 43, 1, 0, 35, 3, 0, 0, 32, 1, 1, 0, 0, 44, 107, 0, 3, 6, 0, 0, 38, 27, 3, 6, 0, 0, 2, 2, 0, 0, 0, 6, 0,
    43, 1, 0, 39, 6, 0, 45, 107, 0, 40, 44, 0]

/-- A host that answers with five and counts the lines that a debugger is told. -/
def fives : Host Nat :=
  ⟨some fun _ _ _ => pure (.int .int32 5), none, none, none, none, some fun _ => modify (· + 1), none, none, none⟩

/-- Three statements that ask for one number, and the host is past seven lines when a debugger starts. -/
theorem debugger_changes_nothing_waiting :
    fives.doings 3 waitingCode 0 = [.call 0 1 [] (.int .int32 5)] ∧ fives.ending 3 waitingCode 0 = .ended ∧
      ∃ n', 3 ≤ n' ∧ fives.doings n' waitingToldCode 7 = fives.doings 3 waitingCode 0 ∧
        (fives.ending n' waitingToldCode 7).placeless = (fives.ending 3 waitingCode 0).placeless := by
  have htold : (rootFile, waitingToldCode) ∈ (run (oneFile waiting) true ["/a"]).files := by
    decide +kernel
  have hS : fives.Takes fun _ _ => True := by
    refine ⟨?_, nofun, nofun, nofun, nofun⟩
    rintro f hf target symbol args s t -
    cases hf
    exact ⟨rfl, trivial⟩
  have hI : fives.Ignores fun _ _ => True := ⟨fun _ _ _ _ _ _ => trivial, nofun, nofun⟩
  refine ⟨by decide +kernel, by decide +kernel, ?_⟩
  refine ((debugger_changes_nothing (oneFile waiting) ["/a"]).2.2 rootFile _ _ mem_waiting htold ?_ ?_ fives _ hS hI 0 7
    trivial).1 3
  all_goals decide +kernel

/-! ### A host that minds -/

/-- A second line is read if the first one says so. -/
def reading : String :=
  "#global \x7b string readLine(); \x7d string s = readLine(); if (s == \"go\") \x7b readLine(); \x7d"

def readingCode : Array UInt8 :=
  #[0, 0, 1, 0, 35, 12, 0, 0, 32, 1, 1, 0, 0, 38, 23, 12, 6, 0, 0, 2, 103, 111, 0, 5, 0, 33, 1, 1, 0, 0]

def readingToldCode : Array UInt8 :=
  #[0, 0, 1, 0, 43, 1, 0, 35, 12, 0, 0, 32, 1, 1, 0, 0, 44, 115, 0, 12, 6, 0, 0, 38, 23, 12, 6, 0, 0, 2, 103, 111, 0, 8, 0,
    43, 1, 0, 33, 1, 1, 0, 0]

/-- A console that shows what a debugger is told. -/
def shown : Host Console.State := Console.host [("GLOBAL_readLine", 1)] true

/-- A line `go` to be read, and no room for output. -/
def crowded : Console.State := ⟨[103, 111, 10], #[], some 0, none⟩

/-- What a debugger is told does not fit into the output, and a console that has failed reads no line:
the script asks for less. -/
theorem debugger_changes_calls :
    (rootFile, readingCode) ∈ (run (oneFile reading) false ["/a"]).files ∧
      (rootFile, readingToldCode) ∈ (run (oneFile reading) true ["/a"]).files ∧
      (∀ x ∈ (session (oneFile reading) false ["/a"]).texts, Clean x) ∧
      (∀ a ∈ (session (oneFile reading) false ["/a"]).asks, a.hasVoidOperand = false) ∧
      shown.ending 3 readingCode crowded = .ended ∧ shown.doings 3 readingCode crowded =
        [.call 0 1 [] (.string "go"), .call 0 1 [] (.string "")] ∧
      shown.ending 4 readingToldCode crowded = .ended ∧
      shown.doings 4 readingToldCode crowded = [.call 0 1 [] (.string "")] := by
  decide +kernel

end Build

end HostScript

import HostScript.Proofs.Embedded

/-! Codes that run one after the other.

`inTurn` runs several codes, each in a memory of its own and each from where the one before it
left the host. Code that is made of the statements of all of them, with their variables moved to
places of their own, does the same (`run_row`): as long as one of them runs, both go from statement
to statement together, and where it ends the next one starts. -/
namespace HostScript

open DualCode Machine Memory

namespace Machine

variable {σ : Type} {host : Host σ} {m : Machine} {s : σ}

/-- How many of so many statements are left when a run is over. -/
def spare (host : Host σ) : Nat → Machine → σ → Nat
  | 0, _, _ => 0
  | n + 1, m, s =>
    if m.atEnd then n + 1
    else
      match m.step host s with
      | ((.ok .proceed, m), s) => spare host n m s
      | _ => n

theorem spare_atEnd (h : m.atEnd = true) (n : Nat) (s : σ) : m.spare host n s = n := by
  cases n with
  | zero => rfl
  | succ n => rw [spare, if_pos h]

end Machine

/-! ### Runs with a record -/

/-- What came of a run: how it ended, the memory then, how many statements it could still have run,
and what passed between the script and its host. -/
structure Leg (σ : Type) where
  ending : Ending
  memory : Memory
  left : Nat
  events : List Event
  state : σ

/-- A run of at most so many statements. -/
def Machine.leg {σ : Type} (host : Host σ) (n : Nat) (m : Machine) (s : σ) : Leg σ :=
  let ((ending, m'), s', events) := m.run host.recording n (s, #[])
  ⟨ending, m'.memory, m.spare host.recording n (s, #[]), events.toList, s'⟩

/-- The run that comes next, if this one came to its end, with the events of both. -/
def Leg.andThen {σ : Type} (r : Leg σ) (next : Memory → Nat → σ → Leg σ) : Leg σ :=
  if r.ending = .ended then
    let last := next r.memory r.left r.state
    { last with events := r.events ++ last.events }
  else r

/-- Runs codes one after the other, so many statements in all, up to one that does not come to its end.
Each has a memory of its own, and they are put one behind the other. -/
def inTurn {σ : Type} (host : Host σ) : List (Array UInt8) → Nat → σ → Leg σ
  | [], n, s => ⟨.ended, .blank .none, n, [], s⟩
  | code :: rest, n, s =>
    match new code with
    | .error fault => ⟨.halted fault, .blank .none, n, [], s⟩
    | .ok m => (m.leg host n s).andThen fun memory left state =>
      let others := inTurn host rest left state
      { others with memory := memory ++ others.memory }

/-- Two runs did the same to the host and ended in the same way, wherever in code a fault was found. -/
structure Leg.Alike {σ : Type} (r r' : Leg σ) : Prop where
  ending : r.ending.placeless = r'.ending.placeless
  events : r.events = r'.events
  state : r.state = r'.state

theorem Machine.alike_leg {host : Host σ} {m : Machine} {r : Leg σ}
    (hending : (m.run host.recording n (s, #[])).1.1.placeless = r.ending.placeless)
    (hrecord : (m.run host.recording n (s, #[])).2 = (r.state, r.events.toArray)) : (m.leg host n s).Alike r where
  ending := hending
  events := congrArg (fun record => record.2.toList) hrecord
  state := congrArg Prod.fst hrecord

namespace Host

variable {σ : Type} {host : Host σ} {earlier : Array Event}

/-- The same state, with a record that goes further back. -/
def Behind (earlier : Array Event) (a b : σ × Array Event) : Prop := b = (a.1, earlier ++ a.2)

theorem behind_record (action : StateM σ α) (event : α → Event) :
    Abreast (Behind earlier) Eq (record action event) (record action event) := by
  rintro ⟨s, events⟩ - rfl
  refine ⟨rfl, ?_⟩
  show ((action s).2, (earlier ++ events).push _) = ((action s).2, earlier ++ events.push _)
  rw [Array.push_append]

/-- What is on record already makes no difference. -/
theorem takes_behind (host : Host σ) (earlier : Array Event) : host.recording.Takes (Behind earlier) := by
  constructor
  all_goals
    intro f hf
    obtain ⟨action, -, rfl⟩ := Option.map_eq_some_iff.1 hf
    intros
    exact behind_record _ _

end Host

/-! ### Codes within code -/

/-- A run goes on where another one has come to its end, or has ended in the same way as that one. -/
inductive Continues {σ : Type} (host : Host σ) (S : σ → σ → Prop) (room : Storage) (next : Memory → Machine) (left : Nat) :
    (Ending × Machine) × σ → (Ending × Machine) × σ → Prop
  | ended {m : Machine} (hm : m.memory.Fits room) (hst : S s t) :
      Continues host S room next left ((.ended, m), s) ((next m.memory).run host left t)
  | stopped {e e' : Ending} (h : e'.placeless = e.placeless) (hne : e ≠ .ended) (hst : S s t) :
      Continues host S room next left ((e, m), s) ((e', m'), t)

namespace Embeds

variable {σ : Type} {S : σ → σ → Prop} {host : Host σ} {g g' : Regime} {numbers : String → Nat} {base : Storage}
  {ws front behind : DualCode} {code code' : Array UInt8} {left : Memory} {p : Spot} {s t : σ}

/-- The machine in the second image once the row is behind it. -/
def past (code' : Array UInt8) (front ws : DualCode) (left right memory : Memory) : Machine :=
  ⟨code', headerSize + (extent front false + extent ws false), left ++ memory ++ right⟩

section

variable (h : Embeds g g' numbers base false ws front behind code code')
include h

/-- Plain code has nothing to tell a debugger, so that there is a statement at every spot, or the end. -/
theorem at_statement (host : Host σ) (right : Memory)
    (hleft : left.Fits base) (hp : p.On ws g.room) (t : σ) :
    ∃ p' : Spot, p'.On ws g.room ∧ p'.alone code = p.alone code ∧
      (∀ n, (p.within code' false (extent front false) left right).run host n t =
        (p'.within code' false (extent front false) left right).run host n t) ∧
      (p'.pre = ws ∨ ∃ x post, ws = p'.pre ++ x :: post ∧ (x.instr? false).isSome) := by
  have hquiet : false = true → host.Ignores Eq := nofun
  obtain ⟨k, p', t', hp', halone, rfl, hk, hreach, hnext⟩ : ∃ (k : Nat) (p' : Spot) (t' : σ), p'.On ws g.room ∧
      p'.alone code = p.alone code ∧ t = t' ∧ (false = false → k = 0) ∧
      Machine.Reaches host k (p.within code' false (extent front false) left right) t
        (p'.within code' false (extent front false) left right) t' ∧ _ := h.catch_up hquiet hleft hp rfl
  obtain rfl := hk rfl
  refine ⟨p', hp', halone, fun n => ?_, hnext⟩
  have hrun := hreach n
  rwa [Nat.zero_add] at hrun

theorem continues_atEnd (right : Memory)
    (hp : p.On ws g.room) (hend : p.pre = ws) (n : Nat) (hst : S s t) :
    Continues host S g.room (past code' front ws left right) ((p.alone code).spare host n s) ((p.alone code).run host n s)
      ((p.within code' false (extent front false) left right).run host n t) := by
  have hpast : p.within code' false (extent front false) left right = past code' front ws left right p.memory := by
    rw [Spot.within, hend, past]
  rw [run_atEnd (h.atEnd_alone hend), spare_atEnd (h.atEnd_alone hend), hpast]
  exact .ended hp.fits hst

/-- Code within other code runs as it does alone, and when it has come to its end the run goes on behind it. -/
theorem run_within (right : Memory) (hS : host.Takes S)
    (hleft : left.Fits base) (n : Nat) (hp : p.On ws g.room) (hst : S s t) :
    Continues host S g.room (past code' front ws left right) ((p.alone code).spare host n s) ((p.alone code).run host n s)
      ((p.within code' false (extent front false) left right).run host n t) := by
  induction n generalizing p s t with
  | zero =>
    obtain ⟨p', hp', halone, hwithin, hend | ⟨x, post, hws, hx⟩⟩ := h.at_statement host right hleft hp t
    · rw [← halone, hwithin]
      exact h.continues_atEnd right hp' hend 0 hst
    · obtain ⟨hrun, hrun', -⟩ := h.together right hS hleft hp' hws hx hst
      rw [← halone, hwithin, run_zero hrun, run_zero hrun']
      exact .stopped rfl nofun hst
  | succ n ih =>
    obtain ⟨p', hp', halone, hwithin, hend | ⟨x, post, hws, hx⟩⟩ := h.at_statement host right hleft hp t
    · rw [← halone, hwithin]
      exact h.continues_atEnd right hp' hend (n + 1) hst
    · obtain ⟨hrun, hrun', htogether⟩ := h.together right hS hleft hp' hws hx hst
      rw [← halone, hwithin, run_succ, run_succ, spare, if_neg (by simp [hrun]),
        if_neg (by simp [hrun]), if_neg (by simp [hrun'])]
      generalize (p'.alone code).step host s = r at htogether
      generalize (p'.within code' false (extent front false) left right).step host t = r' at htogether
      cases htogether with
      | proceed hp hst => exact ih hp hst
      | exit hst => exact .stopped rfl nofun hst
      | halt hf hst => exact .stopped (congrArg Ending.halted hf) nofun hst

end

end Embeds

/-! ### Rows of codes -/

/-- Code that can be run by itself and can be put among other code. -/
structure Standalone where
  regime : Regime
  duals : DualCode
  code : Array UInt8

namespace Standalone

/-- The code is that of the duals. -/
structure Settled (numbers : String → Nat) (t : Standalone) : Prop where
  aligned : Aligned t.regime t.duals
  image : Image t.regime numbers (lines false t.duals) t.code

def room (ts : List Standalone) : Storage := ts.foldr (fun t rest => t.regime.room + rest) .none

/-- Duals one behind the other, each row above the storage of those before it. -/
def row : Storage → List Standalone → DualCode
  | _, [] => []
  | base, t :: rest => t.duals.map (Dual.relocate base) ++ row (base + t.regime.room) rest

variable {σ : Type} {g : Regime} {numbers : String → Nat} {t : Standalone} {ts : List Standalone} {base : Storage}
  {front behind : DualCode} {final : Array UInt8} {left : Memory}

/-- A run goes on when codes have come to their end in turn, and is over where they are. -/
def Passes (host : Host σ) (room : Storage) (next : Memory → Machine) (earlier : Array Event) (r : Leg σ)
    (r' : (Ending × Machine) × σ × Array Event) : Prop :=
  if r.ending = .ended then
    r.memory.Fits room ∧ r' = (next r.memory).run host.recording r.left (r.state, earlier ++ r.events.toArray)
  else r'.1.1.placeless = r.ending.placeless ∧ r'.2 = (r.state, earlier ++ r.events.toArray)

/-- The first of several codes runs as it does alone. -/
theorem run_first (ht : t.Settled numbers)
    (hfinal : Image g numbers (lines false (front ++ t.duals.map (Dual.relocate base) ++ behind)) final)
    (hleft : left.Fits base) (right : Memory) (host : Host σ) (n : Nat) (s : σ) (earlier : Array Event) :
    ∃ m, new t.code = .ok m ∧
      Passes host t.regime.room (Embeds.past final front t.duals left right) earlier (m.leg host n s)
        ((⟨final, headerSize + extent front false, left ++ .blank t.regime.room ++ right⟩ : Machine).run host.recording n
          (s, earlier)) := by
  have hembeds : Embeds t.regime g numbers base false t.duals front behind t.code final := ⟨ht.aligned, ht.image, hfinal⟩
  have hstart : Spot.On t.duals t.regime.room ⟨[], .blank t.regime.room⟩ := ⟨⟨t.duals, rfl⟩, fits_blank _⟩
  have hrun := hembeds.run_within right (host.takes_behind earlier) hleft n hstart (rfl : Host.Behind _ (s, #[]) _)
  have hwithin : Spot.within final false (extent front false) left right ⟨[], .blank t.regime.room⟩ =
      ⟨final, headerSize + extent front false, left ++ .blank t.regime.room ++ right⟩ := rfl
  have halone : Spot.alone t.code ⟨[], .blank t.regime.room⟩ = ⟨t.code, headerSize, .blank t.regime.room⟩ := rfl
  rw [hwithin, halone, Array.append_empty] at hrun
  refine ⟨_, ht.image.new, ?_⟩
  unfold leg
  generalize run host.recording n ⟨t.code, headerSize, .blank t.regime.room⟩ (s, #[]) = r at hrun
  generalize run host.recording n ⟨final, headerSize + extent front false, left ++ .blank t.regime.room ++ right⟩
    (s, earlier) = r' at hrun
  cases hrun with
  | ended hm hst =>
    cases hst
    exact ⟨hm, rfl⟩
  | stopped h hne hst =>
    cases hst
    rw [Passes, if_neg hne]
    exact ⟨h, rfl⟩

/-- Codes in a row do what they do alone in turn. -/
theorem run_row (hts : ∀ t ∈ ts, t.Settled numbers)
    (hfinal : Image g numbers (lines false (front ++ row base ts ++ behind)) final) (hleft : left.Fits base) (right : Memory)
    (host : Host σ) (n : Nat) (s : σ) (earlier : Array Event) : Passes host (room ts)
      (fun memory => ⟨final, headerSize + extent (front ++ row base ts) false, left ++ memory ++ right⟩) earlier
      (inTurn host (ts.map (·.code)) n s)
      ((⟨final, headerSize + extent front false, left ++ .blank (room ts) ++ right⟩ : Machine).run host.recording n
        (s, earlier)) := by
  induction ts generalizing base front left n s earlier with
  | nil =>
    rw [row, List.append_nil]
    exact ⟨fits_blank .none, rfl⟩
  | cons t rest ih =>
    obtain ⟨ht, hrest⟩ := List.forall_mem_cons.1 hts
    have hfinal' : Image g numbers (lines false (front ++ t.duals.map (Dual.relocate base) ++
        row (base + t.regime.room) rest ++ behind)) final := by rwa [row, ← List.append_assoc] at hfinal
    have hblank : left ++ .blank (room (t :: rest)) ++ right =
        left ++ .blank t.regime.room ++ (.blank (room rest) ++ right) := by
      rw [show blank (room (t :: rest)) = .blank t.regime.room ++ .blank (room rest) from blank_add _ _,
        ← append_assoc, append_assoc _ _ right]
    obtain ⟨m, hnew, hfirst⟩ := run_first ht (List.append_assoc .. ▸ hfinal') hleft (.blank (room rest) ++ right) host n s earlier
    rw [← hblank] at hfirst
    rw [List.map_cons, inTurn, hnew]
    dsimp only [Leg.andThen]
    by_cases hend : (m.leg host n s).ending = .ended
    · rw [Passes, if_pos hend] at hfirst
      obtain ⟨hfits, hfirst⟩ := hfirst
      have hpast : Embeds.past final front t.duals left (.blank (room rest) ++ right) (m.leg host n s).memory =
          ⟨final, headerSize + extent (front ++ t.duals.map (Dual.relocate base)) false,
            left ++ (m.leg host n s).memory ++ .blank (room rest) ++ right⟩ := by
        rw [extent_append, Aligned.extent_map (Dual.size_relocate base),
          append_assoc (left ++ (m.leg host n s).memory)]
        rfl
      rw [if_pos hend, hfirst, hpast, row, ← List.append_assoc]
      have hnext := ih hrest hfinal' (hleft.append hfits) (m.leg host n s).left (m.leg host n s).state
        (earlier ++ (m.leg host n s).events.toArray)
      simp only [Passes, append_assoc, Array.append_assoc, List.append_toArray] at hnext ⊢
      split at hnext
      · rename_i hothers
        rw [if_pos hothers]
        exact ⟨hfits.append hnext.1, hnext.2⟩
      · rename_i hothers
        rwa [if_neg hothers]
    · rw [Passes, if_neg hend] at hfirst
      rwa [if_neg hend, Passes, if_neg hend]

/-- A record that goes further back makes no difference to a run. -/
theorem leg_behind {p : Spot} (hws : Aligned g ws) (hfinal : Image g numbers (lines false ws) final)
    (hp : p.On ws g.room) (host : Host σ) (n : Nat) (s : σ) (earlier : Array Event) :
    ((p.alone final).run host.recording n (s, earlier)).1.1.placeless = ((p.alone final).leg host n s).ending.placeless ∧
      ((p.alone final).run host.recording n (s, earlier)).2 =
        (((p.alone final).leg host n s).state, earlier ++ ((p.alone final).leg host n s).events.toArray) := by
  have hembeds : Embeds g g numbers .none false ws [] [] final final := by
    refine ⟨hws, hfinal, ?_⟩
    rwa [List.append_nil, List.map_congr_left fun x _ => x.relocate_none, List.map_id']
  have hrun := hembeds.run_within (.blank .none) (host.takes_behind earlier) (fits_blank .none) n hp
    (rfl : Host.Behind _ (s, #[]) _)
  have hmemory : ∀ memory : Memory, .blank .none ++ memory ++ .blank .none = memory := fun memory => by
    rw [blank_none_append, append_blank_none]
  have hwithin : p.within final false (extent [] false) (.blank .none) (.blank .none) = p.alone final := by
    rw [Spot.within, hmemory, Spot.alone, show extent [] false = 0 from rfl, Nat.zero_add]
  have hend : ∀ memory, (Embeds.past final [] ws (.blank .none) (.blank .none) memory).atEnd = true := fun memory => by
    simp [atEnd, Embeds.past, hfinal.size]
  rw [hwithin, Array.append_empty] at hrun
  unfold leg
  generalize run host.recording n (p.alone final) (s, #[]) = r at hrun
  generalize run host.recording n (p.alone final) (s, earlier) = r' at hrun
  cases hrun with
  | ended hm hst =>
    cases hst
    rw [run_atEnd (hend _)]
    exact ⟨rfl, rfl⟩
  | stopped h hne hst =>
    cases hst
    exact ⟨h, rfl⟩

/-- Codes in a row and one more behind them do what the codes do in turn, and then the one behind them. -/
theorem leg_row (hts : ∀ t ∈ ts, t.Settled numbers) (hws : Aligned g (row .none ts ++ own))
    (hfinal : Image g numbers (lines false (row .none ts ++ own)) final) (hroom : g.room = room ts + rest)
    (host : Host σ) (n : Nat) (s : σ) : ∃ m, new final = .ok m ∧ (m.leg host n s).Alike
      ((inTurn host (ts.map (·.code)) n s).andThen fun memory left state =>
        (⟨final, headerSize + extent (row .none ts) false, memory ++ .blank rest⟩ : Machine).leg host left state) := by
  refine ⟨_, hfinal.new, ?_⟩
  have hrow : Image g numbers (lines false ([] ++ row .none ts ++ own)) final := by rwa [List.nil_append]
  have hrun := run_row hts hrow (fits_blank .none) (.blank rest) host n s #[]
  rw [blank_none_append, ← blank_add, ← hroom] at hrun
  simp only [Passes, Array.empty_append] at hrun
  unfold Leg.andThen
  split at hrun
  · rename_i hend
    obtain ⟨hfits, hrun⟩ := hrun
    rw [if_pos hend]
    have hp : Spot.On (row .none ts ++ own) g.room ⟨row .none ts, (inTurn host (ts.map (·.code)) n s).memory ++ .blank rest⟩ :=
      ⟨⟨own, rfl⟩, hroom ▸ hfits.append (fits_blank rest)⟩
    obtain ⟨hending, hrecord⟩ := leg_behind hws hfinal hp host (inTurn host (ts.map (·.code)) n s).left
      (inTurn host (ts.map (·.code)) n s).state (inTurn host (ts.map (·.code)) n s).events.toArray
    rw [blank_none_append] at hrun
    refine alike_leg (congrArg (·.1.1.placeless) hrun |>.trans hending) (congrArg (·.2) hrun |>.trans ?_)
    exact hrecord.trans (congrArg (Prod.mk _) (List.append_toArray ..))
  · rename_i hend
    rw [if_neg hend]
    exact alike_leg hrun.1 hrun.2

end Standalone

end HostScript

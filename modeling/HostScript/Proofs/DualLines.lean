import HostScript.Proofs.DualCode

/-! How code of both kinds runs through its statements.

A *dual line* is a dual with the addresses that are known to hold trusted pointers in
front of it. Dual lines *lead* from what is known at their start to what is known at their
end: every dual makes sense where it stands, nothing that was known at the start is
forgotten, and every way on leads to a place where no more is known than behind the
dual. Code is put together from such parts: one part behind another, loops,
branches, and jumps out of loops that are filled in once the size of the loop is settled.
Both kinds of code of dual lines are lines that lead from start to end (`DualLeads.leads`), and
without what is known they are aligned (`DualLeads.aligned`). -/
namespace HostScript

open List

open DualCode (Lands LandsFrom)

variable {K inn low out' : Known} {as bs part : List DualLine} {x : Dual}
  {next out : Known} {ts : List DualLine} {g : Regime} {t : DualLine}

/-- The dual behind it may be the next one. -/
def Dual.GoesOn : Dual → Prop
  | .same i => i.Proceeds
  | .forward _ | .back _ => False
  | _ => True

structure DualLine where
  dual : Dual
  known : Known

namespace DualLine

def after (t : DualLine) : Known := fun b => t.known b ∨ ∃ n, t.dual = .same (.assign .pointer b n)

def duals (ts : List DualLine) : DualCode := ts.map (·.dual)

@[simp] theorem duals_nil : duals [] = [] := rfl

@[simp] theorem duals_cons (t : DualLine) (ts : List DualLine) : duals (t :: ts) = t.dual :: duals ts := rfl

@[simp] theorem duals_append (as bs : List DualLine) : duals (as ++ bs) = duals as ++ duals bs := map_append

def lines (debug : Bool) (ts : List DualLine) : List Line :=
  ts.filterMap fun t => (t.dual.instr? debug).map fun i => ⟨i, t.known⟩

def extent (ts : List DualLine) : Bool → Nat := DualCode.extent (duals ts)

@[simp] theorem extent_nil : extent [] = 0 := rfl

@[simp] theorem extent_cons (t : DualLine) (ts : List DualLine) : extent (t :: ts) = t.dual.size + extent ts :=
  DualCode.extent_cons ..

@[simp] theorem extent_append (as bs : List DualLine) : extent (as ++ bs) = extent as + extent bs := by
  simp [extent]

theorem eq_nil_of_extent (h : extent ts true = 0) : ts = [] := by
  cases ts with
  | nil => rfl
  | cons t rest =>
    have hpos := t.dual.size_pos
    rw [extent_cons, Pi.add_apply] at h
    omega

@[simp] theorem lines_append (debug : Bool) (as bs : List DualLine) :
    lines debug (as ++ bs) = lines debug as ++ lines debug bs := filterMap_append

theorem lines_cons (debug : Bool) (t : DualLine) (ts : List DualLine) : lines debug (t :: ts) =
      ((t.dual.instr? debug).map fun i => (⟨i, t.known⟩ : Line)).toList ++ lines debug ts := by
  unfold lines
  cases h : t.dual.instr? debug <;> simp [h]

@[simp] theorem extent_lines (debug : Bool) (ts : List DualLine) : Line.extent (lines debug ts) = extent ts debug := by
  induction ts with
  | nil => rfl
  | cons t rest ih =>
    rw [lines_cons, Line.extent_append, ih, extent_cons, Pi.add_apply]
    congr 1
    unfold Dual.size
    cases t.dual.instr? debug <;> simp [Line.size]

/-- What is known in front of some dual lines, given what is known behind them. -/
def entry (out : Known) : List DualLine → Known
  | [] => out
  | t :: _ => t.known

theorem entry_append (out : Known) (as bs : List DualLine) : entry out (as ++ bs) = entry (entry out bs) as := by
  cases as <;> rfl

theorem entry_le (ts : List DualLine) (h : g.Le out' out) : g.Le (entry out' ts) (entry out ts) := by
  cases ts with
  | nil => exact h
  | cons t rest => exact .refl g _

/-! ### Places -/

/-- Offsets in both kinds of code that are one place, and no more is known there than `K`. -/
def Reached (g : Regime) (out : Known) (ts : List DualLine) (o : Bool → Nat) (K : Known) : Prop :=
  ∃ pre post, ts = pre ++ post ∧ o = extent pre ∧ g.Le (entry out post) K

section Reached

variable {o : Bool → Nat}

theorem reached_start (h : g.Le (entry out ts) K) : Reached g out ts 0 K := ⟨[], ts, rfl, rfl, h⟩

theorem reached_end (ts : List DualLine) (h : g.Le out K) : Reached g out ts (extent ts) K := ⟨ts, [], by simp, rfl, h⟩

theorem Reached.within (h : Reached g out ts o K) (as : List DualLine) (hb : g.Le (entry out' bs) out) :
    Reached g out' (as ++ ts ++ bs) (extent as + o) K := by
  obtain ⟨pre, post, rfl, rfl, hle⟩ := h
  refine ⟨as ++ pre, post ++ bs, by simp, by simp, ?_⟩
  rw [entry_append]
  exact (entry_le post hb).trans hle

end Reached

/-- A dual line of a row that ends at `e`, with what is known at the place behind it. -/
structure Fits (g : Regime) (low out : Known) (ts : List DualLine) (e : Bool → Nat) (next : Known) (t : DualLine) : Prop where
  sound : ∀ debug i, t.dual.instr? debug = some i → Line.Sound g ⟨i, t.known⟩
  floor : g.Le low t.known
  lands : Lands (Reached g out ts · t.known) e t.dual
  goesOn : t.dual.GoesOn → g.Le next t.after

/-- All dual lines of a part of a row that starts at `o`. -/
def FitsFrom (g : Regime) (low out : Known) (ts : List DualLine) (next : Known) : (Bool → Nat) → List DualLine → Prop
  | _, [] => True
  | o, t :: rest =>
    t.Fits g low out ts (o + t.dual.size) (entry next rest) ∧ FitsFrom g low out ts next (o + t.dual.size) rest

section Fits

variable {low' next' : Known} {ts' : List DualLine} {o e c : Bool → Nat}

theorem Fits.imp (h : t.Fits g low out ts e next) (hlow : g.Le low' low)
    (hreach : ∀ p K, Reached g out ts p K → Reached g out' ts' (c + p) K) (hnext : g.Le next' next) :
    t.Fits g low' out' ts' (c + e) next' :=
  ⟨h.sound, hlow.trans h.floor, h.lands.imp rfl fun p => hreach p t.known, fun hg => hnext.trans (h.goesOn hg)⟩

theorem fitsFrom_append : FitsFrom g low out ts next o (as ++ bs) ↔
      FitsFrom g low out ts (entry next bs) o as ∧ FitsFrom g low out ts next (o + extent as) bs := by
  induction as generalizing o with
  | nil => simp [FitsFrom]
  | cons t rest ih => simp [FitsFrom, ih, entry_append, and_assoc, add_assoc]

theorem FitsFrom.imp (h : FitsFrom g low out ts next o part) (hlow : g.Le low' low)
    (hreach : ∀ p K, Reached g out ts p K → Reached g out' ts' (c + p) K) (hnext : g.Le next' next) :
    FitsFrom g low' out' ts' next' (c + o) part := by
  induction part generalizing o with
  | nil => trivial
  | cons t rest ih =>
    unfold FitsFrom
    rw [add_assoc]
    exact ⟨h.1.imp hlow hreach (entry_le rest hnext), ih h.2⟩

theorem FitsFrom.at (h : FitsFrom g low out ts next o (pre ++ t :: post)) :
    t.Fits g low out ts (o + extent pre + t.dual.size) (entry next post) := (fitsFrom_append.1 h).2.1

end Fits

end DualLine

open DualLine

/-- Dual lines take what is known from `inn` to `out`, and nothing known is forgotten on the way. -/
structure DualLeads (g : Regime) (inn : Known) (ts : List DualLine) (out : Known) : Prop where
  fits : FitsFrom g inn out ts out 0 ts
  enters : g.Le (entry out ts) inn
  grows : g.Le inn out

namespace DualLeads

variable {mid : Known}

/-- The dual lines within a longer row. -/
theorem within (h : DualLeads g inn ts out) (as : List DualLine) (hlow : g.Le low inn) (hb : g.Le (entry mid bs) out) :
    FitsFrom g low mid (as ++ ts ++ bs) (entry mid bs) (extent as) ts := by
  have hfits := h.fits.imp hlow (fun _ _ hr => hr.within as hb) hb
  rwa [add_zero] at hfits

theorem nil (g : Regime) (K : Known) : DualLeads g K [] K := ⟨trivial, .refl g K, .refl g K⟩

theorem append (ha : DualLeads g inn as mid) (hb : DualLeads g mid bs out) : DualLeads g inn (as ++ bs) out where
  fits := by
    refine fitsFrom_append.2 ⟨?_, ?_⟩
    · simpa using ha.within [] (.refl g inn) hb.enters
    · simpa [entry] using hb.within as ha.grows (.refl g (entry out []))
  enters := by
    rw [entry_append]
    exact (entry_le as hb.enters).trans ha.enters
  grows := ha.grows.trans hb.grows

/-- What was learned on the way may be forgotten at the end. -/
theorem weaken (h : DualLeads g inn ts out) (ho : g.Le K out) (hi : g.Le inn K) : DualLeads g inn ts K where
  fits := by simpa [entry] using h.within [] (.refl g inn) (show g.Le (entry K []) out from ho)
  enters := (entry_le ts ho).trans h.enters
  grows := hi

/-- One dual that does not jump. -/
theorem single (hs : ∀ debug i, x.instr? debug = some i → Line.Sound g ⟨i, inn⟩) (hl : ∀ reached e, Lands reached e x)
    (ho : x.GoesOn → g.Le out (DualLine.after ⟨x, inn⟩)) (hi : g.Le inn out) : DualLeads g inn [⟨x, inn⟩] out :=
  ⟨⟨⟨hs, .refl g inn, hl _ _, ho⟩, trivial⟩, .refl g inn, hi⟩

/-! ### Loops and branches -/

theorem le_after (t : DualLine) : g.Le t.known t.after := fun _ _ h => .inl h

theorem sound_back (d : Bool → Nat) (debug : Bool) (i : Instr) (h : (Dual.back d).instr? debug = some i) :
    Line.Sound g ⟨i, K⟩ := by
  cases h
  exact ⟨trivial, fun _ _ _ _ heq => Instr.noConfusion heq⟩

theorem sound_forward (d : Bool → Nat) (debug : Bool) (i : Instr) (h : (Dual.forward d).instr? debug = some i) :
    Line.Sound g ⟨i, K⟩ := by
  cases h
  exact ⟨trivial, fun _ _ _ _ heq => Instr.noConfusion heq⟩

theorem sound_beyond (d : Nat) (debug : Bool) (i : Instr) (h : (Dual.beyond d).instr? debug = some i) :
    Line.Sound g ⟨i, K⟩ := by
  cases debug <;> cases h
  exact ⟨trivial, fun _ _ _ _ heq => Instr.noConfusion heq⟩

/-- Dual lines with a jump back to the first one behind them. -/
theorem close (h : ∀ d : Bool → Nat, FitsFrom g K K (ts ++ [⟨.back d, K⟩]) K 0 ts) (he : g.Le (entry K ts) K) :
    DualLeads g K (ts ++ [⟨.back (extent ts + fun _ => 3), K⟩]) K := by
  have hstart : g.Le (entry K (ts ++ [⟨.back (extent ts + fun _ => 3), K⟩])) K := by
    rw [entry_append]
    exact he
  refine ⟨fitsFrom_append.2 ⟨h _, ⟨sound_back _, .refl g K, ?_, nofun⟩, trivial⟩, hstart, .refl g K⟩
  exact ⟨0, by simp, reached_start hstart⟩

theorem loop (h : DualLeads g K ts K) : DualLeads g K (ts ++ [⟨.back (extent ts + fun _ => 3), K⟩]) K :=
  close (fun d => by simpa [entry] using h.within [] (.refl g K) (.refl g (entry K [⟨.back d, K⟩]))) h.enters

section Conditional

variable {n : Node} (hn : n.Typed (g.rules K) .bool)

include hn

theorem fits_conditional (hnext : g.Le next K) (hr : DualLine.Reached g out ts (e + d) K) :
    DualLine.Fits g K out ts e next ⟨.conditional n d, K⟩ where
  sound debug i h := by
    cases h
    exact ⟨hn, fun _ _ _ _ heq => Instr.noConfusion heq⟩
  floor := .refl g K
  lands := hr
  goesOn _ := hnext.trans (le_after ⟨.conditional n d, K⟩)

/-- A loop with its condition in front: the jump back is left out with the body. -/
theorem guarded (h : DualLeads g K ts K) : DualLeads g K ((⟨.conditional n (extent ts + fun _ => 3), K⟩ :: ts) ++
      [⟨.back (extent (⟨.conditional n (extent ts + fun _ => 3), K⟩ :: ts) + fun _ => 3), K⟩]) K := by
  refine close (fun d => ⟨fits_conditional hn h.enters ?_, ?_⟩) (.refl g K)
  · have hend := reached_end (⟨.conditional n (extent ts + fun _ => 3), K⟩ :: ts ++ [⟨.back d, K⟩]) (.refl g K)
    simpa [add_assoc] using hend
  · simpa [entry] using h.within [⟨.conditional n (extent ts + fun _ => 3), K⟩] (.refl g K)
      (.refl g (entry K [⟨.back d, K⟩]))

/-- A loop with its condition behind: the jump back is left out. -/
theorem checked (h : DualLeads g K ts K) : DualLeads g K ((ts ++ [⟨.conditional n fun _ => 3, K⟩]) ++
      [⟨.back (extent (ts ++ [⟨.conditional n fun _ => 3, K⟩]) + fun _ => 3), K⟩]) K := by
  refine close (fun d => fitsFrom_append.2 ⟨?_, fits_conditional hn (.refl g K) ?_, trivial⟩) ?_
  · simpa [entry] using h.within [] (.refl g K) (.refl g (entry K [⟨.conditional n fun _ => 3, K⟩, ⟨.back d, K⟩]))
  · have hend := reached_end (ts ++ [⟨.conditional n fun _ => 3, K⟩] ++ [⟨.back d, K⟩]) (.refl g K)
    simpa [add_assoc] using hend
  · rw [entry_append]
    exact h.enters

/-- Dual lines that are left out if a condition does not hold. -/
theorem skip (h : DualLeads g K ts K) : DualLeads g K (⟨.conditional n (extent ts), K⟩ :: ts) K := by
  refine ⟨⟨fits_conditional hn h.enters ?_, ?_⟩, .refl g K, .refl g K⟩
  · have hend := reached_end (⟨.conditional n (extent ts), K⟩ :: ts) (.refl g K)
    simpa using hend
  · simpa [entry] using h.within [⟨.conditional n (extent ts), K⟩] (.refl g K) (.refl g (entry K []))

/-- Two branches with a jump between them that leads behind the second one. -/
theorem branch (hs : ∀ debug i, jump.instr? debug = some i → Line.Sound g ⟨i, K⟩)
    (hj : ∀ reached e, reached (e + extent no) → Lands reached e jump) (hon : jump.GoesOn → g.Le (entry K no) K)
    (hyes : DualLeads g K yes K) (hno : DualLeads g K no K) :
    DualLeads g K (⟨.conditional n (extent yes + jump.size), K⟩ :: (yes ++ ⟨jump, K⟩ :: no)) K := by
  have hskip : DualLine.Reached g K (⟨.conditional n (extent yes + jump.size), K⟩ :: (yes ++ ⟨jump, K⟩ :: no))
      (extent (⟨.conditional n (extent yes + jump.size), K⟩ :: (yes ++ [⟨jump, K⟩]))) K :=
    ⟨_, no, by simp, rfl, hno.enters⟩
  have hend := reached_end (⟨.conditional n (extent yes + jump.size), K⟩ :: (yes ++ ⟨jump, K⟩ :: no)) (.refl g K)
  refine ⟨⟨fits_conditional hn ?_ ?_, fitsFrom_append.2 ⟨?_, ⟨hs, .refl g K, hj _ _ ?_, fun hg => ?_⟩, ?_⟩⟩,
    .refl g K, .refl g K⟩
  · rw [entry_append]
    exact hyes.enters
  · simpa using hskip
  · simpa [entry] using hyes.within [⟨.conditional n (extent yes + jump.size), K⟩] (.refl g K)
      (.refl g (entry K (⟨jump, K⟩ :: no)))
  · simpa [add_assoc] using hend
  · exact (hon hg).trans (le_after ⟨jump, K⟩)
  · have hlast := hno.within (⟨.conditional n (extent yes + jump.size), K⟩ :: yes ++ [⟨jump, K⟩]) (.refl g K)
      (.refl g (entry K []))
    simpa [add_assoc, entry] using hlast

end Conditional

end DualLeads

/-! ### Jumps out of loops -/

namespace Dual

/-- The jump that fills in a leap at an offset of code of a size. -/
def fill (l : Leap) (target : Fragment.Target) (n o : Bool → Nat) : Dual → Dual
  | same (.leap m) =>
    if m = l then
      match target with
      | .finish => forward fun debug => n debug - (o debug + 3)
      | .start => back fun debug => o debug + 3
    else same (.leap m)
  | x => x

variable (l : Leap) (target : Fragment.Target) (n o : Bool → Nat)

/-- Only leaps of the kind are touched. -/
theorem fill_cases (x : Dual) :
    (x.fill l target n o = x ∧ x ≠ same (.leap l)) ∨
      (x = same (.leap l) ∧ x.fill l target n o =
        match target with
        | .finish => forward fun debug => n debug - (o debug + 3)
        | .start => back fun debug => o debug + 3) := by
  by_cases hx : ∃ m, x = same (.leap m)
  · obtain ⟨m, rfl⟩ := hx
    by_cases hm : m = l
    · exact .inr ⟨by rw [hm], if_pos hm⟩
    · exact .inl ⟨if_neg hm, fun heq => hm (Instr.leap.inj (same.inj heq))⟩
  · refine .inl ⟨?_, fun heq => hx ⟨l, heq⟩⟩
    unfold fill
    split
    · exact absurd ⟨_, rfl⟩ hx
    · rfl

theorem size_fill (x : Dual) : (x.fill l target n o).size = x.size := by
  obtain ⟨h, -⟩ | ⟨rfl, h⟩ := x.fill_cases l target n o
  · rw [h]
  · rw [h]
    cases target <;> rfl

/-- In both kinds of code the leap is filled in. -/
theorem instr_fill (hx : Lands reached e x) (debug : Bool) :
    (x.fill l target n o).instr? debug = (x.instr? debug).map (Instr.fill l target (n debug) (o debug)) := by
  obtain ⟨h, hne⟩ | ⟨rfl, h⟩ := x.fill_cases l target n o
  · rw [h]
    cases x with
    | same i =>
      obtain ⟨heq, -⟩ | ⟨rfl, -⟩ := Line.fill_cases l target (n debug) (o debug) i
      · exact (congrArg some heq).symm
      · exact absurd rfl hne
    | extra i =>
      cases debug with
      | false => rfl
      | true => cases i <;> first | exact hx.elim | rfl
    | beyond d => cases debug <;> rfl
    | _ => rfl
  · rw [h]
    cases target <;> simp [instr?, Instr.fill]

end Dual

namespace DualLine

/-- Fills in leaps of a kind; the first one is at an offset of code of a size. -/
def fillFrom (l : Leap) (target : Fragment.Target) (n : Bool → Nat) : (Bool → Nat) → List DualLine → List DualLine
  | _, [] => []
  | o, t :: rest => ⟨t.dual.fill l target n o, t.known⟩ :: fillFrom l target n (o + t.dual.size) rest

def fill (l : Leap) (target : Fragment.Target) (ts : List DualLine) : List DualLine := fillFrom l target (extent ts) 0 ts

section Fill

variable (l : Leap) (target : Fragment.Target) (n : Bool → Nat)

theorem extent_fillFrom (ts : List DualLine) (o : Bool → Nat) : extent (fillFrom l target n o ts) = extent ts := by
  induction ts generalizing o with
  | nil => rfl
  | cons t rest ih => rw [fillFrom, extent_cons, extent_cons, ih, Dual.size_fill]

theorem entry_fillFrom (out : Known) (ts : List DualLine) (o : Bool → Nat) :
    entry out (fillFrom l target n o ts) = entry out ts := by
  cases ts <;> rfl

theorem fillFrom_append (as bs : List DualLine) (o : Bool → Nat) :
    fillFrom l target n o (as ++ bs) = fillFrom l target n o as ++ fillFrom l target n (o + extent as) bs := by
  induction as generalizing o with
  | nil => simp [fillFrom]
  | cons t rest ih => simp [fillFrom, ih, add_assoc]

theorem Reached.fillFrom (h : Reached g out ts p K) (o : Bool → Nat) :
    Reached g out (fillFrom l target n o ts) p K := by
  obtain ⟨pre, post, rfl, rfl, hle⟩ := h
  refine ⟨_, _, fillFrom_append l target n pre post o, (extent_fillFrom l target n pre o).symm, ?_⟩
  rwa [entry_fillFrom]

theorem mem_fillFrom (h : t ∈ fillFrom l target n o ts) : ∃ u ∈ ts, ∃ p, t.dual = u.dual.fill l target n p := by
  induction ts generalizing o with
  | nil => cases h
  | cons u rest ih =>
    obtain rfl | h := mem_cons.1 h
    · exact ⟨u, mem_cons_self .., o, rfl⟩
    · obtain ⟨v, hv, p, hp⟩ := ih h
      exact ⟨v, mem_cons_of_mem _ hv, p, hp⟩

theorem lines_fillFrom (h : FitsFrom g low out ts next o part) (debug : Bool) :
    lines debug (fillFrom l target n o part) = Line.fillFrom l target (n debug) (o debug) (lines debug part) := by
  induction part generalizing o with
  | nil => rfl
  | cons t rest ih =>
    rw [fillFrom, lines_cons, lines_cons, Dual.instr_fill l target n o h.1.lands, ih h.2, Pi.add_apply, Dual.size]
    cases t.dual.instr? debug with
    | none | some _ => rfl

end Fill

end DualLine

namespace DualLeads

/-- Leaps filled in with jumps to the start or the end. -/
theorem fill (h : DualLeads g K ts K) (l : Leap) (target : Fragment.Target) : DualLeads g K (DualLine.fill l target ts) K where
  fits := by
    have hstart : g.Le (entry K (DualLine.fill l target ts)) K := by
      rw [DualLine.fill, entry_fillFrom]
      exact h.enters
    -- the dual lines from some place on, which end where all end
    have hpart : ∀ (part : List DualLine) (o : Bool → Nat), o + extent part = extent ts → FitsFrom g K K ts K o part →
        FitsFrom g K K (DualLine.fill l target ts) K o (fillFrom l target (extent ts) o part) := by
      intro part
      induction part with
      | nil => exact fun _ _ _ => trivial
      | cons t rest ih =>
        intro o hend ⟨hfits, hrest⟩
        rw [extent_cons, ← add_assoc] at hend
        refine ⟨?_, ?_⟩ <;> rw [Dual.size_fill]
        · rw [entry_fillFrom]
          obtain ⟨heq, -⟩ | ⟨hleap, heq⟩ := t.dual.fill_cases l target (extent ts) o
          · rw [heq, ← zero_add (o + t.dual.size)]
            refine hfits.imp (.refl g K) (fun p L hp => ?_) (.refl g _)
            rw [zero_add]
            exact hp.fillFrom l target _ 0
          · rw [heq]
            rw [hleap] at hend ⊢
            cases target with
            | finish =>
              refine ⟨sound_forward _, hfits.floor, ?_, nofun⟩
              have hsum : (o + (Dual.same (.leap l)).size + fun debug => extent ts debug - (o debug + 3)) =
                  extent ts := by
                funext debug
                have hat := congrFun hend debug
                simp only [Pi.add_apply, Dual.size_leap] at hat ⊢
                omega
              show DualLine.Reached g K _ (o + (Dual.same (.leap l)).size + fun debug => extent ts debug - (o debug + 3)) _
              rw [hsum]
              exact (reached_end _ hfits.floor).fillFrom l _ _ 0
            | start =>
              exact ⟨sound_back _, hfits.floor, ⟨0, (zero_add _).symm, reached_start (hstart.trans hfits.floor)⟩, nofun⟩
        · exact ih _ hend hrest
    exact hpart ts 0 (zero_add _) h.fits
  enters := by
    rw [DualLine.fill, entry_fillFrom]
    exact h.enters
  grows := .refl g K

/-! ### One kind of code -/

/-- A line of one kind of code is a dual line of both. -/
theorem at_lines (h : Line.At (DualLine.lines debug ts) o l) :
    ∃ pre t post, ts = pre ++ t :: post ∧ o = extent pre debug ∧ t.dual.instr? debug = some l.instr ∧
      l.known = t.known := by
  induction ts generalizing o with
  | nil => exact absurd h Line.not_at_nil
  | cons t rest ih =>
    rw [lines_cons] at h
    have hrest : ∀ {o'}, Line.At (DualLine.lines debug rest) o' l → o = t.dual.size debug + o' →
        ∃ pre u post, t :: rest = pre ++ u :: post ∧ o = extent pre debug ∧ u.dual.instr? debug = some l.instr ∧
          l.known = u.known := by
      rintro o' hat rfl
      obtain ⟨pre, u, post, rfl, rfl, hu, hk⟩ := ih hat
      exact ⟨t :: pre, u, post, rfl, by rw [extent_cons, Pi.add_apply], hu, hk⟩
    cases ht : t.dual.instr? debug with
    | none =>
      rw [ht] at h
      exact hrest h (by simp [Dual.size, ht])
    | some i =>
      rw [ht] at h
      obtain ⟨rfl, rfl⟩ | ⟨o', rfl, hat⟩ := Line.at_cons h
      · exact ⟨[], t, rest, rfl, rfl, ht, rfl⟩
      · exact hrest hat (by simp [Dual.size, ht, Line.size])

/-- Dual lines that are not in one kind of code tell a debugger something, so what is known stays. -/
theorem entry_lines (h : FitsFrom g low out ts next o part) (debug : Bool) :
    g.Le (Line.entry next (DualLine.lines debug part)) (entry next part) := by
  induction part generalizing o with
  | nil => exact .refl g _
  | cons t rest ih =>
    rw [lines_cons]
    cases ht : t.dual.instr? debug with
    | some i => exact .refl g _
    | none =>
      obtain ⟨hon, hafter⟩ : t.dual.GoesOn ∧ t.after = t.known := by
        obtain ⟨x, K⟩ := t
        cases x <;> first | cases ht | exact ⟨trivial, by funext b; simp [DualLine.after]⟩
      have hnext := h.1.goesOn hon
      rw [hafter] at hnext
      exact (ih h.2).trans hnext

section

variable (h : DualLeads g inn ts out)
include h

theorem reached_lines (hr : DualLine.Reached g out ts o K) (debug : Bool) :
    Line.Reached g out (DualLine.lines debug ts) (o debug) K := by
  obtain ⟨pre, post, rfl, rfl, hle⟩ := hr
  exact ⟨_, _, lines_append .., (extent_lines ..).symm, (entry_lines (fitsFrom_append.1 h.fits).2 debug).trans hle⟩

/-- Each kind of code leads from its start to its end. -/
theorem leads (debug : Bool) : Leads g inn (DualLine.lines debug ts) out where
  sound l hl := by
    obtain ⟨pre, post, hsplit⟩ := append_of_mem hl
    obtain ⟨pre', t, post', hts, -, ht, hk⟩ := at_lines ⟨pre, post, hsplit, rfl⟩
    have hfits := h.fits
    rw [hts] at hfits
    have hsound := hfits.at.sound debug l.instr ht
    rwa [← hk] at hsound
  lands o l hl := by
    obtain ⟨pre, t, post, hts, rfl, ht, hk⟩ := at_lines hl
    have hfits : t.Fits g inn out ts (extent pre + t.dual.size) (entry out post) := by
      have hat := h.fits
      rw [hts] at hat
      have := hat.at
      rw [zero_add] at this
      rwa [← hts] at this
    have hle : g.Le t.known l.after := fun _ b hb => .inl (by rwa [hk])
    have hsize : l.size = t.dual.size debug := by simp [Dual.size, ht, Line.size]
    have hnext : t.dual.GoesOn → t.after = l.after →
        Line.Reached g out (DualLine.lines debug ts) (extent pre debug + l.size) l.after := by
      intro hon hafter
      rw [hsize, ← hafter]
      refine h.reached_lines (o := extent pre + t.dual.size) ?_ debug
      exact ⟨pre ++ [t], post, by simp [hts], by simp, hfits.goesOn hon⟩
    have hahead : ∀ d : Bool → Nat, DualLine.Reached g out ts (extent pre + t.dual.size + d) t.known →
        Line.Reached g out (DualLine.lines debug ts) (extent pre debug + l.size + d debug) l.after := by
      intro d hd
      rw [hsize]
      exact (h.reached_lines hd debug).mono hle
    obtain ⟨i, K⟩ := l
    obtain ⟨x, K'⟩ := t
    obtain rfl : K = K' := hk
    have hlands := hfits.lands
    intro m hm
    cases x with
    | same j =>
      obtain rfl := Option.some.inj ht
      obtain ⟨hp, -⟩ | rfl | ⟨m', rfl⟩ := hlands
      · refine Line.lands_of_proceeds hp (hnext hp ?_) m hm
        funext b
        simp [DualLine.after, Line.after]
      · obtain rfl : m = .exit := hm
        trivial
      · exact hm.elim
    | conditional c d =>
      obtain rfl := Option.some.inj ht
      obtain rfl | rfl := hm
      · refine hnext trivial ?_
        funext b
        simp [DualLine.after, Line.after]
      · exact hahead d hlands
    | forward d =>
      obtain rfl := Option.some.inj ht
      obtain rfl := hm
      exact hahead d hlands
    | back d =>
      obtain rfl := Option.some.inj ht
      obtain rfl := hm
      obtain ⟨o, heq, ho⟩ := hlands
      have hat : extent pre debug + Line.size ⟨.back (d debug), K⟩ = o debug + d debug := congrFun heq debug
      refine ⟨by omega, ?_⟩
      rw [hat, Nat.add_sub_cancel]
      exact (h.reached_lines ho debug).mono hle
    | extra j =>
      cases debug with
      | false => cases ht
      | true =>
        obtain rfl := Option.some.inj ht
        have hp : j.Proceeds ∧ DualLine.after ⟨.extra j, K⟩ = Line.after ⟨j, K⟩ := by
          cases j <;> first | exact hlands.elim | exact ⟨trivial, by funext b; simp [DualLine.after, Line.after]⟩
        exact Line.lands_of_proceeds hp.1 (hnext trivial hp.2) m hm
    | beyond d =>
      cases debug with
      | false => cases ht
      | true =>
        obtain rfl := Option.some.inj ht
        obtain rfl := hm
        exact hahead _ hlands
  enters := (entry_lines h.fits debug).trans h.enters

theorem free (hfree : Dual.same (.leap l) ∉ duals ts) (debug : Bool) :
    Line.Free l (DualLine.lines debug ts) := by
  intro line hline heq
  obtain ⟨pre, post, hsplit⟩ := append_of_mem hline
  obtain ⟨pre', ⟨x, K⟩, post', rfl, -, hx, -⟩ := at_lines ⟨pre, post, hsplit, rfl⟩
  rw [heq] at hx
  cases x with
  | same i =>
    cases hx
    exact hfree (by simp)
  | extra i =>
    have hsilent : i.Silent := h.fits.at.lands
    cases debug <;> cases hx
    exact hsilent
  | beyond d => cases debug <;> cases hx
  | _ => cases hx

/-- Without what is known, dual lines are aligned. -/
theorem aligned : Aligned g (duals ts) where
  sound x hx debug i hi := by
    obtain ⟨t, ht, rfl⟩ := mem_map.1 hx
    obtain ⟨pre, post, hts⟩ := append_of_mem ht
    have hfits := h.fits
    rw [hts] at hfits
    exact Instr.typed_mono (Regime.rules_le fun _ _ _ => trivial) (fun _ _ h => h) i (hfits.at.sound debug i hi).typed
  lands := by
    have hpart : ∀ (part : List DualLine) (o : Bool → Nat), FitsFrom g inn out ts out o part →
        LandsFrom (duals ts) o (duals part) := by
      intro part
      induction part with
      | nil => exact fun _ _ => trivial
      | cons t rest ih =>
        refine fun o hp => ⟨hp.1.lands.imp (zero_add _).symm ?_, ih _ hp.2⟩
        rintro - ⟨pre, post, rfl, rfl, -⟩
        exact ⟨duals pre, duals post, duals_append .., zero_add _⟩
    exact hpart ts 0 h.fits

end

end DualLeads

/-- Dual code as dual lines, if pointers do not matter. -/
theorem Aligned.dualLeads (h : Aligned g ws) (hg : ¬ g.tracked) (out : Known) :
    DualLeads g (fun _ => True) (ws.map (⟨·, fun _ => True⟩)) out where
  fits := by
    have hpart : ∀ (part : DualCode) (o : Bool → Nat), (∀ x ∈ part, x ∈ ws) → LandsFrom ws o part →
        FitsFrom g (fun _ => True) out (ws.map (⟨·, fun _ => True⟩)) out o (part.map (⟨·, fun _ => True⟩)) := by
      intro part
      induction part with
      | nil => exact fun _ _ _ => trivial
      | cons x rest ih =>
        intro o hmem hl
        refine ⟨⟨fun debug i hi => ⟨h.sound x (hmem x (by simp)) debug i hi, fun ht => absurd ht hg⟩, fun ht => absurd ht hg,
          hl.1.imp (zero_add _).symm ?_, fun _ ht => absurd ht hg⟩, ih _ (fun y hy => hmem y (by simp [hy])) hl.2⟩
        rintro - ⟨pre, post, rfl, rfl⟩
        refine ⟨_, _, map_append, ?_, fun ht => absurd ht hg⟩
        simp [extent, duals, Function.comp_def]
    exact hpart ws 0 (fun _ h => h) h.lands
  enters ht := absurd ht hg
  grows ht := absurd ht hg

end HostScript

import HostScript.Proofs.Compiling
import HostScript.Proofs.DualLines

/-! Code that is made of dual lines.

A fragment of code is made twice, for a debugger and without one. Here the ways in which
the compiler puts fragments together, statements in a row, loops, branches and jumps out
of loops, are matched with those in which dual lines are put together (`HasDual`). -/
namespace HostScript

open Line Fragment

/-! ### Code of loops and branches -/

theorem Fragment.ofPieces_back (d : Nat) : ofPieces (Instr.back d).pieces = .opcode .back ++ .distance d := by
  rw [← ofPieces_opcode, ← ofPieces_distance, ← ofPieces_append]
  rfl

theorem backToStart_code (lines : List Line) (K : Known) :
    Compiling.backToStart (Line.code lines) = Line.code (lines ++ [⟨.back (extent lines + 3), K⟩]) := by
  have hsize : (Line.code lines ++ .opcode .back).size = extent lines + 1 := by
    rw [← ofPieces_opcode, Line.code, ← ofPieces_append, size_ofPieces, extent_eq]
    simp [Piece.bytesOf_append, Piece.bytes]
  unfold Compiling.backToStart
  dsimp only
  rw [hsize, append_assoc, ← ofPieces_back, code_append, code_cons, code_nil, append_empty]

theorem Fragment.ofPieces_conditional (n : Node) (d : Nat) : ofPieces (Instr.conditional n d).pieces =
      .opcode .conditional ++ .ofPieces n.pieces ++ .distance d := by
  rw [← ofPieces_opcode, ← ofPieces_distance, ← ofPieces_append, ← ofPieces_append]
  simp [Instr.pieces, Piece.op, Piece.distance]

theorem conditional_code (n : Node) (d : Nat) (lines : List Line) (K : Known) :
    .opcode .conditional ++ .ofPieces n.pieces ++ .distance d ++ Line.code lines =
      Line.code (⟨.conditional n d, K⟩ :: lines) := by
  rw [← ofPieces_conditional, code_cons]

theorem checked_code (n : Node) (lines : List Line) (K : Known) :
    Line.code lines ++ .opcode .conditional ++ .ofPieces n.pieces ++ .word 3 =
      Line.code (lines ++ [⟨.conditional n 3, K⟩]) := by
  rw [code_append, code_cons, code_nil, append_empty, ofPieces_conditional,
    append_assoc, append_assoc, ← append_assoc (.opcode .conditional)]
  rfl

/-- The jump over a second branch, if there is one. -/
def Line.jumpOver (K : Known) (no : List Line) : List Line := if extent no = 0 then [] else [⟨.forward (extent no), K⟩]

theorem branched_code (n : Node) (yes no : List Line) (K : Known) :
    Compiling.branchedCode (.ofPieces n.pieces) (Line.code yes) (Line.code no) =
      Line.code (⟨.conditional n (extent yes + extent (jumpOver K no)), K⟩ :: (yes ++ (jumpOver K no ++ no))) := by
  have hbody : (if (Line.code no).size = 0 then Line.code yes
      else Line.code yes ++ .opcode .forward ++ .distance (Line.code no).size) = Line.code (yes ++ jumpOver K no) := by
    rw [size_code, jumpOver]
    split
    · rw [List.append_nil]
    · rw [code_append, code_cons, code_nil, append_empty, append_assoc,
        ← ofPieces_opcode, ← ofPieces_distance, ← ofPieces_append]
      rfl
  unfold Compiling.branchedCode
  dsimp only
  rw [hbody, size_code, conditional_code n _ _ K, ← code_append, extent_append, List.cons_append, List.append_assoc]

/-! ### Fragments of both kinds -/

/-- Code of both kinds that takes what is known from `inn` to `out`. Leaps of some kinds are filled in. -/
def HasDual (g : Regime) (inn : Known) (filled : Leap → Prop) (f : Bool → Fragment) (out : Known) : Prop :=
  ∃ ts, (∀ debug, f debug = Line.code (DualLine.lines debug ts)) ∧ DualLeads g inn ts out ∧
    ∀ l, filled l → Dual.same (.leap l) ∉ DualLine.duals ts

section HasDual

variable {g : Regime} {inn mid out K : Known} {filled : Leap → Prop} {f f' : Bool → Fragment}

theorem hasDual_empty : HasDual g K filled (fun _ => ∅) K := ⟨[], fun _ => rfl, .nil g K, by simp⟩

theorem HasDual.append (h : HasDual g inn filled f mid) (h' : HasDual g mid filled f' out) :
    HasDual g inn filled (fun debug => f debug ++ f' debug) out := by
  obtain ⟨as, hf, ha, hfa⟩ := h
  obtain ⟨bs, hf', hb, hfb⟩ := h'
  refine ⟨as ++ bs, fun debug => ?_, ha.append hb, fun l hl => ?_⟩
  · dsimp only
    rw [hf, hf', DualLine.lines_append, Line.code_append]
  · simpa using ⟨hfa l hl, hfb l hl⟩

section

variable (h : HasDual g inn filled f out)
include h

/-- More kinds of leaps may be left. -/
theorem HasDual.imp (hi : ∀ l, filled' l → filled l) : HasDual g inn filled' f out := by
  obtain ⟨ts, hf, hts, hfree⟩ := h
  exact ⟨ts, hf, hts, fun l hl => hfree l (hi l hl)⟩

theorem HasDual.congr (heq : ∀ debug, f' debug = f debug) : HasDual g inn filled f' out := by
  rwa [show f' = f from funext heq]

theorem HasDual.grows : g.Le inn out := by
  obtain ⟨ts, -, hts, -⟩ := h
  exact hts.grows

/-- What was learned on the way may be forgotten at the end. -/
theorem HasDual.weaken (ho : g.Le K out) (hi : g.Le inn K) : HasDual g inn filled f K := by
  obtain ⟨ts, hf, hts, hfree⟩ := h
  exact ⟨ts, hf, hts.weaken ho hi, hfree⟩

theorem HasDual.cycle : HasDual g inn filled f inn := h.weaken h.grows (.refl g inn)

end

/-- One statement of both kinds of code. -/
theorem hasDual_same (hs : Line.Sound g ⟨i, inn⟩)
    (hi : (i.Proceeds ∧ ¬ i.Tells) ∨ i = .exit ∨ ∃ l, i = .leap l ∧ ¬ filled l)
    (ho : i.Proceeds → g.Le out (Line.after ⟨i, inn⟩)) (hle : g.Le inn out) :
    HasDual g inn filled (fun _ => .ofPieces i.pieces) out := by
  refine ⟨[⟨.same i, inn⟩], fun debug => ?_, .single ?_ ?_ (fun hp => ?_) hle, fun l hl hmem => ?_⟩
  · simp [DualLine.lines, Dual.instr?, Line.code]
  · rintro debug j hj
    cases hj
    exact hs
  · exact fun _ _ => hi.imp_right (·.imp_right (·.imp fun _ h => h.1))
  · refine (ho hp).trans ?_
    rintro - b (hb | ⟨n, hn⟩)
    · exact .inl hb
    · exact .inr ⟨n, congrArg Dual.same hn⟩
  · obtain rfl : i = .leap l := (Dual.same.inj (List.mem_singleton.1 hmem)).symm
    obtain ⟨hp, -⟩ | hexit | ⟨m, hm, hne⟩ := hi
    · exact hp
    · cases hexit
    · cases hm
      exact hne hl

/-- One statement that proceeds and assigns to no variable. -/
theorem hasDual_single {i : Instr} (ht : i.Typed (g.rules K) (fun _ _ => False)) (hi : i.Proceeds ∧ ¬ i.Tells) :
    HasDual g K filled (fun _ => .ofPieces i.pieces) K := by
  refine hasDual_same ⟨Instr.typed_mono ⟨fun _ _ h => h, id⟩ (fun _ _ h => h.elim) i ht, ?_⟩ (.inl hi)
    (fun _ _ _ h => .inl h) (.refl g K)
  rintro - k a n rfl
  exact ht.1.elim

/-- A statement behind which the code does not go on: a leap, or the end of the script. -/
theorem hasDual_stop {i : Instr} (hi : i = .exit ∨ ∃ l, i = .leap l ∧ ¬ filled l) :
    HasDual g K filled (fun _ => .ofPieces i.pieces) K := by
  refine hasDual_same ?_ (.inr hi) (fun hp => ?_) (.refl g K) <;> obtain rfl | ⟨l, rfl, -⟩ := hi
  · exact ⟨trivial, fun _ _ _ _ heq => Instr.noConfusion heq⟩
  · exact ⟨trivial, fun _ _ _ _ heq => Instr.noConfusion heq⟩
  · exact hp.elim
  · exact hp.elim

/-- One statement for a debugger. -/
theorem hasDual_extra {i : Instr} (ht : i.Typed (g.rules K) g.room.Holds) (hi : i.Silent) :
    HasDual g K filled (fun debug => if debug then .ofPieces i.pieces else ∅) K := by
  refine ⟨[⟨.extra i, K⟩], fun debug => ?_, .single ?_ (fun _ _ => hi) (fun _ _ _ h => .inl h) (.refl g K), by simp⟩
  · cases debug <;> simp [DualLine.lines, Dual.instr?, Line.code]
    rfl
  · rintro debug j hj
    cases debug <;> cases hj
    refine ⟨ht, ?_⟩
    rintro - k a n rfl
    exact hi.elim

theorem HasDual.fill (h : HasDual g K filled f K) (l : Leap) (target : Fragment.Target) :
    HasDual g K (fun m => m = l ∨ filled m) (fun debug => (f debug).resolveJumps l.mark target) K := by
  obtain ⟨ts, hf, hts, hfree⟩ := h
  refine ⟨DualLine.fill l target ts, fun debug => ?_, hts.fill l target, fun m hm hmem => ?_⟩
  · dsimp only
    rw [hf, Line.code_fill, DualLine.fill, DualLine.lines_fillFrom l target _ hts.fits, Line.fill, DualLine.extent_lines]
    rfl
  · obtain ⟨t, ht, heq⟩ := List.mem_map.1 hmem
    obtain ⟨u, hu, p, hfill⟩ := DualLine.mem_fillFrom l target _ ht
    rw [hfill] at heq
    obtain ⟨hsame, hne⟩ | ⟨-, hjump⟩ := u.dual.fill_cases l target (DualLine.extent ts) p
    · rw [hsame] at heq
      obtain rfl | hm := hm
      · exact hne heq
      · exact hfree m hm (heq ▸ List.mem_map_of_mem hu)
    · rw [hjump] at heq
      cases target <;> cases heq

/-- A jump back behind the dual lines that it closes. -/
theorem hasDual_back (hf : ∀ debug, f debug = Line.code (DualLine.lines debug ts))
    (h : DualLeads g K (ts ++ [⟨.back (DualLine.extent ts + fun _ => 3), K⟩]) K)
    (hfree : ∀ l, filled l → Dual.same (.leap l) ∉ DualLine.duals ts) :
    HasDual g K filled (fun debug => Compiling.backToStart (f debug)) K := by
  refine ⟨_, fun debug => ?_, h, fun l hl => by simpa using hfree l hl⟩
  dsimp only
  rw [hf, backToStart_code _ K, DualLine.lines_append, DualLine.extent_lines]
  rfl

theorem HasDual.loop (h : HasDual g K filled f K) : HasDual g K filled (fun debug => Compiling.backToStart (f debug)) K := by
  obtain ⟨ts, hf, hts, hfree⟩ := h
  exact hasDual_back hf hts.loop hfree

section Conditional

variable {c : Fragment} (hc : Coded (g.rules K) .bool c)

include hc

theorem HasDual.guarded (h : HasDual g K filled f K) : HasDual g K filled (fun debug =>
      Compiling.backToStart (.opcode .conditional ++ c ++ .distance ((f debug).size + 3) ++ f debug)) K := by
  obtain ⟨n, rfl, hn⟩ := hc
  obtain ⟨ts, hf, hts, hfree⟩ := h
  refine hasDual_back (fun debug => ?_) (hts.guarded hn) fun l hl => by simpa using hfree l hl
  rw [hf, Line.size_code, DualLine.extent_lines, conditional_code n _ _ K]
  rfl

theorem HasDual.checked (h : HasDual g K filled f K) :
    HasDual g K filled (fun debug => Compiling.backToStart (f debug ++ .opcode .conditional ++ c ++ .word 3)) K := by
  obtain ⟨n, rfl, hn⟩ := hc
  obtain ⟨ts, hf, hts, hfree⟩ := h
  refine hasDual_back (fun debug => ?_) (hts.checked hn) fun l hl => by simpa using hfree l hl
  rw [hf, checked_code n _ K, DualLine.lines_append]
  rfl

/-- A second branch that only tells a debugger something needs a jump over it in one kind of code only. -/
theorem HasDual.branch (h : HasDual g K filled f K) (h' : HasDual g K filled f' K) :
    HasDual g K filled (fun debug => Compiling.branchedCode c (f debug) (f' debug)) K := by
  obtain ⟨n, rfl, hn⟩ := hc
  obtain ⟨yes, hf, hyes, hfree⟩ := h
  obtain ⟨no, hf', hno, hfree'⟩ := h'
  have hcode : ∀ debug, Compiling.branchedCode (.ofPieces n.pieces) (f debug) (f' debug) = _ := fun debug => by
    rw [hf, hf', branched_code n _ _ K, DualLine.extent_lines, jumpOver, DualLine.extent_lines]
  by_cases htrue : DualLine.extent no true = 0
  · -- there is nothing in the second branch
    obtain rfl := DualLine.eq_nil_of_extent htrue
    refine ⟨⟨.conditional n (DualLine.extent yes), K⟩ :: yes, fun debug => ?_, hyes.skip hn,
      fun l hl => by simpa using hfree l hl⟩
    dsimp only
    rw [hcode, if_pos (by simp)]
    simp [DualLine.lines, Dual.instr?]
  · -- the jump between the branches, which is in both kinds of code unless one of them has nothing to skip
    have hjump : ∃ jump : Dual, (∀ debug i, jump.instr? debug = some i → Line.Sound g ⟨i, K⟩) ∧
        (∀ reached e, reached (e + DualLine.extent no) → DualCode.Lands reached e jump) ∧
        (∀ l, jump ≠ .same (.leap l)) ∧ ∀ debug, DualLine.lines debug [⟨jump, K⟩] =
          if DualLine.extent no debug = 0 then [] else [⟨.forward (DualLine.extent no debug), K⟩] := by
      by_cases hfalse : DualLine.extent no false = 0
      · refine ⟨.beyond (DualLine.extent no true), DualLeads.sound_beyond _, fun reached e h => ?_, (fun _ h => by cases h),
          fun debug => ?_⟩
        · have hextent : DualLine.extent no = fun debug => bif debug then DualLine.extent no true else 0 := by
            funext debug
            cases debug
            · exact hfalse
            · rfl
          rwa [hextent] at h
        · cases debug
          · rw [if_pos hfalse]
            rfl
          · rw [if_neg htrue]
            rfl
      · refine ⟨.forward (DualLine.extent no), DualLeads.sound_forward _, fun _ _ h => h, (fun _ h => by cases h), fun debug => ?_⟩
        rw [if_neg (by cases debug <;> assumption)]
        rfl
    obtain ⟨jump, hs, hlands, hleap, hlines⟩ := hjump
    refine ⟨_, fun debug => ?_, .branch hn hs hlands (fun _ => hno.enters) hyes hno, fun l hl hmem => ?_⟩
    · have hsize : jump.size debug = extent (DualLine.lines debug [⟨jump, K⟩]) := by simp
      have hrow : DualLine.lines debug (⟨.conditional n (DualLine.extent yes + jump.size), K⟩ :: (yes ++ ([⟨jump, K⟩] ++ no))) =
          ⟨.conditional n (DualLine.extent yes debug + jump.size debug), K⟩ ::
            (DualLine.lines debug yes ++ (DualLine.lines debug [⟨jump, K⟩] ++ DualLine.lines debug no)) := by
        rw [DualLine.lines_cons, DualLine.lines_append, DualLine.lines_append]
        rfl
      dsimp only
      rw [hcode, ← hlines, ← hsize, ← hrow]
      rfl
    · simp only [DualLine.duals_cons, DualLine.duals_append, List.mem_cons, List.mem_append, reduceCtorEq, false_or] at hmem
      obtain hmem | hmem | hmem := hmem
      · exact hfree l hl hmem
      · exact hleap l hmem.symm
      · exact hfree' l hl hmem

end Conditional

end HasDual

end HostScript

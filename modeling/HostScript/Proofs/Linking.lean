import HostScript.Proofs.Statements
import HostScript.Session

/-! Files put together.

The code of a file stands behind the code of the files it imports, and each of these
has its storage moved up above what the ones before it need. The whole leads from the
start, where all storage is still empty, to where the variables of the file hold what
it left in them. -/
namespace HostScript

open Line Storage List

variable {code : Fragment} {g : Regime} {l : Session.Linked} {low room : Storage} {e : String × Variable} {v : Variable}
  {vars : Variables} {k : Kind} {base : Storage}

/-! ### Variables of imported files -/

theorem Storage.Holds.move (h : room.Holds k a) : (base + room).Holds k (base.move k a) := by
  unfold Storage.Holds at h ⊢
  by_cases hk : k = .string
  · simp only [hk, if_true] at h ⊢
    show a + base.slots < base.slots + room.slots
    omega
  · simp only [Storage.move, hk, if_false] at h ⊢
    show a + base.bytes + k.size ≤ base.bytes + room.bytes
    omega

theorem Storage.Under.move (h : low.Under k a) : (base + low).Under k (base.move k a) := by
  unfold Storage.Under at h ⊢
  by_cases hk : k = .string
  · simp only [hk, if_true] at h ⊢
    show base.slots + low.slots ≤ a + base.slots
    omega
  · simp only [Storage.move, hk, if_false] at h ⊢
    show base.bytes + low.bytes ≤ a + base.bytes
    omega

namespace Variable

/-- The variable above some storage. -/
def up (base : Storage) (v : Variable) : Variable :=
  { v with address := v.address + Variables.addressIn base v.type }

variable {top : Storage} {w : Variable}

theorem address_up (hk : v.type.primitive = .kind k) : (v.up base).address = base.move k v.address := by
  unfold up Variables.addressIn move
  simp [hk]

theorem Between.up (h : v.Between low top) (base : Storage) : (v.up base).Between (base + low) (base + top) := by
  obtain ⟨k, hk, hunder, hin⟩ := h
  refine ⟨k, hk, ?_, ?_⟩ <;> rw [address_up hk]
  · exact hunder.move
  · exact hin.move

theorem In.up (h : v.In room) (base : Storage) : (v.up base).Between base (base + room) := by
  obtain ⟨k, hk, hin⟩ := h
  have hunder : none.Under k v.address := by
    unfold Storage.Under
    split <;> exact Nat.zero_le _
  exact Between.up ⟨k, hk, hunder, hin⟩ base

theorem Separate.up (h : v.Separate w) (base : Storage) : (v.up base).Separate (w.up base) := by
  constructor
  · intro j k hj hk hjs hks
    have hsep := h.bytes j k hj hk hjs hks
    rw [address_up (v := v) hj, address_up (v := w) hk]
    simp only [move, hjs, hks]
    omega
  · intro hj hk
    have hsep := h.slots hj hk
    rw [address_up (v := v) hj, address_up (v := w) hk]
    simp only [move]
    omega

/-- A variable of an imported file that fits is the variable moved up. -/
theorem relocate_eq (hv : v.In room) (hb : base.bytes + room.bytes ≤ limit)
    (hs : base.slots + room.slots ≤ limit) : Variables.relocate base v = v.up base := by
  obtain ⟨k, hk, hin⟩ := hv
  have hstring : (v.type.primitive = .kind .string) ↔ k = .string := by rw [hk]; simp
  unfold Variables.relocate
  congr 1
  refine Nat.min_eq_left ?_
  unfold Storage.Holds at hin
  unfold Variables.addressIn
  by_cases hks : k = .string
  · rw [if_pos hks] at hin
    rw [if_pos (hstring.2 hks)]
    omega
  · rw [if_neg hks] at hin
    rw [if_neg (mt hstring.1 hks)]
    omega

end Variable

namespace Variables

/-- What is known when the code of a file has run: storage above its own is untouched, and its
pointer variables hold trusted pointers. -/
def known (vs : Variables) : Known := fun b => vs.needed.bytes ≤ b ∨ vs.Knows (fun _ => False) b

/-- What adding variables of an imported file does to the variables in front of it. -/
structure Imports (base : Storage) (xs : List (String × Variable)) (vs vs' : Variables) : Prop where
  outer : vs'.outer = vs.outer
  lowest : vs'.top.base = vs.top.base
  needed : vs'.needed = vs.needed
  source : ∀ e ∈ vs'.top.vars.toList, e ∈ vs.top.vars.toList ∨ ∃ d ∈ xs, e = (d.1, relocate base d.2)
  apart : vs'.top.vars.toList.Pairwise fun d e => d.2.Separate e.2

theorem imports_foldl (xs : List (String × Variable)) (clashes : List (String × Variable))
    (hvs : vs.top.vars.toList.Pairwise fun d e => d.2.Separate e.2)
    (hxs : xs.Pairwise fun d e => (relocate base d.2).Separate (relocate base e.2))
    (hcross : ∀ e ∈ vs.top.vars.toList, ∀ d ∈ xs, e.2.Separate (relocate base d.2)) :
    Imports base xs vs (xs.foldl (importOne base) (clashes, vs)).2 := by
  induction xs generalizing clashes vs with
  | nil => exact ⟨rfl, rfl, rfl, fun e he => .inl he, hvs⟩
  | cons x rest ih =>
    obtain ⟨hx, hrest⟩ := pairwise_cons.1 hxs
    rw [foldl_cons]
    unfold importOne
    dsimp only
    split
    · obtain ⟨ho, hl, hn, hsrc, hap⟩ := ih (x :: clashes) hvs hrest
        fun e he d hd => hcross e he d (mem_cons_of_mem _ hd)
      refine ⟨ho, hl, hn, fun e he => ?_, hap⟩
      exact (hsrc e he).imp_right fun ⟨d, hd, heq⟩ => ⟨d, mem_cons_of_mem _ hd, heq⟩
    · have hlist : (vs.top.add x.1 (relocate base x.2)).vars.toList =
          vs.top.vars.toList ++ [(x.1, relocate base x.2)] := by simp [Frame.add]
      have hadded : ((vs.top.add x.1 (relocate base x.2)).vars.toList).Pairwise
          fun d e => d.2.Separate e.2 := by
        rw [hlist, pairwise_append]
        refine ⟨hvs, pairwise_singleton _ _, fun d hd e he => ?_⟩
        rw [mem_singleton.1 he]
        exact hcross d hd x (mem_cons_self ..)
      have hnext : ∀ e ∈ (vs.top.add x.1 (relocate base x.2)).vars.toList, ∀ d ∈ rest,
          e.2.Separate (relocate base d.2) := by
        intro e he d hd
        rw [hlist] at he
        obtain he | he := mem_append.1 he
        · exact hcross e he d (mem_cons_of_mem _ hd)
        · rw [mem_singleton.1 he]
          exact hx d hd
      have hih : Imports base rest { vs with top := vs.top.add x.1 (relocate base x.2) } _ :=
        ih clashes hadded hrest hnext
      obtain ⟨ho, hl, hn, hsrc, hap⟩ := hih
      refine ⟨ho, hl, hn, fun e he => ?_, hap⟩
      obtain he | ⟨d, hd, heq⟩ := hsrc e he
      · rw [hlist] at he
        obtain he | he := mem_append.1 he
        · exact .inl he
        · exact .inr ⟨x, mem_cons_self .., mem_singleton.1 he⟩
      · exact .inr ⟨d, mem_cons_of_mem _ hd, heq⟩

/-- The variables that a file leaves, or files one behind the other: nothing but a frame for the
file, from the start of storage on. -/
structure Settled (vars : Variables) : Prop where
  laid : vars.Laid
  formed : vars.Formed
  flat : vars.outer = []
  lowest : vars.top.base = .none

namespace Settled

theorem empty : Settled .empty where
  laid := ⟨⟨.refl _, by simp [Variables.empty], .nil, trivial⟩, .refl _⟩
  formed frame hf e he := by
    obtain rfl : frame = ⟨#[], .none⟩ := mem_singleton.1 hf
    simp at he
  flat := rfl
  lowest := rfl

theorem globals (h : vars.Settled) : vars.globals = vars.top := by
  unfold Variables.globals
  rw [h.flat]
  rfl

theorem sees (h : vars.Settled) : vars.Sees v ↔ ∃ e ∈ vars.top.vars.toList, e.2 = v := by
  unfold Variables.Sees Variables.frames
  rw [h.flat]
  simp

/-- Every variable is within what is needed. -/
theorem inside (h : vars.Settled) (he : e ∈ vars.top.vars.toList) : e.2.In vars.needed :=
  (h.laid.frames.inTop (mem_cons_self ..) he).mono h.laid.needed

/-- The variables of a file that is imported next. -/
theorem imports (hl : l.vars.Settled) (hf : vars.Settled) (hb : l.vars.needed.bytes + vars.needed.bytes ≤ limit)
    (hs : l.vars.needed.slots + vars.needed.slots ≤ limit) : Imports l.vars.needed vars.top.vars.toList l.vars
      (vars.top.vars.toList.foldl (importOne l.vars.needed) ([], l.vars)).2 := by
  refine imports_foldl _ [] hl.laid.frames.2.2.1 ?_ fun e he d hd => ?_
  · refine List.Pairwise.imp_of_mem (fun hd he hsep => ?_) hf.laid.frames.2.2.1
    rw [Variable.relocate_eq (hf.inside hd) hb hs, Variable.relocate_eq (hf.inside he) hb hs]
    exact hsep.up _
  · rw [Variable.relocate_eq (hf.inside hd) hb hs]
    exact Variable.separate_of_in (hl.inside he) ((hf.inside hd).up _)

theorem add_vars (hf : vars.Settled) : (l.add code vars).vars =
      { (vars.top.vars.toList.foldl (importOne l.vars.needed) ([], l.vars)).2 with
        inUse := l.vars.needed + vars.needed, needed := l.vars.needed + vars.needed } := by
  show (l.vars.append vars).2 = _
  unfold Variables.append
  rw [hf.globals, ← Array.foldl_toList]

/-- Every variable was there, or is one of the imported file moved up. -/
theorem source_add (hl : l.vars.Settled) (hf : vars.Settled) (code : Fragment)
    (hb : l.vars.needed.bytes + vars.needed.bytes ≤ limit)
    (hs : l.vars.needed.slots + vars.needed.slots ≤ limit) (he : e ∈ (l.add code vars).vars.top.vars.toList) :
    e ∈ l.vars.top.vars.toList ∨ ∃ d ∈ vars.top.vars.toList, e = (d.1, d.2.up l.vars.needed) := by
  rw [hf.add_vars] at he
  refine ((hl.imports hf hb hs).source e he).imp_right fun ⟨d, hd, heq⟩ => ⟨d, hd, ?_⟩
  rw [heq, Variable.relocate_eq (hf.inside hd) hb hs]

theorem add (hl : l.vars.Settled) (hf : vars.Settled) (code : Fragment)
    (hb : l.vars.needed.bytes + vars.needed.bytes ≤ limit)
    (hs : l.vars.needed.slots + vars.needed.slots ≤ limit) : (l.add code vars).vars.Settled := by
  have himports := hl.imports hf hb hs
  have hsource := fun e he => hl.source_add hf code hb hs (e := e) he
  have houter : (l.add code vars).vars.outer = [] := by
    rw [hf.add_vars]
    exact himports.outer.trans hl.flat
  have hlowest : (l.add code vars).vars.top.base = .none := by
    rw [hf.add_vars]
    exact himports.lowest.trans hl.lowest
  have hbetween : ∀ e ∈ (l.add code vars).vars.top.vars.toList, e.2.Between .none (l.vars.needed + vars.needed) := by
    intro e he
    have hin : e.2.In (l.vars.needed + vars.needed) := by
      obtain he | ⟨d, hd, rfl⟩ := hsource e he
      · exact (hl.inside he).mono (le_add _ _)
      · exact ((hf.inside hd).up _).inTop
    obtain ⟨k, hk, hin⟩ := hin
    refine ⟨k, hk, ?_, hin⟩
    unfold Storage.Under
    split <;> exact Nat.zero_le _
  refine ⟨⟨?_, .refl _⟩, ?_, houter, hlowest⟩
  · show Frame.Laid ((l.add code vars).vars.top :: (l.add code vars).vars.outer) (l.vars.needed + vars.needed)
    rw [houter]
    refine ⟨?_, ?_, ?_, trivial⟩
    · rw [hlowest]
      exact ⟨Nat.zero_le _, Nat.zero_le _⟩
    · rw [hlowest]
      exact hbetween
    · rw [hf.add_vars]
      exact himports.apart
  · intro frame hframe e he
    obtain rfl : frame = (l.add code vars).vars.top := by
      have hf' : frame ∈ (l.add code vars).vars.top :: (l.add code vars).vars.outer := hframe
      rw [houter] at hf'
      exact mem_singleton.1 hf'
    obtain he | ⟨d, hd, rfl⟩ := hsource e he
    · exact hl.formed l.vars.top (mem_cons_self ..) e he
    · exact hf.formed vars.top (mem_cons_self ..) d hd

end Settled

end Variables

/-! ### Assembled code -/

/-- Code of a file, or of files one behind the other, with the variables that it leaves. -/
structure Assembled (g : Regime) (code : Fragment) (vars : Variables) : Prop extends vars.Settled where
  lines : ∃ lines, code = Line.code lines ∧ Leads g (fun _ => True) lines vars.known ∧ ∀ l, Line.Free l lines

namespace Assembled

theorem empty (g : Regime) : Assembled g ∅ .empty where
  toSettled := .empty
  lines := ⟨[], rfl, .nil fun _ _ _ => trivial, fun l => free_nil l⟩

theorem add_code (hb : l.vars.needed.bytes ≤ limit) (hs : l.vars.needed.slots ≤ limit) :
    (l.add code vars).code = l.code ++ code.relocate l.vars.needed := by
  show l.code ++ code.relocate ⟨min _ _, min _ _⟩ = _
  rw [Nat.min_eq_left hb, Nat.min_eq_left hs]

theorem free_place (h : y.instr ≠ .leap m) : (place base X y).instr ≠ .leap m := by
  unfold place
  cases hi : y.instr <;> simp_all [Instr.relocate]

theorem free_clear (h : y.instr ≠ .leap m) : (clear y).instr ≠ .leap m := by
  unfold clear
  cases hi : y.instr <;> simp_all [Instr.clearLine]

/-- Lines of an imported file move above what was needed before, where nothing was touched. -/
theorem leads_place (before after : Variables) {lines : List Line}
    (hleads : Leads ⟨vars.needed, g.floatBits, g.tracked⟩ (fun _ => True) lines vars.known)
    (hroom : (before.needed + vars.needed).Le g.room) (hneeded : after.needed = before.needed + vars.needed)
    (hsees : ∀ v, after.Sees v → v.type.primitive = .kind .pointer →
      (before.Sees v ∧ v.address + 8 ≤ before.needed.bytes) ∨
        ∃ w, vars.Sees w ∧ w.type.primitive = .kind .pointer ∧ v.address = before.needed.move .pointer w.address) :
    ∃ X, Leads g before.known (lines.map (place before.needed X)) after.known := by
  let X : Known := fun b => before.known b ∧
    (b + 8 ≤ before.needed.bytes ∨ before.needed.bytes + vars.needed.bytes ≤ b)
  have hchange : Line.Change ⟨vars.needed, g.floatBits, g.tracked⟩ g (place before.needed X)
      (lift before.needed X) :=
    change_place id id (fun k a h => h.move.mono hroom) fun _ b hb => hb.2
  refine ⟨X, ((hchange.leads hleads).enter ?_).forget ?_⟩
  · rintro - b (⟨a, -, rfl⟩ | hb)
    · exact .inl (by simp [move])
    · exact hb.1
  · rintro - b (hb | hb | ⟨v, hv, hp, rfl⟩)
    · have hge : before.needed.bytes + vars.needed.bytes ≤ b := by
        rw [hneeded] at hb
        exact hb
      exact .inr ⟨.inl (Nat.le_trans (Nat.le_add_right _ _) hge), .inr hge⟩
    · exact hb.elim
    · obtain ⟨hv, hlow⟩ | ⟨w, hw, hwp, heq⟩ := hsees v hv hp
      · exact .inr ⟨.inr (.inr ⟨v, hv, hp, rfl⟩), .inl hlow⟩
      · exact .inl ⟨w.address, .inr (.inr ⟨w, hw, hwp, rfl⟩), heq⟩

/-- An imported file is assembled code again, above what was needed before. -/
theorem add (hl : Assembled g l.code l.vars) (hf : Assembled ⟨vars.needed, g.floatBits, g.tracked⟩ code vars)
    (hroom : (l.vars.needed + vars.needed).Le g.room) (hb : l.vars.needed.bytes + vars.needed.bytes ≤ limit)
    (hs : l.vars.needed.slots + vars.needed.slots ≤ limit) :
    Assembled g (l.add code vars).code (l.add code vars).vars := by
  have hsettled := hl.toSettled.add hf.toSettled code hb hs
  refine ⟨hsettled, ?_⟩
  obtain ⟨as, has, hleads, hfree⟩ := hl.lines
  obtain ⟨bs, rfl, hleads', hfree'⟩ := hf.lines
  rw [add_code (Nat.le_trans (Nat.le_add_right _ _) hb) (Nat.le_trans (Nat.le_add_right _ _) hs)]
  obtain ⟨X, hplaced⟩ := leads_place l.vars (l.add (Line.code bs) vars).vars hleads' hroom rfl fun v hv hp => by
    obtain ⟨e, he, rfl⟩ := hsettled.sees.1 hv
    obtain he | ⟨d, hd, rfl⟩ := hl.toSettled.source_add hf.toSettled _ hb hs he
    · refine .inl ⟨hl.sees.2 ⟨e, he, rfl⟩, ?_⟩
      obtain ⟨k, hk, hin⟩ := hl.inside he
      obtain rfl : k = .pointer := Primitive.kind.inj (hk.symm.trans hp)
      exact hin
    · exact .inr ⟨d.2, hf.sees.2 ⟨d, hd, rfl⟩, hp, Variable.address_up hp⟩
  refine ⟨as ++ bs.map (place l.vars.needed X), ?_, hleads.append hplaced, fun m => free_append (hfree m) ?_⟩
  · rw [has, code_append, ← code_place]
  · intro x hx
    obtain ⟨y, hy, rfl⟩ := mem_map.1 hx
    exact free_place (hfree' m y hy)

/-! ### A file behind what it imports -/

end Assembled

/-- Addresses of pointer variables to which nothing is assigned before the code can read them. -/
def Survey.Loose (s : Survey) : Known := fun b =>
  ∃ e ∈ s.vars, e.2 = true ∧ e.1.type.primitive = .kind .pointer ∧ e.1.address = b

/-- What a file must keep to for its code to be sound. -/
structure Survey.Proper (bits tracked : Prop) (s : Survey) : Prop where
  asks : ∀ a ∈ s.asks, a.hasVoidOperand = false ∧ (a.wantsFloatBits = true → bits)
  respects : tracked → ∀ e ∈ s.vars, e.1.Respects s.Loose

theorem Survey.Sparing.respects {s : Survey} (h : s.Sparing) : ∀ e ∈ s.vars, e.1.Respects s.Loose := by
  rintro f hf k hk b ⟨e, he, hloose, hp, rfl⟩
  have hspares := h e he hloose hp f hf
  unfold Variable.spares at hspares
  rw [hk] at hspares
  simp only [Bool.or_eq_true, Bool.and_eq_true, decide_eq_true_eq] at hspares
  obtain ((hs | hlow) | hhigh) | hsame := hspares
  · exact .inl (.inl hs)
  · exact .inl (.inr (.inl hlow))
  · exact .inl (.inr (.inr hhigh))
  · exact .inr hsame

namespace Assembled

variable {ctx : Context} {script : Script}

/-- Storage that is known to be trusted all the time while a file runs: where its loose pointers
are, and above everything it has. -/
def spared (g : Regime) (s : Survey) : Known := fun b => s.Loose b ∨ g.room.bytes ≤ b

theorem respects_above (hG : v.Respects G) (hin : v.Fits g.room) : v.Respects fun b => G b ∨ g.room.bytes ≤ b := by
  rintro k hk b (hb | hb)
  · exact hG k hk b hb
  · have hfits := hin k hk
    unfold Storage.Holds at hfits
    by_cases hs : k = .string
    · exact .inl (.inl hs)
    · rw [if_neg hs] at hfits
      exact .inl (.inr (.inr (Nat.le_trans hfits hb)))

section Own

variable {api : Api} (hroom : g.room = (Statement.surveyAll api script l.vars).2.needed)

include hroom

/-- A file starts with the variables of the files it imports; its own lie above them. -/
theorem ready_own (hl : l.vars.Settled) (hfull : l.vars.inUse = l.vars.needed) :
    (∀ b, (script.survey api l.vars).Loose b → l.vars.needed.bytes ≤ b) ∧
      l.vars.Ready g (spared g (script.survey api l.vars)) := by
  have hnested := Statement.nested_surveyAll api script
  have hneeded : l.vars.needed.Le g.room := hroom ▸ hnested.needed l.vars
  have habove : ∀ b, (script.survey api l.vars).Loose b → l.vars.needed.bytes ≤ b := by
    rintro b ⟨e, he, -, hp, rfl⟩
    have := hnested.above l.vars e he .pointer hp
    rwa [hfull] at this
  refine ⟨habove, hl.laid, hl.formed, fun v hv => ?_, fun _ v hv => ?_⟩ <;> obtain ⟨e, he, rfl⟩ := hl.sees.1 hv
  · exact (hl.inside he).mono hneeded
  · obtain ⟨j, hj, hin⟩ := hl.inside he
    refine respects_above (fun k hk b hb => ?_) fun k hk => ?_ <;>
      obtain rfl : j = k := Primitive.kind.inj (hj.symm.trans hk)
    · by_cases hs : j = .string
      · exact .inl (.inl hs)
      · unfold Storage.Holds at hin
        rw [if_neg hs] at hin
        exact .inl (.inr (.inr (Nat.le_trans hin (habove b hb))))
    · exact hin.mono hneeded

theorem admits_own (hproper : (script.survey api l.vars).Proper g.floatBits g.tracked) :
    (script.survey api l.vars).Admits g (spared g (script.survey api l.vars)) := by
  have hfits : ∀ e ∈ (script.survey api l.vars).vars, e.1.Fits g.room :=
    hroom ▸ (Statement.nested_surveyAll api script).fits l.vars
  exact ⟨hproper.asks, hfits, fun ht e he => respects_above (hproper.respects ht e he) (hfits e he),
    fun _ e he hloose hp => .inl ⟨e, he, hloose, hp, rfl⟩⟩

end Own

section

variable (hl : Assembled g l.code l.vars) (hfull : l.vars.inUse = l.vars.needed) (hapi : ctx.api.Formed)
  (hscript : script.Formed) (htexts : ∀ x ∈ script.texts, Clean x)
  (hroom : g.room = (Statement.surveyAll ctx.api script l.vars).2.needed)
  (hproper : (script.survey ctx.api l.vars).Proper g.floatBits g.tracked)
  (h : script.compile ctx l.code.zeroLines l.vars = (code, ⟨vars, #[]⟩))
include hl hfull hapi hscript htexts hroom hproper h

/-- The code of a file behind what it imports: its own lines take up what the files before it left,
and go nowhere else. -/
theorem own :
    vars = (Statement.surveyAll ctx.api script l.vars).2 ∧ (vars.Laid ∧ vars.Formed) ∧
      ∃ own, code = l.code.zeroLines ++ Line.code own ∧ Leads g l.vars.known own vars.known ∧ ∀ m, Line.Free m own := by
  have hneeded : l.vars.needed.Le g.room := hroom ▸ (Statement.nested_surveyAll ctx.api script).needed l.vars
  obtain ⟨habove, hready⟩ := ready_own hroom hl.toSettled hfull
  have hadmits := admits_own hroom hproper
  obtain ⟨hvars, hready', own, hcode, hleads, hfree⟩ := Script.compile_leads hapi hscript htexts hready hadmits h
  refine ⟨hvars, ⟨hready'.laid, hready'.formed⟩, own, hcode, (hleads.enter ?_).forget ?_, hfree⟩
  · rintro - b ((hb | hb) | ⟨v, hv, hp⟩)
    · exact .inl (habove b hb)
    · exact .inl (Nat.le_trans hneeded.bytes hb)
    · exact .inr (.inr ⟨v, hv, hp⟩)
  · rintro - b (hb | hb | hb)
    · refine .inl (.inr ?_)
      rwa [hroom, ← hvars]
    · exact hb.elim
    · exact .inr hb

theorem compile : Assembled g code vars := by
  have hnested := Statement.nested_surveyAll ctx.api script
  obtain ⟨hvars, ⟨hlaid, hformed⟩, own, rfl, hown, hfree⟩ := hl.own hfull hapi hscript htexts hroom hproper h
  obtain ⟨lines, hlines, hleads, hfree'⟩ := hl.lines
  have hsettled : vars.Settled :=
    ⟨hlaid, hformed, by rw [hvars, hnested.outer, hl.flat], by rw [hvars, hnested.base, hl.lowest]⟩
  refine ⟨hsettled, lines.map clear ++ own, ?_, ?_, fun m => free_append (fun x hx => ?_) (hfree m)⟩
  · rw [code_append, ← code_clear, hlines]
  · exact ((change_clear g).leads hleads).append hown
  · obtain ⟨y, hy, rfl⟩ := mem_map.1 hx
    exact free_clear (hfree' m y hy)

end

end Assembled

end HostScript

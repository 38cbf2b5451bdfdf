import HostScript.Proofs.Noted
import Mathlib.Data.List.Forall2

/-! Splices of splices.

When what stands at the marks of a fragment lies inside of it and apart, moving its storage up adds to
the words at its storage marks and changes nothing else (`Raised`). Moving up twice adds both amounts,
and a fragment that was put together is moved part by part. So a tree of splices gives its leaves one
behind the other, each moved up by all that is on the way to it (`splices_compose`). -/
namespace HostScript

open List hiding append_assoc

variable {f g h : Fragment} {base a b : Storage} {m n : Mark} {bytes : Array UInt8} {i : Nat}

/-- How many bytes stand at a mark. -/
def MarkKind.width : MarkKind → Nat
  | .breakJump | .continueJump => 3
  | _ => 2

def Mark.stop (m : Mark) : Nat := m.location + m.kind.width

/-- An address or an index of the string table stands at the mark. -/
def Mark.Stores (m : Mark) : Prop := m.kind = .address ∨ m.kind = .slot

theorem Mark.two_le_stop (m : Mark) : m.location + 2 ≤ m.stop := by
  unfold Mark.stop MarkKind.width
  split <;> omega

namespace Fragment

/-- The bytes of two marks are apart. -/
def Apart (m n : Mark) : Prop := m.stop ≤ n.location ∨ n.stop ≤ m.location

/-- What stands at marks lies inside of the code, and apart. -/
structure Sound (f : Fragment) : Prop where
  inside : ∀ m ∈ f.marks.toList, m.stop ≤ f.size
  apart : f.marks.toList.Pairwise Apart

instance : Decidable (Apart m n) := inferInstanceAs (Decidable (_ ∨ _))

instance : Decidable f.Sound :=
  decidable_of_iff ((∀ m ∈ f.marks.toList, m.stop ≤ f.size) ∧ f.marks.toList.Pairwise Apart)
    ⟨fun h => ⟨h.1, h.2⟩, fun h => ⟨h.1, h.2⟩⟩

/-- A byte is no part of an address or an index. -/
def Untouched (marks : List Mark) (i : Nat) : Prop :=
  ∀ m ∈ marks, m.Stores → i < m.location ∨ m.location + 2 ≤ i

/-- A fragment with its storage moved up: addresses are larger by the bytes and indices by the slots of the base,
modulo 65536, and everything else is the same. -/
structure Raised (base : Storage) (f g : Fragment) : Prop where
  marks : g.marks = f.marks
  size : g.size = f.size
  words : ∀ m ∈ f.marks.toList, m.Stores →
    wordAt g.bytes m.location = (wordAt f.bytes m.location + shift base m.kind) % 65536
  rest : ∀ i, Untouched f.marks.toList i → g.bytes[i]? = f.bytes[i]?

/-! ### Words -/

theorem wordAt_lt (bytes : Array UInt8) (location : Nat) : wordAt bytes location < 65536 := by
  have hlow := (bytes[location]?.getD 0).toNat_lt
  have hhigh := (bytes[location + 1]?.getD 0).toNat_lt
  simp only [wordAt, Bytes.toNat]
  omega

theorem wordAt_congr (hlow : bytes[l]? = other[k]?) (hhigh : bytes[l + 1]? = other[k + 1]?) :
    wordAt bytes l = wordAt other k := by
  unfold wordAt
  rw [hlow, hhigh]

/-- A word has just one form. -/
theorem getElem?_of_wordAt (hsize : bytes.size = other.size) (hl : l + 2 ≤ bytes.size)
    (h : wordAt bytes l = wordAt other l) : bytes[l]? = other[l]? ∧ bytes[l + 1]? = other[l + 1]? := by
  have hlow := (bytes[l]?.getD 0).toNat_lt
  have hlow' := (other[l]?.getD 0).toNat_lt
  simp only [wordAt, Bytes.toNat] at h
  rw [Array.getElem?_eq_getElem (by omega), Array.getElem?_eq_getElem (by omega), Array.getElem?_eq_getElem (by omega),
    Array.getElem?_eq_getElem (by omega)] at *
  simp only [Option.getD_some, Option.some.injEq, ← UInt8.toNat_inj] at *
  omega

theorem wordAt_append_left (h : l + 2 ≤ bytes.size) : wordAt (bytes ++ other) l = wordAt bytes l :=
  wordAt_congr (Array.getElem?_append_left (by omega)) (Array.getElem?_append_left (by omega))

theorem wordAt_append_right (bytes other : Array UInt8) (l : Nat) :
    wordAt (bytes ++ other) (l + bytes.size) = wordAt other l := by
  refine wordAt_congr ?_ ?_
  · rw [Array.getElem?_append_right (by omega), Nat.add_sub_cancel]
  · rw [Array.getElem?_append_right (by omega)]
    congr 1
    omega

/-! ### One mark after the other -/

theorem shift_of_not_stores (h : ¬ m.Stores) : shift base m.kind = 0 := by
  unfold shift
  split
  · exact absurd (.inl ‹_›) h
  · exact absurd (.inr ‹_›) h
  · rfl

theorem shift_add (a b : Storage) (k : MarkKind) : shift (a + b) k = shift a k + shift b k := by cases k <;> rfl

theorem getElem?_relocateMark (h : m.Stores → i < m.location ∨ m.location + 2 ≤ i) :
    (relocateMark base bytes m)[i]? = bytes[i]? := by
  unfold relocateMark
  split
  · rfl
  · rename_i hshift
    have hout := h (Classical.not_not.1 fun hm => hshift (shift_of_not_stores hm))
    unfold patchWord patchByte
    rw [Array.getElem?_setIfInBounds_ne (by omega), Array.getElem?_setIfInBounds_ne (by omega)]

theorem wordAt_relocateMark (h : m.location + 2 ≤ bytes.size) :
    wordAt (relocateMark base bytes m) m.location = (wordAt bytes m.location + shift base m.kind) % 65536 := by
  unfold relocateMark
  split
  · rename_i hshift
    rw [hshift]
    exact (Nat.mod_eq_of_lt (wordAt_lt ..)).symm
  · exact wordAt_patchWord_mod h _

/-- What is done for a mark leaves the words at marks apart from it alone. -/
theorem wordAt_relocateMark_apart (h : Apart m n) :
    wordAt (relocateMark base bytes m) n.location = wordAt bytes n.location := by
  have hm := m.two_le_stop
  have hn := n.two_le_stop
  unfold Apart at h
  exact wordAt_congr (getElem?_relocateMark fun _ => by omega) (getElem?_relocateMark fun _ => by omega)

theorem foldl_relocateMark (base : Storage) (marks : List Mark) (hinside : ∀ m ∈ marks, m.stop ≤ bytes.size)
    (hapart : marks.Pairwise Apart) : (marks.foldl (relocateMark base) bytes).size = bytes.size ∧
      (∀ i, Untouched marks i → (marks.foldl (relocateMark base) bytes)[i]? = bytes[i]?) ∧
      ∀ m ∈ marks, m.Stores → wordAt (marks.foldl (relocateMark base) bytes) m.location =
        (wordAt bytes m.location + shift base m.kind) % 65536 := by
  induction marks generalizing bytes with
  | nil => exact ⟨rfl, fun _ _ => rfl, nofun⟩
  | cons m marks ih =>
    obtain ⟨hm, hmarks⟩ := forall_mem_cons.1 hinside
    obtain ⟨hfirst, hapart⟩ := pairwise_cons.1 hapart
    obtain ⟨hsize, hrest, hwords⟩ := @ih (relocateMark base bytes m) (by rwa [size_relocateMark]) hapart
    rw [foldl_cons]
    refine ⟨hsize.trans (size_relocateMark ..), fun i hi => ?_, fun n hn hstores => ?_⟩
    · obtain ⟨hhere, hi⟩ := forall_mem_cons.1 hi
      exact (hrest i hi).trans (getElem?_relocateMark hhere)
    · obtain rfl | hn := mem_cons.1 hn
      · have htwo := n.two_le_stop
        -- no other mark reaches into the two bytes of this one
        have hclear : ∀ j < 2, Untouched marks (n.location + j) := by
          intro j hj o ho _
          have := o.two_le_stop
          have := hfirst o ho
          unfold Apart at this
          omega
        exact (wordAt_congr (hrest _ (hclear 0 (by decide))) (hrest _ (hclear 1 (by decide)))).trans
          (wordAt_relocateMark (by omega))
      · rw [hwords n hn hstores, wordAt_relocateMark_apart (hfirst n hn)]

theorem Sound.raised (hf : f.Sound) (base : Storage) : Raised base f (f.relocate base) := by
  obtain ⟨hsize, hrest, hwords⟩ := foldl_relocateMark base _ hf.inside hf.apart
  rw [Array.foldl_toList] at hsize hrest hwords
  exact ⟨rfl, hsize, hwords, hrest⟩

/-! ### Moving up -/

namespace Raised

theorem sound (h : Raised base f g) (hf : f.Sound) : g.Sound :=
  ⟨by rw [h.marks, h.size]; exact hf.inside, by rw [h.marks]; exact hf.apart⟩

theorem trans (hab : Raised a f g) (hbc : Raised b g h) : Raised (a + b) f h where
  marks := hbc.marks.trans hab.marks
  size := hbc.size.trans hab.size
  words m hm hstores := by
    rw [hbc.words m (hab.marks ▸ hm) hstores, hab.words m hm hstores, Nat.mod_add_mod, Nat.add_assoc, ← shift_add]
  rest i hi := (hbc.rest i (hab.marks ▸ hi)).trans (hab.rest i hi)

/-- A fragment can be moved up in one way only. -/
theorem unique (hf : f.Sound) (hg : Raised base f g) (hh : Raised base f h) : g = h := by
  refine ext_iff.2 ⟨Array.ext_getElem? fun i => ?_, hg.marks.trans hh.marks.symm⟩
  by_cases hi : Untouched f.marks.toList i
  · exact (hg.rest i hi).trans (hh.rest i hi).symm
  · simp only [Untouched, Classical.not_forall] at hi
    obtain ⟨m, hm, hstores, hin⟩ := hi
    have hword := (hg.words m hm hstores).trans (hh.words m hm hstores).symm
    have hinside := hf.inside m hm
    have htwo := m.two_le_stop
    have hgsize : g.bytes.size = f.size := hg.size
    obtain ⟨hlow, hhigh⟩ := getElem?_of_wordAt (hg.size.trans hh.size.symm) (by omega) hword
    obtain rfl | rfl : i = m.location ∨ i = m.location + 1 := by omega
    · exact hlow
    · exact hhigh

end Raised

theorem mem_marks_append :
    m ∈ (f ++ g).marks.toList ↔ m ∈ f.marks.toList ∨ ∃ n ∈ g.marks.toList, moved f.size n = m := by
  show m ∈ (f.marks ++ g.marks.map (moved f.bytes.size)).toList ↔ _
  simp [size]

/-- Two fragments are moved up one by one. -/
theorem Raised.append (hf : f.Sound) (hl : Raised base f f') (hr : Raised base g g') :
    Raised base (f ++ g) (f' ++ g') where
  marks := by
    show f'.marks ++ g'.marks.map (moved f'.size) = f.marks ++ g.marks.map (moved f.size)
    rw [hl.marks, hr.marks, hl.size]
  size := by rw [size_append, size_append, hl.size, hr.size]
  words m hm hstores := by
    have hsize : f'.bytes.size = f.bytes.size := hl.size
    show wordAt (f'.bytes ++ g'.bytes) _ = (wordAt (f.bytes ++ g.bytes) _ + _) % 65536
    obtain hm | ⟨n, hn, rfl⟩ := mem_marks_append.1 hm
    · have hinside : m.stop ≤ f.bytes.size := hf.inside m hm
      have htwo := m.two_le_stop
      rw [wordAt_append_left (by omega), wordAt_append_left (by omega)]
      exact hl.words m hm hstores
    · have hleft := wordAt_append_right f'.bytes g'.bytes n.location
      rw [hsize] at hleft
      exact hleft.trans ((hr.words n hn hstores).trans (by rw [← wordAt_append_right f.bytes g.bytes]; rfl))
  rest i hi := by
    have hsize : f'.bytes.size = f.bytes.size := hl.size
    show (f'.bytes ++ g'.bytes)[i]? = (f.bytes ++ g.bytes)[i]?
    rw [Array.getElem?_append, Array.getElem?_append, hsize]
    split
    · exact hl.rest i fun m hm => hi m (mem_marks_append.2 (.inl hm))
    · refine hr.rest _ fun n hn hstores => ?_
      have hout : i < n.location + f.bytes.size ∨ n.location + f.bytes.size + 2 ≤ i :=
        hi _ (mem_marks_append.2 (.inr ⟨n, hn, rfl⟩)) hstores
      omega

theorem stop_moved (o : Nat) (m : Mark) : (moved o m).stop = m.stop + o := Nat.add_right_comm ..

theorem Sound.append (hf : f.Sound) (hg : g.Sound) : (f ++ g).Sound where
  inside m hm := by
    rw [size_append]
    obtain hm | ⟨n, hn, rfl⟩ := mem_marks_append.1 hm
    · have := hf.inside m hm
      omega
    · have := hg.inside n hn
      rw [stop_moved]
      omega
  apart := by
    show (f.marks ++ g.marks.map (moved f.size)).toList.Pairwise Apart
    rw [Array.toList_append, Array.toList_map, pairwise_append, pairwise_map]
    refine ⟨hf.apart, hg.apart.imp fun hmn => ?_, fun m hm n hn => ?_⟩
    · unfold Apart at ⊢
      rw [stop_moved, stop_moved]
      exact hmn.imp (Nat.add_le_add_right · _) (Nat.add_le_add_right · _)
    · obtain ⟨n, -, rfl⟩ := mem_map.1 hn
      exact .inl (Nat.le_trans (hf.inside m hm) (Nat.le_add_left ..))

theorem Sound.relocate (hf : f.Sound) (base : Storage) : (f.relocate base).Sound := (hf.raised base).sound hf

theorem Sound.relocate_append (hf : f.Sound) (hg : g.Sound) (base : Storage) :
    (f ++ g).relocate base = f.relocate base ++ g.relocate base :=
  Raised.unique (hf.append hg) ((hf.append hg).raised base) ((hf.raised base).append hf (hg.raised base))

theorem Sound.relocate_relocate (hf : f.Sound) (a b : Storage) : (f.relocate a).relocate b = f.relocate (a + b) :=
  Raised.unique hf ((hf.raised a).trans ((hf.relocate a).raised b)) (hf.raised (a + b))

theorem relocate_none (f : Fragment) : f.relocate .none = f := by
  have hmark : ∀ bytes m, relocateMark .none bytes m = bytes := fun bytes m => if_pos (by cases m.kind <;> rfl)
  refine ext_iff.2 ⟨?_, rfl⟩
  show f.marks.foldl (relocateMark .none) f.bytes = f.bytes
  rw [← Array.foldl_toList]
  induction f.marks.toList with
  | nil => rfl
  | cons m marks ih => rwa [foldl_cons, hmark]

/-! ### Many fragments -/

/-- The marks of fragments that stand one behind the other from an offset on. -/
def marksAt : Nat → List Fragment → List Mark
  | _, [] => []
  | o, f :: rest => f.marks.toList.map (moved o) ++ marksAt (o + f.size) rest

theorem bytes_join (fs : List Fragment) : (join fs).bytes.toList = fs.flatMap (·.bytes.toList) := by
  induction fs with
  | nil => rfl
  | cons f fs ih =>
    show (f.bytes ++ (join fs).bytes).toList = _
    rw [Array.toList_append, ih, flatMap_cons]

theorem marksAt_add (o n : Nat) (fs : List Fragment) : marksAt (o + n) fs = (marksAt o fs).map (moved n) := by
  induction fs generalizing o with
  | nil => rfl
  | cons f fs ih =>
    have hmoved : moved (o + n) = moved n ∘ moved o := by
      funext m
      simp [moved, Nat.add_assoc]
    rw [marksAt, marksAt, map_append, map_map, hmoved, ← ih, Nat.add_right_comm]

theorem marks_join (fs : List Fragment) : (join fs).marks.toList = marksAt 0 fs := by
  induction fs with
  | nil => rfl
  | cons f fs ih =>
    show (f.marks ++ (join fs).marks.map (moved f.size)).toList = _
    rw [Array.toList_append, Array.toList_map, ih, ← marksAt_add]
    exact congrArg (· ++ _) (map_id _).symm

end Fragment

/-! ### Trees of splices -/

/-- Fragments that are spliced in any order. -/
inductive Splices where
  | leaf (f : Fragment)
  | splice (l r : Splices) (base : Storage)

namespace Splices

open Fragment

/-- What is put together, unless a mark is outside of the code. -/
def value? : Splices → Option Fragment
  | leaf f => some f
  | splice l r base => l.value?.bind fun f => r.value?.bind fun g => f.splice? g base

def leaves : Splices → List Fragment
  | leaf f => [f]
  | splice l r _ => l.leaves ++ r.leaves

/-- The leaves, each with the sum of all bases it is moved up by. -/
def parts (above : Storage) : Splices → List (Fragment × Storage)
  | leaf f => [(f, above)]
  | splice l r base => l.parts above ++ r.parts (base + above)

theorem map_parts (t : Splices) (above : Storage) : (t.parts above).map (·.1) = t.leaves := by
  induction t generalizing above with
  | leaf f => rfl
  | splice l r base ihl ihr => rw [parts, map_append, ihl, ihr, leaves]

theorem splice?_eq (f : Fragment) (hg : g.Sound) (base : Storage) : f.splice? g base = some (f ++ g.relocate base) := by
  refine if_pos (Array.all_eq_true_iff_forall_mem.2 fun m hm => ?_)
  have hinside := hg.inside m (Array.mem_toList_iff.2 hm)
  have htwo := m.two_le_stop
  simp only [Bool.or_eq_true, decide_eq_true_eq, holds]
  omega

theorem splice?_none (f g : Fragment) : f.splice? g .none = some (f ++ g) := by
  unfold splice? Fragment.splice
  rw [relocate_none]
  exact if_pos (Array.all_eq_true_iff_forall_mem.2 fun m _ => by cases m.kind <;> rfl)

/-- Moved up as a whole, a tree gives its leaves, each moved up by that and by all on the way to it. -/
theorem relocate_value (t : Splices) (h : ∀ f ∈ t.leaves, f.Sound) : ∃ f, t.value? = some f ∧ f.Sound ∧
      ∀ above, f.relocate above = join ((t.parts above).map fun p => p.1.relocate p.2) := by
  induction t with
  | leaf f => exact ⟨f, rfl, h f (mem_singleton_self f), fun above => (append_empty _).symm⟩
  | splice l r base ihl ihr =>
    obtain ⟨hl, hr⟩ := forall_mem_append.1 h
    obtain ⟨f, hf, hfs, hleft⟩ := ihl hl
    obtain ⟨g, hg, hgs, hright⟩ := ihr hr
    refine ⟨f ++ g.relocate base, ?_, hfs.append (hgs.relocate base), fun above => ?_⟩
    · rw [value?, hf, hg, Option.bind_some, Option.bind_some, splice?_eq f hgs]
    · rw [hfs.relocate_append (hgs.relocate base), hgs.relocate_relocate, hleft, hright, parts, map_append,
        join_append]

theorem marksAt_relocate (o : Nat) (ps : List (Fragment × Storage)) (h : ∀ f ∈ ps.map (·.1), f.Sound) :
    marksAt o (ps.map fun p => p.1.relocate p.2) = marksAt o (ps.map (·.1)) := by
  induction ps generalizing o with
  | nil => rfl
  | cons p ps ih =>
    obtain ⟨hp, hps⟩ := forall_mem_cons.1 h
    rw [map_cons, map_cons, marksAt, marksAt, ih _ hps, (hp.raised p.2).size, (hp.raised p.2).marks]

/-- A tree of splices puts its leaves one behind the other. The words for storage in each of them are larger by the sum
of the bases on the way to it, and their marks are moved by what is in front of them. The result is as sound as the
leaves are, and splices that move nothing can be grouped in any way. -/
theorem splices_compose (t : Splices) (h : ∀ f ∈ t.leaves, f.Sound) :
    (∃ f gs, t.value? = some f ∧ List.Forall₂ (fun p g => Raised p.2 p.1 g) (t.parts .none) gs ∧
      f.bytes.toList = gs.flatMap (·.bytes.toList) ∧ f.marks.toList = marksAt 0 t.leaves ∧ f.Sound) ∧
      ∀ f g h : Fragment, ∃ all, (f.splice? g .none).bind (·.splice? h .none) = some all ∧
        (g.splice? h .none).bind (f.splice? · .none) = some all := by
  constructor
  · obtain ⟨f, hvalue, hsound, hf⟩ := relocate_value t h
    have hjoin := hf .none
    rw [relocate_none] at hjoin
    rw [← map_parts t .none] at h
    refine ⟨f, _, hvalue, List.forall₂_map_right_iff.2 (List.forall₂_same.2 fun p hp => ?_), hjoin ▸ bytes_join _, ?_,
      hsound⟩
    · exact (h p.1 (List.mem_map_of_mem hp)).raised p.2
    · rw [hjoin, marks_join, marksAt_relocate 0 _ h, map_parts]
  · intro f g h
    refine ⟨f ++ g ++ h, ?_, ?_⟩
    · rw [splice?_none, Option.bind_some, splice?_none]
    · rw [splice?_none, Option.bind_some, splice?_none, append_assoc]

/-- Two splices, of which the inner one was moved up before. -/
def nested : Splices :=
  .splice (.leaf ⟨#[7, 1, 0], #[⟨1, .address⟩]⟩)
    (.splice (.leaf ⟨#[2, 0, 0, 0, 0], #[⟨2, .breakJump⟩, ⟨0, .slot⟩]⟩) (.leaf ⟨#[255, 255], #[⟨0, .address⟩]⟩) ⟨3, 1⟩)
    ⟨8, 4⟩

theorem splices_compose_nested :
    (∀ f ∈ nested.leaves, f.Sound) ∧ nested.value?.map (·.bytes) = some #[7, 1, 0, 6, 0, 0, 0, 0, 10, 0] ∧
      ∃ f gs, nested.value? = some f ∧ List.Forall₂ (fun p g => Raised p.2 p.1 g) (nested.parts .none) gs ∧
        f.bytes.toList = gs.flatMap (·.bytes.toList) ∧ f.marks.toList = marksAt 0 nested.leaves ∧ f.Sound :=
  have hsound : ∀ f ∈ nested.leaves, f.Sound := by decide
  ⟨hsound, by decide +kernel, (splices_compose nested hsound).1⟩

end Splices

end HostScript

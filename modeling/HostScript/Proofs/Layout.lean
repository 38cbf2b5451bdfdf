import HostScript.Proofs.Compiling
import HostScript.Proofs.Flow

/-! Where variables lie.

Scope by scope, variables lie above everything that was in use when the scope was
entered and below what is in use now, and no two that are in sight share storage. So
assigning to one leaves the others alone. What a scope frees is taken again later,
though: a pointer variable that is read before anything was assigned to it shows what
was left there. Addresses where this can happen are listed apart (`G` below), and no
other variable may write there. -/
namespace HostScript

open List

variable {frames outer : List Frame} {top : Storage} {w : Variable}
  {frame : Frame} {k : Kind} {span : Span} {name : String} {e : String × Variable} {type : Ty} {v : Variable}

/-! ### Storage -/

namespace Storage

variable {s t : Storage}

theorem Holds.mono (h : s.Holds k a) (hle : s.Le t) : t.Holds k a := by
  unfold Holds at *
  split
  · rw [if_pos ‹_›] at h
    exact Nat.lt_of_lt_of_le h hle.slots
  · rw [if_neg ‹_›] at h
    exact Nat.le_trans h hle.bytes

/-- The storage ends in front of a variable of a kind at an address. -/
def Under (s : Storage) (k : Kind) (a : Nat) : Prop := if k = .string then s.slots ≤ a else s.bytes ≤ a

theorem Under.mono (h : t.Under k a) (hle : s.Le t) : s.Under k a := by
  unfold Under at *
  split
  · rw [if_pos ‹_›] at h
    exact Nat.le_trans hle.slots h
  · rw [if_neg ‹_›] at h
    exact Nat.le_trans hle.bytes h

end Storage

/-! ### Variables -/

namespace Variable

/-- The variable lies between two amounts of storage. -/
def Between (base top : Storage) (v : Variable) : Prop :=
  ∃ k, v.type.primitive = .kind k ∧ base.Under k v.address ∧ top.Holds k v.address

/-- The variable is within storage. -/
def In (room : Storage) (v : Variable) : Prop := ∃ k, v.type.primitive = .kind k ∧ room.Holds k v.address

/-- Two variables share no storage: no byte of primitive memory, and no slot. -/
structure Separate (v w : Variable) : Prop where
  bytes : ∀ j k, v.type.primitive = .kind j → w.type.primitive = .kind k → j ≠ .string → k ≠ .string →
    v.address + j.size ≤ w.address ∨ w.address + k.size ≤ v.address
  slots : v.type.primitive = .kind .string → w.type.primitive = .kind .string → v.address ≠ w.address

/-- Assigning to the variable leaves pointers at some addresses alone, or is an assignment to
one of them. -/
def Respects (G : Known) (v : Variable) : Prop :=
  ∀ k, v.type.primitive = .kind k → ∀ b, G b → Apart k v.address b ∨ (k = .pointer ∧ v.address = b)

variable {base room : Storage}

theorem Between.inTop (h : v.Between base top) : v.In top := by
  obtain ⟨k, hk, -, hin⟩ := h
  exact ⟨k, hk, hin⟩

theorem Between.mono (h : v.Between base top) (hle : top.Le top') : v.Between base top' := by
  obtain ⟨k, hk, hunder, hin⟩ := h
  exact ⟨k, hk, hunder, hin.mono hle⟩

theorem Between.lower (h : v.Between base top) (hle : base'.Le base) : v.Between base' top := by
  obtain ⟨k, hk, hunder, hin⟩ := h
  exact ⟨k, hk, hunder.mono hle, hin⟩

theorem In.mono (h : v.In room) (hle : room.Le room') : v.In room' := by
  obtain ⟨k, hk, hin⟩ := h
  exact ⟨k, hk, hin.mono hle⟩

theorem Separate.symm (h : v.Separate w) : w.Separate v where
  bytes j k hj hk hjs hks := (h.bytes k j hk hj hks hjs).symm
  slots hv hw := (h.slots hw hv).symm

/-- One variable ends where the other one has not begun. -/
theorem separate_of_in (hv : v.In base) (hw : w.Between base top) : v.Separate w := by
  obtain ⟨i, hi, hin⟩ := hv
  obtain ⟨l, hl, hunder, -⟩ := hw
  constructor
  · intro j k hj hk hjs hks
    obtain rfl : i = j := Primitive.kind.inj (hi.symm.trans hj)
    obtain rfl : l = k := Primitive.kind.inj (hl.symm.trans hk)
    rw [Storage.Holds, if_neg hjs] at hin
    rw [Storage.Under, if_neg hks] at hunder
    exact .inl (Nat.le_trans hin hunder)
  · intro hj hk
    obtain rfl : i = .string := Primitive.kind.inj (hi.symm.trans hj)
    obtain rfl : l = .string := Primitive.kind.inj (hl.symm.trans hk)
    exact Nat.ne_of_lt (Nat.lt_of_lt_of_le hin hunder)

end Variable

/-! ### Frames -/

/-- Frames, the innermost first, with what is in use above them. -/
def Frame.Laid : List Frame → Storage → Prop
  | [], _ => True
  | frame :: rest, top =>
    frame.base.Le top ∧ (∀ e ∈ frame.vars.toList, e.2.Between frame.base top) ∧
      frame.vars.toList.Pairwise (fun d e => d.2.Separate e.2) ∧ Frame.Laid rest frame.base

namespace Frame

theorem Laid.inTop (h : Laid frames top) (hf : frame ∈ frames) (he : e ∈ frame.vars.toList) : e.2.In top := by
  induction frames generalizing top with
  | nil => cases hf
  | cons f rest ih =>
    obtain ⟨hbase, hbetween, -, hrest⟩ := h
    obtain rfl | hf := mem_cons.1 hf
    · exact (hbetween e he).inTop
    · exact (ih hrest hf).mono hbase

theorem pairwise_cases {R : α → α → Prop} {xs : List α} (h : xs.Pairwise R) (ha : a ∈ xs) (hb : b ∈ xs) :
    a = b ∨ R a b ∨ R b a := by
  induction h with
  | nil => cases ha
  | cons hx _ ih =>
    obtain rfl | ha' := mem_cons.1 ha
    · obtain rfl | hb' := mem_cons.1 hb
      · exact .inl rfl
      · exact .inr (.inl (hx _ hb'))
    · obtain rfl | hb' := mem_cons.1 hb
      · exact .inr (.inr (hx _ ha'))
      · exact ih ha' hb'

/-- Two variables in sight are separate, or the same. -/
theorem Laid.separate (h : Laid frames top) {f g : Frame} (hf : f ∈ frames) (hg : g ∈ frames) (hd : d ∈ f.vars.toList)
    (he : e ∈ g.vars.toList) : d.2 = e.2 ∨ d.2.Separate e.2 := by
  induction frames generalizing top with
  | nil => cases hf
  | cons frame rest ih =>
    obtain ⟨-, hbetween, hpairwise, hrest⟩ := h
    obtain rfl | hf' := mem_cons.1 hf
    · obtain rfl | hg' := mem_cons.1 hg
      · obtain rfl | h | h := pairwise_cases hpairwise hd he
        · exact .inl rfl
        · exact .inr h
        · exact .inr h.symm
      · exact .inr (Variable.separate_of_in (hrest.inTop hg' he) (hbetween d hd)).symm
    · obtain rfl | hg' := mem_cons.1 hg
      · exact .inr (Variable.separate_of_in (hrest.inTop hf' hd) (hbetween e he))
      · exact ih hrest hf' hg'

end Frame

/-! ### The variables of a file -/

namespace Variables

/-- Variables lie in their frames, and as much storage is needed as is in use. -/
structure Laid (vs : Variables) : Prop where
  frames : Frame.Laid vs.frames vs.inUse
  needed : vs.inUse.Le vs.needed

variable {vs vs' : Variables}

theorem Laid.push (h : vs.Laid) : vs.push.Laid :=
  ⟨⟨.refl _, by simp [Variables.push], .nil, h.frames⟩, h.needed⟩

theorem frames_pop (h : vs.outer = frame :: outer) :
    vs.pop.2.frames = vs.outer ∧ vs.pop.2.inUse = vs.top.base ∧ vs.pop.2.needed = vs.needed := by
  unfold pop
  rw [h]
  exact ⟨rfl, rfl, rfl⟩

theorem Laid.pop (h : vs.Laid) (ho : vs.outer = frame :: outer) : vs.pop.2.Laid := by
  obtain ⟨hframes, hinUse, hneeded⟩ := frames_pop ho
  obtain ⟨hbase, -, -, hrest⟩ := h.frames
  constructor
  · rw [hframes, hinUse]
    exact hrest
  · rw [hinUse, hneeded]
    exact hbase.trans h.needed

theorem between_declared (inUse : Storage) (hk : type.primitive = .kind k) (span : Span) :
    Variable.Between inUse (inUse + storageOf type) ⟨type, addressIn inUse type, span⟩ := by
  refine ⟨k, hk, ?_, ?_⟩
  · by_cases hs : k = .string <;> simp [Storage.Under, addressIn, hk, hs]
  · by_cases hs : k = .string
    · simp only [addressIn, storageOf, hk, hs]
      exact Nat.lt_succ_self _
    · simp only [Storage.Holds, addressIn, storageOf, hk, hs, Primitive.kind.injEq]
      exact Nat.le_refl _

theorem Laid.declare (h : vs.Laid) (ht : type.HasKind) (hd : vs.declare name type span = .ok (v, vs')) : vs'.Laid := by
  obtain ⟨rfl, rfl⟩ := declare_eq hd
  obtain ⟨k, hk⟩ := ht
  obtain ⟨hbase, hbetween, hpairwise, hrest⟩ := h.frames
  have hnew := between_declared vs.inUse hk span
  have hle := Storage.le_add vs.inUse (storageOf type)
  refine ⟨⟨hbase.trans hle, fun e he => ?_, ?_, hrest⟩, Storage.le_max_right _ _⟩
  · obtain he | rfl : e ∈ vs.top.vars.toList ∨ e = (name, _) := by simpa [Frame.add] using he
    · exact (hbetween e he).mono hle
    · exact hnew.lower hbase
  · have hlist : (vs.top.add name ⟨type, addressIn vs.inUse type, span⟩).vars.toList =
        vs.top.vars.toList ++ [(name, ⟨type, addressIn vs.inUse type, span⟩)] := by simp [Frame.add]
    rw [hlist, pairwise_append]
    refine ⟨hpairwise, pairwise_singleton _ _, fun d hdm e he => ?_⟩
    rw [mem_singleton.1 he]
    exact Variable.separate_of_in (hbetween d hdm).inTop hnew

/-! ### What is known of them -/

/-- A variable that is in sight under a name. -/
def Has (vs : Variables) (e : String × Variable) : Prop := ∃ frame ∈ vs.frames, e ∈ frame.vars.toList

theorem has_push : vs.push.Has e ↔ vs.Has e := by
  constructor
  · rintro ⟨frame, hf, he⟩
    obtain rfl | hf := mem_cons.1 hf
    · simp [Variables.push] at he
    · exact ⟨frame, hf, he⟩
  · rintro ⟨frame, hf, he⟩
    exact ⟨frame, mem_cons_of_mem _ hf, he⟩

theorem has_declared (h : vs.declare name type span = .ok (v, vs')) : vs'.Has e ↔ vs.Has e ∨ e = (name, v) := by
  obtain ⟨-, rfl⟩ := declare_eq h
  constructor
  · rintro ⟨frame, hf, he⟩
    obtain rfl | hf := mem_cons.1 hf
    · obtain he | rfl : e ∈ vs.top.vars.toList ∨ e = (name, v) := by simpa [Frame.add] using he
      · exact .inl ⟨vs.top, mem_cons_self .., he⟩
      · exact .inr rfl
    · exact .inl ⟨frame, mem_cons_of_mem _ hf, he⟩
  · rintro (⟨frame, hf, he⟩ | rfl)
    · obtain rfl | hf := mem_cons.1 hf
      · exact ⟨_, mem_cons_self .., by simp [Frame.add, Array.mem_toList_iff.1 he]⟩
      · exact ⟨frame, mem_cons_of_mem _ hf, he⟩
    · exact ⟨_, mem_cons_self .., by simp [Frame.add]⟩

theorem has_congr (h : vs'.frames = vs.frames) : vs'.Has e ↔ vs.Has e := by
  unfold Has
  rw [h]

/-- A variable that is in sight. -/
def Sees (vs : Variables) (v : Variable) : Prop :=
  ∃ frame ∈ vs.frames, ∃ e ∈ frame.vars.toList, e.2 = v

theorem sees_iff : vs.Sees v ↔ ∃ name, vs.Has (name, v) := by
  constructor
  · rintro ⟨frame, hf, ⟨name, v⟩, he, rfl⟩
    exact ⟨name, frame, hf, he⟩
  · rintro ⟨name, frame, hf, he⟩
    exact ⟨frame, hf, _, he, rfl⟩

/-- Pointer variables in sight, and addresses that are known anyhow. -/
def Knows (G : Known) (vs : Variables) : Known := fun b =>
  G b ∨ ∃ v, vs.Sees v ∧ v.type.primitive = .kind .pointer ∧ v.address = b

theorem sees_of_find (h : vs.find? name = some v) : vs.Sees v :=
  sees_iff.2 ⟨name, mem_of_find h⟩

theorem sees_push : vs.push.Sees v ↔ vs.Sees v := by
  simp only [sees_iff, has_push]

theorem knows_push (G : Known) (vs : Variables) : vs.push.Knows G = vs.Knows G := by
  funext b
  simp only [Knows, sees_push]

theorem sees_declared (h : vs.declare name type span = .ok (v, vs')) : vs'.Sees w ↔ vs.Sees w ∨ w = v := by
  simp only [sees_iff, has_declared h, Prod.mk.injEq, exists_or, exists_eq_left]

theorem sees_congr (h : vs'.frames = vs.frames) : vs'.Sees v ↔ vs.Sees v := by
  unfold Sees
  rw [h]

theorem knows_congr (h : vs'.frames = vs.frames) : vs'.Knows G = vs.Knows G := by
  funext b
  simp only [Knows, sees_congr h]

theorem Formed.push (h : vs.Formed) : vs.push.Formed := by
  intro frame hf
  obtain rfl | hf := mem_cons.1 hf
  · simp [Variables.push]
  · exact h frame hf

theorem Formed.congr (h : vs.Formed) (hf : vs'.frames = vs.frames) : vs'.Formed := by
  unfold Formed
  rw [hf]
  exact h

theorem Formed.declare (h : vs.Formed) (ht : type.HasKind) (hname : Clean name)
    (hd : vs.declare name type span = .ok (v, vs')) : vs'.Formed := by
  intro frame hf e he
  obtain ⟨rfl, rfl⟩ := declare_eq hd
  obtain rfl | hf := mem_cons.1 hf
  · obtain he | rfl : e ∈ vs.top.vars.toList ∨ e = (name, _) := by simpa [Frame.add] using he
    · exact h vs.top (mem_cons_self ..) e he
    · exact ⟨hname, ht⟩
  · exact h frame (mem_cons_of_mem _ hf) e he

/-- What the code of a file is made under. -/
structure Ready (g : Regime) (G : Known) (vs : Variables) : Prop where
  laid : vs.Laid
  formed : vs.Formed
  room : ∀ v, vs.Sees v → v.In g.room
  respects : g.tracked → ∀ v, vs.Sees v → v.Respects G

namespace Ready

variable {g : Regime} {G : Known}

section

variable (h : vs.Ready g G)
include h

theorem push : vs.push.Ready g G where
  laid := h.laid.push
  formed := h.formed.push
  room v hv := h.room v (sees_push.1 hv)
  respects ht v hv := h.respects ht v (sees_push.1 hv)

/-- Variables with the frames of others, which may have needed less. -/
theorem congr (hf : vs'.frames = vs.frames) (hl : vs'.Laid) : vs'.Ready g G where
  laid := hl
  formed := h.formed.congr hf
  room v hv := h.room v ((sees_congr hf).1 hv)
  respects ht v hv := h.respects ht v ((sees_congr hf).1 hv)

theorem declare (ht : type.HasKind)
    (hname : Clean name) (hd : vs.declare name type span = .ok (v, vs')) (hroom : v.In g.room)
    (hrespects : g.tracked → v.Respects G) : vs'.Ready g G where
  laid := h.laid.declare ht hd
  formed := h.formed.declare ht hname hd
  room w hw := by
    obtain hw | rfl := (sees_declared hd).1 hw
    · exact h.room w hw
    · exact hroom
  respects htr w hw := by
    obtain hw | rfl := (sees_declared hd).1 hw
    · exact h.respects htr w hw
    · exact hrespects htr

/-- Assigning to a variable in sight leaves what is known alone. -/
theorem apart (ht : g.tracked) (hv : vs.Sees v) (hk : v.type.primitive = .kind k) (hb : vs.Knows G b) :
    Apart k v.address b ∨ (k = .pointer ∧ v.address = b) := by
  obtain hb | ⟨w, hw, hp, rfl⟩ := hb
  · exact h.respects ht v hv k hk b hb
  · obtain ⟨f, hf, d, hd, rfl⟩ := hv
    obtain ⟨f', hf', e, he, rfl⟩ := hw
    obtain heq | hsep := h.laid.frames.separate hf hf' hd he
    · rw [heq] at hk
      exact .inr ⟨Primitive.kind.inj (hk.symm.trans hp), by rw [heq]⟩
    · by_cases hs : k = .string
      · exact .inl (.inl hs)
      · obtain hsep | hsep := hsep.bytes k .pointer hk hp hs Kind.noConfusion
        · exact .inl (.inr (.inr hsep))
        · exact .inl (.inr (.inl hsep))

/-- Every variable in sight is within storage. -/
theorem holds (hv : vs.Sees v) (hk : v.type.primitive = .kind k) : g.room.Holds k v.address := by
  obtain ⟨j, hj, hin⟩ := h.room v hv
  obtain rfl : j = k := Primitive.kind.inj (hj.symm.trans hk)
  exact hin

/-- Everything in sight can be read. -/
theorem reads (api : Api) : Scope.Reads (g.rules (vs.Knows G)) ⟨api, vs⟩ := by
  intro name v k hv hk
  have hsees := sees_of_find hv
  refine ⟨h.holds hsees hk, fun _ hp => .inr ⟨v, hsees, ?_, rfl⟩⟩
  rw [hk, hp]

end

end Ready

end Variables

end HostScript

import HostScript.Proofs.Running

/-! Code that runs within other code.

The same row of duals stands in two images: alone and without a debugger in the first,
and in the second moved up, among other duals and with or without a debugger. A *spot*
is a place of the row along with a memory, and for each spot there is a machine of each
image. Both machines go from spot to spot together (`Embeds.together`), apart from what
is told a debugger: there one of them stays where it is, and the host does not mind what
the other one does (`Embeds.hush`). -/
namespace HostScript

open DualCode Effect

variable {code : Array UInt8} {debug : Bool} {i : Instr} {left memory right : Memory} {mv : Move} {o : Nat} {g : Regime}
  {base : Storage} {x : Dual} {σ : Type} {post pre ws : DualCode}

/-! ### Moves -/

/-- From the end of a statement at an offset a move leads to another offset. -/
def Move.Leads (e o : Nat) : Move → Prop
  | .next => o = e
  | .skip d => o = e + d
  | .back d => e = o + d
  | .exit => False

theorem Move.Leads.shift (h : mv.Leads e o) (c : Nat) : mv.Leads (c + e) (c + o) := by
  cases mv with
  | next => exact congrArg _ h
  | skip _ | back _ => exact (congrArg _ h).trans (Nat.add_assoc ..).symm
  | exit => exact h.elim

theorem Move.Leads.position (h : mv.Leads e o) : mv.signal = .proceed ∧ mv.position e = o := by
  cases mv with
  | next | skip _ => exact ⟨rfl, Eq.symm h⟩
  | back d => exact ⟨rfl, Nat.sub_eq_of_eq_add h⟩
  | exit => exact h.elim

/-- A step that goes on. -/
theorem Image.step_leads (h : Image g numbers rows code) (hl : Line.At rows o l)
    (he : l.instr.exec ⟨memory, host, numbers⟩ s = (.ok (mv, memory'), s')) (hmv : mv.Leads (o + l.size) o') :
    Machine.step ⟨code, headerSize + o, memory⟩ host s = ((.ok .proceed, ⟨code, headerSize + o', memory'⟩), s') := by
  obtain ⟨hsignal, hposition⟩ := (hmv.shift headerSize).position
  rw [(h.step_line hl memory host s).1 mv memory' s' he, hsignal, hposition]

/-! ### Duals in two images -/

theorem DualCode.at_dual (hws : ws = pre ++ x :: post)
    (hx : x.instr? debug = some i) : Line.At (lines debug ws) (extent pre debug) ⟨i, fun _ => True⟩ := by
  refine ⟨lines debug pre, lines debug post, ?_, (extent_lines ..).symm⟩
  rw [hws, lines_append, lines_cons, hx]
  rfl

/-- A handler of a debugger that the host does not mind. -/
def Host.Unminded {σ : Type} (S : σ → σ → Prop) (action : StateM σ Unit) : Prop := ∀ s t, S s t → S s (action t).2

/-- A host that does not mind what a debugger is told. -/
structure Host.Ignores {σ : Type} (host : Host σ) (S : σ → σ → Prop) : Prop where
  debugLine : ∀ f, host.debugLine = some f → ∀ n, Unminded S (f n)
  debugUpdate : ∀ f, host.debugUpdate = some f → ∀ name value, Unminded S (f name value)
  debugDelete : ∀ f, host.debugDelete = some f → ∀ name, Unminded S (f name)

theorem Host.unminded_notify {S : σ → σ → Prop} {α : Type} {handler : Option (α → StateM σ Unit)}
    (h : ∀ f, handler = some f → ∀ a, Unminded S (f a)) (a : α) : Unminded S (notify (handler.map fun f => f a)) := by
  cases handler with
  | none => exact fun _ _ hst => hst
  | some f => exact h f rfl a

section Duals

variable {S : σ → σ → Prop} {host : Host σ} {numbers : String → Nat} {i' : Instr} {e : Bool → Nat}

/-- Two moves lead to one place of the row, or both exit. -/
def DualCode.Meet (ws : DualCode) (e : Bool → Nat) (debug : Bool) (mv mv' : Move) : Prop :=
  (mv = .exit ∧ mv' = .exit) ∨ ∃ o, Reached ws o ∧ mv.Leads (e false) (o false) ∧ mv'.Leads (e debug) (o debug)

/-- A dual does the same in both images, and leads to the same place. -/
theorem Dual.agree (hS : host.Takes S) (hleft : left.Fits base) (hm : memory.Fits g.room)
    (hi : x.instr? false = some i)
    (hi' : x.instr? debug = some i') (hsound : Sound g x) (hlands : Lands (Reached ws) e x) (hnext : Reached ws e) :
    Agree S (fun r r' => Meet ws e debug r.1 r'.1 ∧ Memory.Between left right g.room r.2 r'.2)
      (i.exec ⟨memory, host, numbers⟩) ((i'.relocate base).exec ⟨left ++ memory ++ right, host, numbers⟩) := by
  have hsame : Memory.Between left right g.room memory (left ++ memory ++ right) := ⟨hm, rfl⟩
  cases x with
  | same j =>
    cases hi
    cases hi'
    obtain ⟨hp, ht⟩ | rfl | ⟨l, rfl⟩ := hlands
    · refine (Instr.agree hS hleft hm (hsound false i rfl) hp ht).imp ?_
      rintro ⟨_, _⟩ ⟨_, _⟩ ⟨⟨rfl, rfl⟩, hbetween⟩
      exact ⟨.inr ⟨e, hnext, rfl, rfl⟩, hbetween⟩
    · exact agree_pure ⟨.inl ⟨rfl, rfl⟩, hsame⟩
    · exact fun s t hst => ⟨.error _, hst⟩
  | conditional c d =>
    cases hi
    cases hi'
    have htyped : c.Typed (g.rules fun _ => True) .bool := hsound false _ rfl
    refine (c.agree_between hS hleft hm htyped).bind ?_
    rintro v _ ⟨rfl, -⟩
    refine (fixed_toBool v).agree.after fun b => agree_pure ⟨?_, hsame⟩
    cases b with
    | true => exact .inr ⟨e, hnext, rfl, rfl⟩
    | false => exact .inr ⟨_, hlands, rfl, rfl⟩
  | forward d =>
    cases hi
    cases hi'
    exact agree_pure ⟨.inr ⟨_, hlands, rfl, rfl⟩, hsame⟩
  | back d =>
    cases hi
    cases hi'
    obtain ⟨o, rfl, ho⟩ := hlands
    exact agree_pure ⟨.inr ⟨o, ho, rfl, rfl⟩, hsame⟩
  | extra _ | beyond _ => cases hi

/-- What only a debugger is told leaves memory as it is. -/
theorem Instr.exec_silent (hS : host.Ignores S) (hleft : left.Fits base) (hm : memory.Fits g.room)
    (ht : i.Typed (g.rules fun _ => True) g.room.Holds) (hi : i.Silent) {s t : σ} (hst : S s t) :
    ∃ t', (i.relocate base).exec ⟨left ++ memory ++ right, host, numbers⟩ t =
      (.ok (.next, left ++ memory ++ right), t') ∧ S s t' := by
  cases i with
  | debugLine n => exact ⟨_, rfl, Host.unminded_notify hS.debugLine n s t hst⟩
  | clearedLine => exact ⟨_, rfl, Host.unminded_notify hS.debugLine 0 s t hst⟩
  | debugDelete name => exact ⟨_, rfl, Host.unminded_notify hS.debugDelete name s t hst⟩
  | debugUpdate name k n =>
    obtain ⟨j, a, rfl⟩ := hi
    obtain ⟨-, rfl, hreads⟩ := ht
    obtain ⟨v, hv⟩ := hm.load hreads.1
    have heval : Node.eval ⟨left ++ memory ++ right, host, numbers⟩ false j ((Node.variable j a).relocate base) =
        pure v := by
      unfold Node.relocate Node.eval
      rw [Memory.load_between hleft hm hreads.1, hv]
      rfl
    refine ⟨(Host.notify (host.debugUpdate.map fun f => f name v) t).2, ?_, ?_⟩
    · unfold Instr.relocate Instr.exec
      dsimp only
      rw [heval]
      rfl
    · cases hf : host.debugUpdate with
      | none => exact hst
      | some f => exact hS.debugUpdate f hf name v s t hst
  | _ => exact hi.elim

end Duals

/-! ### Parts of a run -/

/-- An ending, wherever in code a fault was found. -/
def Ending.placeless : Ending → Ending
  | .halted fault => .halted fault.placeless
  | e => e

/-- Two runs have asked the same of the host, and have ended in the same way or not at all. -/
def Level {σ : Type} (S : σ → σ → Prop) (r r' : (Ending × Machine) × σ) : Prop :=
  S r.2 r'.2 ∧ r'.1.1.placeless = r.1.1.placeless

namespace Machine

variable {host : Host σ} {n n' : Nat} {m m' m'' : Machine} {s s' s'' : σ}

theorem run_atEnd (h : m.atEnd = true) (n : Nat) (s : σ) : m.run host n s = ((.ended, m), s) := by
  cases n with
  | zero =>
    show ((if m.atEnd then Ending.ended else .running, m), s) = _
    rw [if_pos h]
  | succ n => rw [run_succ, if_pos h]

theorem run_zero (h : m.atEnd = false) (s : σ) : m.run host 0 s = ((.running, m), s) := by
  show ((if m.atEnd then Ending.ended else .running, m), s) = _
  rw [if_neg (by simp [h])]

/-- After some steps a machine has come to be another. -/
def Reaches (host : Host σ) (n : Nat) (m : Machine) (s : σ) (m' : Machine) (s' : σ) : Prop :=
  ∀ k, m.run host (n + k) s = m'.run host k s'

theorem Reaches.refl (m : Machine) (s : σ) : Reaches host 0 m s m s := fun k => by rw [Nat.zero_add]

theorem Reaches.trans (h : Reaches host n m s m' s') (h' : Reaches host n' m' s' m'' s'') :
    Reaches host (n + n') m s m'' s'' := fun k => by rw [Nat.add_assoc, h, h']

theorem reaches_step (hend : m.atEnd = false) (hstep : m.step host s = ((.ok .proceed, m'), s')) :
    Reaches host 1 m s m' s' := fun k => by
  rw [Nat.add_comm, run_succ, if_neg (by simp [hend]), hstep]

end Machine

/-! ### Spots -/

/-- Duals that stand alone in one image, and moved up among others in another one. -/
structure Embeds (g g' : Regime) (numbers : String → Nat) (base : Storage) (debug : Bool) (ws front behind : DualCode)
    (code code' : Array UInt8) : Prop where
  aligned : Aligned g ws
  alone : Image g numbers (lines false ws) code
  within : Image g' numbers (lines debug (front ++ ws.map (Dual.relocate base) ++ behind)) code'

/-- A place of a row, by what stands before it, and a memory. -/
structure Spot where
  pre : DualCode
  memory : Memory

namespace Spot

/-- The spot is one of a row, and the memory has some size. -/
structure On (ws : DualCode) (room : Storage) (p : Spot) : Prop where
  place : ∃ post, ws = p.pre ++ post
  fits : p.memory.Fits room

/-- The machine at a spot of plain code. -/
def alone (code : Array UInt8) (p : Spot) : Machine := ⟨code, headerSize + extent p.pre false, p.memory⟩

/-- The machine at a spot in code where the row starts at an offset. -/
def within (code : Array UInt8) (debug : Bool) (o : Nat) (left right : Memory) (p : Spot) : Machine :=
  ⟨code, headerSize + (o + extent p.pre debug), left ++ p.memory ++ right⟩

end Spot

/-- Two machines step to the same spot, or end in the same way. -/
inductive Together {σ : Type} (S : σ → σ → Prop) (on : Spot → Prop) (alone within : Spot → Machine) :
    (Except Fault Signal × Machine) × σ → (Except Fault Signal × Machine) × σ → Prop
  | proceed (hp : on p) (hst : S s t) :
      Together S on alone within ((.ok .proceed, alone p), s) ((.ok .proceed, within p), t)
  | exit (hst : S s t) : Together S on alone within ((.ok .exit, m), s) ((.ok .exit, m'), t)
  | halt {f f' : Fault} (hf : f'.placeless = f.placeless) (hst : S s t) :
      Together S on alone within ((.error f, m), s) ((.error f', m'), t)

namespace Embeds

variable {σ : Type} {S : σ → σ → Prop} {host : Host σ} {g g' : Regime} {numbers : String → Nat} {base : Storage}
  {debug : Bool} {ws front behind : DualCode} {code code' : Array UInt8} {left right : Memory} {p : Spot} {x : Dual}
  {post : DualCode} {s t : σ}

/-- A statement of the second image is one of the first moved up. -/
theorem at_within (debug : Bool) (base : Storage) (front behind : DualCode) (hws : ws = pre ++ x :: post)
    (hi : x.instr? debug = some i) :
    Line.At (lines debug (front ++ ws.map (Dual.relocate base) ++ behind)) (extent front debug + extent pre debug)
      ⟨i.relocate base, fun _ => True⟩ := by
  have hrow : front ++ ws.map (Dual.relocate base) ++ behind =
      (front ++ pre.map (Dual.relocate base)) ++ x.relocate base :: (post.map (Dual.relocate base) ++ behind) := by
    simp [hws]
  have hat := DualCode.at_dual hrow ((Dual.instr_relocate base x debug).trans (congrArg _ hi))
  rwa [extent_append, Aligned.extent_map (Dual.size_relocate base)] at hat

section

variable (h : Embeds g g' numbers base debug ws front behind code code')
include h

theorem lands (hws : ws = pre ++ x :: post) :
    Lands (Reached ws) (extent pre + x.size) x ∧ Reached ws (extent pre + x.size) ∧ Sound g x := by
  refine ⟨?_, ⟨pre ++ [x], post, by simp [hws], by simp⟩, h.aligned.sound x (by simp [hws])⟩
  have hlands := h.aligned.lands
  rw [hws] at hlands
  have hat := hlands.at
  rw [zero_add] at hat
  rwa [← hws] at hat

theorem atEnd_alone (hp : p.pre = ws) :
    (p.alone code).atEnd = true := by
  simp [Machine.atEnd, Spot.alone, h.alone.size, hp]

/-- Both machines perform a dual that is in plain code. -/
theorem together (right : Memory) (hS : host.Takes S)
    (hleft : left.Fits base) (hp : p.On ws g.room) (hws : ws = p.pre ++ x :: post) (hx : (x.instr? false).isSome) (hst : S s t) :
    (p.alone code).atEnd = false ∧ (p.within code' debug (extent front debug) left right).atEnd = false ∧
      Together S (·.On ws g.room) (Spot.alone code) (Spot.within code' debug (extent front debug) left right)
        ((p.alone code).step host s) ((p.within code' debug (extent front debug) left right).step host t) := by
  obtain ⟨i, hi⟩ := Option.isSome_iff_exists.1 hx
  obtain ⟨i', hi'⟩ : ∃ i', x.instr? debug = some i' := by
    cases x <;> cases debug <;> first | exact ⟨_, rfl⟩ | cases hi
  obtain ⟨hlands, hnext, hsound⟩ := h.lands hws
  have hat := DualCode.at_dual hws hi
  have hat' := at_within debug base front behind hws hi'
  have hsize : Line.size ⟨i, fun _ => True⟩ = x.size false := by simp [Dual.size, hi, Line.size]
  have hsize' : Line.size ⟨i'.relocate base, fun _ => True⟩ = x.size debug := by
    simp [Dual.size, hi', Line.size, Instr.size_relocate]
  have hagree : Agree S _ (i.exec ⟨p.memory, host, numbers⟩)
      ((i'.relocate base).exec ⟨left ++ p.memory ++ right, host, numbers⟩) :=
    Dual.agree hS hleft hp.fits hi hi' hsound hlands hnext
  obtain ⟨hresult, hst'⟩ := hagree s t hst
  obtain ⟨hok, herr⟩ := h.alone.step_line hat p.memory host s
  obtain ⟨hok', herr'⟩ := h.within.step_line hat' (left ++ p.memory ++ right) host t
  unfold Spot.alone Spot.within
  refine ⟨h.alone.atEnd_line hat _, h.within.atEnd_line hat' _, ?_⟩
  rcases he : i.exec ⟨p.memory, host, numbers⟩ s with ⟨r, s'⟩
  rcases he' : (i'.relocate base).exec ⟨left ++ p.memory ++ right, host, numbers⟩ t with ⟨r', t'⟩
  rw [he, he'] at hresult hst'
  cases hresult with
  | error f =>
    obtain ⟨f₁, c, hstep, hplace⟩ := herr f s' he
    obtain ⟨f₂, c', hstep', hplace'⟩ := herr' f t' he'
    rw [hstep, hstep']
    exact .halt (hplace'.trans hplace.symm) hst'
  | @ok a b hab =>
    obtain ⟨mv, memory⟩ := a
    obtain ⟨mv', memory'⟩ := b
    obtain ⟨⟨rfl, rfl⟩ | ⟨-, ⟨pre, post', hpre, rfl⟩, hleads, hleads'⟩, hfits, rfl⟩ := hab
    · rw [hok .exit memory s' he, hok' .exit _ t' he']
      exact .exit hst'
    · rw [Pi.add_apply, ← hsize] at hleads
      rw [Pi.add_apply, ← hsize'] at hleads'
      have hshift := hleads'.shift (extent front debug)
      rw [← Nat.add_assoc] at hshift
      rw [h.alone.step_leads hat he hleads, h.within.step_leads hat' he' hshift]
      have hspot : Spot.On ws g.room ⟨pre, memory⟩ := ⟨⟨post', hpre⟩, hfits⟩
      exact Together.proceed hspot hst'

section

variable (hS : debug = true → host.Ignores S) (hleft : left.Fits base) (hp : p.On ws g.room)
include hS hleft hp

/-- Over a dual for a debugger only one of the machines goes, if any. -/
theorem hush (hws : ws = p.pre ++ x :: post) (hx : x.instr? false = none)
    (hst : S s t) :
    ∃ (p' : Spot) (t' : σ), p'.On ws g.room ∧ p'.alone code = p.alone code ∧ extent p.pre true < extent p'.pre true ∧ S s t' ∧
      Machine.Reaches host (bif debug then 1 else 0) (p.within code' debug (extent front debug) left right) t
        (p'.within code' debug (extent front debug) left right) t' := by
  obtain ⟨hlands, hnext, hsound⟩ := h.lands hws
  have hzero : x.size false = 0 := by simp [Dual.size, hx]
  have hspot : Spot.On ws g.room ⟨p.pre ++ [x], p.memory⟩ := ⟨⟨post, by simp [hws]⟩, hp.fits⟩
  have hstay : Spot.alone code ⟨p.pre ++ [x], p.memory⟩ = p.alone code := by simp [Spot.alone, hzero]
  have hpast : extent p.pre true < extent (p.pre ++ [x]) true := by simpa using x.size_pos
  cases debug with
  | false =>
    refine ⟨⟨p.pre ++ [x], p.memory⟩, t, hspot, hstay, hpast, hst, ?_⟩
    have hsame : Spot.within code' false (extent front false) left right ⟨p.pre ++ [x], p.memory⟩ =
        p.within code' false (extent front false) left right := by simp [Spot.within, hzero]
    rw [hsame]
    exact .refl _ _
  | true =>
    cases x with
    | extra i =>
      have hat := at_within true base front behind hws rfl
      obtain ⟨t', he, hst'⟩ := Instr.exec_silent (hS rfl) hleft hp.fits (hsound true i rfl) hlands hst
      refine ⟨⟨p.pre ++ [.extra i], p.memory⟩, t', hspot, hstay, hpast, hst', ?_⟩
      refine Machine.reaches_step (h.within.atEnd_line hat _) (h.within.step_leads hat he ?_)
      show extent front true + extent (p.pre ++ [.extra i]) true = extent front true + extent p.pre true + (i.relocate base).size
      rw [Instr.size_relocate, extent_append, Pi.add_apply, ← Nat.add_assoc]
      rfl
    | beyond d =>
      have hat := at_within true base front behind hws rfl
      obtain ⟨pre, post', hpre, hextent⟩ := hlands
      have hplain : extent pre false = extent p.pre false := by simp [← hextent, hzero]
      have htold : extent pre true = extent p.pre true + (3 + d) := by
        simp [← hextent, Dual.size_beyond, Nat.add_assoc]
      have hlt : extent p.pre true < extent pre true := by omega
      refine ⟨⟨pre, p.memory⟩, t, ⟨⟨post', hpre⟩, hp.fits⟩, ?_, hlt, hst, ?_⟩
      · simp [Spot.alone, hplain]
      · refine Machine.reaches_step (h.within.atEnd_line hat _) (h.within.step_leads hat rfl ?_)
        show extent front true + extent pre true = extent front true + extent p.pre true + 3 + d
        omega
    | _ => cases hx

/-- Sooner or later there is a dual of plain code, or the end. -/
theorem catch_up (hst : S s t) :
    ∃ (n : Nat) (p' : Spot) (t' : σ), p'.On ws g.room ∧ p'.alone code = p.alone code ∧ S s t' ∧ (debug = false → n = 0) ∧
      Machine.Reaches host n (p.within code' debug (extent front debug) left right) t
        (p'.within code' debug (extent front debug) left right) t' ∧
      (p'.pre = ws ∨ ∃ x post, ws = p'.pre ++ x :: post ∧ (x.instr? false).isSome) := by
  induction hn : extent ws true - extent p.pre true using Nat.strongRecOn generalizing p t with
  | ind n ih =>
    obtain ⟨post, hpost⟩ := hp.place
    cases post with
    | nil => exact ⟨0, p, t, hp, rfl, hst, fun _ => rfl, .refl _ _, .inl (by simpa using hpost.symm)⟩
    | cons x post =>
      cases hx : x.instr? false with
      | some i => exact ⟨0, p, t, hp, rfl, hst, fun _ => rfl, .refl _ _, .inr ⟨x, post, hpost, by simp [hx]⟩⟩
      | none =>
        obtain ⟨p₁, t₁, hp₁, halone₁, hlt, hst₁, hreach₁⟩ := h.hush hS hleft hp hpost hx hst
        have hle : extent p₁.pre true ≤ extent ws true := by
          obtain ⟨post₁, hpost₁⟩ := hp₁.place
          rw [hpost₁, extent_append, Pi.add_apply]
          exact Nat.le_add_right _ _
        obtain ⟨k, p', t', hp', halone, hst', hk, hreach, hnext⟩ := ih _ (by omega) hp₁ hst₁ rfl
        refine ⟨_, p', t', hp', halone.trans halone₁, hst', fun hd => ?_, hreach₁.trans hreach, hnext⟩
        rw [hk hd, hd]
        rfl

end

end

end Embeds

end HostScript

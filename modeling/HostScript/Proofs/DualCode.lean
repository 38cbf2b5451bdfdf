import HostScript.Proofs.Flow
import Mathlib.Algebra.Group.Pi.Basic

/-! Code with and without statements for a debugger.

Code that tells a debugger about lines and variables has more statements than code that
does not. All its jumps have other distances, and there are jumps in it that only skip
what is told. *Dual code* is both kinds of code in one row: each *dual* is a statement of
both, or one for a debugger only, and whatever differs is a function of whether a
debugger is told (`true`) or not (`false`). Duals are *aligned* when each jump leads to the
same place of the row in both kinds of code. -/
namespace HostScript

open List Option

variable {g : Regime} {as bs ws : DualCode} {x : Dual}

/-- A statement of both kinds of code. -/
inductive Dual where
  /-- One that does not jump. -/
  | same (i : Instr)
  | conditional (condition : Node) (distance : Bool → Nat)
  | forward (distance : Bool → Nat)
  | back (distance : Bool → Nat)
  /-- Something that only a debugger is told. -/
  | extra (i : Instr)
  /-- A jump over what only a debugger is told. -/
  | beyond (distance : Nat)

abbrev DualCode := List Dual

namespace Dual

def instr? (debug : Bool) : Dual → Option Instr
  | same i => some i
  | conditional c d => some (.conditional c (d debug))
  | forward d => some (.forward (d debug))
  | back d => some (.back (d debug))
  | extra i => if debug then some i else none
  | beyond d => if debug then some (.forward d) else none

def size (x : Dual) : Bool → Nat := fun debug => ((x.instr? debug).map Instr.size).getD 0

@[simp] theorem size_forward (d : Bool → Nat) : (forward d).size = fun _ => 3 := rfl

@[simp] theorem size_back (d : Bool → Nat) : (back d).size = fun _ => 3 := rfl

@[simp] theorem size_leap (l : Leap) : (same (.leap l)).size = fun _ => 3 := rfl

theorem size_beyond (d : Nat) : (beyond d).size = fun debug => bif debug then 3 else 0 := by
  funext debug
  cases debug <;> rfl

/-- Everything is in code for a debugger. -/
theorem size_pos (x : Dual) : 0 < x.size true := by
  cases x <;> exact Instr.size_pos _

end Dual

namespace DualCode

/-- The lines of code of one kind. Nothing is asked of what is known in front of them. -/
def lines (debug : Bool) (ws : DualCode) : List Line := (ws.filterMap (·.instr? debug)).map fun i => ⟨i, fun _ => True⟩

def extent (ws : DualCode) : Bool → Nat := fun debug => (ws.map (·.size debug)).sum

@[simp] theorem extent_nil : extent [] = 0 := rfl

@[simp] theorem extent_cons (x : Dual) (ws : DualCode) : extent (x :: ws) = x.size + extent ws := by
  funext debug
  simp [extent]

@[simp] theorem extent_append (as bs : DualCode) : extent (as ++ bs) = extent as + extent bs := by
  funext debug
  simp [extent]

@[simp] theorem lines_append (debug : Bool) (as bs : DualCode) :
    lines debug (as ++ bs) = lines debug as ++ lines debug bs := by simp [lines]

theorem lines_cons (debug : Bool) (x : Dual) (ws : DualCode) : lines debug (x :: ws) =
      ((x.instr? debug).map fun i => (⟨i, fun _ => True⟩ : Line)).toList ++ lines debug ws := by
  unfold lines
  cases h : x.instr? debug <;> simp [h]

@[simp] theorem extent_lines (debug : Bool) (ws : DualCode) : Line.extent (lines debug ws) = extent ws debug := by
  induction ws with
  | nil => rfl
  | cons x rest ih =>
    rw [lines_cons, Line.extent_append, ih, extent_cons, Pi.add_apply]
    congr 1
    unfold Dual.size
    cases x.instr? debug <;> simp [Line.size]

/-! ### Places -/

/-- Offsets in both kinds of code that are one place of the row. -/
def Reached (ws : DualCode) (o : Bool → Nat) : Prop := ∃ pre post, ws = pre ++ post ∧ o = extent pre

theorem Reached.within (h : Reached ws o) (as bs : DualCode) : Reached (as ++ ws ++ bs) (extent as + o) := by
  obtain ⟨pre, post, rfl, rfl⟩ := h
  exact ⟨as ++ pre, post ++ bs, by simp, by simp⟩

/-- A dual that ends at `e` leads to places that are reached. -/
def Lands (reached : (Bool → Nat) → Prop) (e : Bool → Nat) : Dual → Prop
  | .same i => (i.Proceeds ∧ ¬ i.Tells) ∨ i = .exit ∨ ∃ l, i = .leap l
  | .conditional _ d | .forward d => reached (e + d)
  | .back d => ∃ o, e = o + d ∧ reached o
  | .extra i => i.Silent
  | .beyond d => reached (e + fun debug => bif debug then d else 0)

/-- What matters of a row is where its places are. -/
theorem Lands.imp (he : e' = c + e) (h : ∀ o, reached o → reached' (c + o)) (hx : Lands reached e x) :
    Lands reached' e' x := by
  subst he
  have hahead : ∀ d, reached (e + d) → reached' (c + e + d) := fun d hd => by
    rw [add_assoc]
    exact h _ hd
  cases x with
  | same _ | extra _ => exact hx
  | conditional _ d | forward d => exact hahead d hx
  | back d =>
    obtain ⟨o, rfl, ho⟩ := hx
    exact ⟨c + o, (add_assoc ..).symm, h o ho⟩
  | beyond d => exact hahead _ hx

/-- All duals of a part that starts at `o`. -/
def LandsFrom (ws : DualCode) : (Bool → Nat) → DualCode → Prop
  | _, [] => True
  | o, x :: rest => Lands (Reached ws) (o + x.size) x ∧ LandsFrom ws (o + x.size) rest

section LandsFrom

variable {part : DualCode} {o : Bool → Nat}

theorem landsFrom_append : LandsFrom ws o (as ++ bs) ↔ LandsFrom ws o as ∧ LandsFrom ws (o + extent as) bs := by
  induction as generalizing o with
  | nil => simp [LandsFrom]
  | cons x rest ih => simp [LandsFrom, ih, and_assoc, add_assoc]

theorem LandsFrom.within (h : LandsFrom ws o part) (as bs : DualCode) :
    LandsFrom (as ++ ws ++ bs) (extent as + o) part := by
  induction part generalizing o with
  | nil => trivial
  | cons x rest ih =>
    refine ⟨h.1.imp (add_assoc ..) fun _ ho => ho.within as bs, ?_⟩
    rw [add_assoc]
    exact ih h.2

theorem LandsFrom.at (h : LandsFrom ws o (pre ++ x :: post)) :
    Lands (Reached ws) (o + extent pre + x.size) x := (landsFrom_append.1 h).2.1

end LandsFrom

/-- Both kinds of statement make sense. -/
def Sound (g : Regime) (x : Dual) : Prop :=
  ∀ debug i, x.instr? debug = some i → i.Typed (g.rules fun _ => True) g.room.Holds

end DualCode

open DualCode

/-- Duals that make sense and lead to one another. -/
structure Aligned (g : Regime) (ws : DualCode) : Prop where
  sound : ∀ x ∈ ws, Sound g x
  lands : LandsFrom ws 0 ws

namespace Aligned

/-- The duals within a longer row. -/
theorem within (h : Aligned g ws) (as bs : DualCode) : LandsFrom (as ++ ws ++ bs) (extent as) ws := by
  have hlands := h.lands.within as bs
  rwa [add_zero] at hlands

theorem nil (g : Regime) : Aligned g [] := ⟨by simp, trivial⟩

theorem append (ha : Aligned g as) (hb : Aligned g bs) : Aligned g (as ++ bs) where
  sound x hx := (mem_append.1 hx).elim (ha.sound x) (hb.sound x)
  lands := by
    refine landsFrom_append.2 ⟨?_, ?_⟩
    · simpa using ha.within [] bs
    · simpa using hb.within as []

end Aligned

/-! ### Duals changed one by one -/

namespace Dual

def relocate (base : Storage) : Dual → Dual
  | same i => same (i.relocate base)
  | conditional c d => conditional (c.relocate base) d
  | extra i => extra (i.relocate base)
  | x => x

/-- A dual of an imported file, which tells no line of its own. -/
def clear : Dual → Dual
  | extra i => extra i.clearLine
  | x => x

theorem instr_relocate (base : Storage) (x : Dual) (debug : Bool) :
    (x.relocate base).instr? debug = (x.instr? debug).map (Instr.relocate base) := by
  cases x <;> cases debug <;> rfl

theorem relocate_none (x : Dual) : x.relocate .none = x := by
  cases x <;> simp only [relocate, Instr.relocate_none, Node.relocate_none]

theorem instr_clear (hx : Lands reached e x) (debug : Bool) :
    x.clear.instr? debug = (x.instr? debug).map Instr.clearLine := by
  cases x with
  | same i =>
    obtain ⟨-, hi⟩ | rfl | ⟨l, rfl⟩ := hx
    · cases i <;> first | exact absurd trivial hi | rfl
    · rfl
    · rfl
  | _ => cases debug <;> rfl

/-- The size of a statement stays when storage moves. -/
theorem size_relocate (base : Storage) (x : Dual) : (x.relocate base).size = x.size := by
  funext debug
  unfold size
  rw [instr_relocate, Option.map_map]
  congr 2
  funext i
  exact Instr.size_relocate base i

theorem size_clear (x : Dual) : x.clear.size = x.size := by
  cases x with
  | extra i =>
    funext debug
    cases debug with
    | false => rfl
    | true => exact Instr.size_clearLine i
  | _ => rfl

theorem lands_relocate (base : Storage) (h : Lands reached e x) : Lands reached e (x.relocate base) := by
  cases x with
  | same i =>
    obtain ⟨hp, ht⟩ | rfl | ⟨l, rfl⟩ := h
    · cases i <;> exact .inl ⟨hp, ht⟩
    · exact .inr (.inl rfl)
    · exact .inr (.inr ⟨l, rfl⟩)
  | extra i =>
    cases i with
    | debugUpdate name k n =>
      obtain ⟨k, a, rfl⟩ := h
      exact ⟨k, base.move k a, rfl⟩
    | _ => exact h
  | _ => exact h

theorem lands_clear (h : Lands reached e x) : Lands reached e x.clear := by
  cases x with
  | extra i => cases i <;> exact h
  | _ => exact h

end Dual

namespace Aligned

variable {g' : Regime} {φ : Dual → Dual}

theorem extent_map (hsize : ∀ x, (φ x).size = x.size) (ws : DualCode) : extent (ws.map φ) = extent ws := by
  induction ws with
  | nil => rfl
  | cons x rest ih => rw [map_cons, extent_cons, extent_cons, ih, hsize]

/-- Changes of duals that leave places where they are. -/
theorem map (hsize : ∀ x, (φ x).size = x.size) (hlands : ∀ {reached e x}, Lands reached e x → Lands reached e (φ x))
    (hsound : ∀ x, Sound g x → Sound g' (φ x)) (h : Aligned g ws) : Aligned g' (ws.map φ) where
  sound x hx := by
    obtain ⟨y, hy, rfl⟩ := mem_map.1 hx
    exact hsound y (h.sound y hy)
  lands := by
    have hreached : ∀ o, Reached ws o → Reached (ws.map φ) (0 + o) := by
      rintro - ⟨pre, post, rfl, rfl⟩
      exact ⟨pre.map φ, post.map φ, map_append, by rw [zero_add, extent_map hsize]⟩
    have hpart : ∀ (part : DualCode) (o : Bool → Nat), LandsFrom ws o part → LandsFrom (ws.map φ) o (part.map φ) := by
      intro part
      induction part with
      | nil => exact fun _ _ => trivial
      | cons x rest ih =>
        intro o hl
        refine ⟨?_, ?_⟩ <;> rw [hsize]
        · exact hlands (hl.1.imp (zero_add _).symm hreached)
        · exact ih _ hl.2
    exact hpart ws 0 h.lands

theorem relocate (hbits : g.floatBits → g'.floatBits)
    (hroom : ∀ k a, g.room.Holds k a → g'.room.Holds k (base.move k a)) (h : Aligned g ws) :
    Aligned g' (ws.map (Dual.relocate base)) := by
  refine h.map (Dual.size_relocate base) (Dual.lands_relocate base) fun x hx debug i hi => ?_
  rw [Dual.instr_relocate] at hi
  obtain ⟨j, hj, rfl⟩ := map_eq_some_iff.1 hi
  have hmoved : (g.rules fun _ => True).Moved base (g'.rules fun _ => True) :=
    ⟨fun k a hr => ⟨hroom k a hr.1, fun _ _ => trivial⟩, hbits⟩
  exact Instr.typed_relocate hmoved hroom j (hx debug j hj)

theorem clear (h : Aligned g ws) : Aligned g (ws.map Dual.clear) := by
  refine h.map Dual.size_clear Dual.lands_clear fun x hx debug i hi => ?_
  cases x with
  | extra j =>
    cases debug with
    | false => cases hi
    | true =>
      cases hi
      have htyped := hx true j rfl
      cases j <;> first | exact htyped | trivial
  | _ => exact hx debug i hi

end Aligned

end HostScript

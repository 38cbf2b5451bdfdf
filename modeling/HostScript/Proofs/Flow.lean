import HostScript.Proofs.Soundness
import Mathlib.Algebra.GroupWithZero.Nat

/-! How code runs through its statements.

Code is a row of lines: statements, each with the addresses that are known to hold
trusted pointers in front of it. Lines *lead* from what is known at their start to
what is known at their end when every statement makes sense where it stands, and
every way on from a statement leads to the first byte of a line, or behind the last
one, where no more is known than behind the statement. -/
namespace HostScript

open List

variable {K inn mid out : Known} {as bs : List Line} {g g' : Regime} {l : Line} {lines : List Line} {o : Nat}

def Instr.size (i : Instr) : Nat := (Piece.bytesOf i.pieces).length

theorem Piece.length_bytesOf (h : ∀ p, (φ p).bytes.length = p.bytes.length) (ps : List Piece) :
    (bytesOf (ps.map φ)).length = (bytesOf ps).length := by
  induction ps with
  | nil => rfl
  | cons p rest ih =>
    rw [map_cons, bytesOf_cons, bytesOf_cons, length_append, length_append, ih, h]

theorem Instr.size_pos (i : Instr) : 0 < i.size := by
  cases i <;> exact Nat.succ_pos _

theorem Instr.size_relocate (base : Storage) (i : Instr) : (i.relocate base).size = i.size := by
  unfold Instr.size
  rw [Instr.pieces_relocate]
  exact Piece.length_bytesOf (fun p => by cases p <;> simp [Piece.relocate, Piece.bytes]) _

theorem Instr.size_clearLine (i : Instr) : i.clearLine.size = i.size := by
  unfold Instr.size
  rw [Instr.pieces_clearLine]
  exact Piece.length_bytesOf (fun p => by cases p <;> simp [Piece.zeroLine, Piece.bytes]) _

/-- Addresses that hold trusted pointers. -/
abbrev Known := Nat → Prop

/-- What the code of a file is held to. -/
structure Regime where
  /-- The storage that the file has. -/
  room : Storage
  /-- Operators on bits may stand where a floating-point number is expected. -/
  floatBits : Prop
  /-- What is known of pointers matters. -/
  tracked : Prop

/-- A variable of a kind at an address is within storage. -/
def Storage.Holds (room : Storage) (k : Kind) (a : Nat) : Prop :=
  if k = .string then a < room.slots else a + k.size ≤ room.bytes

namespace Regime

/-- Everything known here is known there. -/
def Le (g : Regime) (K L : Known) : Prop := g.tracked → ∀ b, K b → L b

variable {L M : Known}

theorem Le.refl (g : Regime) (K : Known) : g.Le K K := fun _ _ h => h

theorem Le.trans (h : g.Le K L) (h' : g.Le L M) : g.Le K M := fun ht b hb => h' ht b (h ht b hb)

/-- What a statement may rely on: variables within the storage, and pointers that are known. -/
def rules (g : Regime) (K : Known) : Rules where
  reads k a := g.room.Holds k a ∧ (g.tracked → k = .pointer → K a)
  floatBits := g.floatBits

theorem rules_le (h : g.Le K L) : (g.rules K).Le (g.rules L) :=
  ⟨fun _ _ hr => ⟨hr.1, fun ht hk => h ht _ (hr.2 ht hk)⟩, id⟩

end Regime

/-- A variable of a kind at `a` shares no byte with the pointer at `b`. -/
def Apart (k : Kind) (a b : Nat) : Prop := k = .string ∨ b + 8 ≤ a ∨ a + k.size ≤ b

structure Line where
  instr : Instr
  known : Known

namespace Line

def size (l : Line) : Nat := l.instr.size

/-- What is known behind the statement. -/
def after (l : Line) : Known := fun b => l.known b ∨ ∃ n, l.instr = .assign .pointer b n

/-- The statement makes sense, and what is assigned leaves known pointers alone. -/
structure Sound (g : Regime) (l : Line) : Prop where
  typed : l.instr.Typed (g.rules l.known) g.room.Holds
  apart : g.tracked → ∀ k a n, l.instr = .assign k a n → ∀ b, l.known b →
    Apart k a b ∨ (k = .pointer ∧ a = b)

def extent (lines : List Line) : Nat := (lines.map size).sum

@[simp] theorem extent_nil : extent [] = 0 := rfl

@[simp] theorem extent_cons (l : Line) (lines : List Line) : extent (l :: lines) = l.size + extent lines := by
  simp [extent]

@[simp] theorem extent_append (as bs : List Line) : extent (as ++ bs) = extent as + extent bs := by
  simp [extent]

/-- What is known in front of some lines, given what is known behind them. -/
def entry (out : Known) : List Line → Known
  | [] => out
  | l :: _ => l.known

/-- A line stands at an offset. -/
def At (lines : List Line) (o : Nat) (l : Line) : Prop :=
  ∃ pre post, lines = pre ++ l :: post ∧ o = extent pre

theorem not_at_nil : ¬ At [] o l := by
  rintro ⟨pre, post, h, -⟩
  simp at h

theorem at_cons (h : At (x :: rest) o l) : (o = 0 ∧ l = x) ∨ ∃ o', o = x.size + o' ∧ At rest o' l := by
  obtain ⟨pre, post, heq, rfl⟩ := h
  cases pre with
  | nil =>
    cases heq
    exact .inl ⟨rfl, rfl⟩
  | cons y pre =>
    obtain ⟨rfl, rfl⟩ := List.cons.inj heq
    exact .inr ⟨extent pre, extent_cons _ _, pre, post, rfl, rfl⟩

/-- A line of two parts is in the first or behind it in the second. -/
theorem at_append (h : At (as ++ bs) o l) : At as o l ∨ ∃ o', o = extent as + o' ∧ At bs o' l := by
  induction as generalizing o with
  | nil => exact .inr ⟨o, by simp, h⟩
  | cons x rest ih =>
    obtain ⟨rfl, rfl⟩ | ⟨o', rfl, hrest⟩ := at_cons h
    · exact .inl ⟨[], rest, rfl, rfl⟩
    · obtain ⟨pre, post, rfl, rfl⟩ | ⟨o'', rfl, hb⟩ := ih hrest
      · exact .inl ⟨x :: pre, post, rfl, by simp⟩
      · exact .inr ⟨o'', by simp [Nat.add_assoc], hb⟩

theorem At.mem (h : At lines o l) : l ∈ lines := by
  obtain ⟨pre, post, rfl, -⟩ := h
  simp

theorem At.le (h : At lines o l) : o + l.size ≤ extent lines := by
  obtain ⟨pre, post, rfl, rfl⟩ := h
  simp

/-- An offset is the start of a line or the end of all, and no more is known there than `K`. -/
def Reached (g : Regime) (out : Known) (lines : List Line) (o : Nat) (K : Known) : Prop :=
  ∃ pre post, lines = pre ++ post ∧ o = extent pre ∧ g.Le (entry out post) K

section Reached

variable {L : Known}

theorem Reached.mono (h : Reached g out lines o K) (hk : g.Le K L) : Reached g out lines o L := by
  obtain ⟨pre, post, rfl, rfl, he⟩ := h
  exact ⟨pre, post, rfl, rfl, he.trans hk⟩

theorem Reached.appendRight (h : Reached g mid as o K) (hb : g.Le (entry out bs) mid) :
    Reached g out (as ++ bs) o K := by
  obtain ⟨pre, post, rfl, rfl, he⟩ := h
  refine ⟨pre, post ++ bs, by simp, rfl, ?_⟩
  cases post with
  | nil => exact hb.trans he
  | cons l post => exact he

theorem Reached.appendLeft (as : List Line) (h : Reached g out bs o K) :
    Reached g out (as ++ bs) (extent as + o) K := by
  obtain ⟨pre, post, rfl, rfl, he⟩ := h
  exact ⟨as ++ pre, post, by simp, by simp, he⟩

end Reached

/-- Every way on from a statement that ends at an offset. -/
def Lands (g : Regime) (out : Known) (lines : List Line) (e : Nat) (l : Line) : Prop :=
  ∀ m, l.instr.Moves m →
    match m with
    | .next => Reached g out lines e l.after
    | .skip d => Reached g out lines (e + d) l.after
    | .back d => d ≤ e ∧ Reached g out lines (e - d) l.after
    | .exit => True

section Lands

variable {e : Nat}

theorem Lands.appendRight (h : Lands g mid as e l) (hb : g.Le (entry out bs) mid) : Lands g out (as ++ bs) e l := by
  intro m hm
  have hl := h m hm
  cases m with
  | next | skip _ => exact Reached.appendRight hl hb
  | back d => exact ⟨hl.1, hl.2.appendRight hb⟩
  | exit => trivial

theorem Lands.appendLeft (as : List Line) (h : Lands g out bs e l) : Lands g out (as ++ bs) (extent as + e) l := by
  intro m hm
  have hl := h m hm
  cases m with
  | next => exact Reached.appendLeft as hl
  | skip d =>
    show Reached g out (as ++ bs) (extent as + e + d) l.after
    rw [Nat.add_assoc]
    exact Reached.appendLeft as hl
  | back d =>
    refine ⟨by have := hl.1; omega, ?_⟩
    rw [Nat.add_sub_assoc hl.1]
    exact Reached.appendLeft as hl.2
  | exit => trivial

/-- A statement that proceeds. -/
theorem lands_of_proceeds (hp : l.instr.Proceeds) (h : Reached g out lines e l.after) : Lands g out lines e l := by
  intro m hm
  obtain rfl : m = .next := by
    cases hi : l.instr <;> rw [hi] at hm hp <;> first | exact hp.elim | exact hm
  exact h

end Lands

end Line

open Line

/-- Lines lead from where `inn` is known to where `out` is known. -/
structure Leads (g : Regime) (inn : Known) (lines : List Line) (out : Known) : Prop where
  sound : ∀ l ∈ lines, l.Sound g
  lands : ∀ o l, At lines o l → Lands g out lines (o + l.size) l
  enters : g.Le (entry out lines) inn

namespace Leads

theorem nil (h : g.Le out inn) : Leads g inn [] out where
  sound := by simp
  lands _ _ h := absurd h not_at_nil
  enters := h

/-- Where one part ends, the next one begins with what is known there. -/
theorem append (ha : Leads g inn as mid) (hb : Leads g mid bs out) : Leads g inn (as ++ bs) out where
  sound l hl := (mem_append.1 hl).elim (ha.sound l) (hb.sound l)
  lands o l h := by
    obtain h | ⟨o', rfl, hright⟩ := at_append h
    · exact (ha.lands o l h).appendRight hb.enters
    · rw [Nat.add_assoc]
      exact (hb.lands o' l hright).appendLeft as
  enters := by
    cases as with
    | nil => exact hb.enters.trans ha.enters
    | cons l rest => exact ha.enters

/-- More may be known in front of lines than they need. -/
theorem enter (h : Leads g inn lines out) (hi : g.Le inn K) : Leads g K lines out :=
  ⟨h.sound, h.lands, h.enters.trans hi⟩

/-- What was learned on the way may be forgotten at the end. -/
theorem forget (h : Leads g inn lines out) (ho : g.Le K out) : Leads g inn lines K where
  sound := h.sound
  lands o l hl := by
    have hlands := (h.lands o l hl).appendRight (show g.Le (entry K []) out from ho)
    rwa [append_nil] at hlands
  enters := by
    cases lines with
    | nil => exact ho.trans h.enters
    | cons l rest => exact h.enters

end Leads

/-! ### Jumps out of loops -/

namespace Line

/-- Fills in leaps of a kind; the first line is at an offset of code of a size. -/
def fillFrom (l : Leap) (target : Fragment.Target) (size : Nat) : Nat → List Line → List Line
  | _, [] => []
  | o, x :: rest => ⟨x.instr.fill l target size o, x.known⟩ :: fillFrom l target size (o + x.size) rest

/-- Fills in all leaps of a kind. -/
def fill (l : Leap) (target : Fragment.Target) (lines : List Line) : List Line :=
  fillFrom l target (extent lines) 0 lines

section Fill

variable (l : Leap) (target : Fragment.Target) (n : Nat)

/-- Only leaps of the kind are touched. -/
theorem fill_cases (o : Nat) (i : Instr) :
    (i.fill l target n o = i ∧ i ≠ .leap l) ∨
      (i = .leap l ∧ i.fill l target n o =
        match target with
        | .finish => .forward (n - (o + 3))
        | .start => .back (o + 3)) := by
  cases i with
  | leap m =>
    by_cases h : m = l
    · exact .inr ⟨by rw [h], if_pos h⟩
    · exact .inl ⟨if_neg h, fun heq => h (Instr.leap.inj heq)⟩
  | _ => exact .inl ⟨rfl, Instr.noConfusion⟩

end Fill

end Line

/-- No leaps of a kind are left. -/
def Line.Free (l : Leap) (lines : List Line) : Prop := ∀ x ∈ lines, x.instr ≠ .leap l

theorem free_append {l : Leap} (ha : Line.Free l as) (hb : Line.Free l bs) :
    Line.Free l (as ++ bs) := fun x hx => (mem_append.1 hx).elim (ha x) (hb x)

theorem free_nil (l : Leap) : Line.Free l [] := by simp [Line.Free]

/-! ### Lines changed one by one -/

/-- A change of lines that moves what is known along. -/
structure Line.Change (g g' : Regime) (φ : Line → Line) (lift : Known → Known) : Prop where
  le : ∀ {K L}, g.Le K L → g'.Le (lift K) (lift L)
  known : ∀ l, (φ l).known = lift l.known
  size : ∀ l, (φ l).size = l.size
  moves : ∀ l m, (φ l).instr.Moves m → l.instr.Moves m
  after : ∀ l, g'.Le (lift l.after) (φ l).after
  sound : ∀ l, l.Sound g → (φ l).Sound g'

namespace Line.Change

variable {φ : Line → Line} {lift : Known → Known} (hφ : Line.Change g g' φ lift)

include hφ

theorem extent_map (lines : List Line) : extent (lines.map φ) = extent lines := by
  induction lines with
  | nil => rfl
  | cons l rest ih => rw [map_cons, extent_cons, extent_cons, ih, hφ.size]

theorem entry_map (out : Known) (lines : List Line) : entry (lift out) (lines.map φ) = lift (entry out lines) := by
  cases lines with
  | nil => rfl
  | cons l rest => exact hφ.known l

theorem at_map (h : At (lines.map φ) o x) : ∃ l, At lines o l ∧ x = φ l := by
  obtain ⟨pre, post, heq, rfl⟩ := h
  obtain ⟨as, rest, rfl, rfl, hrest⟩ := map_eq_append_iff.1 heq
  obtain ⟨l, bs, rfl, rfl, rfl⟩ := map_eq_cons_iff.1 hrest
  exact ⟨l, ⟨as, bs, rfl, hφ.extent_map as⟩, rfl⟩

theorem reached_map (h : Reached g out lines o K) : Reached g' (lift out) (lines.map φ) o (lift K) := by
  obtain ⟨pre, post, rfl, rfl, he⟩ := h
  refine ⟨pre.map φ, post.map φ, map_append, (hφ.extent_map pre).symm, ?_⟩
  rw [hφ.entry_map]
  exact hφ.le he

theorem leads (h : Leads g inn lines out) : Leads g' (lift inn) (lines.map φ) (lift out) where
  sound x hx := by
    obtain ⟨l, hl, rfl⟩ := mem_map.1 hx
    exact hφ.sound l (h.sound l hl)
  lands o x hx := by
    obtain ⟨l, hl, rfl⟩ := hφ.at_map hx
    rw [hφ.size]
    intro m hm
    have hlands := h.lands o l hl m (hφ.moves l m hm)
    cases m with
    | next | skip _ => exact (hφ.reached_map hlands).mono (hφ.after l)
    | back d => exact ⟨hlands.1, (hφ.reached_map hlands.2).mono (hφ.after l)⟩
    | exit => trivial
  enters := by
    rw [hφ.entry_map]
    exact hφ.le h.enters

end Line.Change

namespace Line

/-- A line of an imported file, which tells no line of its own. -/
def clear (l : Line) : Line := ⟨l.instr.clearLine, l.known⟩

theorem change_clear (g : Regime) : Change g g clear id where
  le h := h
  known _ := rfl
  size l := Instr.size_clearLine l.instr
  moves l m hm := by
    unfold clear at hm
    cases hi : l.instr <;> rw [hi] at hm <;> exact hm
  after l := by
    rintro - b (hb | ⟨n, hn⟩)
    · exact .inl hb
    · refine .inr ⟨n, ?_⟩
      unfold clear
      rw [hn]
      rfl
  sound l h := by
    obtain ⟨htyped, hapart⟩ := h
    unfold clear
    cases hi : l.instr with
    | debugLine n => exact ⟨trivial, fun _ _ _ _ heq => Instr.noConfusion heq⟩
    | _ =>
      rw [hi] at htyped hapart
      exact ⟨htyped, hapart⟩

/-- What is known after moving up, and about the storage around. -/
def lift (base : Storage) (X K : Known) : Known := fun b => (∃ a, K a ∧ b = base.move .pointer a) ∨ X b

/-- A line of a file whose storage is moved up. -/
def place (base : Storage) (X : Known) (l : Line) : Line := ⟨l.instr.relocate base, lift base X l.known⟩

/-- What is known about the storage around a file is not touched by it. -/
theorem change_place (hbits : g.floatBits → g'.floatBits) (htracked : g'.tracked → g.tracked)
    (hroom : ∀ k a, g.room.Holds k a → g'.room.Holds k (base.move k a))
    (hX : g'.tracked → ∀ b, X b → b + 8 ≤ base.bytes ∨ base.bytes + g.room.bytes ≤ b) :
    Change g g' (place base X) (lift base X) where
  le h ht b hb := by
    obtain ⟨a, ha, rfl⟩ | hb := hb
    · exact .inl ⟨a, h (htracked ht) a ha, rfl⟩
    · exact .inr hb
  known _ := rfl
  size l := Instr.size_relocate base l.instr
  moves l m hm := by
    unfold place at hm
    cases hi : l.instr <;> rw [hi] at hm <;> exact hm
  after l := by
    rintro - b (⟨a, ha | ⟨n, hn⟩, rfl⟩ | hb)
    · exact .inl (.inl ⟨a, ha, rfl⟩)
    · refine .inr ⟨n.relocate base, ?_⟩
      unfold place
      rw [hn]
      rfl
    · exact .inl (.inr hb)
  sound l h := by
    have hrules : (g.rules l.known).Moved base (g'.rules (lift base X l.known)) :=
      ⟨fun k a hr => ⟨hroom k a hr.1, fun ht hk => .inl ⟨a, hr.2 (htracked ht) hk, by rw [hk]⟩⟩, hbits⟩
    refine ⟨Instr.typed_relocate hrules hroom l.instr h.typed, fun ht k a' n' hassign b hb => ?_⟩
    obtain ⟨a, n, hi, rfl⟩ : ∃ a n, l.instr = .assign k a n ∧ a' = base.move k a := by
      unfold place at hassign
      cases hi : l.instr <;> rw [hi] at hassign <;> cases hassign
      exact ⟨_, _, rfl, rfl⟩
    by_cases hk : k = .string
    · exact .inl (.inl hk)
    · have hmove : base.move k a = a + base.bytes := by simp [Storage.move, hk]
      have hpointer : ∀ c, base.move .pointer c = c + base.bytes := fun c => by simp [Storage.move]
      obtain ⟨c, hc, rfl⟩ | hb := hb
      · obtain (hs | hs | hs) | ⟨rfl, rfl⟩ := h.apart (htracked ht) k a n hi c hc
        · exact absurd hs hk
        · exact .inl (.inr (.inl (by rw [hpointer]; omega)))
        · exact .inl (.inr (.inr (by rw [hpointer]; omega)))
        · exact .inr ⟨rfl, rfl⟩
      · have hin : a + k.size ≤ g.room.bytes := by
          have hw := h.typed
          rw [hi] at hw
          simpa [Storage.Holds, hk] using hw.1
        refine .inl (.inr ?_)
        have := hX ht b hb
        omega

/-! ### Code of lines -/

/-- The code of lines before symbols have numbers. -/
def code (lines : List Line) : Fragment := .ofPieces (lines.flatMap fun l => l.instr.pieces)

theorem code_nil : code [] = ∅ := rfl

theorem code_append (as bs : List Line) : code (as ++ bs) = code as ++ code bs := by
  rw [code, flatMap_append, Fragment.ofPieces_append]
  rfl

theorem code_cons (l : Line) (rest : List Line) : code (l :: rest) = .ofPieces l.instr.pieces ++ code rest := by
  rw [code, flatMap_cons, Fragment.ofPieces_append]
  rfl

theorem extent_eq (lines : List Line) :
    extent lines = (Piece.bytesOf (lines.flatMap fun l => l.instr.pieces)).length := by
  induction lines with
  | nil => rfl
  | cons l rest ih =>
    rw [extent_cons, ih, flatMap_cons, Piece.bytesOf_append, length_append]
    rfl

@[simp] theorem size_code (lines : List Line) : (code lines).size = extent lines := by
  rw [code, Fragment.size_ofPieces, extent_eq]

theorem pieces_fillFrom (l : Leap) (target : Fragment.Target) (n : Nat) (lines : List Line) (o : Nat) :
    (fillFrom l target n o lines).flatMap (fun x => x.instr.pieces) =
      Fragment.mapFrom (Piece.fill l target n) o (lines.flatMap fun x => x.instr.pieces) := by
  induction lines generalizing o with
  | nil => rfl
  | cons x rest ih =>
    rw [fillFrom, flatMap_cons, flatMap_cons, Fragment.mapFrom_append, ih, Instr.pieces_fill]
    rfl

/-- Resolving jumps in the code is filling the lines. -/
theorem code_fill (l : Leap) (target : Fragment.Target) (lines : List Line) :
    (code lines).resolveJumps l.mark target = code (fill l target lines) := by
  rw [code, Fragment.resolveJumps_ofPieces, code, fill, pieces_fillFrom, extent_eq]

/-- Relocating the code is placing the lines. -/
theorem code_place (base : Storage) (X : Known) (lines : List Line) :
    (code lines).relocate base = code (lines.map (place base X)) := by
  rw [code, Fragment.relocate_ofPieces, code, map_flatMap, flatMap_map]
  congr 2
  funext l
  exact (Instr.pieces_relocate base l.instr).symm

theorem code_clear (lines : List Line) : (code lines).zeroLines = code (lines.map clear) := by
  rw [code, Fragment.zeroLines_ofPieces, code, map_flatMap, flatMap_map]
  congr 2
  funext l
  exact (Instr.pieces_clearLine l.instr).symm

end Line

end HostScript

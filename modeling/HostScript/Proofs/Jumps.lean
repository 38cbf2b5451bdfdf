import HostScript.Proofs.Noted
import HostScript.Proofs.Reading

/-! Jumps in code.

A fragment *stands* in code when its bytes are found there, but for what is filled in later:
storage that moves, numbers of host members and lines may be anything. Jumps out of loops are
filled in as well, and where they lead is told by `Exits`: whoever resolves the jumps of a fragment
in place finds out where the jumps of the parts lead, however often the parts were moved. -/
namespace HostScript

open Piece Fragment Code

variable {code : Array UInt8} {target : Fragment.Target} {l : Leap} {ps : List Piece} {memory : Memory} {base size : Nat}
  {op : Opcode}

/-! ### Where jumps lead -/

/-- The jump of three bytes at `p` leads to `t`. -/
inductive Jumps (code : Array UInt8) (p t : Nat) : Prop
  | forward (hd : d < 256 ^ 2) (h : HasAt code p (Opcode.code .forward :: Bytes.ofNat 2 d)) (ht : p + 3 + d = t)
  | back (hd : d < 256 ^ 2) (h : HasAt code p (Opcode.code .back :: Bytes.ofNat 2 d)) (ht : t + d = p + 3)

/-- The instruction at `p` tests a condition whose code ends at `q`. Where it does not hold, code goes
on at `t`, otherwise behind the distance at `q`. -/
inductive Skips (code : Array UInt8) (p q t : Nat) : Prop
  | intro (hd : d < 256 ^ 2) (hop : code[p]? = some (Opcode.code .conditional)) (h : HasAt code q (Bytes.ofNat 2 d))
      (ht : q + 2 + d = t)

section Machine

variable {σ : Type} {p q t : Nat}

theorem step_of_statement (h : Setting.statement ⟨code, memory, host⟩ p s = ((.ok (signal, memory'), t), s')) :
    Machine.step ⟨code, p, memory⟩ host s = ((.ok signal, ⟨code, t, memory'⟩), s') := by
  unfold Machine.step
  rw [h]

/-- A statement starts with the byte of its instruction. -/
theorem opcode_bind_apply {f : Nat → Opcode → Exec σ α} (hop : code[p]? = some op.code) (s : σ) :
    (Exec.cursor >>= fun position => Code.opcode code >>= f position) p s = f p op (p + 1) s := by
  show (Code.opcode code >>= f p) p s = _
  rw [Exec.bind_apply, opcode_apply hop]

/-- The machine goes on where a jump leads. -/
theorem Jumps.step (h : Jumps code p t) (ht : headerSize ≤ t) (memory : Memory) (host : Host σ) (s : σ) :
    Machine.step ⟨code, p, memory⟩ host s = ((.ok .proceed, ⟨code, t, memory⟩), s) := by
  refine step_of_statement ?_
  cases h with
  | @forward d hd h hforward =>
    obtain ⟨hop, hword⟩ := hasAt_cons.1 h
    refine (opcode_bind_apply hop s).trans ?_
    dsimp only
    rw [Exec.bind_apply, word_apply hword, Nat.mod_eq_of_lt hd, ← hforward]
    rfl
  | @back d hd h hback =>
    obtain ⟨hop, hword⟩ := hasAt_cons.1 h
    refine (opcode_bind_apply hop s).trans ?_
    dsimp only
    rw [Exec.bind_apply, word_apply hword, Nat.mod_eq_of_lt hd]
    show (if headerSize + d ≤ p + 1 + 2 then
        Exec.goTo (p + 1 + 2 - d) >>= fun _ => pure (Signal.proceed, memory)
      else Exec.malformed p .jumpBeforeStart : Exec σ (Signal × Memory)) (p + 1 + 2) s = _
    rw [if_pos (by omega), show p + 1 + 2 - d = t by omega]
    rfl

/-- The machine goes on where a condition says, once the condition is evaluated. -/
theorem Skips.step (h : Skips code p q t)
    (he : (Setting.evaluate ⟨code, memory, host⟩).bool false (p + 1) s = ((.ok b, q), s')) :
    Machine.step ⟨code, p, memory⟩ host s = ((.ok .proceed, ⟨code, if b then q + 2 else t, memory⟩), s') := by
  refine step_of_statement ?_
  obtain ⟨hd, hop, hword, ht⟩ := h
  refine (opcode_bind_apply hop s).trans ?_
  dsimp only
  rw [Exec.bind_apply, he]
  dsimp only
  rw [Exec.bind_apply, word_apply hword, Nat.mod_eq_of_lt hd]
  cases b with
  | true => rfl
  | false =>
    rw [← ht]
    rfl

end Machine

/-- Where jumps out of a loop lead, as far as there is a loop around them. -/
abbrev Exits := Leap → Option Nat

namespace Exits

/-- Outside of all loops. -/
def none : Exits := fun _ => .none

/-- In the body of a loop. -/
def around (finish again : Nat) : Exits
  | .breaks => some finish
  | .continues => some again

/-- With the jumps of one kind filled in. -/
def set (x : Exits) (l : Leap) (t : Nat) : Exits := fun m => if m = l then some t else x m

/-- What `x` tells, `y` tells as well. -/
def Le (x y : Exits) : Prop := ∀ l t, x l = some t → y l = some t

theorem none_le (x : Exits) : none.Le x := nofun

theorem set_set (x : Exits) (finish again : Nat) :
    (x.set .continues again).set .breaks finish = around finish again := by
  funext l
  cases l <;> rfl

theorem set_set_comm (x : Exits) (finish again : Nat) :
    (x.set .breaks finish).set .continues again = around finish again := by
  funext l
  cases l <;> rfl

end Exits

/-! ### Pieces in code -/

/-- Pieces stand in code from an offset on. -/
def Piece.Stand (code : Array UInt8) (x : Exits) : Nat → List Piece → Prop
  | _, [] => True
  | o, .raw bytes :: rest => HasAt code o bytes ∧ Stand code x (o + bytes.length) rest
  | o, .leap l :: rest => (∀ t, x l = some t → Jumps code o t) ∧ Stand code x (o + 3) rest
  | o, .place _ _ :: rest | o, .symbol _ :: rest | o, .line _ :: rest => Stand code x (o + 2) rest

/-- The fragment stands in code at an offset, whichever way it is taken apart. -/
def Fragment.Stands (code : Array UInt8) (o : Nat) (x : Exits) (f : Fragment) : Prop :=
  ∀ ps, f = ofPieces ps → Piece.Stand code x o ps

/-- The position of an end of code of a size. -/
def Fragment.Target.position (base size : Nat) : Target → Nat
  | .start => base
  | .finish => base + size

section Stand

variable {x y : Exits} {o : Nat}

theorem Piece.stand_append :
    Stand code x o (ps ++ qs) ↔ Stand code x o ps ∧ Stand code x (o + (bytesOf ps).length) qs := by
  induction ps generalizing o with
  | nil => simp [Stand]
  | cons p rest ih =>
    have hsize : (bytesOf (p :: rest)).length = p.bytes.length + (bytesOf rest).length := by simp
    rw [hsize, ← Nat.add_assoc]
    cases p <;> simp [Stand, ih, and_assoc, Piece.bytes]

theorem Piece.Stand.mono (h : Stand code y o ps) (hle : x.Le y) : Stand code x o ps := by
  induction ps generalizing o with
  | nil => trivial
  | cons p rest ih =>
    cases p with
    | raw bytes => exact ⟨h.1, ih h.2⟩
    | leap l => exact ⟨fun t ht => h.1 t (hle l t ht), ih h.2⟩
    | place _ _ | symbol _ | line _ => exact ih h

/-- A jump that is filled in leads to an end of the code. -/
theorem jumps_fill (ha : a + 3 ≤ size) (hsize : size < 256 ^ 2)
    (h : HasAt code (base + a) ((jumpTo target size a).1.code :: Bytes.ofNat 2 (min (jumpTo target size a).2 65535))) :
    Jumps code (base + a) (target.position base size) := by
  have hfits : ∀ d, d ≤ size → min d 65535 = d := fun d hd => by omega
  cases target with
  | finish =>
    rw [jumpTo, hfits _ (Nat.sub_le _ _)] at h
    have hposition : Fragment.Target.position base size .finish = base + size := rfl
    exact .forward (by omega) h (by omega)
  | start =>
    rw [jumpTo, hfits _ ha] at h
    have hposition : Fragment.Target.position base size .start = base := rfl
    exact .back (by omega) h (by omega)

/-- Code whose jumps of a kind are filled in tells where they lead. -/
theorem Piece.Stand.of_fill (hsize : size < 256 ^ 2) (ps : List Piece) : ∀ {a : Nat}, a + (bytesOf ps).length ≤ size →
      Stand code x (base + a) (mapFrom (Piece.fill l target size) a ps) →
        Stand code (x.set l (target.position base size)) (base + a) ps := by
  induction ps with
  | nil => exact fun _ _ => trivial
  | cons p rest ih =>
    intro a ha h
    have hlength : (bytesOf (p :: rest)).length = p.size + (bytesOf rest).length := by simp
    have ih := @ih (a + p.size) (by omega)
    rw [← Nat.add_assoc] at ih
    cases p with
    | raw bytes => exact ⟨h.1, ih h.2⟩
    | place _ _ | symbol _ | line _ => exact ih h
    | leap m =>
      have h3 : (Piece.leap m).size = 3 := rfl
      rw [mapFrom] at h
      by_cases hm : m = l
      · rw [Piece.fill, if_pos hm] at h
        refine ⟨fun t ht => ?_, ih ?_⟩
        · rw [Exits.set, if_pos hm] at ht
          obtain rfl := Option.some.inj ht
          exact jumps_fill (by omega) hsize h.1
        · have hrest := h.2
          rwa [List.length_cons, Bytes.length_ofNat] at hrest
      · rw [Piece.fill, if_neg hm] at h
        refine ⟨fun t ht => h.1 t ?_, ih h.2⟩
        rwa [Exits.set, if_neg hm] at ht

namespace Fragment

variable {f g test : Fragment}

theorem Stands.mono (h : f.Stands code o y) (hle : x.Le y) : f.Stands code o x := fun ps hps => (h ps hps).mono hle

/-- Code that is made of pieces, whatever it names. -/
abbrev Whole (f : Fragment) : Prop := f.Naming fun _ => True

theorem Stands.left [hg : g.Whole] (h : (f ++ g).Stands code o x) : f.Stands code o x := by
  obtain ⟨qs, rfl⟩ := hg.pieced
  rintro ps rfl
  exact (stand_append.1 (h (ps ++ qs) (ofPieces_append ps qs).symm)).1

theorem Stands.right [hf : f.Whole] (h : (f ++ g).Stands code o x) : g.Stands code (o + f.size) x := by
  obtain ⟨ps, rfl⟩ := hf.pieced
  rintro qs rfl
  rw [size_ofPieces]
  exact (stand_append.1 (h (ps ++ qs) (ofPieces_append ps qs).symm)).2

theorem Stands.hasAt (h : (ofBytes bs).Stands code o x) : HasAt code o bs :=
  (h [.raw bs] (ofPieces_raw bs).symm).1

theorem Stands.opcode (h : (opcode op).Stands code o x) : code[o]? = some op.code :=
  have hcode : HasAt code o [op.code] := Stands.hasAt h
  (hasAt_cons.1 hcode).1

theorem Stands.distance (h : (distance n).Stands code o x) (hn : n < 256 ^ 2) : HasAt code o (Bytes.ofNat 2 n) := by
  have hword := Stands.hasAt h
  rwa [show min n 65535 = n by omega] at hword

theorem Stands.jumps (h : (mark l.mark ++ .opcode .placeholder ++ word 0).Stands code o x) (ht : x l = some t) :
    Jumps code o t :=
  (h [.leap l] (ofPieces_leap l).symm).1 t ht

theorem Stands.of_resolveJumps (h : (f.resolveJumps l.mark target).Stands code o x) (hsize : f.size < 256 ^ 2) :
    f.Stands code o (x.set l (target.position o f.size)) := by
  rintro ps rfl
  rw [size_ofPieces] at hsize ⊢
  exact Piece.Stand.of_fill hsize ps (a := 0) (Nat.le_of_eq (Nat.zero_add _)) (h _ (resolveJumps_ofPieces l target ps))

theorem size_backToStart (f : Fragment) : (Compiling.backToStart f).size = f.size + 3 := by
  unfold Compiling.backToStart
  simp only [size_append, size_opcode, size_distance]

theorem Stands.of_backToStart [f.Whole] (h : (Compiling.backToStart f).Stands code o x) (hsize : f.size + 3 < 256 ^ 2) :
    f.Stands code o x ∧ Jumps code (o + f.size) o := by
  have hword := h.right.distance (by simpa [size_append, size_opcode] using hsize)
  have hop := h.left.right.opcode
  rw [size_append, size_opcode] at hword
  exact ⟨h.left.left, .back hsize (hasAt_cons.2 ⟨hop, hword⟩) (by omega)⟩

/-- The code of a condition is tested at `p`. Where the condition does not hold, code goes on at `t`. -/
structure Tests (code : Array UInt8) (test : Fragment) (p t : Nat) : Prop where
  stands : test.Stands code (p + 1) .none
  skips : Skips code p (p + 1 + test.size) t

theorem Stands.tests [test.Whole] [g.Whole] (hn : n < 256 ^ 2)
    (h : (.opcode .conditional ++ test ++ .distance n ++ g).Stands code o x) :
    Tests code test o (o + 1 + test.size + 2 + n) ∧ g.Stands code (o + 1 + test.size + 2) x := by
  have hrest := h.right
  have hword := h.left.right.distance hn
  simp only [size_append, size_opcode, size_distance, ← Nat.add_assoc] at hword hrest
  exact ⟨⟨h.left.left.right.mono x.none_le, .intro hn h.left.left.left.opcode hword rfl⟩, hrest⟩

end Fragment

end Stand

end HostScript

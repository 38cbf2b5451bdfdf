import HostScript.Compile.Emit
import Mathlib.Algebra.Group.Nat.Defs

/-! Fragments as pieces.

A fragment is a row of pieces: bytes as they are, and the things that marks stand
for. Everything that is done to fragments is done piece by piece, because what is
patched at a mark are the bytes of its own piece and nothing else: `relocate` moves
places, `resolveJumps` fills in leaps, `resolveSymbols` puts numbers for descriptors
and `zeroLines` clears lines. -/
namespace HostScript

open List

/-- A jump out of the body of a loop. -/
inductive Leap where
  | breaks
  | continues
  deriving DecidableEq

def Leap.mark : Leap → MarkKind
  | .breaks => .breakJump
  | .continues => .continueJump

inductive Piece where
  | raw (bytes : List UInt8)
  /-- A variable: an index of the string table, or an address. -/
  | place (isString : Bool) (address : Nat)
  | symbol (descriptor : String)
  | line (n : Nat)
  | leap (l : Leap)
  deriving DecidableEq

namespace Piece

def mark? : Piece → Option MarkKind
  | .raw _ => none
  | .place isString _ => some (if isString then .slot else .address)
  | .symbol d => some (.symbol d)
  | .line _ => some .line
  | .leap l => some l.mark

def bytes : Piece → List UInt8
  | .raw bytes => bytes
  | .place _ address => Bytes.ofNat 2 address
  | .symbol _ => [0, 0]
  | .line n => Bytes.ofNat 2 n
  | .leap _ => [0, 0, 0]

abbrev size (p : Piece) : Nat := p.bytes.length

def bytesOf (ps : List Piece) : List UInt8 := ps.flatMap bytes

/-- The marks of pieces that start at a location. -/
def marksFrom : Nat → List Piece → List Mark
  | _, [] => []
  | o, p :: rest => (p.mark?.map (Mark.mk o)).toList ++ marksFrom (o + p.size) rest

@[simp] theorem bytesOf_nil : bytesOf [] = [] := rfl

@[simp] theorem bytesOf_cons (p : Piece) (ps : List Piece) : bytesOf (p :: ps) = p.bytes ++ bytesOf ps :=
  rfl

@[simp] theorem bytesOf_append (ps qs : List Piece) : bytesOf (ps ++ qs) = bytesOf ps ++ bytesOf qs :=
  flatMap_append

theorem marksFrom_append (o : Nat) (ps qs : List Piece) :
    marksFrom o (ps ++ qs) = marksFrom o ps ++ marksFrom (o + (bytesOf ps).length) qs := by
  induction ps generalizing o with
  | nil => rfl
  | cons p rest ih =>
    simp only [cons_append, marksFrom, ih, bytesOf_cons, length_append, append_assoc, Nat.add_assoc]

theorem marksFrom_add (o n : Nat) (ps : List Piece) :
    marksFrom (o + n) ps = (marksFrom o ps).map (Fragment.moved n) := by
  induction ps generalizing o with
  | nil => rfl
  | cons p rest ih =>
    have hmark : (p.mark?.map (Mark.mk (o + n))).toList =
        ((p.mark?.map (Mark.mk o)).toList).map (Fragment.moved n) := by
      cases p.mark? <;> rfl
    simp only [marksFrom, map_append, ← ih, hmark]
    rw [Nat.add_right_comm]

/-! ### What is done to a piece -/

/-- The storage of a place moved up. -/
def relocate (base : Storage) : Piece → Piece
  | .place isString address => .place isString (address + if isString then base.slots else base.bytes)
  | p => p

/-- The number put for a descriptor. -/
def resolve (numbers : String → Nat) : Piece → Piece
  | .symbol d => .raw (Bytes.ofNat 2 (numbers d))
  | p => p

def zeroLine : Piece → Piece
  | .line _ => .raw [0, 0]
  | p => p

/-- The leap at an offset of code of a size filled in. -/
def fill (l : Leap) (target : Fragment.Target) (size : Nat) (o : Nat) : Piece → Piece
  | .leap m =>
    if m = l then
      let (op, distance) := Fragment.jumpTo target size o
      .raw (op.code :: Bytes.ofNat 2 (min distance 65535))
    else .leap m
  | p => p

end Piece

open Piece

namespace Fragment

def ofPieces (ps : List Piece) : Fragment := ⟨(bytesOf ps).toArray, (marksFrom 0 ps).toArray⟩

theorem ext_iff {f g : Fragment} : f = g ↔ f.bytes = g.bytes ∧ f.marks = g.marks := by
  cases f
  cases g
  simp

theorem ofPieces_append (ps qs : List Piece) : ofPieces (ps ++ qs) = ofPieces ps ++ ofPieces qs := by
  rw [ext_iff]
  constructor
  · show (bytesOf (ps ++ qs)).toArray = (bytesOf ps).toArray ++ (bytesOf qs).toArray
    simp
  · show (marksFrom 0 (ps ++ qs)).toArray =
      (marksFrom 0 ps).toArray ++ (marksFrom 0 qs).toArray.map (moved (bytesOf ps).toArray.size)
    rw [marksFrom_append, marksFrom_add]
    simp

theorem size_append (f g : Fragment) : (f ++ g).size = f.size + g.size := Array.size_append

@[simp] theorem size_ofPieces (ps : List Piece) : (ofPieces ps).size = (bytesOf ps).length := by
  simp [size, ofPieces]

@[simp] theorem empty_append (f : Fragment) : ∅ ++ f = f := by
  rw [ext_iff]
  constructor
  · show #[] ++ f.bytes = f.bytes
    simp
  · show #[] ++ f.marks.map (moved 0) = f.marks
    have hmoved : moved 0 = id := rfl
    simp [hmoved]

@[simp] theorem append_empty (f : Fragment) : f ++ ∅ = f := by
  rw [ext_iff]
  constructor
  · show f.bytes ++ #[] = f.bytes
    simp
  · show f.marks ++ #[].map (moved f.bytes.size) = f.marks
    simp

theorem append_assoc (f g h : Fragment) : f ++ g ++ h = f ++ (g ++ h) := by
  rw [ext_iff]
  constructor
  · show f.bytes ++ g.bytes ++ h.bytes = f.bytes ++ (g.bytes ++ h.bytes)
    simp
  · show f.marks ++ g.marks.map (moved f.bytes.size) ++ h.marks.map (moved (f.bytes ++ g.bytes).size) =
      f.marks ++ (g.marks ++ h.marks.map (moved g.bytes.size)).map (moved f.bytes.size)
    have hmoved : moved (f.bytes ++ g.bytes).size = moved f.bytes.size ∘ moved g.bytes.size := by
      funext m
      simp [moved]
      omega
    rw [hmoved, Array.map_append, Array.map_map, Array.append_assoc]

def join (fs : List Fragment) : Fragment := fs.foldr (· ++ ·) ∅

theorem join_append (fs gs : List Fragment) : join (fs ++ gs) = join fs ++ join gs := by
  induction fs with
  | nil => exact (empty_append _).symm
  | cons f fs ih =>
    show f ++ join (fs ++ gs) = f ++ join fs ++ join gs
    rw [ih, append_assoc]

/-! ### Fragments that are pieces -/

theorem ofPieces_raw (bytes : List UInt8) : ofPieces [.raw bytes] = ofBytes bytes := by
  simp [ofPieces, marksFrom, mark?, ofBytes, Piece.bytes]

theorem ofPieces_opcode (op : Opcode) : ofPieces [.raw [op.code]] = opcode op := ofPieces_raw _

theorem ofPieces_kind (k : Kind) : ofPieces [.raw [k.code]] = kind k := ofPieces_raw _

theorem ofPieces_byte (n : Nat) : ofPieces [.raw [UInt8.ofNat n]] = byte n := ofPieces_raw _

theorem ofPieces_distance (n : Nat) :
    ofPieces [.raw (Bytes.ofNat 2 (min n 65535))] = distance n := ofPieces_raw _

theorem ofPieces_text (s : String) : ofPieces [.raw (Utf8.encode s ++ [0])] = text s := ofPieces_raw _

theorem mark_append_ofBytes (k : MarkKind) (bytes : List UInt8) :
    mark k ++ ofBytes bytes = ⟨bytes.toArray, #[⟨0, k⟩]⟩ := by
  show append (mark k) (ofBytes bytes) = _
  simp [append, mark, ofBytes]

theorem ofPieces_place (v : Variable) : ofPieces [.place v.isString v.address] = place v := by
  unfold place word
  rw [mark_append_ofBytes]
  simp [ofPieces, marksFrom, mark?, Piece.bytes]

theorem ofPieces_symbol (d : String) : ofPieces [.symbol d] = symbol d := by
  unfold symbol word
  rw [mark_append_ofBytes]
  rfl

theorem ofPieces_line (n : Nat) : ofPieces [.line n] = mark .line ++ word n := by
  unfold word
  rw [mark_append_ofBytes]
  simp [ofPieces, marksFrom, mark?, Piece.bytes]

theorem ofPieces_leap (l : Leap) : ofPieces [.leap l] = mark l.mark ++ opcode .placeholder ++ word 0 := by
  show _ = append (append (mark l.mark) (opcode .placeholder)) (word 0)
  simp [append, mark, opcode, word, ofBytes, ofPieces, marksFrom, mark?, Piece.bytes, Opcode.code, Bytes.ofNat]

/-! ### Patching -/

theorem patchByte_append (pre post : List UInt8) (x b : UInt8) :
    patchByte (pre ++ x :: post).toArray pre.length b = (pre ++ b :: post).toArray := by
  unfold patchByte
  simp

theorem patchWord_append (pre post : List UInt8) (x y : UInt8) (n : Nat) :
    patchWord (pre ++ x :: y :: post).toArray pre.length n = (pre ++ Bytes.ofNat 2 n ++ post).toArray := by
  unfold patchWord
  rw [patchByte_append]
  have h := patchByte_append (pre ++ [UInt8.ofNat n]) post y (UInt8.ofNat (n / 256))
  rw [List.length_append, List.append_assoc] at h
  exact h.trans (by simp [Bytes.ofNat])

theorem wordAt_append (pre post : List UInt8) (x y : UInt8) :
    wordAt (pre ++ x :: y :: post).toArray pre.length = Bytes.toNat [x, y] := by
  simp [wordAt]

/-- A function on pieces, which may depend on where they start. -/
def mapFrom (g : Nat → Piece → Piece) : Nat → List Piece → List Piece
  | _, [] => []
  | o, p :: rest => g o p :: mapFrom g (o + p.size) rest

/-- What is done at a mark is done to the bytes of its piece. -/
structure Patches (step : Array UInt8 → Mark → Array UInt8) (g : Nat → Piece → Piece) : Prop where
  size : ∀ o p, (g o p).size = p.size
  unmarked : ∀ o p, p.mark? = none → (g o p).bytes = p.bytes := by
    intro o p hp
    cases p <;> first | rfl | cases hp
  marked : ∀ pre post p k, p.mark? = some k →
    step (pre ++ p.bytes ++ post).toArray ⟨pre.length, k⟩ =
      (pre ++ (g pre.length p).bytes ++ post).toArray

namespace Patches

variable {step : Array UInt8 → Mark → Array UInt8} {g : Nat → Piece → Piece}

/-- Patching at the mark of the first piece, if it has one. -/
theorem head (h : Patches step g) (pre post : List UInt8) (p : Piece) :
    ((p.mark?.map (Mark.mk pre.length)).toList).foldl step (pre ++ p.bytes ++ post).toArray =
      (pre ++ (g pre.length p).bytes ++ post).toArray := by
  cases hm : p.mark? with
  | none => rw [h.unmarked _ p hm]; rfl
  | some k => exact h.marked pre post p k hm

theorem foldl (h : Patches step g) (ps : List Piece) : ∀ pre : List UInt8,
    (marksFrom pre.length ps).foldl step (pre ++ bytesOf ps).toArray =
      (pre ++ bytesOf (mapFrom g pre.length ps)).toArray := by
  induction ps with
  | nil => intro pre; rfl
  | cons p rest ih =>
    intro pre
    have hrest := ih (pre ++ (g pre.length p).bytes)
    have hsize : (g pre.length p).bytes.length = p.bytes.length := h.size _ _
    rw [List.length_append, hsize] at hrest
    rw [marksFrom, List.foldl_append, bytesOf_cons, ← List.append_assoc, h.head, hrest, mapFrom,
      bytesOf_cons, List.append_assoc]

theorem foldr (h : Patches step g) (ps : List Piece) : ∀ pre : List UInt8,
    (marksFrom pre.length ps).foldr (fun m bytes => step bytes m) (pre ++ bytesOf ps).toArray =
      (pre ++ bytesOf (mapFrom g pre.length ps)).toArray := by
  induction ps with
  | nil => intro pre; rfl
  | cons p rest ih =>
    intro pre
    have hrest := ih (pre ++ p.bytes)
    rw [List.length_append] at hrest
    rw [marksFrom, List.foldr_append, bytesOf_cons, ← List.append_assoc, hrest, mapFrom, bytesOf_cons,
      ← List.append_assoc, ← h.head]
    cases p.mark? <;> rfl

end Patches

theorem mapFrom_const (g : Piece → Piece) (o : Nat) (ps : List Piece) : mapFrom (fun _ => g) o ps = ps.map g := by
  induction ps generalizing o with
  | nil => rfl
  | cons p rest ih => simp [mapFrom, ih]

theorem mapFrom_append (g : Nat → Piece → Piece) (o : Nat) (ps qs : List Piece) :
    mapFrom g o (ps ++ qs) = mapFrom g o ps ++ mapFrom g (o + (bytesOf ps).length) qs := by
  induction ps generalizing o with
  | nil => rfl
  | cons p rest ih =>
    simp only [cons_append, mapFrom, ih, bytesOf_cons, length_append, Nat.add_assoc]

/-- Pieces that lose some of their marks. -/
theorem marksFrom_mapFrom_filter (keep : MarkKind → Bool) (hsize : ∀ o p, (g o p).size = p.size)
    (hmark : ∀ o p, (g o p).mark? = p.mark?.filter keep) (o : Nat) (ps : List Piece) :
    marksFrom o (mapFrom g o ps) = (marksFrom o ps).filter fun m => keep m.kind := by
  induction ps generalizing o with
  | nil => rfl
  | cons p rest ih =>
    rw [mapFrom, marksFrom, marksFrom, hsize, ih, hmark]
    cases hk : p.mark? with
    | none => rfl
    | some k => by_cases hkeep : keep k = true <;> simp [Option.filter, hkeep]

/-! ### What is done to fragments -/

theorem ofNat_two (n : Nat) : Bytes.ofNat 2 n = [UInt8.ofNat n, UInt8.ofNat (n / 256)] := rfl

theorem ofNat_two_mod (n m : Nat) : Bytes.ofNat 2 (n % 256 ^ 2 + m) = Bytes.ofNat 2 (n + m) := by
  have hhigh : (n % 256 ^ 2 + m) / 256 % 256 = (n + m) / 256 % 256 := by omega
  rw [ofNat_two]
  congr 1
  · exact UInt8.toNat_inj.1 (by simp)
  · congr 1
    exact UInt8.toNat_inj.1 (by simpa using hhigh)

theorem patches_relocate (base : Storage) : Patches (relocateMark base) fun _ => Piece.relocate base where
  size := by
    intro o p
    cases p <;> simp [Piece.relocate, Piece.size, Piece.bytes]
  marked := by
    intro pre post p k hp
    cases p with
    | place isString address =>
      have hk : k = if isString then .slot else .address := (Option.some.inj hp).symm
      have hshift : shift base k = if isString then base.slots else base.bytes := by
        subst hk
        cases isString <;> rfl
      simp only [relocateMark, hshift, Piece.relocate, Piece.bytes]
      generalize (if isString = true then base.slots else base.bytes) = up
      split
      · rename_i h0
        rw [h0, Nat.add_zero]
      · have hword : wordAt (pre ++ Bytes.ofNat 2 address ++ post).toArray pre.length =
            address % 256 ^ 2 := by
          rw [← Bytes.toNat_ofNat, List.append_assoc]
          exact wordAt_append pre post _ _
        rw [hword, List.append_assoc]
        exact (patchWord_append pre post _ _ _).trans (by rw [ofNat_two_mod])
    | raw bytes => cases hp
    | symbol _ | line _ => cases hp; rfl
    | leap l => cases hp; cases l <;> rfl

theorem relocate_ofPieces (base : Storage) (ps : List Piece) :
    (ofPieces ps).relocate base = ofPieces (ps.map (Piece.relocate base)) := by
  have hbytes := (patches_relocate base).foldl ps []
  have hmarks := marksFrom_mapFrom_filter (fun _ => true)
    (patches_relocate base).size (fun o p => by cases p <;> rfl) 0 ps
  rw [mapFrom_const] at hbytes hmarks
  rw [ext_iff]
  constructor
  · show (marksFrom 0 ps).toArray.foldl (relocateMark base) (bytesOf ps).toArray = _
    rw [foldl_toArray]
    exact hbytes
  · show (marksFrom 0 ps).toArray = (marksFrom 0 (ps.map (Piece.relocate base))).toArray
    rw [hmarks, filter_eq_self.2 fun _ _ => rfl]

/-- The number of a host member, zero if it has none. -/
def Symbols.number (symbols : Symbols) (d : String) : Nat := (symbols.find? d).getD 0

theorem patches_symbols (symbols : Symbols) :
    Patches (fun bytes m =>
      match (MarkKind.descriptor? m.kind).bind symbols.find? with
      | some n => patchWord bytes m.location n
      | none => bytes) fun _ => Piece.resolve symbols.number where
  size := by
    intro o p
    cases p <;> simp [Piece.resolve, Piece.size, Piece.bytes]
  marked := by
    intro pre post p k hp
    cases p with
    | symbol d =>
      cases hp
      show (match symbols.find? d with
        | some n => patchWord _ _ n
        | none => _) = _
      simp only [Piece.resolve, Symbols.number]
      cases symbols.find? d with
      | none => rfl
      | some n =>
        rw [List.append_assoc]
        exact patchWord_append pre post 0 0 n
    | raw bytes => cases hp
    | place isString address => cases hp; cases isString <;> rfl
    | line n => cases hp; rfl
    | leap l => cases hp; cases l <;> rfl

theorem bytes_resolveSymbols_ofPieces (symbols : Symbols) (ps : List Piece) :
    ((ofPieces ps).resolveSymbols symbols).bytes = (bytesOf (ps.map (Piece.resolve symbols.number))).toArray := by
  have hbytes := (patches_symbols symbols).foldl ps []
  rw [mapFrom_const] at hbytes
  show (marksFrom 0 ps).toArray.foldl _ (bytesOf ps).toArray = _
  rw [foldl_toArray]
  exact hbytes

theorem patches_zeroLines : Patches (fun bytes m => if m.kind = .line then patchWord bytes m.location 0 else bytes)
      fun _ => Piece.zeroLine where
  size := by
    intro o p
    cases p <;> simp [Piece.zeroLine, Piece.size, Piece.bytes]
  marked := by
    intro pre post p k hp
    cases p with
    | line n =>
      cases hp
      rw [List.append_assoc]
      exact patchWord_append pre post _ _ 0
    | raw bytes => cases hp
    | place isString address => cases hp; cases isString <;> rfl
    | symbol d => cases hp; rfl
    | leap l => cases hp; cases l <;> rfl

theorem zeroLines_ofPieces (ps : List Piece) : (ofPieces ps).zeroLines = ofPieces (ps.map Piece.zeroLine) := by
  have hbytes := patches_zeroLines.foldl ps []
  have hmarks := marksFrom_mapFrom_filter (fun k => k ≠ .line)
    patches_zeroLines.size (fun o p => by
      cases p with
      | place isString address => cases isString <;> rfl
      | leap l => cases l <;> rfl
      | _ => rfl) 0 ps
  rw [mapFrom_const] at hbytes hmarks
  rw [ext_iff]
  constructor
  · show (marksFrom 0 ps).toArray.foldl _ (bytesOf ps).toArray = _
    rw [foldl_toArray]
    exact hbytes
  · show (marksFrom 0 ps).toArray.filter (·.kind ≠ .line) =
      (marksFrom 0 (ps.map Piece.zeroLine)).toArray
    rw [hmarks]
    simp

theorem mark_injective {l m : Leap} : m.mark = l.mark ↔ m = l := by
  cases l <;> cases m <;> decide

theorem patches_fill (l : Leap) (target : Target) (size : Nat) :
    Patches (fun bytes m => if m.kind = l.mark then fillJump target size bytes m.location else bytes)
      (Piece.fill l target size) where
  size := by
    intro o p
    cases p with
    | leap m => by_cases h : m = l <;> simp [Piece.fill, Piece.size, Piece.bytes, h]
    | _ => rfl
  marked := by
    intro pre post p k hp
    cases p with
    | leap m =>
      cases hp
      by_cases h : m = l
      · subst h
        simp only [if_true, Piece.fill, Piece.bytes]
        rw [List.append_assoc]
        have hop := patchByte_append pre (0 :: 0 :: post) 0 (jumpTo target size pre.length).1.code
        have hword := patchWord_append (pre ++ [(jumpTo target size pre.length).1.code]) post 0 0
          (min (jumpTo target size pre.length).2 65535)
        rw [List.length_append, List.append_assoc] at hword
        exact (congrArg (fun b => patchWord b _ _) hop).trans (hword.trans (by simp))
      · have hk : m.mark ≠ l.mark := fun hm => h (mark_injective.1 hm)
        simp only [if_neg hk, Piece.fill, if_neg h]
    | raw bytes => cases hp
    | place isString address => cases hp; cases l <;> cases isString <;> rfl
    | symbol _ | line _ => cases hp; cases l <;> rfl

theorem resolveJumps_ofPieces (l : Leap) (target : Target) (ps : List Piece) :
    (ofPieces ps).resolveJumps l.mark target = ofPieces (mapFrom (Piece.fill l target (bytesOf ps).length) 0 ps) := by
  have hbytes := (patches_fill l target (bytesOf ps).length).foldr ps []
  have hmarks := marksFrom_mapFrom_filter
    (fun k => k ≠ l.mark) (patches_fill l target (bytesOf ps).length).size (fun o p => by
      cases p with
      | raw bytes => rfl
      | place isString address => cases isString <;> cases l <;> rfl
      | symbol _ | line _ => cases l <;> rfl
      | leap m => cases l <;> cases m <;> rfl) 0 ps
  rw [ext_iff]
  constructor
  · show (marksFrom 0 ps).toArray.foldr _ (bytesOf ps).toArray = _
    rw [foldr_toArray]
    exact hbytes
  · show (marksFrom 0 ps).toArray.filter (·.kind ≠ l.mark) =
      (marksFrom 0 (mapFrom (Piece.fill l target (bytesOf ps).length) 0 ps)).toArray
    rw [hmarks]
    simp

end Fragment

end HostScript

import HostScript.Code.Opcode
import HostScript.Code.Storage
import HostScript.Literal
import HostScript.Text.Utf8

/-! Pieces of code that are not final yet.

A fragment is code with marks at the places that are filled in or moved later:
jumps out of a loop whose end is not known yet, storage that is laid out behind
that of imported files, numbers of host members that exist only once all files are
loaded, and line numbers. Fragments are put together by `++`, and by `splice` when
the storage of the second one moves up. -/
namespace HostScript

/-- What stands at a mark: a jump of three bytes, or a word of two. -/
inductive MarkKind where
  | breakJump
  | continueJump
  /-- A byte address in primitive memory. -/
  | address
  /-- An index of the string table. -/
  | slot
  /-- The number of a host member, by its descriptor. -/
  | symbol (descriptor : String)
  | line
  deriving DecidableEq, Repr

structure Mark where
  location : Nat
  kind : MarkKind
  deriving DecidableEq, Repr

structure Fragment where
  bytes : Array UInt8
  marks : Array Mark
  deriving DecidableEq, Repr

namespace Fragment

def empty : Fragment := ⟨#[], #[]⟩

instance : EmptyCollection Fragment := ⟨empty⟩

def size (f : Fragment) : Nat := f.bytes.size

def ofBytes (bytes : List UInt8) : Fragment := ⟨bytes.toArray, #[]⟩

def opcode (op : Opcode) : Fragment := ⟨#[op.code], #[]⟩

def kind (k : Kind) : Fragment := ⟨#[k.code], #[]⟩

def byte (n : Nat) : Fragment := ⟨#[UInt8.ofNat n], #[]⟩

def word (n : Nat) : Fragment := ofBytes (Bytes.ofNat 2 n)

/-- A distance as a word. One that does not fit is cut off at the largest word; code
that long is refused as a whole. -/
def distance (n : Nat) : Fragment := word (min n 65535)

/-- A text with a zero byte behind it. -/
def text (s : String) : Fragment := ofBytes (Utf8.encode s ++ [0])

/-- A mark in front of what follows. -/
def mark (kind : MarkKind) : Fragment := ⟨#[], #[⟨0, kind⟩]⟩

/-- The instruction for a literal. Booleans and `NULL` are instructions of their own. -/
def literal (l : Literal) : Fragment :=
  match l with
  | .bool true => opcode .literalTrue
  | .bool false => opcode .literalFalse
  | .null => opcode .literalNull
  | .string s => ⟨#[Opcode.code .literal] ++ (Utf8.encode s ++ [0]).toArray, #[]⟩
  | l => ⟨#[Opcode.code .literal] ++ l.value.bytes.toArray, #[]⟩

/-! ### Putting together -/

def moved (offset : Nat) (m : Mark) : Mark := { m with location := m.location + offset }

def append : Fragment → Fragment → Fragment
  | ⟨bytes, marks⟩, ⟨more, moreMarks⟩ =>
    let offset := bytes.size
    ⟨bytes ++ more, marks ++ moreMarks.map (moved offset)⟩

instance : Append Fragment := ⟨append⟩

/-- The word at a location, read as zero where there is none. -/
def wordAt (bytes : Array UInt8) (location : Nat) : Nat :=
  Bytes.toNat [bytes[location]?.getD 0, bytes[location + 1]?.getD 0]

def patchByte (bytes : Array UInt8) (location : Nat) (b : UInt8) : Array UInt8 :=
  bytes.setIfInBounds location b

def patchWord (bytes : Array UInt8) (location n : Nat) : Array UInt8 :=
  patchByte (patchByte bytes location (UInt8.ofNat n)) (location + 1) (UInt8.ofNat (n / 256))

/-- How far the storage behind a mark moves. -/
def shift (base : Storage) : MarkKind → Nat
  | .address => base.bytes
  | .slot => base.slots
  | _ => 0

/-- Moves the storage behind one mark, wrapping at 16 bits. -/
def relocateMark (base : Storage) (bytes : Array UInt8) (m : Mark) : Array UInt8 :=
  if shift base m.kind = 0 then bytes
  else patchWord bytes m.location (wordAt bytes m.location + shift base m.kind)

def relocate (base : Storage) (f : Fragment) : Fragment :=
  ⟨f.marks.foldl (relocateMark base) f.bytes, f.marks⟩

/-- `f` and then `g`, with the storage of `g` moved up. -/
def splice (f g : Fragment) (base : Storage) : Fragment := f ++ g.relocate base

def prepend (bytes : List UInt8) (f : Fragment) : Fragment := ofBytes bytes ++ f

/-! ### Filling in -/

/-- Where a jump out of a loop body goes. -/
inductive Target where
  | start
  | finish
  deriving DecidableEq, Repr

/-- The jump of three bytes at a location to an end of code of a size. -/
def jumpTo (target : Target) (size location : Nat) : Opcode × Nat :=
  match target with
  | .finish => (.forward, size - (location + 3))
  | .start => (.back, location + 3)

def fillJump (target : Target) (size : Nat) (bytes : Array UInt8) (location : Nat) : Array UInt8 :=
  let (op, distance) := jumpTo target size location
  patchWord (patchByte bytes location op.code) (location + 1) (min distance 65535)

/-- Fills in every jump of a kind, the last mark first. -/
def resolveJumps (kind : MarkKind) (target : Target) (f : Fragment) : Fragment :=
  ⟨f.marks.foldr (fun m bytes =>
      if m.kind = kind then fillJump target f.size bytes m.location else bytes) f.bytes,
    f.marks.filter (·.kind ≠ kind)⟩

/-- Numbers of host members by descriptor. -/
abbrev Symbols := List (String × Nat)

def Symbols.find? (symbols : Symbols) (descriptor : String) : Option Nat :=
  symbols.lookup descriptor

def MarkKind.descriptor? : MarkKind → Option String
  | .symbol descriptor => some descriptor
  | _ => none

/-- Fills in the numbers of host members. -/
def resolveSymbols (symbols : Symbols) (f : Fragment) : Fragment :=
  ⟨f.marks.foldl (fun bytes m =>
      match (MarkKind.descriptor? m.kind).bind symbols.find? with
      | some n => patchWord bytes m.location n
      | none => bytes) f.bytes,
    f.marks.filter fun m => (MarkKind.descriptor? m.kind).isNone⟩

/-- The descriptors in the code that have no number. -/
def unresolved (symbols : Symbols) (f : Fragment) : List String :=
  f.marks.toList.filterMap fun m =>
    (MarkKind.descriptor? m.kind).filter fun d => (symbols.find? d).isNone

def zeroLines (f : Fragment) : Fragment :=
  ⟨f.marks.foldl (fun bytes m => if m.kind = .line then patchWord bytes m.location 0 else bytes)
      f.bytes,
    f.marks.filter (·.kind ≠ .line)⟩

/-! ### Places inside the code

Marks may lie outside the code of a fragment that is still being written. Filling in
such a mark is refused. -/

/-- Whether `width` bytes stand at a location. -/
def holds (f : Fragment) (location width : Nat) : Bool := location + width ≤ f.size

def overwrite? (f : Fragment) (location n : Nat) : Option Fragment :=
  if f.holds location 2 then some ⟨patchWord f.bytes location n, f.marks⟩ else none

def splice? (f g : Fragment) (base : Storage) : Option Fragment :=
  if g.marks.all fun m => shift base m.kind = 0 || g.holds m.location 2 then some (f.splice g base)
  else none

def resolveJumps? (kind : MarkKind) (target : Target) (f : Fragment) : Option Fragment :=
  if f.marks.all fun m => m.kind ≠ kind || f.holds m.location 3 then
    some (f.resolveJumps kind target)
  else none

def resolveSymbols? (symbols : Symbols) (f : Fragment) : Option Fragment :=
  if f.marks.all fun m =>
      ((MarkKind.descriptor? m.kind).bind symbols.find?).isNone || f.holds m.location 2 then
    some (f.resolveSymbols symbols)
  else none

def zeroLines? (f : Fragment) : Option Fragment :=
  if f.marks.all fun m => m.kind ≠ .line || f.holds m.location 2 then some f.zeroLines else none

end Fragment

end HostScript

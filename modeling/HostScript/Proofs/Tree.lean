import HostScript.Machine.Step
import HostScript.Proofs.Pieces
import HostScript.Proofs.Text

/-! Instructions as trees.

Code is a flat row of bytes, and the machine takes each instruction apart while it
runs. A `Node` is an expression instruction with its operands, an `Instr` is a
statement. Host members stand as descriptors and variables as places that can move,
so the same tree describes code before and after it is imported. `Typed` says that an
expression, read as a value of a kind, makes sense all through. -/
namespace HostScript

mutual
/-- An expression in code. -/
inductive Node where
  /-- A number or a text. -/
  | literal (v : Value)
  | bool (b : Bool)
  | null
  | variable (k : Kind) (address : Nat)
  | arith (op : ArithOp) (l r : Node)
  | concat (l r : Node)
  | negate (n : Node)
  | complement (n : Node)
  | not (n : Node)
  | and (l r : Node)
  | or (l r : Node)
  | compare (op : CompareOp) (k : Kind) (l r : Node)
  | ternary (condition yes no : Node)
  | coalesce (l r : Node)
  | cast (source : Kind) (n : Node)
  | call (target : Target) (symbol : String) (args : Args)
  | subscript (target : Node) (k : Kind) (index : Node)

/-- What a member is reached through. -/
inductive Target where
  | global
  | of (n : Node)

/-- Arguments, each with its kind. -/
inductive Args where
  | nil
  | cons (k : Kind) (n : Node) (rest : Args)
end

def Args.length : Args → Nat
  | .nil => 0
  | .cons _ _ rest => rest.length + 1

/-- A statement in code. -/
inductive Instr where
  | assign (k : Kind) (address : Nat) (value : Node)
  | assignProperty (k : Kind) (target : Target) (symbol : String) (op : Opcode) (value : Node)
  | assignSubscript (k : Kind) (target : Node) (indexKind : Kind) (index : Node) (op : Opcode)
      (value : Node)
  | callUnused (target : Target) (symbol : String) (args : Args)
  | conditional (condition : Node) (distance : Nat)
  | forward (distance : Nat)
  | back (distance : Nat)
  | exit
  | metadata (text : String)
  /-- A line number, which is cleared when the file is imported. -/
  | debugLine (n : Nat)
  | clearedLine
  | debugUpdate (name : String) (k : Kind) (value : Node)
  | debugDelete (name : String)
  /-- A jump that is not filled in yet. -/
  | leap (l : Leap)

/-! ### Pieces -/

def Value.encoded : Value → List UInt8
  | .string s => Utf8.encode s ++ [0]
  | v => v.bytes

/-- The operand that tells which variable is meant. -/
def Piece.variable (k : Kind) (address : Nat) : Piece := .place (k = .string) address

/-- The byte of an instruction. -/
def Piece.op (op : Opcode) : Piece := .raw [op.code]

def Piece.kind (k : Kind) : Piece := .raw [k.code]

def Piece.text (s : String) : Piece := .raw (Utf8.encode s ++ [0])

def Piece.distance (d : Nat) : Piece := .raw (Bytes.ofNat 2 (min d 65535))

/-- A jump of its own, in one piece like the leap it may be filled in for. -/
def Piece.jump (op : Opcode) (d : Nat) : Piece := .raw (op.code :: Bytes.ofNat 2 (min d 65535))

mutual
def Node.pieces : Node → List Piece
  | .literal v => [.op .literal, .raw v.encoded]
  | .bool b => [.op (if b then .literalTrue else .literalFalse)]
  | .null => [.op .literalNull]
  | .variable k a => [.op .variable, .variable k a]
  | .arith op l r => .op (.arith op) :: (l.pieces ++ r.pieces)
  | .concat l r => .op .concat :: (l.pieces ++ r.pieces)
  | .negate n => .op .negate :: n.pieces
  | .complement n => .op .complement :: n.pieces
  | .not n => .op .not :: n.pieces
  | .and l r => .op .and :: (l.pieces ++ r.pieces)
  | .or l r => .op .or :: (l.pieces ++ r.pieces)
  | .compare op k l r => .op (.compare op) :: .kind k :: (l.pieces ++ r.pieces)
  | .ternary c y n => .op .ternary :: (c.pieces ++ (y.pieces ++ n.pieces))
  | .coalesce l r => .op .coalesce :: (l.pieces ++ r.pieces)
  | .cast k n => .op .typecast :: .kind k :: n.pieces
  | .call t d args => .op .call :: (t.pieces ++ (.symbol d :: .raw [UInt8.ofNat args.length] :: args.pieces))
  | .subscript t k i => .op .subscript :: (t.pieces ++ (.kind k :: i.pieces))

def Target.pieces : Target → List Piece
  | .global => [.op .noOp]
  | .of n => n.pieces

def Args.pieces : Args → List Piece
  | .nil => []
  | .cons k n rest => .kind k :: (n.pieces ++ rest.pieces)
end

def Instr.pieces : Instr → List Piece
  | .assign k a v => .op .assign :: .kind k :: .variable k a :: v.pieces
  | .assignProperty k t d op v =>
    .op .assignProperty :: .kind k :: (t.pieces ++ (.symbol d :: .op op :: v.pieces))
  | .assignSubscript k t j i op v =>
    .op .assignSubscript :: .kind k :: (t.pieces ++ (.kind j :: (i.pieces ++ (.op op :: v.pieces))))
  | .callUnused t d args =>
    .op .callUnused :: (t.pieces ++ (.symbol d :: .raw [UInt8.ofNat args.length] :: args.pieces))
  | .conditional c d => .op .conditional :: (c.pieces ++ [.distance d])
  | .forward d => [.jump .forward d]
  | .back d => [.jump .back d]
  | .exit => [.op .exit]
  | .metadata s => [.op .metadata, .text s]
  | .debugLine n => [.op .debugLine, .line n]
  | .clearedLine => [.op .debugLine, .raw [0, 0]]
  | .debugUpdate name k v => .op .debugUpdate :: .text name :: .kind k :: v.pieces
  | .debugDelete name => [.op .debugDelete, .text name]
  | .leap l => [.leap l]

/-! ### Moving storage -/

/-- Where a variable of a kind moves. -/
def Storage.move (base : Storage) (k : Kind) (address : Nat) : Nat :=
  address + if k = .string then base.slots else base.bytes

mutual
def Node.relocate (base : Storage) : Node → Node
  | .literal v => .literal v
  | .bool b => .bool b
  | .null => .null
  | .variable k a => .variable k (base.move k a)
  | .arith op l r => .arith op (l.relocate base) (r.relocate base)
  | .concat l r => .concat (l.relocate base) (r.relocate base)
  | .negate n => .negate (n.relocate base)
  | .complement n => .complement (n.relocate base)
  | .not n => .not (n.relocate base)
  | .and l r => .and (l.relocate base) (r.relocate base)
  | .or l r => .or (l.relocate base) (r.relocate base)
  | .compare op k l r => .compare op k (l.relocate base) (r.relocate base)
  | .ternary c y n => .ternary (c.relocate base) (y.relocate base) (n.relocate base)
  | .coalesce l r => .coalesce (l.relocate base) (r.relocate base)
  | .cast k n => .cast k (n.relocate base)
  | .call t d args => .call (t.relocate base) d (args.relocate base)
  | .subscript t k i => .subscript (t.relocate base) k (i.relocate base)

def Target.relocate (base : Storage) : Target → Target
  | .global => .global
  | .of n => .of (n.relocate base)

def Args.relocate (base : Storage) : Args → Args
  | .nil => .nil
  | .cons k n rest => .cons k (n.relocate base) (rest.relocate base)
end

def Instr.relocate (base : Storage) : Instr → Instr
  | .assign k a v => .assign k (base.move k a) (v.relocate base)
  | .assignProperty k t d op v => .assignProperty k (t.relocate base) d op (v.relocate base)
  | .assignSubscript k t j i op v =>
    .assignSubscript k (t.relocate base) j (i.relocate base) op (v.relocate base)
  | .callUnused t d args => .callUnused (t.relocate base) d (args.relocate base)
  | .conditional c d => .conditional (c.relocate base) d
  | .debugUpdate name k v => .debugUpdate name k (v.relocate base)
  | i => i

/-- An imported file tells no lines of its own. -/
def Instr.clearLine : Instr → Instr
  | .debugLine _ => .clearedLine
  | i => i

/-- The jump that fills in a leap at an offset of code of a size. -/
def Instr.fill (l : Leap) (target : Fragment.Target) (size o : Nat) : Instr → Instr
  | .leap m =>
    if m = l then
      match target with
      | .finish => .forward (size - (o + 3))
      | .start => .back (o + 3)
    else .leap m
  | i => i

@[simp] theorem Args.length_relocate (base : Storage) : (args : Args) →
    (args.relocate base).length = args.length
  | .nil => rfl
  | .cons k n rest => by simp [Args.relocate, Args.length, Args.length_relocate base rest]

theorem Piece.relocate_variable (base : Storage) (k : Kind) (a : Nat) :
    (Piece.variable k a).relocate base = .variable k (base.move k a) := by
  by_cases hk : k = .string <;> simp [Piece.variable, Piece.relocate, Storage.move, hk]

mutual
theorem Node.pieces_relocate (base : Storage) : (n : Node) →
    (n.relocate base).pieces = n.pieces.map (Piece.relocate base)
  | .literal _ | .bool _ | .null => rfl
  | .variable k a => by simp [Node.relocate, Node.pieces, Piece.relocate_variable]; rfl
  | .arith _ l r | .concat l r | .and l r | .or l r | .coalesce l r => by
    simp [Node.relocate, Node.pieces, l.pieces_relocate base, r.pieces_relocate base]; rfl
  | .negate n | .complement n | .not n => by simp [Node.relocate, Node.pieces, n.pieces_relocate base]; rfl
  | .compare op k l r => by
    simp [Node.relocate, Node.pieces, l.pieces_relocate base, r.pieces_relocate base]
    exact ⟨rfl, rfl⟩
  | .ternary c y n => by
    simp [Node.relocate, Node.pieces, c.pieces_relocate base, y.pieces_relocate base, n.pieces_relocate base]
    rfl
  | .cast k n => by
    simp [Node.relocate, Node.pieces, n.pieces_relocate base]
    exact ⟨rfl, rfl⟩
  | .call t d args => by
    simp [Node.relocate, Node.pieces, t.pieces_relocate base, args.pieces_relocate base]
    exact ⟨rfl, rfl, rfl⟩
  | .subscript t k i => by
    simp [Node.relocate, Node.pieces, t.pieces_relocate base, i.pieces_relocate base]
    exact ⟨rfl, rfl⟩

theorem Target.pieces_relocate (base : Storage) : (t : Target) →
    (t.relocate base).pieces = t.pieces.map (Piece.relocate base)
  | .global => rfl
  | .of n => n.pieces_relocate base

theorem Args.pieces_relocate (base : Storage) : (args : Args) →
    (args.relocate base).pieces = args.pieces.map (Piece.relocate base)
  | .nil => rfl
  | .cons k n rest => by
    simp [Args.relocate, Args.pieces, n.pieces_relocate base, rest.pieces_relocate base]; rfl
end

theorem Instr.pieces_relocate (base : Storage) (i : Instr) :
    (i.relocate base).pieces = i.pieces.map (Piece.relocate base) := by
  cases i with
  | assign k a v =>
    simp [Instr.relocate, Instr.pieces, v.pieces_relocate, Piece.relocate_variable]
    exact ⟨rfl, rfl⟩
  | assignProperty k t d op v =>
    simp [Instr.relocate, Instr.pieces, v.pieces_relocate, t.pieces_relocate]
    exact ⟨rfl, rfl, rfl, rfl⟩
  | assignSubscript k t j i op v =>
    simp [Instr.relocate, Instr.pieces, v.pieces_relocate, t.pieces_relocate, i.pieces_relocate]
    exact ⟨rfl, rfl, rfl, rfl⟩
  | callUnused t d args =>
    simp [Instr.relocate, Instr.pieces, t.pieces_relocate, args.pieces_relocate]
    exact ⟨rfl, rfl, rfl⟩
  | conditional c d =>
    simp [Instr.relocate, Instr.pieces, c.pieces_relocate]
    exact ⟨rfl, rfl⟩
  | debugUpdate name k v =>
    simp [Instr.relocate, Instr.pieces, v.pieces_relocate]
    exact ⟨rfl, rfl, rfl⟩
  | _ => rfl

theorem Storage.move_none (k : Kind) (a : Nat) : Storage.none.move k a = a := by
  unfold Storage.move
  split <;> rfl

mutual
/-- Above no storage nothing moves. -/
theorem Node.relocate_none : (n : Node) → n.relocate .none = n
  | .literal _ | .bool _ | .null => rfl
  | .variable k a => by rw [Node.relocate, Storage.move_none]
  | .arith _ l r | .concat l r | .and l r | .or l r | .compare _ _ l r | .coalesce l r => by
    rw [Node.relocate, l.relocate_none, r.relocate_none]
  | .negate n | .complement n | .not n | .cast _ n => by rw [Node.relocate, n.relocate_none]
  | .ternary c y n => by rw [Node.relocate, c.relocate_none, y.relocate_none, n.relocate_none]
  | .call t d args => by rw [Node.relocate, t.relocate_none, args.relocate_none]
  | .subscript t k i => by rw [Node.relocate, t.relocate_none, i.relocate_none]

theorem Target.relocate_none : (t : Target) → t.relocate .none = t
  | .global => rfl
  | .of n => congrArg Target.of n.relocate_none

theorem Args.relocate_none : (args : Args) → args.relocate .none = args
  | .nil => rfl
  | .cons k n rest => by rw [Args.relocate, n.relocate_none, rest.relocate_none]
end

theorem Instr.relocate_none (i : Instr) : i.relocate .none = i := by
  cases i <;>
    simp only [Instr.relocate, Storage.move_none, Node.relocate_none, Target.relocate_none, Args.relocate_none]

/-! ### Pieces of expressions

Lines and leaps are pieces of statements only. -/

/-- A piece that filling in leaps and clearing lines leave alone. -/
def Piece.Plain : Piece → Prop
  | .line _ | .leap _ => False
  | _ => True

theorem Piece.Plain.zeroLine {p : Piece} (h : p.Plain) : p.zeroLine = p := by
  cases p with
  | line n => exact h.elim
  | _ => rfl

theorem Piece.Plain.fill {p : Piece} (h : p.Plain) (l : Leap) (target : Fragment.Target)
    (size o : Nat) : p.fill l target size o = p := by
  cases p with
  | leap m => exact h.elim
  | _ => rfl

mutual
theorem Node.plain : (n : Node) → ∀ p ∈ n.pieces, p.Plain
  | .literal _ | .bool _ | .null => by simp [Node.pieces, Piece.Plain, Piece.op]
  | .variable k a => by simp [Node.pieces, Piece.Plain, Piece.op, Piece.variable]
  | .arith op l r => by simpa [Node.pieces, Piece.op, or_imp, forall_and] using ⟨trivial, l.plain, r.plain⟩
  | .concat l r | .and l r | .or l r => by
    simpa [Node.pieces, Piece.op, or_imp, forall_and] using ⟨trivial, l.plain, r.plain⟩
  | .negate n | .complement n | .not n => by simpa [Node.pieces, Piece.op] using ⟨trivial, n.plain⟩
  | .compare op k l r => by
    simpa [Node.pieces, Piece.op, or_imp, forall_and] using ⟨trivial, trivial, l.plain, r.plain⟩
  | .ternary c y n => by
    simpa [Node.pieces, Piece.op, or_imp, forall_and] using ⟨trivial, c.plain, y.plain, n.plain⟩
  | .coalesce l r => by
    simpa [Node.pieces, Piece.op, or_imp, forall_and] using ⟨trivial, l.plain, r.plain⟩
  | .cast k n => by simpa [Node.pieces, Piece.op] using ⟨trivial, trivial, n.plain⟩
  | .call t d args => by
    simpa [Node.pieces, Piece.op, or_imp, forall_and] using
      ⟨trivial, t.plain, trivial, trivial, args.plain⟩
  | .subscript t k i => by
    simpa [Node.pieces, Piece.op, or_imp, forall_and] using ⟨trivial, t.plain, trivial, i.plain⟩

theorem Target.plain : (t : Target) → ∀ p ∈ t.pieces, p.Plain
  | .global => by simp [Target.pieces, Piece.Plain, Piece.op]
  | .of n => n.plain

theorem Args.plain : (args : Args) → ∀ p ∈ args.pieces, p.Plain
  | .nil => by simp [Args.pieces]
  | .cons k n rest => by
    simpa [Args.pieces, or_imp, forall_and] using ⟨trivial, n.plain, rest.plain⟩
end

/-- Statements other than lines and leaps are made of plain pieces. -/
theorem Instr.plain (i : Instr) (hline : ∀ n, i ≠ .debugLine n) (hleap : ∀ l, i ≠ .leap l) :
    ∀ p ∈ i.pieces, p.Plain := by
  cases i with
  | assign _ _ v | debugUpdate _ _ v => simpa [Instr.pieces] using ⟨trivial, trivial, trivial, v.plain⟩
  | assignProperty k t d op v =>
    simpa [Instr.pieces, or_imp, forall_and] using
      ⟨trivial, trivial, t.plain, trivial, trivial, v.plain⟩
  | assignSubscript k t j i op v =>
    simpa [Instr.pieces, or_imp, forall_and] using
      ⟨trivial, trivial, t.plain, trivial, i.plain, trivial, v.plain⟩
  | callUnused t d args =>
    simpa [Instr.pieces, or_imp, forall_and] using ⟨trivial, t.plain, trivial, trivial, args.plain⟩
  | conditional c d =>
    simpa [Instr.pieces, or_imp, forall_and] using ⟨trivial, c.plain, trivial⟩
  | forward _ | back _ => simp [Instr.pieces, Piece.jump, Piece.Plain]
  | exit => simp [Instr.pieces, Piece.op, Piece.Plain]
  | metadata _ | clearedLine | debugDelete _ => simpa [Instr.pieces] using ⟨trivial, trivial⟩
  | debugLine n => exact absurd rfl (hline n)
  | leap l => exact absurd rfl (hleap l)

theorem map_zeroLine_of_plain {ps : List Piece} (h : ∀ p ∈ ps, p.Plain) : ps.map Piece.zeroLine = ps :=
  (List.map_congr_left fun p hp => (h p hp).zeroLine).trans (List.map_id' ps)

theorem mapFrom_fill_of_plain (h : ∀ p ∈ ps, p.Plain) (l : Leap) (target : Fragment.Target) (size o : Nat) :
    Fragment.mapFrom (Piece.fill l target size) o ps = ps := by
  induction ps generalizing o with
  | nil => rfl
  | cons p rest ih =>
    rw [Fragment.mapFrom, (h p (List.mem_cons_self ..)).fill, ih fun q hq => h q (List.mem_cons_of_mem p hq)]

theorem Instr.pieces_clearLine (i : Instr) : i.clearLine.pieces = i.pieces.map Piece.zeroLine := by
  cases i with
  | debugLine _ | leap _ => rfl
  | _ => exact (map_zeroLine_of_plain (Instr.plain _ (by simp [clearLine]) (by simp [clearLine]))).symm

theorem Instr.pieces_fill (l : Leap) (target : Fragment.Target) (size o : Nat) (i : Instr) :
    (i.fill l target size o).pieces = Fragment.mapFrom (Piece.fill l target size) o i.pieces := by
  cases i with
  | debugLine n => rfl
  | leap m =>
    by_cases h : m = l
    · subst h
      cases target <;> simp [Instr.fill, Instr.pieces, Fragment.mapFrom, Piece.fill, Fragment.jumpTo, Piece.jump]
    · simp [Instr.fill, Instr.pieces, Fragment.mapFrom, Piece.fill, h]
  | _ =>
    exact (mapFrom_fill_of_plain (Instr.plain _ (by simp [fill]) (by simp [fill])) l target size o).symm

/-! ### Kinds -/

/-- What code may rely on at some place. -/
structure Rules where
  /-- The variables that can be read. -/
  reads : Kind → Nat → Prop
  /-- Operators on bits may stand where a floating-point number is expected. -/
  floatBits : Prop

/-- Everything that the first rules allow. -/
structure Rules.Le (R S : Rules) : Prop where
  reads : ∀ k a, R.reads k a → S.reads k a
  floatBits : R.floatBits → S.floatBits

def Kind.IsNumeric (k : Kind) : Prop := (Primitive.kind k).isNumeric = true

def Kind.IsFloat (k : Kind) : Prop := (Primitive.kind k).isFloat = true

/-- An operator makes sense between numbers of a kind. -/
structure ArithOp.Fits (R : Rules) (op : ArithOp) (k : Kind) : Prop where
  numeric : k.IsNumeric
  bits : op.isBitwise = true → k.IsFloat → R.floatBits

def Value.Clean : Value → Prop
  | .string s => HostScript.Clean s
  | _ => True

/-- A literal instruction for a value of a kind. -/
structure Value.Writable (k : Kind) (v : Value) : Prop where
  kind : v.kind? = some k
  notBool : k ≠ .bool
  notPointer : k ≠ .pointer
  clean : v.Clean

mutual
/-- The expression makes sense as a value of a kind. -/
def Node.Typed (R : Rules) : Kind → Node → Prop
  | k, .literal v => v.Writable k
  | k, .bool _ => k = .bool
  | k, .null => k = .pointer
  | k, .variable j a => j = k ∧ R.reads k a
  | k, .arith op l r => op.Fits R k ∧ l.Typed R k ∧ r.Typed R k
  | k, .concat l r => k = .string ∧ l.Typed R .string ∧ r.Typed R .string
  | k, .negate n => k.IsNumeric ∧ n.Typed R k
  | k, .complement n => k.IsNumeric ∧ (k.IsFloat → R.floatBits) ∧ n.Typed R k
  | k, .not n => k = .bool ∧ n.Typed R .bool
  | k, .and l r => k = .bool ∧ l.Typed R .bool ∧ r.Typed R .bool
  | k, .or l r => k = .bool ∧ l.Typed R .bool ∧ r.Typed R .bool
  | k, .compare _ j l r => k = .bool ∧ l.Typed R j ∧ r.Typed R j
  | k, .ternary c y n => c.Typed R .bool ∧ y.Typed R k ∧ n.Typed R k
  | k, .coalesce l r => k = .pointer ∧ l.Typed R .pointer ∧ r.Typed R .pointer
  | _, .cast j n => n.Typed R j
  | _, .call t _ args => t.Typed R ∧ args.length < 256 ∧ args.Typed R
  | _, .subscript t j i => t.Typed R .pointer ∧ i.Typed R j

def Target.Typed (R : Rules) : Target → Prop
  | .global => True
  | .of n => n.Typed R .pointer

def Args.Typed (R : Rules) : Args → Prop
  | .nil => True
  | .cons k n rest => n.Typed R k ∧ rest.Typed R
end

/-- An operator that an update of a member can have. The host is asked for numbers and texts
only, and bits are combined only of integers. -/
def Opcode.Updates (op : Opcode) (k : Kind) : Prop :=
  op = .noOp ∨ (op = .concat ∧ k = .string) ∨
    ∃ a, op = .arith a ∧ k.IsNumeric ∧ (a.isBitwise = true → ¬ k.IsFloat)

/-- The statement makes sense; variables are written only where they can be read. -/
def Instr.Typed (R : Rules) (writes : Kind → Nat → Prop) : Instr → Prop
  | .assign k a v => writes k a ∧ v.Typed R k
  | .assignProperty k t _ op v => t.Typed R ∧ op.Updates k ∧ v.Typed R k
  | .assignSubscript k t j i op v => t.Typed R .pointer ∧ i.Typed R j ∧ op.Updates k ∧ v.Typed R k
  | .callUnused t _ args => t.Typed R ∧ args.length < 256 ∧ args.Typed R
  | .conditional c _ => c.Typed R .bool
  | .metadata s => Clean s
  | .debugLine n => n < 65536
  | .debugUpdate name k v => Clean name ∧ v.Typed R k
  | .debugDelete name => Clean name
  | .forward _ | .back _ | .exit | .clearedLine | .leap _ => True

/-- The statement behind it is always the next one. -/
def Instr.Proceeds : Instr → Prop
  | .conditional _ _ | .forward _ | .back _ | .exit | .leap _ => False
  | _ => True

/-- The statement only tells a debugger something. -/
def Instr.Tells : Instr → Prop
  | .debugLine _ | .clearedLine | .debugUpdate _ _ _ | .debugDelete _ => True
  | _ => False

/-- The statement only tells a debugger something, and nothing but memory is needed for that. -/
def Instr.Silent : Instr → Prop
  | .debugLine _ | .clearedLine | .debugDelete _ => True
  | .debugUpdate _ _ n => ∃ k a, n = .variable k a
  | _ => False

section Relocate

variable {R S : Rules} {base : Storage}

/-- What one set of rules allows is allowed by the other one after moving up. -/
structure Rules.Moved (base : Storage) (R S : Rules) : Prop where
  reads : ∀ k a, R.reads k a → S.reads k (base.move k a)
  floatBits : R.floatBits → S.floatBits

mutual
theorem Node.typed_relocate (h : R.Moved base S) : (n : Node) → ∀ k, n.Typed R k → (n.relocate base).Typed S k
  | .literal _, _, ht | .bool _, _, ht | .null, _, ht => ht
  | .variable _ _, _, ht => by
    obtain ⟨rfl, hr⟩ := ht
    exact ⟨rfl, h.reads _ _ hr⟩
  | .arith _ l r, _, ht =>
    ⟨⟨ht.1.numeric, fun hb hk => h.floatBits (ht.1.bits hb hk)⟩, l.typed_relocate h _ ht.2.1,
      r.typed_relocate h _ ht.2.2⟩
  | .concat l r, _, ht | .and l r, _, ht | .or l r, _, ht | .compare _ _ l r, _, ht | .coalesce l r, _, ht =>
    ⟨ht.1, l.typed_relocate h _ ht.2.1, r.typed_relocate h _ ht.2.2⟩
  | .negate n, _, ht | .not n, _, ht => ⟨ht.1, n.typed_relocate h _ ht.2⟩
  | .complement n, _, ht => ⟨ht.1, fun hk => h.floatBits (ht.2.1 hk), n.typed_relocate h _ ht.2.2⟩
  | .ternary c y n, _, ht =>
    ⟨c.typed_relocate h _ ht.1, y.typed_relocate h _ ht.2.1, n.typed_relocate h _ ht.2.2⟩
  | .cast _ n, _, ht => n.typed_relocate h _ ht
  | .call t _ args, _, ht =>
    ⟨t.typed_relocate h ht.1, (args.length_relocate base).symm ▸ ht.2.1, args.typed_relocate h ht.2.2⟩
  | .subscript t _ i, _, ht => ⟨t.typed_relocate h _ ht.1, i.typed_relocate h _ ht.2⟩

theorem Target.typed_relocate (h : R.Moved base S) : (t : Target) → t.Typed R → (t.relocate base).Typed S
  | .global, ht => ht
  | .of n, ht => n.typed_relocate h _ ht

theorem Args.typed_relocate (h : R.Moved base S) : (args : Args) → args.Typed R →
    (args.relocate base).Typed S
  | .nil, ht => ht
  | .cons _ n rest, ht => ⟨n.typed_relocate h _ ht.1, rest.typed_relocate h ht.2⟩
end

theorem Instr.typed_relocate (h : R.Moved base S) (hw : ∀ k a, W k a → X k (base.move k a)) (i : Instr)
    (ht : i.Typed R W) : (i.relocate base).Typed S X := by
  cases i with
  | assign k a v => exact ⟨hw _ _ ht.1, v.typed_relocate h _ ht.2⟩
  | assignProperty k t d op v =>
    exact ⟨t.typed_relocate h ht.1, ht.2.1, v.typed_relocate h _ ht.2.2⟩
  | assignSubscript k t j i op v =>
    exact ⟨t.typed_relocate h _ ht.1, i.typed_relocate h _ ht.2.1, ht.2.2.1, v.typed_relocate h _ ht.2.2.2⟩
  | callUnused t d args =>
    exact ⟨t.typed_relocate h ht.1, (args.length_relocate base).symm ▸ ht.2.1, args.typed_relocate h ht.2.2⟩
  | conditional c d => exact c.typed_relocate h _ ht
  | debugUpdate name k v => exact ⟨ht.1, v.typed_relocate h _ ht.2⟩
  | _ => exact ht

theorem Rules.Le.moved (h : R.Le S) : R.Moved .none S :=
  ⟨fun k a hr => (Storage.move_none k a).symm ▸ h.reads k a hr, h.floatBits⟩

theorem Node.typed_mono (h : R.Le S) (n : Node) (k : Kind) (ht : n.Typed R k) : n.Typed S k :=
  n.relocate_none ▸ n.typed_relocate (Rules.Le.moved h) k ht

theorem Instr.typed_mono (h : R.Le S) (hw : ∀ k a, W k a → X k a) (i : Instr) (ht : i.Typed R W) : i.Typed S X :=
  i.relocate_none ▸ i.typed_relocate (Rules.Le.moved h)
    (fun k a hk => (Storage.move_none k a).symm ▸ hw k a hk) ht

end Relocate

end HostScript

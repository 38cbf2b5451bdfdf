import HostScript.Script.Tree

/-! Reading text from left to right, with a memory of how far reading got.

A `Reader` takes a place in the text and either fails or yields a value and the
place after it. A choice that fails is undone, so alternatives are tried in order
and a choice once made is kept. What is not undone is the *reach*: the furthest
place at which a named part of the grammar was looked for and not found. If the
whole text does not read, that is where it stopped making sense.

A literal that reads well but stands for no value is a `Blemish`; it is carried
along with the place, and matters only if the whole text reads. -/
namespace HostScript

/-- A literal that cannot be represented. -/
inductive Blemish where
  | tooLarge (digits : String)
  | badEscape (char : Option Char)
  deriving DecidableEq, Repr

def Blemish.message : Blemish → String
  | .tooLarge digits => "Integer literal '" ++ digits ++ "' is too large."
  | .badEscape char => "Invalid escape sequence '\\" ++ String.ofList char.toList ++ "'."

/-- A place in the text of a file, and the first blemish before it. -/
structure Cursor where
  file : Nat
  offset : Nat
  rest : List Char
  blemish : Option (Span × Blemish)

inductive Answer (α : Type) where
  | ok (value : α) (cursor : Cursor) (reach : Nat)
  | fail (reach : Nat)

/-- Reads from a place, given the reach so far. -/
def Reader (α : Type) : Type := Cursor → Nat → Answer α

namespace Reader

variable {α β : Type}

@[inline] def ret (value : α) : Reader α := fun c reach => .ok value c reach

@[inline] def andThen (p : Reader α) (f : α → Reader β) : Reader β := fun c reach =>
  match p c reach with
  | .ok value c reach => f value c reach
  | .fail reach => .fail reach

instance : Monad Reader where
  pure := ret
  bind := andThen

def fail : Reader α := fun _ reach => .fail reach

/-- The first alternative that reads. -/
@[inline] def orElse (p q : Reader α) : Reader α := fun c reach =>
  match p c reach with
  | .ok value c reach => .ok value c reach
  | .fail reach => q c reach

def choice : List (Reader α) → Reader α
  | [] => fail
  | p :: rest => orElse p (choice rest)

/-- Reads `p`, or nothing where it fails. -/
@[inline] def optional (p : Reader α) : Reader (Option α) := fun c reach =>
  match p c reach with
  | .ok value c reach => .ok (some value) c reach
  | .fail reach => .ok none c reach

/-- A named part of the grammar: where it fails, its place counts for the reach. -/
@[inline] def rule (p : Reader α) : Reader α := fun c reach =>
  match p c reach with
  | .ok value c reach => .ok value c reach
  | .fail reach => .fail (max reach c.offset)

/-- The value together with the span it was read from. -/
@[inline] def spanned (p : Reader α) : Reader (Span × α) := fun c reach =>
  match p c reach with
  | .ok value after reach => .ok (⟨c.file, c.offset, after.offset⟩, value) after reach
  | .fail reach => .fail reach

/-- Records a blemish; the first one stays. -/
def blemish (span : Span) (b : Blemish) : Reader Unit := fun c reach =>
  .ok () { c with blemish := c.blemish.or (some (span, b)) } reach

/-! ### Characters -/

/-- The text after `word`, if it starts with it. -/
def after? : List Char → List Char → Option (List Char)
  | [], text => some text
  | c :: word, d :: text => if c = d then after? word text else none
  | _ :: _, [] => none

/-- The characters `word`, which are all ASCII. -/
@[inline] def chars (word : List Char) : Reader Unit := fun c reach =>
  match after? word c.rest with
  | some rest => .ok () { c with offset := c.offset + word.length, rest } reach
  | none => .fail reach

@[inline] def lit (word : String) : Reader Unit := chars word.toList

/-- The bytes of a text. -/
def size (text : List Char) : Nat :=
  text.foldl (fun n c => n + c.utf8Size) 0

/-- The longest run of characters that satisfy `p`; it may be empty. -/
@[inline] def run (p : Char → Bool) : Reader (List Char) := fun c reach =>
  let word := c.rest.takeWhile p
  .ok word { c with offset := c.offset + size word, rest := c.rest.dropWhile p } reach

/-- Succeeds where `word` does not follow. -/
@[inline] def notBefore (word : String) : Reader Unit := fun c reach =>
  match after? word.toList c.rest with
  | some _ => .fail reach
  | none => .ok () c reach

/-! ### Blanks and comments -/

/-- Inside of what blank text is being passed. An unfinished block comment is no
comment, so its start is remembered. -/
inductive Passing where
  | blanks
  | line
  | block (text : List Char) (offset : Nat)

/-- The text and offset after blanks and comments. -/
def pass : Passing → List Char → Nat → List Char × Nat
  | .blanks, [], offset => ([], offset)
  | .blanks, '/' :: '/' :: rest, offset => pass .line rest (offset + 2)
  | .blanks, '/' :: '*' :: rest, offset => pass (.block ('/' :: '*' :: rest) offset) rest (offset + 2)
  | .blanks, c :: rest, offset =>
    if c = ' ' || c = '\t' || c = '\r' || c = '\n' then pass .blanks rest (offset + 1)
    else (c :: rest, offset)
  | .line, [], offset => ([], offset)
  | .line, c :: rest, offset =>
    if c = '\n' || c = '\r' then pass .blanks rest (offset + 1)
    else pass .line rest (offset + c.utf8Size)
  | .block text start, [], _ => (text, start)
  | .block _ _, '*' :: '/' :: rest, offset => pass .blanks rest (offset + 2)
  | .block text start, c :: rest, offset => pass (.block text start) rest (offset + c.utf8Size)

/-- Passes blanks and comments. -/
def skip : Reader Unit := fun c reach =>
  let (rest, offset) := pass .blanks c.rest c.offset
  .ok () { c with offset, rest } reach

/-- A symbol that something follows. -/
@[inline] def sym (word : String) : Reader Unit := do
  lit word
  skip

/-! ### Repetition -/

/-- Further items, each after blanks, onto those read so far. Blanks before an
item that is not there are not passed. -/
def more (p : Reader α) : Nat → List α → Reader (List α)
  | 0, done => fun c reach => .ok done.reverse c reach
  | fuel + 1, done => fun c reach =>
    match andThen skip (fun _ => p) c reach with
    | .ok value c reach => more p fuel (value :: done) c reach
    | .fail reach => .ok done.reverse c reach

/-- As many items as there are, with blanks between them. -/
def many (fuel : Nat) (p : Reader α) : Reader (List α) := fun c reach =>
  match p c reach with
  | .ok value c reach => more p fuel [value] c reach
  | .fail reach => .ok [] c reach

end Reader

end HostScript

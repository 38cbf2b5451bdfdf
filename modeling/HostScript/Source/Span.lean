import HostScript.Source.Path

/-! Places in source texts.

Texts are lists of characters; places are counted in bytes of their UTF-8 form, as
editors and hosts count them. A span that does not begin and end between
characters of its text has no place and shows as line 0, column 0. -/
namespace HostScript

/-- A stretch of the text of one file, in bytes. -/
structure Span where
  file : Nat
  start : Nat
  stop : Nat
  deriving DecidableEq, Repr

/-- The smallest span over both. -/
def Span.join (s t : Span) : Span :=
  ⟨s.file, min s.start t.start, max s.stop t.stop⟩

namespace Text

/-- The text after its first `n` bytes, if a character ends there. -/
def dropBytes? : List Char → Nat → Option (List Char)
  | text, 0 => some text
  | [], _ + 1 => none
  | c :: rest, n + 1 => if c.utf8Size ≤ n + 1 then dropBytes? rest (n + 1 - c.utf8Size) else none

/-- The characters of the first `n` bytes, if a character ends there. -/
def takeBytes? : List Char → Nat → Option (List Char)
  | _, 0 => some []
  | [], _ + 1 => none
  | c :: rest, n + 1 =>
    if c.utf8Size ≤ n + 1 then (takeBytes? rest (n + 1 - c.utf8Size)).map (c :: ·) else none

/-- The line and column `n` bytes further on in a text that starts at the given ones. -/
def position? : List Char → Nat → Nat → Nat → Option (Nat × Nat)
  | _, 0, line, column => some (line, column)
  | [], _ + 1, _, _ => none
  | c :: rest, n + 1, line, column =>
    if c.utf8Size ≤ n + 1 then
      if c = '\n' then position? rest (n + 1 - c.utf8Size) (line + 1) 1
      else position? rest (n + 1 - c.utf8Size) line (column + 1)
    else none

/-- The characters from byte `start` to byte `stop`. -/
def slice? (text : List Char) (start stop : Nat) : Option (List Char) :=
  if start ≤ stop then (dropBytes? text start).bind (takeBytes? · (stop - start)) else none

end Text

/-- A file as loaded: its path and its text. -/
structure Source where
  path : Path
  text : List Char

structure Location where
  path : String
  line : Nat
  column : Nat
  deriving DecidableEq, Repr

def Location.toString (l : Location) : String :=
  s!"{l.path}:{l.line}:{l.column}"

instance : ToString Location := ⟨Location.toString⟩

namespace Source

/-- The line and column of a byte offset. -/
def position (s : Source) (offset : Nat) : Nat × Nat :=
  (Text.position? s.text offset 1 1).getD (0, 0)

def slice? (s : Source) (start stop : Nat) : Option (List Char) :=
  Text.slice? s.text start stop

/-- Where a stretch of the text begins. -/
def locate (s : Source) (start stop : Nat) : Location :=
  let (line, column) := if (s.slice? start stop).isSome then s.position start else (0, 0)
  ⟨s.path.toString, line, column⟩

end Source

/-- All files loaded, in order; a span names one by its index. -/
abbrev Sources := Array Source

namespace Sources

def locate (sources : Sources) (span : Span) : Location :=
  match sources[span.file]? with
  | some source => source.locate span.start span.stop
  | none => ⟨"", 0, 0⟩

def line (sources : Sources) (span : Span) : Nat := (sources.locate span).line

end Sources

end HostScript

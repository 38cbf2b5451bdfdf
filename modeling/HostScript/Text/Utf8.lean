/-! Bytes as text.

Code, script files and console input hold text as UTF-8 bytes. `encode` writes a
text and `decode` reads one. A byte list that is no text is described by a
`Fault`: how many bytes read well, and how many of those that follow are already
known to be wrong — or that the list ends inside a character. -/
namespace HostScript.Utf8

/-- Where a byte list stops being text. -/
inductive Fault where
  | invalid (index length : Nat)
  | incomplete (index : Nat)
  deriving DecidableEq, Repr

def Fault.message : Fault → String
  | .invalid index length =>
    s!"invalid utf-8 sequence of {length} bytes from index {index}"
  | .incomplete index => s!"incomplete utf-8 byte sequence from index {index}"

/-- The bytes of one character, with the bits spread by division so that no byte
depends on more than the character's number. -/
def encodeChar (c : Char) : List UInt8 :=
  let n := c.toNat
  if n < 0x80 then [UInt8.ofNat n]
  else if n < 0x800 then [UInt8.ofNat (0xC0 + n / 64), UInt8.ofNat (0x80 + n % 64)]
  else if n < 0x10000 then
    [UInt8.ofNat (0xE0 + n / 4096), UInt8.ofNat (0x80 + n / 64 % 64), UInt8.ofNat (0x80 + n % 64)]
  else
    [UInt8.ofNat (0xF0 + n / 262144), UInt8.ofNat (0x80 + n / 4096 % 64),
      UInt8.ofNat (0x80 + n / 64 % 64), UInt8.ofNat (0x80 + n % 64)]

def encode (text : String) : List UInt8 :=
  text.toList.flatMap encodeChar

/-- What a byte list starts with. -/
inductive Step where
  | char (c : Char) (rest : List UInt8)
  | invalid (length : Nat)
  | incomplete

/-- The value of a continuation byte that lies between `low` and `high`. -/
def tail (low high : Nat) (b : UInt8) : Option Nat :=
  if low ≤ b.toNat ∧ b.toNat ≤ high then some (b.toNat - 0x80) else none

/-- The lowest and highest second byte of a character of three bytes: no number
below 0x800, and none of the surrogates. -/
def secondOfThree (lead : Nat) : Nat × Nat :=
  if lead = 0xE0 then (0xA0, 0xBF) else if lead = 0xED then (0x80, 0x9F) else (0x80, 0xBF)

/-- The lowest and highest second byte of a character of four bytes: no number
below 0x10000 or above 0x10FFFF. -/
def secondOfFour (lead : Nat) : Nat × Nat :=
  if lead = 0xF0 then (0x90, 0xBF) else if lead = 0xF4 then (0x80, 0x8F) else (0x80, 0xBF)

def two (lead : Nat) : List UInt8 → Step
  | [] => .incomplete
  | b :: rest =>
    match tail 0x80 0xBF b with
    | none => .invalid 1
    | some x => .char (Char.ofNat ((lead - 0xC0) * 64 + x)) rest

def three (lead : Nat) : List UInt8 → Step
  | [] => .incomplete
  | b :: rest =>
    match tail (secondOfThree lead).1 (secondOfThree lead).2 b, rest with
    | none, _ => .invalid 1
    | some _, [] => .incomplete
    | some x, b :: rest =>
      match tail 0x80 0xBF b with
      | none => .invalid 2
      | some y => .char (Char.ofNat ((lead - 0xE0) * 4096 + x * 64 + y)) rest

def four (lead : Nat) : List UInt8 → Step
  | [] => .incomplete
  | b :: rest =>
    match tail (secondOfFour lead).1 (secondOfFour lead).2 b, rest with
    | none, _ => .invalid 1
    | some _, [] => .incomplete
    | some x, b :: rest =>
      match tail 0x80 0xBF b, rest with
      | none, _ => .invalid 2
      | some _, [] => .incomplete
      | some y, b :: rest =>
        match tail 0x80 0xBF b with
        | none => .invalid 3
        | some z => .char (Char.ofNat ((lead - 0xF0) * 262144 + x * 4096 + y * 64 + z)) rest

/-- The character that starts with the byte `b`. -/
def step (b : UInt8) (rest : List UInt8) : Step :=
  let lead := b.toNat
  if lead < 0x80 then .char (Char.ofNat lead) rest
  else if lead < 0xC2 then .invalid 1
  else if lead < 0xE0 then two lead rest
  else if lead < 0xF0 then three lead rest
  else if lead < 0xF5 then four lead rest
  else .invalid 1

/-- Reads characters onto `done`, which holds those before `index`, last first.
Each character takes at least one unit of fuel. -/
def decodeFrom : Nat → Nat → List UInt8 → List Char → Except Fault (List Char)
  | 0, _, _, done => .ok done.reverse
  | _ + 1, _, [], done => .ok done.reverse
  | fuel + 1, index, b :: rest, done =>
    match step b rest with
    | .char c rest => decodeFrom fuel (index + c.utf8Size) rest (c :: done)
    | .invalid length => .error (.invalid index length)
    | .incomplete => .error (.incomplete index)

def decode (bytes : List UInt8) : Except Fault (List Char) :=
  decodeFrom bytes.length 0 bytes []

end HostScript.Utf8

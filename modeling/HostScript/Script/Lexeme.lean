import HostScript.Script.Reader

/-! The words of the language: names, keywords and literals.

Inside a word there are no blanks, and only the word as a whole is a named part of
the grammar. -/
namespace HostScript.Lexeme

open Reader

def isDigit (c : Char) : Bool := '0' ≤ c && c ≤ '9'

def isLetter (c : Char) : Bool := ('a' ≤ c && c ≤ 'z') || ('A' ≤ c && c ≤ 'Z')

def isWordChar (c : Char) : Bool := isLetter c || isDigit c || c == '_'

/-- Words that name no variable, member or type. -/
def keywords : List String :=
  ["int8", "int16", "int32", "int64", "uint8", "uint16", "uint32", "uint64", "float32", "float64",
    "bool", "string", "void", "readonly", "while", "for", "do", "if", "else", "break", "continue",
    "exit", "true", "false", "NULL"]

def identifier : Reader Ident := rule do
  let (span, word) ← spanned (run isWordChar)
  let name := String.ofList word
  match word with
  | [] => fail
  | c :: _ => if isDigit c || keywords.contains name then fail else return ⟨name, span⟩

/-- A given keyword, not merely the start of a longer word. -/
def keyword (word : String) : Reader Unit := rule do
  let found ← run isWordChar
  if found = word.toList then return () else fail

/-- The name of a primitive that variables can have. -/
def primitiveType : Reader TypeRef := rule do
  let (span, word) ← spanned (run isWordChar)
  match Primitive.ofKeyword? (String.ofList word) with
  | some (.kind k) => return ⟨.prim (.kind k), span⟩
  | _ => fail

def voidType : Reader TypeRef := do
  let (span, _) ← spanned (keyword "void")
  return ⟨.prim .void, span⟩

/-- A type by its name: a primitive, or an object type. -/
def typeName : Reader TypeRef :=
  rule (orElse primitiveType (do let name ← identifier; return ⟨.object name.name, name.span⟩))

/-- What a function returns. -/
def resultType : Reader TypeRef :=
  rule (orElse voidType typeName)

/-! ### Literals -/

def someDigits : Reader (List Char) := do
  let digits ← run isDigit
  if digits.isEmpty then fail else return digits

/-- Digits with a point among them. -/
def floatLiteral : Reader Expr := rule do
  let (span, whole, fraction) ← spanned do
    let whole ← someDigits
    lit "."
    let fraction ← someDigits
    return (whole, fraction)
  let (n, _) := Number.digits (whole ++ fraction) 0
  return .literal span (.untypedFloat (Binary.ofDecimal false n (-(fraction.length : Int))))

attribute [local instance (high)] instPowNat in
def intLiteral : Reader Expr := rule do
  let (span, digits) ← spanned someDigits
  let (n, _) := Number.digits digits 0
  if 2 ^ (64 : Nat) ≤ n then blemish span (.tooLarge (String.ofList digits))
  return .literal span (.untypedInteger (BitVec.ofNat _ n))

/-- The text up to the closing quote, escapes left as they are: a backslash takes the
next character with it. -/
def quoted : List Char → List Char → List Char × List Char
  | '\\' :: c :: rest, done => quoted rest (c :: '\\' :: done)
  | c :: rest, done =>
    if c = '"' || c = '\\' then (done.reverse, c :: rest) else quoted rest (c :: done)
  | [], done => (done.reverse, [])

/-- The character an escape stands for. -/
def escape? : Char → Option Char
  | 'a' => some '\x07'
  | 'b' => some '\x08'
  | 'e' => some '\x1b'
  | 'f' => some '\x0c'
  | 'n' => some '\n'
  | 'r' => some '\r'
  | 't' => some '\t'
  | 'v' => some '\x0b'
  | '"' => some '"'
  | '\\' => some '\\'
  | _ => none

/-- The text with its escapes replaced, or the first that stands for nothing. -/
def unescape : List Char → Except Blemish (List Char)
  | [] => .ok []
  | '\\' :: c :: rest =>
    match escape? c with
    | some e => (unescape rest).map (e :: ·)
    | none => .error (.badEscape (some c))
  | c :: rest => if c = '\\' then .error (.badEscape none) else (unescape rest).map (c :: ·)

def stringContent : Reader (List Char) := fun c reach =>
  let (content, rest) := quoted c.rest []
  .ok content { c with offset := c.offset + size content, rest } reach

def stringText : Reader String := rule do
  lit "\""
  let (span, content) ← spanned stringContent
  lit "\""
  match unescape content with
  | .ok text => return String.ofList text
  | .error b =>
    blemish span b
    return ""

def stringLiteral : Reader Expr := do
  let (span, text) ← spanned stringText
  return .literal span (.string text)

def constant (word : String) (value : Literal) : Reader Expr := do
  let (span, _) ← spanned (keyword word)
  return .literal span value

/-- The text before `?>`, or the whole text. -/
def untilMark : List Char → List Char → List Char × List Char
  | [], done => (done.reverse, [])
  | '?' :: '>' :: rest, done => (done.reverse, '?' :: '>' :: rest)
  | c :: rest, done => untilMark rest (c :: done)

def metadataText : Reader (List Char) := fun c reach =>
  let (text, rest) := untilMark c.rest []
  .ok text { c with offset := c.offset + size text, rest } reach

/-- Text for the host between `<?` and `?>`. -/
def metadata : Reader Statement := rule do
  let (span, text) ← spanned do
    lit "<?"
    let text ← metadataText
    lit "?>"
    return text
  return .metadata span (String.ofList text)

end HostScript.Lexeme

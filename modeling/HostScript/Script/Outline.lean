import HostScript.Script.Tree

/-! Scripts in outline, one line of nested parentheses a statement.

Tools that look at how a script was read use the outline: every part is shown by
its tag, the byte where it starts, and its parts in order; `-` stands for a part
that is not there. -/
namespace HostScript

/-- A word for a primitive that no two primitives share. -/
def Primitive.tag : Primitive → String
  | .untypedSigned => "ambiguous_signed_int"
  | .untypedInteger => "ambiguous_int"
  | .untypedFloat => "ambiguous_float"
  | .invalid => "type_error"
  | p => p.name

/-- A word for a type: an object type is marked by a star. -/
def Ty.tag : Ty → String
  | .object name => "*" ++ name
  | .null => "null"
  | .prim p => p.tag

/-- A number in hexadecimal, with zeros in front up to a width. -/
def hexText (width n : Nat) : String :=
  let digits := Nat.toDigits 16 n
  String.ofList (List.replicate (width - digits.length) '0' ++ digits)

/-- A bit pattern in hexadecimal; all that are no numbers look alike. -/
def Binary.hexText {k : FloatKind} (x : Binary k) : String :=
  if x.isNan then "nan" else HostScript.hexText (2 * k.size) x.bits.toNat

namespace Outline

def escapeChar (c : Char) : String :=
  match c with
  | '"' => "\\\""
  | '\\' => "\\\\"
  | '\n' => "\\n"
  | '\r' => "\\r"
  | '\t' => "\\t"
  | c =>
    if c = '\x08' then "\\b" else if c = '\x0c' then "\\f"
    else if c.toNat < 0x20 then "\\u" ++ hexText 4 c.toNat
    else c.toString

def quote (text : String) : String :=
  "\"" ++ String.join (text.toList.map escapeChar) ++ "\""

/-- Parts in parentheses, with a blank between them. -/
def group (parts : List String) : String := "(" ++ " ".intercalate parts ++ ")"

/-- A tag with the start of what it stands for. -/
def mark (tag : String) (span : Span) : String := s!"{tag}@{span.start}"

def ident (i : Ident) : String := mark i.name i.span

def typeRef (t : TypeRef) : String := mark t.type.tag t.span

def literal (l : Literal) : String :=
  let tagged (payload : String) := "[" ++ quote l.primitive.tag ++ "," ++ payload ++ "]"
  match l with
  | .int k word => tagged (quote (Value.intText (k.toInt word)))
  | .untypedSigned word => tagged (quote (Value.intText (IntKind.toInt .int64 word)))
  | .untypedInteger word => tagged (quote (Value.intText (IntKind.toInt .uint64 word)))
  | .float _ x => tagged (quote x.hexText)
  | .untypedFloat x => tagged (quote x.hexText)
  | .bool b => tagged (Value.boolText b)
  | .string s => tagged (quote s)
  | .null => "[\"null\"]"

/-! ### Declarations -/

def readonly (flag : Bool) : List String := if flag then ["readonly"] else []

def param (p : Param) : List String := [typeRef p.type, ident p.name]

def member : MemberDecl → String
  | .function f =>
    group ([mark "fn" f.span, typeRef f.result, ident f.name, group (f.params.flatMap param)] ++
      if f.variadic then ["..."] else [])
  | .property p =>
    group ([mark "prop" p.span, typeRef p.type, ident p.name] ++ readonly p.readonly)
  | .subscript s =>
    group ([mark "sub" s.span, typeRef s.result, typeRef s.index, ident s.name] ++
      readonly s.readonly)

/-! ### Expressions -/

mutual
def expr : Expr → String
  | .literal span value => group [mark "lit" span, literal value]
  | .object _ o => object o
  | .parens span inner => group [mark "paren" span, expr inner]
  | .cast span type operand => group [mark "cast" span, typeRef type, expr operand]
  | .unary span op operand => group [mark "unary" span, op.symbol, expr operand]
  | .binary span op left right => group [mark "binary" span, op.symbol, expr left, expr right]
  | .ternary span condition yes no =>
    group [mark "ternary" span, expr condition, expr yes, expr no]

def object : Object → String
  | .root a => access a
  | .member span owner a => group [mark "member" span, object owner, access a]
  | .index span owner e => group [mark "index" span, object owner, expr e]

def access : Access → String
  | .name i => group [mark "name" i.span, ident i]
  | .call span i args => group [mark "invoke" span, ident i, group (exprs args)]

def exprs : List Expr → List String
  | [] => []
  | e :: rest => expr e :: exprs rest
end

/-! ### Statements -/

def optional {α : Type} (shown : α → String) : Option α → String
  | some a => shown a
  | none => "-"

def action (a : Action) : String :=
  match a.kind with
  | .declare type name value =>
    group [mark "declare" a.span, typeRef type, ident name, optional expr value]
  | .assign target op value =>
    group [mark "assign" a.span, ((op.map (·.symbol)).getD "") ++ "=", object target, expr value]
  | .step target down => group [mark (if down then "--" else "++") a.span, object target]
  | .call target => group [mark "call" a.span, object target]
  | .breakLoop => group [mark "break" a.span]
  | .continueLoop => group [mark "continue" a.span]
  | .exit => group [mark "exit" a.span]

mutual
def statement : Statement → String
  | .importing span path => group [mark "import" span, quote path]
  | .global span members => group [mark "global" span, group (members.map member)]
  | .type t =>
    group [mark "type" t.span, ident t.name, group (t.ancestors.map ident),
      group (t.members.map member)]
  | .metadata span text => group [mark "metadata" span, quote text]
  | .block b => block b
  | .whileLoop e b => group ["while", expr e, block b]
  | .forLoop start e next b =>
    group ["for", optional action start, optional expr e, optional action next, block b]
  | .doWhile b e => group ["do", block b, expr e]
  | .branch b => branch b
  | .action a => action a

def block : Block → String
  | .mk span list => group [mark "scope" span, group (statements list)]

def branch : Branch → String
  | .mk e b o => group ["if", expr e, block b, otherwise o]

def otherwise : Otherwise → String
  | .nothing => "-"
  | .branch b => branch b
  | .block b => block b

def statements : List Statement → List String
  | [] => []
  | s :: rest => statement s :: statements rest
end

end Outline

end HostScript

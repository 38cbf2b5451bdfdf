import HostScript.Code.Fragment
import HostScript.Compile.Fold
import HostScript.Compile.Typing

/-! Code for expressions.

The code of an expression is made for the type that is expected where it stands. An
expression that is known becomes a literal of that type; any other one becomes its
operator's instruction followed by the code of its operands. When a part is refused,
the code made so far stays as it is: the report keeps it from ever being run. -/
namespace HostScript

/-- The place of a variable, to be moved when the file is imported. -/
def Fragment.place (v : Variable) : Fragment :=
  .mark (if v.isString then .slot else .address) ++ .word v.address

def Fragment.read (v : Variable) : Fragment := .opcode .variable ++ .place v

/-- The number of a host member, to be filled in. -/
def Fragment.symbol (descriptor : String) : Fragment := .mark (.symbol descriptor) ++ .word 0

/-! ### Single steps -/

/-- Checks an expression against the expected type and makes a literal of it if it is known;
otherwise its code is made by `emit`, given its own type. -/
def emitAs (s : Scope) (e : Expr) (expected : Ty) (emit : Ty → Check Fragment) : Check Fragment := do
  if expected.primitive.kind?.isNone then
    Check.report e.span .noExpectedType
    return ∅
  let some actual ← typeOf s e | return ∅
  if !s.api.assignable actual expected then
    Check.report e.span (.wrongType expected actual)
    return ∅
  match ← fold e with
  | none => emit actual
  | some l =>
    let some l ← Check.converted e.span (l.cast expected.primitive) | return ∅
    return .literal l

/-- Code for a comparison, given the code of each side as a value of a type. -/
def emitComparison (span : Span) (op : CompareOp) (l r : Ty) (left right : Ty → Check Fragment) :
    Check Fragment := do
  let some t ← comparisonType span op l r | return ∅
  if t.primitive.isUntyped then
    Check.report span (.untypedLiterals t.primitive)
    return ∅
  let some k := t.primitive.kind? | return ∅
  let head := Fragment.opcode (.compare op) ++ .kind k
  if k = .pointer then return head ++ (← left l) ++ (← right r)
  else return head ++ (← left t) ++ (← right t)

/-- Code for a cast of a value of type `source`, given its code as a value of a type. -/
def emitCast (api : Api) (span : Span) (source target : Ty) (operand : Ty → Check Fragment) :
    Check Fragment := do
  match source, target with
  | .object child, .object ancestor =>
    if !api.inherits ancestor child && !api.inherits child ancestor then
      Check.report span (.unrelatedPointers ancestor child)
      return ∅
    operand source
  | source, target =>
    if source.primitive = target.primitive then operand source
    else if target.primitive = .kind .pointer then
      Check.report span (.primitiveToPointer source target)
      return ∅
    else if source.primitive = .kind .pointer ∧ target.primitive ≠ .kind .string then
      Check.report span (.pointerToPrimitive source)
      return ∅
    else if source.primitive.isUntyped then
      if api.assignable source target then operand target
      else
        Check.report span (.untypedLiterals source.primitive)
        return ∅
    else
      let some k := source.primitive.kind? | return ∅
      return .opcode .typecast ++ .kind k ++ (← operand source)

/-- The instruction of an operator with a result of a type. -/
def resultOpcode (op : BinaryOp) (result : Ty) : Opcode :=
  if op = .arith .add ∧ result.primitive = .kind .string then .concat else .ofBinary op

/-- The type that an argument is passed as: that of the parameter, or its own beyond the last
parameter. -/
def argumentType (span : Span) (declared : Option Ty) (actual : Ty) : Check (Option Ty) :=
  match declared with
  | some t => return some t
  | none =>
    if actual.primitive.isUntyped then Check.refuse span .untypedArgument
    else if actual.primitive = .void then Check.refuse span .voidArgument
    else return some actual

/-! ### Expressions -/

mutual
/-- Code for an expression as a value of the expected type. -/
def emit (s : Scope) : Expr → Ty → Check Fragment
  | .literal span value, expected => emitAs s (.literal span value) expected fun _ => return ∅
  | .object span object, expected =>
    emitAs s (.object span object) expected fun _ => emitObject s object true
  | .parens span inner, expected =>
    emitAs s (.parens span inner) expected fun _ => emit s inner expected
  | .cast span type operand, expected =>
    emitAs s (.cast span type operand) expected fun target => do
      let some source ← typeOf s operand | return ∅
      emitCast s.api span source target (emit s operand)
  | .unary span op operand, expected =>
    emitAs s (.unary span op operand) expected fun _ => do
      match op with
      | .negate => return .opcode .negate ++ (← emit s operand expected)
      | .complement => return .opcode .complement ++ (← emit s operand expected)
      | .not => return .opcode .not ++ (← emit s operand .bool)
  | .binary span op left right, expected =>
    emitAs s (.binary span op left right) expected fun _ => do
      match op with
      | .compare op =>
        let l ← typeOf s left
        let r ← typeOf s right
        let (some l, some r) := (l, r) | return ∅
        emitComparison span op l r (emit s left) (emit s right)
      | op =>
        let operand := if op = .and ∨ op = .or then .bool else expected
        let head := Fragment.opcode (resultOpcode op expected)
        return head ++ (← emit s left operand) ++ (← emit s right operand)
  | .ternary span condition yes no, expected =>
    emitAs s (.ternary span condition yes no) expected fun _ => do
      match (← fold condition).bind Literal.bool? with
      | some true => emit s yes expected
      | some false => emit s no expected
      | none =>
        let head := Fragment.opcode .ternary ++ (← emit s condition .bool)
        return head ++ (← emit s yes expected) ++ (← emit s no expected)

/-- Code that reads a variable or asks the host; `used` tells whether the result of a call
matters. -/
def emitObject (s : Scope) : Object → Bool → Check Fragment
  | .root access, used =>
    match access.var? s.vars with
    | some v => return .read v
    | none => emitAccess s none (return .opcode .noOp) access used
  | .member _ owner access, used => do
    let some name ← Scope.ownerBefore owner.span .memberOfNonPointer (← objectType s owner)
      | return ∅
    emitAccess s (some name) (emitObject s owner true) access used
  | .index span owner index, _ => do
    let some name ← Scope.ownerBefore span .subscriptOfNonPointer (← objectType s owner)
      | return ∅
    let some t ← typeOf s index | return ∅
    let some i ← s.indexer name t span | return ∅
    let some k := i.decl.index.type.primitive.kind? | return ∅
    let head := Fragment.opcode .subscript ++ (← emitObject s owner true)
    return head ++ .kind k ++ (← emit s index i.decl.index.type)

/-- Code for a property or a call; `target` is the code of the pointer it is reached through. -/
def emitAccess (s : Scope) (owner : Option String) (target : Check Fragment) :
    Access → Bool → Check Fragment
  | .name ident, _ => do
    let some p ← s.property owner ident | return ∅
    return .opcode .call ++ (← target) ++ .symbol p.propertyDescriptor ++ .byte 0
  | .call span ident args, used => do
    let some types := (← typesOf s args).mapM id | return ∅
    let some f ← s.callee owner ident types | return ∅
    if 255 < args.length then
      Check.report span .tooManyArguments
      return ∅
    let head := Fragment.opcode (if used then .call else .callUnused) ++ (← target)
    let head := head ++ .symbol f.functionDescriptor ++ .byte args.length
    emitArguments s args types f.decl.types head

/-- Adds the code of arguments, each behind its kind, up to one that is refused. -/
def emitArguments (s : Scope) : List Expr → List Ty → List Ty → Fragment → Check Fragment
  | e :: rest, actual :: types, declared, code => do
    let some t ← argumentType e.span declared.head? actual | return code
    let some k := t.primitive.kind? | return code
    let code := code ++ .kind k ++ (← emit s e t)
    emitArguments s rest types declared.tail code
  | _, _, _, code => return code
end

end HostScript

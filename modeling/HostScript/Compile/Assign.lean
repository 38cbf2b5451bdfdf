import HostScript.Compile.Emit

/-! Code for assignments.

A variable, a property that is not read-only or such a subscript can be assigned to,
plainly, by an operator, or by a step of one. The host computes the new value of its
own members, so the operator is part of the instruction; for a variable the script
does. -/
namespace HostScript

inductive Update where
  | assign (op : Option ArithOp) (value : Expr)
  | step (down : Bool)

namespace Update

def op? : Update → Option ArithOp
  | .assign op _ => op
  | .step down => some (if down then .sub else .add)

/-- What is wrong with the operator on a target of a primitive. -/
def problem? (u : Update) (p : Primitive) : Option Problem :=
  match u, u.op? with
  | _, none => none
  | .step _, some _ => if p.isNumeric then none else some .numericTarget
  | .assign _ _, some op =>
    if op.isBitwise then if p.isInteger then none else some .integralTarget
    else if p.isNumeric then none
    else if op = .add then if p = .kind .string then none else some .numericOrStringTarget
    else some .numericTarget

/-- The instruction that combines the old value with the given one. -/
def opcode (u : Update) (t : Ty) : Opcode :=
  match u.op? with
  | none => .noOp
  | some op => resultOpcode (.arith op) t

/-- Code for the given value; a step has the value one. -/
def emitValue (u : Update) (s : Scope) (t : Ty) : Check Fragment :=
  match u with
  | .assign _ value => emit s value t
  | .step _ =>
    match Literal.cast (.untypedInteger 1) t.primitive with
    | .ok one => return .literal one
    | .error _ => return ∅

/-- Whether the operator applies; if not, it is reported. -/
def applies (u : Update) (t : Ty) (span : Span) : Check Bool := do
  match u.problem? t.primitive with
  | none => return true
  | some problem =>
    Check.report span problem
    return false

end Update

/-- Tells a debugger the new value of a variable. -/
def Fragment.debugUpdate (name : String) (v : Variable) : Fragment :=
  match v.type.primitive.kind? with
  | none => ∅
  | some k => .opcode .debugUpdate ++ .text name ++ .kind k ++ .read v

def emitVariableUpdate (s : Scope) (debug : Bool) (name : String) (v : Variable) (u : Update)
    (span : Span) : Check Fragment := do
  if !(← u.applies v.type span) then return ∅
  let some k := v.type.primitive.kind? | return ∅
  let head := Fragment.opcode .assign ++ .kind k ++ .place v
  let head := if u.op?.isSome then head ++ .opcode (u.opcode v.type) ++ .read v else head
  let code := head ++ (← u.emitValue s v.type)
  return if debug then code ++ .debugUpdate name v else code

/-- Code for the update of a property of type `t`; `target` is the code of the pointer it is
reached through. -/
def emitPropertyUpdate (s : Scope) (owner : Option String) (target : Check Fragment) (name : Ident)
    (t : Ty) (k : Kind) (u : Update) (span : Span) : Check Fragment := do
  let some p ← s.property owner name | return ∅
  if p.decl.readonly then
    Check.report name.span .readOnly
    return ∅
  if !(← u.applies t span) then return ∅
  let head := Fragment.opcode .assignProperty ++ .kind k ++ (← target)
  let head := head ++ .symbol p.propertyDescriptor ++ .opcode (u.opcode t)
  return head ++ (← u.emitValue s t)

/-- Code for the update of a subscript of type `t`. -/
def emitSubscriptUpdate (s : Scope) (span : Span) (owner : Object) (index : Expr) (t : Ty) (k : Kind)
    (u : Update) (actionSpan : Span) : Check Fragment := do
  let some name ← Scope.ownerBefore span .subscriptOfNonPointer (← objectType s owner) | return ∅
  let some indexType ← typeOf s index | return ∅
  let some i ← s.indexer name indexType span | return ∅
  if i.decl.readonly then
    Check.report span .readOnly
    return ∅
  if !(← u.applies t actionSpan) then return ∅
  let some indexKind := i.decl.index.type.primitive.kind? | return ∅
  let head := Fragment.opcode .assignSubscript ++ .kind k ++ (← emitObject s owner true)
  let head := head ++ .kind indexKind ++ (← emit s index i.decl.index.type)
  return head ++ .opcode (u.opcode t) ++ (← u.emitValue s t)

/-- Code for the update of whatever an object expression names. -/
def emitUpdate (s : Scope) (debug : Bool) (target : Object) (u : Update) (span : Span) :
    Check Fragment := do
  match target.var? s.vars with
  | some (name, v) => emitVariableUpdate s debug name v u span
  | none =>
    if target.isCall then
      Check.report target.lastSpan .readOnly
      return ∅
    let some t ← objectType s target | return ∅
    let some k := t.primitive.kind? | return ∅
    match target with
    | .index indexSpan owner index => emitSubscriptUpdate s indexSpan owner index t k u span
    | .root (.name name) => emitPropertyUpdate s none (return .opcode .noOp) name t k u span
    | .member _ owner (.name name) =>
      let some ownerName ← Scope.ownerBefore owner.span .memberOfNonPointer (← objectType s owner)
        | return ∅
      emitPropertyUpdate s (some ownerName) (emitObject s owner true) name t k u span
    | _ => return ∅

end HostScript

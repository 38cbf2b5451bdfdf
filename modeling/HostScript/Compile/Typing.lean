import HostScript.Compile.Variables

/-! The types of expressions.

A type is found from the types of the parts, or what is wrong is reported and there
is none. Only what decides the type is looked at: the condition of a choice, the
operand of a cast and the operands of `&&` and `||` are checked when their code is
made. -/
namespace HostScript

/-- What names mean at a place in a file. -/
structure Scope where
  api : Api
  vars : Variables

/-- The variable that a chain starts with, if it starts with one. -/
def Access.var? (vs : Variables) : Access → Option Variable
  | .name ident => vs.find? ident.name
  | .call _ _ _ => none

/-- The variable that an object expression is, with its name. -/
def Object.var? (vs : Variables) : Object → Option (String × Variable)
  | .root (.name ident) => (vs.find? ident.name).map (ident.name, ·)
  | _ => none

/-! ### Results of operators -/

def unaryType (span : Span) (op : UnaryOp) (t : Ty) : Check (Option Ty) :=
  let p := t.primitive
  match op with
  | .not => return some .bool
  | .negate =>
    if p.isUnsignedInteger then Check.refuse span .unsignedNegation
    else if p = .untypedInteger then return some (.prim .untypedSigned)
    else if p.isNumeric then return some t
    else Check.refuse span .negationOperand
  | .complement => if p.isInteger then return some t else Check.refuse span .complementOperand

def combinedType (span : Span) (l r : Ty) : Check (Option Ty) :=
  match l.primitive.reconcile r.primitive with
  | some p => return some (.prim p)
  | none => Check.refuse span (.mismatch l r)

/-- The type that both sides of a comparison are taken as. -/
def comparisonType (span : Span) (op : CompareOp) (l r : Ty) : Check (Option Ty) := do
  if l.primitive = .kind .pointer ∧ r.primitive = .kind .pointer then
    if op.isOrdering then Check.refuse span .numericOperands else return some .null
  else
    let some t ← combinedType span l r | return none
    if op.isOrdering && !t.primitive.isNumeric then Check.refuse span .numericOperands
    else return some t

def arithmeticType (span : Span) (op : ArithOp) (l r : Ty) : Check (Option Ty) :=
  if op.isBitwise then
    if l.primitive.isInteger && r.primitive.isInteger then combinedType span l r
    else Check.refuse span .integerOperands
  else if op = .add ∧ l = .string ∧ r = .string then return some .string
  else if l.primitive.isNumeric && r.primitive.isNumeric then combinedType span l r
  else Check.refuse span (if op = .add then .additionOperands else .numericOperands)

/-- The type of a value that comes from one of two branches. Pointers meet in the one type that
both descend from. -/
def branchType (api : Api) (span : Span) (l r : Ty) : Check (Option Ty) :=
  if l = r then return some l
  else
    match l, r with
    | .null, .object name => return some (.object name)
    | .object name, .null => return some (.object name)
    | .object a, .object b =>
      match api.commonAncestors a b with
      | [ancestor] => return some (.object ancestor)
      | common => Check.refuse span (.unrelatedBranches a b common)
    | l, r => combinedType span l r

/-! ### Names -/

namespace Scope

/-- A type as it is named, if it is declared. -/
def namedType (s : Scope) (t : TypeRef) : Check (Option Ty) :=
  if s.api.declares t.type then return some t.type else Check.refuse t.span (.missingType t.type)

def property (s : Scope) (owner : Option String) (name : Ident) :
    Check (Option (Member PropertyDecl)) :=
  match s.api.propertiesNamed owner name.name with
  | p :: _ => return some p
  | [] => Check.refuse name.span <| match owner with
    | none => .unknownName name.name
    | some owner => .unknownProperty name.name owner

/-- The function that a call means. -/
def callee (s : Scope) (owner : Option String) (name : Ident) (types : List Ty) :
    Check (Option (Member FunctionDecl)) :=
  match firstTwo? (·.decl.span) (s.api.callees owner name.name types) with
  | none => Check.refuse name.span (.unknownFunction (signature none name.name types false) owner)
  | some (f, none) => return some f
  | some (f, some g) => Check.refuse name.span (.ambiguousCall f.signature g.signature owner)

/-- The subscript that an index means. -/
def indexer (s : Scope) (owner : String) (index : Ty) (span : Span) :
    Check (Option (Member SubscriptDecl)) :=
  match firstTwo? (·.decl.span) (s.api.indexers owner index) with
  | none => Check.refuse span (.unknownSubscript owner index)
  | some (i, none) => return some i
  | some (i, some j) =>
    Check.refuse span (.ambiguousSubscript owner i.decl.index.type j.decl.index.type)

/-- The object type whose members are reached through a value. -/
def ownerBefore (span : Span) (problem : Ty → Problem) (t : Option Ty) : Check (Option String) :=
  match t with
  | none => return none
  | some (.object name) => return some name
  | some t => Check.refuse span (problem t)

end Scope

/-! ### Expressions -/

mutual
def typeOf (s : Scope) : Expr → Check (Option Ty)
  | .literal _ value => return some value.type
  | .parens _ inner => typeOf s inner
  | .object _ object => objectType s object
  | .cast _ type _ => s.namedType type
  | .unary span op operand => do
    let some t ← typeOf s operand | return none
    unaryType span op t
  | .binary span op left right => do
    if op = .and ∨ op = .or then return some .bool
    let l ← typeOf s left
    let r ← typeOf s right
    let (some l, some r) := (l, r) | return none
    match op with
    | .compare op => return (← comparisonType span op l r).map fun _ => .bool
    | .arith op => arithmeticType span op l r
    | _ =>
      if l.primitive = .kind .pointer then branchType s.api span l r
      else Check.refuse span .coalesceOperand
  | .ternary span _ yes no => do
    let l ← typeOf s yes
    let r ← typeOf s no
    let (some l, some r) := (l, r) | return none
    branchType s.api span l r

def objectType (s : Scope) : Object → Check (Option Ty)
  | .root access =>
    match access.var? s.vars with
    | some v => return some v.type
    | none => accessType s none access
  | .member span owner access => do
    let some name ← Scope.ownerBefore span .memberOfNonPointer (← objectType s owner) | return none
    accessType s (some name) access
  | .index span owner index => do
    let some name ← Scope.ownerBefore span .subscriptOfNonPointer (← objectType s owner)
      | return none
    let some t ← typeOf s index | return none
    return (← s.indexer name t span).map (·.decl.result.type)

/-- The type of a member of an object type, or of a global one. -/
def accessType (s : Scope) (owner : Option String) : Access → Check (Option Ty)
  | .name ident => return (← s.property owner ident).map (·.decl.type.type)
  | .call _ ident args => do
    let some types := (← typesOf s args).mapM id | return none
    return (← s.callee owner ident types).map (·.decl.result.type)

/-- The types of all arguments. One without a type does not keep the others from being checked. -/
def typesOf (s : Scope) : List Expr → Check (List (Option Ty))
  | [] => return []
  | e :: rest => return (← typeOf s e) :: (← typesOf s rest)
end

end HostScript

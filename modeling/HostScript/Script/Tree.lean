import HostScript.Literal
import HostScript.Source.Span

/-! Scripts as trees.

A script is a list of statements: declarations of what the host offers, control
flow, and actions. Every part that a problem can be reported at keeps its span. -/
namespace HostScript

/-- A name where it stands. -/
structure Ident where
  name : String
  span : Span
  deriving DecidableEq, Repr

/-- A type where it is named. -/
structure TypeRef where
  type : Ty
  span : Span
  deriving DecidableEq, Repr

/-! ### Declarations -/

structure Param where
  type : TypeRef
  name : Ident
  deriving DecidableEq, Repr

/-- A function of the host. A variadic one takes further arguments of any type. -/
structure FunctionDecl where
  result : TypeRef
  name : Ident
  params : List Param
  variadic : Bool
  span : Span
  deriving DecidableEq, Repr

structure PropertyDecl where
  readonly : Bool
  type : TypeRef
  name : Ident
  span : Span
  deriving DecidableEq, Repr

/-- What `object[index]` means for an object type and a type of indices. -/
structure SubscriptDecl where
  readonly : Bool
  result : TypeRef
  index : TypeRef
  name : Ident
  span : Span
  deriving DecidableEq, Repr

inductive MemberDecl where
  | function (decl : FunctionDecl)
  | property (decl : PropertyDecl)
  | subscript (decl : SubscriptDecl)
  deriving DecidableEq, Repr

/-- An object type: its members, and the types whose members it has as well. -/
structure TypeDecl where
  name : Ident
  ancestors : List Ident
  members : List MemberDecl
  span : Span
  deriving DecidableEq, Repr

def FunctionDecl.types (f : FunctionDecl) : List Ty := f.params.map (·.type.type)

def MemberDecl.function? : MemberDecl → Option FunctionDecl
  | .function f => some f
  | _ => none

def MemberDecl.property? : MemberDecl → Option PropertyDecl
  | .property p => some p
  | _ => none

def MemberDecl.subscript? : MemberDecl → Option SubscriptDecl
  | .subscript s => some s
  | _ => none

/-! ### Expressions -/

mutual
inductive Expr where
  | literal (span : Span) (value : Literal)
  | object (span : Span) (object : Object)
  | parens (span : Span) (inner : Expr)
  | cast (span : Span) (type : TypeRef) (operand : Expr)
  | unary (span : Span) (op : UnaryOp) (operand : Expr)
  | binary (span : Span) (op : BinaryOp) (left right : Expr)
  | ternary (span : Span) (condition yes no : Expr)

/-- A variable, property, call or subscript, possibly at the end of a chain. -/
inductive Object where
  | root (access : Access)
  | member (span : Span) (owner : Object) (access : Access)
  | index (span : Span) (owner : Object) (index : Expr)

/-- One link of a chain: a name, or a name applied to arguments. -/
inductive Access where
  | name (ident : Ident)
  | call (span : Span) (ident : Ident) (args : List Expr)
end

def Expr.span : Expr → Span
  | .literal span _ | .object span _ | .parens span _ | .cast span _ _ | .unary span _ _
  | .binary span _ _ _ | .ternary span _ _ _ => span

def Access.span : Access → Span
  | .name ident => ident.span
  | .call span _ _ => span

def Access.isCall : Access → Bool
  | .name _ => false
  | .call _ _ _ => true

def Object.span : Object → Span
  | .root access => access.span
  | .member span _ _ | .index span _ _ => span

/-- The span of the last link of a chain; a subscript belongs to the whole of it. -/
def Object.lastSpan : Object → Span
  | .root access | .member _ _ access => access.span
  | .index span _ _ => span

def Object.isCall : Object → Bool
  | .root access | .member _ _ access => access.isCall
  | .index _ _ _ => false

/-! ### Statements -/

/-- What an action does. A compound assignment carries its operator. -/
inductive ActionKind where
  | declare (type : TypeRef) (name : Ident) (value : Option Expr)
  | assign (target : Object) (op : Option ArithOp) (value : Expr)
  | step (target : Object) (down : Bool)
  | call (target : Object)
  | breakLoop
  | continueLoop
  | exit

structure Action where
  span : Span
  kind : ActionKind

mutual
inductive Statement where
  | importing (span : Span) (path : String)
  | global (span : Span) (members : List MemberDecl)
  | type (decl : TypeDecl)
  | metadata (span : Span) (text : String)
  | block (body : Block)
  | whileLoop (condition : Expr) (body : Block)
  | forLoop (start : Option Action) (condition : Option Expr) (step : Option Action) (body : Block)
  | doWhile (body : Block) (condition : Expr)
  | branch (branch : Branch)
  | action (action : Action)

/-- Statements in braces. -/
inductive Block where
  | mk (span : Span) (statements : List Statement)

inductive Branch where
  | mk (condition : Expr) (body : Block) (otherwise : Otherwise)

inductive Otherwise where
  | nothing
  | branch (branch : Branch)
  | block (body : Block)
end

/-- The statements of one file. -/
abbrev Script := List Statement

namespace Script

/-- The paths of imports, declared at the top level only. -/
def imports (s : Script) : List String :=
  s.filterMap fun
    | .importing _ path => some path
    | _ => none

def types (s : Script) : List TypeDecl :=
  s.filterMap fun
    | .type decl => some decl
    | _ => none

def globals (s : Script) : List MemberDecl :=
  s.flatMap fun
    | .global _ members => members
    | _ => []

end Script

end HostScript

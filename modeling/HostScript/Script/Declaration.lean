import HostScript.Script.Lexeme

/-! The grammar of declarations: imports, and what the host offers. -/
namespace HostScript.Grammar

open Reader Lexeme

def importing : Reader Statement := rule do
  let (span, path) ← spanned do
    sym "#import"
    stringText
  return .importing span path

def param : Reader Param := rule do
  let type ← typeName
  skip
  let name ← identifier
  return ⟨type, name⟩

def ellipsis : Reader Unit := rule (lit "...")

/-- Parameters, with an ellipsis at the end if there may be more arguments. -/
def params (fuel : Nat) : Reader (List Param × Bool) := rule <| orElse
  (do
    let first ← param
    skip
    let rest ← many fuel (do sym ","; param)
    skip
    let more ← optional (do sym ","; ellipsis)
    return (first :: rest, more.isSome))
  (do
    ellipsis
    return ([], true))

def function (fuel : Nat) : Reader MemberDecl := rule do
  let (span, result, name, params) ← spanned do
    let result ← resultType
    skip
    let name ← identifier
    skip
    sym "("
    let params ← optional (params fuel)
    skip
    sym ")"
    lit ";"
    return (result, name, params)
  let (params, variadic) := params.getD ([], false)
  return .function ⟨result, name, params, variadic, span⟩

def property : Reader MemberDecl := rule do
  let (span, readonly, type, name) ← spanned do
    let readonly ← optional (keyword "readonly")
    skip
    let type ← typeName
    skip
    let name ← identifier
    skip
    lit ";"
    return (readonly.isSome, type, name)
  return .property ⟨readonly, type, name, span⟩

def subscript : Reader MemberDecl := rule do
  let (span, readonly, result, index, name) ← spanned do
    let readonly ← optional (keyword "readonly")
    skip
    let result ← typeName
    skip
    sym "["
    let index ← typeName
    skip
    let name ← identifier
    skip
    sym "]"
    lit ";"
    return (readonly.isSome, result, index, name)
  return .subscript ⟨readonly, result, index, name, span⟩

def global (fuel : Nat) : Reader Statement := rule do
  let (span, members) ← spanned do
    sym "#global"
    sym "\x7b"
    let members ← many fuel (orElse (function fuel) property)
    skip
    lit "\x7d"
    return members
  return .global span members

def ancestors (fuel : Nat) : Reader (List Ident) := rule do
  sym ":"
  let first ← identifier
  skip
  let rest ← many fuel (do sym ","; identifier)
  return first :: rest

def typeDecl (fuel : Nat) : Reader Statement := rule do
  let (span, name, ancestors, members) ← spanned do
    sym "#type"
    let name ← identifier
    skip
    let ancestors ← optional (ancestors fuel)
    skip
    sym "\x7b"
    let members ← many fuel (choice [function fuel, subscript, property])
    skip
    lit "\x7d"
    return (name, ancestors.getD [], members)
  return .type ⟨name, ancestors, members, span⟩

end HostScript.Grammar

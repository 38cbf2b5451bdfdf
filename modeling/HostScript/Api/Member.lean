import HostScript.Script.Tree

/-! Members of the host and their names.

A member belongs to the object type that declares it, or to no type when it is
global. The *descriptor* of a function or property is the name under which the host
offers it; the *signature* of a function is what a person reads. -/
namespace HostScript

/-- A declaration together with the object type that makes it. -/
structure Member (α : Type) where
  owner : Option String
  decl : α
  deriving DecidableEq, Repr

/-- `Node::find(int32, string, ...)`, with the owner left out for a global function. -/
def signature (owner : Option String) (name : String) (types : List Ty) (variadic : Bool) : String :=
  let params := types.map Ty.name ++ if variadic then ["..."] else []
  (match owner with
    | some owner => owner ++ "::"
    | none => "") ++ name ++ "(" ++ ", ".intercalate params ++ ")"

namespace Member

variable {α : Type}

/-- The member of a part of the declarations, if this is one. -/
def part? {β : Type} (f : α → Option β) (m : Member α) : Option (Member β) :=
  (f m.decl).map fun decl => ⟨m.owner, decl⟩

/-- What a descriptor starts with: the owner and the name. -/
def qualified (owner : Option String) (name : String) : String :=
  owner.getD "GLOBAL" ++ "_" ++ name

end Member

def Member.functionDescriptor (m : Member FunctionDecl) : String :=
  "_".intercalate (Member.qualified m.owner m.decl.name.name :: m.decl.types.map Ty.name) ++
    if m.decl.variadic then "_VARIADIC" else ""

def Member.propertyDescriptor (m : Member PropertyDecl) : String :=
  Member.qualified m.owner m.decl.name.name

def Member.signature (m : Member FunctionDecl) : String :=
  HostScript.signature m.owner m.decl.name.name m.decl.types m.decl.variadic

end HostScript

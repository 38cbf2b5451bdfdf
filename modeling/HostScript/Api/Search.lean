import HostScript.Api.Lineage

/-! Finding the member that a name stands for.

A call means a function of its name whose parameters the arguments can be passed to;
there may be several, and then the call is ambiguous. A declaration clashes with
another one of the same name and just the same parameters. -/
namespace HostScript

namespace Api

/-- The global members, or those along the lineage of an object type. -/
def members (api : Api) : Option String → List (Member MemberDecl)
  | none => api.globals.map fun m => ⟨none, m⟩
  | some owner =>
    (api.lineage owner).flatMap fun t => t.members.map fun m => ⟨some t.name.name, m⟩

def functions (api : Api) (owner : Option String) : List (Member FunctionDecl) :=
  (api.members owner).filterMap (Member.part? MemberDecl.function?)

def properties (api : Api) (owner : Option String) : List (Member PropertyDecl) :=
  (api.members owner).filterMap (Member.part? MemberDecl.property?)

def subscripts (api : Api) (owner : Option String) : List (Member SubscriptDecl) :=
  (api.members owner).filterMap (Member.part? MemberDecl.subscript?)

/-- Whether arguments can be passed to a function: one for each parameter, and any
further ones if the function is variadic. -/
def accepts (api : Api) (f : FunctionDecl) (given : List Ty) : Bool :=
  (given.length = f.params.length || (f.variadic && f.params.length < given.length)) &&
    (f.types.zip given).all fun (declared, given) => api.assignable given declared

/-- The functions of a name that accept some arguments. -/
def callees (api : Api) (owner : Option String) (name : String) (given : List Ty) :
    List (Member FunctionDecl) :=
  (api.functions owner).filter fun m => m.decl.name.name = name && api.accepts m.decl given

/-- The functions of a name with just these parameters. -/
def functionsOf (api : Api) (owner : Option String) (name : String) (types : List Ty)
    (variadic : Bool) : List (Member FunctionDecl) :=
  (api.functions owner).filter fun m =>
    m.decl.name.name = name && m.decl.variadic = variadic && m.decl.types = types

def propertiesNamed (api : Api) (owner : Option String) (name : String) :
    List (Member PropertyDecl) :=
  (api.properties owner).filter (·.decl.name.name = name)

/-- The subscripts that accept an index. -/
def indexers (api : Api) (owner : String) (index : Ty) : List (Member SubscriptDecl) :=
  (api.subscripts (some owner)).filter fun m => api.assignable index m.decl.index.type

/-- The subscripts indexed by just this type. -/
def subscriptsOf (api : Api) (owner : String) (index : Ty) : List (Member SubscriptDecl) :=
  (api.subscripts (some owner)).filter (·.decl.index.type = index)

end Api

/-- The first of some declarations, and the next one that stands elsewhere. -/
def firstTwo? {α : Type} (span : α → Span) : List α → Option (α × Option α)
  | [] => none
  | a :: rest => some (a, rest.find? fun b => span b ≠ span a)

end HostScript

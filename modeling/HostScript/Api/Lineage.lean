import HostScript.Api.Member

/-! The declarations a file can see, and inheritance between object types.

An `Api` holds the declarations of a file and of everything it imports. A name means
the first declaration of that name. The *lineage* of a type is the type and all it
inherits from, nearest first; ancestors that are declared nowhere are left out, and
a cycle is followed once around. -/
namespace HostScript

structure Api where
  types : List TypeDecl
  globals : List MemberDecl

namespace Api

/-- What some scripts declare, the file itself first. -/
def ofScripts (scripts : List Script) : Api :=
  ⟨scripts.flatMap Script.types, scripts.flatMap Script.globals⟩

def typesNamed (api : Api) (name : String) : List TypeDecl :=
  api.types.filter (·.name.name = name)

def findType? (api : Api) (name : String) : Option TypeDecl :=
  api.types.find? (·.name.name = name)

/-- Whether an object type is declared. Every other type is there anyway. -/
def declares (api : Api) : Ty → Bool
  | .object name => (api.findType? name).isSome
  | .prim _ => true

def ancestorsOf (t : TypeDecl) : List String := t.ancestors.map (·.name)

-- the sum starts at core's zero
attribute [local instance (high)] Zero.ofOfNat0 in
/-- How many steps of inheritance are declared in all. A walk that expands every name
once takes at most one step more. -/
def links (api : Api) : Nat := (api.types.map fun t => t.ancestors.length).sum

/-! ### Lineage -/

/-- Breadth first from the names that wait, without those already seen. -/
def lineageFrom (api : Api) : Nat → List String → List String → List TypeDecl
  | 0, _, _ => []
  | _ + 1, [], _ => []
  | fuel + 1, name :: queue, seen =>
    if name ∈ seen then api.lineageFrom fuel queue seen
    else
      match api.findType? name with
      | none => api.lineageFrom fuel queue (name :: seen)
      | some t => t :: api.lineageFrom fuel (queue ++ ancestorsOf t) (name :: seen)

def lineage (api : Api) (name : String) : List TypeDecl :=
  api.lineageFrom (api.links + 1) [name] []

/-- Whether an object type is another one or descends from it. -/
def inherits (api : Api) (child ancestor : String) : Bool :=
  child = ancestor || (api.lineage child).any (·.name.name = ancestor)

/-- What two object types both are or descend from, in the order of the first lineage. -/
def commonAncestors (api : Api) (a b : String) : List String :=
  let theirs := (api.lineage b).map (·.name.name)
  ((api.lineage a).map (·.name.name)).filter (· ∈ theirs)

/-- Whether a value of type `source` can stand where `target` is expected. -/
def assignable (api : Api) (source target : Ty) : Bool :=
  source = target ||
    match target with
    | .object ancestor =>
      match source with
      | .object child => api.inherits child ancestor
      | .prim p => p = .kind .pointer
    | .prim p =>
      if p.isUnsignedInteger then source.primitive = .untypedInteger
      else if p.isSignedInteger then
        source.primitive = .untypedSigned || source.primitive = .untypedInteger
      else if p.isFloat then source.primitive.isUntyped
      else false

/-! ### Faulty hierarchies -/

/-- Depth first along the ancestors; `path` holds the names above, the first one first. -/
def cycleFrom (api : Api) : Nat → List String → String → Option (List String)
  | fuel, path, name =>
    if name ∈ path then some (path.dropWhile (· ≠ name))
    else
      match fuel with
      | 0 => none
      | fuel + 1 =>
        match api.findType? name with
        | none => none
        | some t => (ancestorsOf t).findSome? (api.cycleFrom fuel (path ++ [name]))

/-- The names along a cycle of inheritance that a type runs into. -/
def cycle? (api : Api) (name : String) : Option (List String) :=
  api.cycleFrom api.types.length [] name

/-- Depth first, the last ancestor first, up to the first name met again. -/
def diamondFrom (api : Api) : Nat → List String → List String → Option String
  | 0, _, _ => none
  | _ + 1, [], _ => none
  | fuel + 1, name :: stack, seen =>
    if name ∈ seen then some name
    else
      let above := ((api.findType? name).map ancestorsOf).getD []
      api.diamondFrom fuel (above.reverse ++ stack) (name :: seen)

/-- An ancestor that a type inherits along more than one way. -/
def diamond? (api : Api) (name : String) : Option String :=
  api.diamondFrom (api.links + 1) [name] []

end Api

end HostScript

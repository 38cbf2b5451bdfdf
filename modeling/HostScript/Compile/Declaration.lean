import HostScript.Compile.Report

/-! Checks of declarations: every type that is named exists, and no member clashes with
another one of the same shape, its own or inherited. -/
namespace HostScript

namespace Api

def checkType (api : Api) (t : TypeRef) : Check Unit :=
  if api.declares t.type then return () else Check.report t.span (.missingType t.type)

def checkFunction (api : Api) (owner : Option String) (f : FunctionDecl) : Check Unit := do
  api.checkType f.result
  f.params.forM fun p => api.checkType p.type
  let others := api.functionsOf owner f.name.name f.types f.variadic
  if others.any (·.decl.span ≠ f.span) then
    Check.report f.name.span
      (.functionTaken (signature none f.name.name f.types f.variadic) owner)

def checkProperty (api : Api) (owner : Option String) (p : PropertyDecl) : Check Unit := do
  api.checkType p.type
  if (api.propertiesNamed owner p.name.name).any (·.decl.span ≠ p.span) then
    Check.report p.name.span (.propertyTaken p.name.name owner)

def checkSubscript (api : Api) (owner : String) (d : SubscriptDecl) : Check Unit := do
  api.checkType d.result
  api.checkType d.index
  if (api.subscriptsOf owner d.index.type).any (·.decl.span ≠ d.span) then
    Check.report d.index.span (.subscriptTaken d.index.type owner)

/-- There are no global subscripts. -/
def checkMember (api : Api) : Option String → MemberDecl → Check Unit
  | owner, .function f => api.checkFunction owner f
  | owner, .property p => api.checkProperty owner p
  | some owner, .subscript d => api.checkSubscript owner d
  | none, .subscript _ => return ()

def checkTypeDecl (api : Api) (t : TypeDecl) : Check Unit := do
  if (api.typesNamed t.name.name).any (·.span ≠ t.span) then
    Check.report t.name.span (.typeTaken t.name.name)
  t.ancestors.forM fun a => do
    if (api.findType? a.name).isNone then Check.report a.span (.missingType (.object a.name))
  match api.diamond? t.name.name with
  | some name => Check.report t.name.span (.inheritanceDiamond name)
  | none => pure ()
  t.members.forM (api.checkMember (some t.name.name))

end Api

end HostScript

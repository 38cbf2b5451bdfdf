import HostScript.Compile.Assign
import HostScript.Compile.Declaration

/-! Code for statements.

A loop is its condition, its body and a jump back; `break` and `continue` inside it
are marked and filled in once the size of the loop is known. A condition that is
known leaves out what can never run. Nothing in a part that is left out is checked. -/
namespace HostScript

/-- What stays the same while a file is compiled. -/
structure Context where
  sources : Sources
  api : Api
  /-- Whether code tells a debugger about lines and variables. -/
  debug : Bool

/-- What changes while a file is compiled. -/
structure Progress where
  vars : Variables
  reports : Reports

abbrev Compiling := StateM Progress

/-- Where a statement stands. -/
structure Place where
  inLoop : Bool
  nested : Bool

namespace Compiling

/-- Runs a check with the names that are visible now. -/
def check {α : Type} (ctx : Context) (f : Scope → Check α) : Compiling α := fun p =>
  let (a, reports) := f ⟨ctx.api, p.vars⟩ p.reports
  (a, { p with reports })

def known (ctx : Context) (condition : Expr) : Compiling (Option Bool) :=
  return (← check ctx fun _ => fold condition).bind Literal.bool?

def enter : Compiling Unit := modify fun p => { p with vars := p.vars.push }

/-- Leaves a scope, with code that tells a debugger so. -/
def leave (ctx : Context) : Compiling Fragment := modifyGet fun p =>
  let (dropped, vars) := p.vars.pop
  let code := if ctx.debug then
      dropped.foldl (fun code (name, _) => code ++ .opcode .debugDelete ++ .text name) ∅
    else ∅
  (code, { p with vars })

def atTopLevel (ctx : Context) (place : Place) (span : Span) : Compiling Unit :=
  if place.nested then check ctx fun _ => Check.report span .notAtTopLevel else return ()

/-! ### Actions -/

/-- A jump out of the body of a loop. -/
def jump (ctx : Context) (place : Place) (span : Span) (kind : MarkKind) (problem : Problem) :
    Compiling Fragment := do
  if place.inLoop then return .mark kind ++ .opcode .placeholder ++ .word 0
  check ctx fun _ => Check.report span problem
  return ∅

/-- The value of a variable cannot see the variable. -/
def declare (ctx : Context) (type : TypeRef) (name : Ident) (value : Option Expr) :
    Compiling Fragment := do
  if !(ctx.api.propertiesNamed none name.name).isEmpty then
    check ctx fun _ => Check.report name.span (.variableHidesProperty name.name)
  check ctx fun _ => ctx.api.checkType type
  let some k := type.type.primitive.kind?
    | check ctx fun _ => do
        Check.report type.span (.variableType type.type)
        return ∅
  let code ← match value with
    | some e => check ctx fun s => emit s e type.type
    | none => pure ∅
  match (← get).vars.declare name.name type.type name.span with
  | .error problem =>
    check ctx fun _ => Check.report name.span problem
    return ∅
  | .ok (v, vars) =>
    modify fun p => { p with vars }
    if value.isNone then return ∅
    let code := Fragment.opcode .assign ++ .kind k ++ .place v ++ code
    return if ctx.debug then code ++ .debugUpdate name.name v else code

def actionCode (ctx : Context) (place : Place) (a : Action) : Compiling Fragment :=
  match a.kind with
  | .declare type name value => declare ctx type name value
  | .assign target op value =>
    check ctx fun s => emitUpdate s ctx.debug target (.assign op value) a.span
  | .step target down => check ctx fun s => emitUpdate s ctx.debug target (.step down) a.span
  | .call target => check ctx fun s => do
    if target.isCall then emitObject s target false
    else
      Check.report target.lastSpan .noEffect
      return ∅
  | .breakLoop => jump ctx place a.span .breakJump .breakOutsideLoop
  | .continueLoop => jump ctx place a.span .continueJump .continueOutsideLoop
  | .exit => return .opcode .exit

def action (ctx : Context) (place : Place) (a : Action) : Compiling Fragment := do
  let code ← actionCode ctx place a
  if ctx.debug then
    let line := min (ctx.sources.line a.span) 65535
    return .opcode .debugLine ++ .mark .line ++ .word line ++ code
  else return code

def optionalAction (ctx : Context) (place : Place) : Option Action → Compiling Fragment
  | some a => action ctx place a
  | none => return ∅

/-! ### Loops -/

/-- Code for a jump back to the start of what stands before it. -/
def backToStart (code : Fragment) : Fragment :=
  let code := code ++ .opcode .back
  let size := code.size
  code ++ .distance (size + 2)

/-- The body of a loop between its condition, if it has one, and the jump back. -/
def looped (ctx : Context) (condition : Option Expr) (body : Fragment) : Compiling Fragment := do
  match condition with
  | none => return backToStart body
  | some e =>
    let code ← check ctx fun s => emit s e .bool
    return backToStart (.opcode .conditional ++ code ++ .distance (body.size + 3) ++ body)

def whileCode (ctx : Context) (condition : Expr) (body : Compiling Fragment) :
    Compiling Fragment := do
  let constant ← known ctx condition
  if constant = some false then return ∅
  let body ← body
  let code ← looped ctx (if constant = some true then none else some condition) body
  return (code.resolveJumps .breakJump .finish).resolveJumps .continueJump .start

/-- The step of a `for` loop stands behind the body, where `continue` goes. -/
def forCode (ctx : Context) (place : Place) (start : Option Action) (condition : Option Expr)
    (step : Option Action) (body : Compiling Fragment) : Compiling Fragment := do
  enter
  let head ← optionalAction ctx place start
  let constant ← match condition with
    | some e => known ctx e
    | none => pure (some true)
  let code ← if constant = some false then pure ∅ else do
    let body := (← body).resolveJumps .continueJump .finish
    let body := body ++ (← optionalAction ctx place step)
    let code ← looped ctx (if constant = some true then none else condition) body
    pure (code.resolveJumps .breakJump .finish)
  return head ++ code ++ (← leave ctx)

def doWhileCode (ctx : Context) (body : Compiling Fragment) (condition : Expr) :
    Compiling Fragment := do
  let body := (← body).resolveJumps .continueJump .finish
  let code ← match ← known ctx condition with
    | some false => pure body
    | some true => pure (backToStart body)
    | none => do
      let code ← check ctx fun s => emit s condition .bool
      pure (backToStart (body ++ .opcode .conditional ++ code ++ .word 3))
  return code.resolveJumps .breakJump .finish

/-! ### Branches -/

def branchCode (ctx : Context) (condition : Expr) (body otherwise : Compiling Fragment) :
    Compiling Fragment := do
  match ← known ctx condition with
  | some true => body
  | some false => otherwise
  | none =>
    let condition ← check ctx fun s => emit s condition .bool
    let body ← body
    let otherwise ← otherwise
    let body := if otherwise.size = 0 then body
      else body ++ .opcode .forward ++ .distance otherwise.size
    return .opcode .conditional ++ condition ++ .distance body.size ++ body ++ otherwise

/-! ### Statements -/

mutual
def statement (ctx : Context) (place : Place) : Statement → Compiling Fragment
  | .importing span _ => do
    atTopLevel ctx place span
    return ∅
  | .global span members => do
    atTopLevel ctx place span
    check ctx fun _ => members.forM (ctx.api.checkMember none)
    return ∅
  | .type decl => do
    atTopLevel ctx place decl.span
    check ctx fun _ => ctx.api.checkTypeDecl decl
    return ∅
  | .metadata _ text => return .opcode .metadata ++ .text text
  | .block body => block ctx place body
  | .whileLoop condition body => whileCode ctx condition (block ctx { place with inLoop := true } body)
  | .forLoop start condition step body =>
    forCode ctx place start condition step (block ctx { place with inLoop := true } body)
  | .doWhile body condition =>
    doWhileCode ctx (block ctx { place with inLoop := true } body) condition
  | .branch b => branch ctx place b
  | .action a => action ctx place a

def block (ctx : Context) (place : Place) : Block → Compiling Fragment
  | .mk _ body => do
    enter
    let code ← statements ctx { place with nested := true } body ∅
    return code ++ (← leave ctx)

def branch (ctx : Context) (place : Place) : Branch → Compiling Fragment
  | .mk condition body other => branchCode ctx condition (block ctx place body) (otherwise ctx place other)

def otherwise (ctx : Context) (place : Place) : Otherwise → Compiling Fragment
  | .nothing => return ∅
  | .branch b => branch ctx place b
  | .block body => block ctx place body

/-- Adds the code of statements to code that stands before them. -/
def statements (ctx : Context) (place : Place) : List Statement → Fragment → Compiling Fragment
  | [], code => return code
  | s :: rest, code => do
    let more ← statement ctx place s
    statements ctx place rest (code ++ more)
end

end Compiling

/-- Compiles a file behind the code and variables of what it imports. -/
def Script.compile (ctx : Context) (script : Script) (code : Fragment) (vars : Variables) :
    Fragment × Progress :=
  Compiling.statements ctx ⟨false, false⟩ script code ⟨vars, #[]⟩

end HostScript

import HostScript.Compile.Statement

/-! What a script says, and what code is made for.

`texts` lists the texts written in a script. `asks` lists the expressions that code is
made for, each with the names visible there and the type expected of it: a known
expression becomes a literal, so nothing is asked of its parts, and a part that can
never run is left out. `Survey.vars` lists the variables that get storage. Both follow
the compiler through the script and carry its variables along. -/
namespace HostScript

/-! ### Texts -/

mutual
def Expr.texts : Expr → List String
  | .literal _ (.string s) => [s]
  | .literal _ _ => []
  | .object _ object => object.texts
  | .parens _ inner => inner.texts
  | .cast _ _ operand => operand.texts
  | .unary _ _ operand => operand.texts
  | .binary _ _ left right => left.texts ++ right.texts
  | .ternary _ condition yes no => condition.texts ++ yes.texts ++ no.texts

def Object.texts : Object → List String
  | .root access => access.texts
  | .member _ owner access => owner.texts ++ access.texts
  | .index _ owner index => owner.texts ++ index.texts

def Access.texts : Access → List String
  | .name _ => []
  | .call _ _ args => Expr.textsOf args

def Expr.textsOf : List Expr → List String
  | [] => []
  | e :: rest => e.texts ++ Expr.textsOf rest
end

def ActionKind.texts : ActionKind → List String
  | .declare _ _ value => (value.map Expr.texts).getD []
  | .assign target _ value => target.texts ++ value.texts
  | .step target _ => target.texts
  | .call target => target.texts
  | .breakLoop | .continueLoop | .exit => []

def Action.texts (a : Action) : List String := a.kind.texts

mutual
/-- The texts written in a statement, text for the host included. -/
def Statement.texts : Statement → List String
  | .importing _ _ | .global _ _ | .type _ => []
  | .metadata _ text => [text]
  | .block body => body.texts
  | .whileLoop condition body => condition.texts ++ body.texts
  | .forLoop start condition step body =>
    (start.map Action.texts).getD [] ++ (condition.map Expr.texts).getD [] ++
      (step.map Action.texts).getD [] ++ body.texts
  | .doWhile body condition => body.texts ++ condition.texts
  | .branch b => b.texts
  | .action a => a.texts

def Block.texts : Block → List String
  | .mk _ body => Statement.textsOf body

def Branch.texts : Branch → List String
  | .mk condition body otherwise => condition.texts ++ body.texts ++ otherwise.texts

def Otherwise.texts : Otherwise → List String
  | .nothing => []
  | .branch b => b.texts
  | .block body => body.texts

def Statement.textsOf : List Statement → List String
  | [] => []
  | s :: rest => s.texts ++ Statement.textsOf rest
end

def Script.texts (s : Script) : List String := Statement.textsOf s

/-! ### Expressions that code is made for -/

/-- Code is made for an expression where some names are visible and a type is expected. -/
structure Ask where
  scope : Scope
  expr : Expr
  type : Ty

/-- The literal that an expression is known to be. -/
def Expr.known? (e : Expr) : Option Literal := (fold e #[]).1

def Expr.knownBool? (e : Expr) : Option Bool := e.known?.bind Literal.bool?

def Expr.type? (s : Scope) (e : Expr) : Option Ty := (typeOf s e #[]).1

def Object.type? (s : Scope) (o : Object) : Option Ty := (objectType s o #[]).1

/-- What is asked of an expression that is not known: itself and some of its parts. -/
def Expr.asking (s : Scope) (e : Expr) (t : Ty) (parts : List Ask) : List Ask :=
  if e.known?.isSome then [] else ⟨s, e, t⟩ :: parts

/-- The type that the operand of a cast is made code for. -/
def castOperandType (source target : Ty) : Ty :=
  if source.primitive ≠ target.primitive ∧ source.primitive.isUntyped then target else source

/-- The types that both sides of a comparison are made code for. -/
def comparisonOperandTypes (span : Span) (op : CompareOp) (l r : Ty) : Ty × Ty :=
  match (comparisonType span op l r #[]).1 with
  | some t => if t.primitive = .kind .pointer then (l, r) else (t, t)
  | none => (l, r)

mutual
/-- What is asked of an expression that is expected to have a type. -/
def Expr.asks (s : Scope) : Expr → Ty → List Ask
  | .literal _ _, _ => []
  | .object span object, t => Expr.asking s (.object span object) t (object.asks s)
  | .parens span inner, t => Expr.asking s (.parens span inner) t (inner.asks s t)
  | .cast span type operand, t =>
    Expr.asking s (.cast span type operand) t <|
      match operand.type? s with
      | some source => operand.asks s (castOperandType source type.type)
      | none => []
  | .unary span op operand, t =>
    Expr.asking s (.unary span op operand) t (operand.asks s (if op = .not then .bool else t))
  | .binary span op left right, t =>
    Expr.asking s (.binary span op left right) t <|
      match op with
      | .compare op =>
        match left.type? s, right.type? s with
        | some l, some r =>
          left.asks s (comparisonOperandTypes span op l r).1 ++
            right.asks s (comparisonOperandTypes span op l r).2
        | _, _ => []
      | op =>
        let operand := if op = .and ∨ op = .or then .bool else t
        left.asks s operand ++ right.asks s operand
  | .ternary span condition yes no, t =>
    Expr.asking s (.ternary span condition yes no) t <|
      match condition.knownBool? with
      | some true => yes.asks s t
      | some false => no.asks s t
      | none => condition.asks s .bool ++ yes.asks s t ++ no.asks s t

def Object.asks (s : Scope) : Object → List Ask
  | .root access =>
    match access.var? s.vars with
    | some _ => []
    | none => access.asks s none
  | .member _ owner access =>
    match owner.type? s with
    | some (.object name) => owner.asks s ++ access.asks s (some name)
    | _ => []
  | .index span owner index =>
    match owner.type? s, index.type? s with
    | some (.object name), some t =>
      match (s.indexer name t span #[]).1 with
      | some i => owner.asks s ++ index.asks s i.decl.index.type
      | none => []
    | _, _ => []

def Access.asks (s : Scope) (owner : Option String) : Access → List Ask
  | .name _ => []
  | .call _ ident args =>
    match (typesOf s args #[]).1.mapM id with
    | some types =>
      match (s.callee owner ident types #[]).1 with
      | some f => Expr.argumentAsks s args types f.decl.types
      | none => []
    | none => []

/-- What is asked of arguments: the type of the parameter, or their own beyond the last one. -/
def Expr.argumentAsks (s : Scope) : List Expr → List Ty → List Ty → List Ask
  | e :: rest, actual :: types, declared =>
    e.asks s (declared.head?.getD actual) ++ Expr.argumentAsks s rest types declared.tail
  | _, _, _ => []
end

/-! ### Statements -/

/-- What is asked of expressions, and the variables that get storage. A variable is *loose* when
nothing is assigned to it before the code can read it. -/
structure Survey where
  asks : List Ask
  vars : List (Variable × Bool)

namespace Survey

def empty : Survey := ⟨[], []⟩

def append (a b : Survey) : Survey := ⟨a.asks ++ b.asks, a.vars ++ b.vars⟩

instance : Append Survey := ⟨append⟩

/-- Nothing but expressions. -/
def ofAsks (asks : List Ask) : Survey := ⟨asks, []⟩

end Survey

/-- A survey of a part of a script, which takes the variables in front of it to those behind
it. -/
abbrev Surveying := Variables → Survey × Variables

namespace Surveying

/-- Nothing is made code for. -/
def skip : Surveying := fun vs => (.empty, vs)

def seq (a b : Surveying) : Surveying := fun vs =>
  let (x, vs) := a vs
  let (y, vs) := b vs
  (x ++ y, vs)

def inScope (a : Surveying) : Surveying := fun vs =>
  let (x, vs) := a vs.push
  (x, vs.pop.2)

/-- Expressions with the names that are visible now. -/
def asking (api : Api) (f : Scope → List Ask) : Surveying := fun vs => (.ofAsks (f ⟨api, vs⟩), vs)

def condition (api : Api) (e : Expr) : Surveying := asking api fun s => e.asks s .bool

/-- A loop around a part. Without a condition the loop goes on forever, and a condition that is
known is not asked for. -/
def looped (api : Api) (condition? : Option Expr) (a : Surveying) : Surveying :=
  match condition? with
  | none => a
  | some e =>
    match e.knownBool? with
    | some false => skip
    | some true => a
    | none => seq a (condition api e)

/-- The variable that a declaration makes. -/
def declare (type : TypeRef) (name : Ident) (loose : Bool) : Surveying := fun vs =>
  match vs.declare name.name type.type name.span with
  | .ok (v, vs) => (⟨[], [(v, loose)]⟩, vs)
  | .error _ => (.empty, vs)

/-- What is asked of the target of an update and of the value given to it. -/
def update (api : Api) (target : Object) (value : Option Expr) : Surveying := asking api fun s =>
  match target.var? s.vars with
  | some (_, v) => (value.map fun e => e.asks s v.type).getD []
  | none =>
    target.asks s ++
      match target.type? s with
      | some t => (value.map fun e => e.asks s t).getD []
      | none => []

end Surveying

/-- The variable that the step of a `for` loop declares is loose even with a value: the
condition sees it, and is evaluated before the first step. -/
def Action.survey (api : Api) (isStep : Bool) (a : Action) : Surveying :=
  match a.kind with
  | .declare type name value =>
    .seq (.asking api fun s => (value.map fun e => e.asks s type.type).getD [])
      (.declare type name (value.isNone || isStep))
  | .assign target _ value => .update api target (some value)
  | .step target _ => .update api target none
  | .call target => .asking api fun s => target.asks s
  | .breakLoop | .continueLoop | .exit => .skip

def Action.surveyOption (api : Api) (isStep : Bool) : Option Action → Surveying
  | some a => a.survey api isStep
  | none => .skip

mutual
def Statement.survey (api : Api) : Statement → Surveying
  | .importing _ _ | .global _ _ | .type _ | .metadata _ _ => .skip
  | .block body => body.survey api
  | .whileLoop condition body => .looped api (some condition) (body.survey api)
  | .forLoop start condition step body => .inScope <|
    .seq (Action.surveyOption api false start) <|
      .looped api condition (.seq (body.survey api) (Action.surveyOption api true step))
  | .doWhile body condition =>
    match condition.knownBool? with
    | some _ => body.survey api
    | none => .seq (body.survey api) (.condition api condition)
  | .branch b => b.survey api
  | .action a => a.survey api false

def Block.survey (api : Api) : Block → Surveying
  | .mk _ body => .inScope (Statement.surveyAll api body)

def Branch.survey (api : Api) : Branch → Surveying
  | .mk condition body otherwise =>
    match condition.knownBool? with
    | some true => body.survey api
    | some false => otherwise.survey api
    | none => .seq (.condition api condition) (.seq (body.survey api) (otherwise.survey api))

def Otherwise.survey (api : Api) : Otherwise → Surveying
  | .nothing => .skip
  | .branch b => b.survey api
  | .block body => body.survey api

def Statement.surveyAll (api : Api) : List Statement → Surveying
  | [] => .skip
  | s :: rest => .seq (s.survey api) (Statement.surveyAll api rest)
end

/-- A survey of a script where some declarations and variables are visible. -/
def Script.survey (api : Api) (vars : Variables) (s : Script) : Survey :=
  (Statement.surveyAll api s vars).1

/-! ### Conditions -/

namespace Ask

/-- Whether an operand of `==`, `!=` or a cast has no value. -/
def hasVoidOperand (a : Ask) : Bool :=
  match a.expr with
  | .binary _ (.compare op) left right =>
    !op.isOrdering &&
      (left.type? a.scope = some (.prim .void) || right.type? a.scope = some (.prim .void))
  | .cast _ _ operand => operand.type? a.scope = some (.prim .void)
  | _ => false

/-- Whether bits of a floating-point number are asked for. -/
def wantsFloatBits (a : Ask) : Bool :=
  match a.expr with
  | .unary _ .complement _ => a.type.primitive.isFloat
  | .binary _ (.arith op) _ _ => op.isBitwise && a.type.primitive.isFloat
  | _ => false

end Ask

/-- Whether a variable shares no byte with a pointer variable, or is a pointer in just its place. -/
def Variable.spares (v pointer : Variable) : Bool :=
  match v.type.primitive with
  | .kind k =>
    k = .string || pointer.address + 8 ≤ v.address || v.address + k.size ≤ pointer.address ||
      (k = .pointer && v.address = pointer.address)
  | _ => true

/-- Where a loose pointer variable is, no other variable leaves anything but a pointer. -/
def Survey.Sparing (s : Survey) : Prop :=
  ∀ e ∈ s.vars, e.2 = true → e.1.type.primitive = .kind .pointer →
    ∀ f ∈ s.vars, f.1.spares e.1 = true

instance (s : Survey) : Decidable s.Sparing :=
  inferInstanceAs (Decidable (∀ e ∈ s.vars, e.2 = true → e.1.type.primitive = .kind .pointer →
    ∀ f ∈ s.vars, f.1.spares e.1 = true))

end HostScript

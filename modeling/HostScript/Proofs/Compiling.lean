import HostScript.Proofs.Assignment

/-! Compiling without reports.

What `Check` says of expressions holds of statements, whose compilation also carries
the variables along: reports are never taken back, so when compiling a file ends
without reports each of its parts *passes*. Storage that a file needs stays needed, too,
with or without reports. -/
namespace HostScript

variable {body : Compiling Fragment} {condition : Option Expr} {place : Place} {span : Span}

namespace Storage

/-- No more storage than `t`. -/
structure Le (s t : Storage) : Prop where
  bytes : s.bytes ≤ t.bytes
  slots : s.slots ≤ t.slots

variable {s t u : Storage}

theorem Le.refl (s : Storage) : s.Le s := ⟨Nat.le_refl _, Nat.le_refl _⟩

theorem Le.trans (h : s.Le t) (h' : t.Le u) : s.Le u :=
  ⟨Nat.le_trans h.bytes h'.bytes, Nat.le_trans h.slots h'.slots⟩

theorem le_add (s t : Storage) : s.Le (s + t) := ⟨Nat.le_add_right _ _, Nat.le_add_right _ _⟩

theorem le_add_left (s t : Storage) : t.Le (s + t) := ⟨Nat.le_add_left _ _, Nat.le_add_left _ _⟩

theorem le_max_left (s t : Storage) : s.Le (s.max t) := ⟨Nat.le_max_left _ _, Nat.le_max_left _ _⟩

theorem le_max_right (s t : Storage) : t.Le (s.max t) := ⟨Nat.le_max_right _ _, Nat.le_max_right _ _⟩

end Storage

/-- What a declaration does. -/
theorem Variables.declare_eq {vs vs' : Variables} (h : vs.declare name type span = .ok (v, vs')) :
    v = ⟨type, addressIn vs.inUse type, span⟩ ∧
      vs' = { vs with
        top := vs.top.add name v
        inUse := vs.inUse + storageOf type
        needed := vs.needed.max (vs.inUse + storageOf type) } := by
  unfold declare at h
  dsimp only at h
  split at h
  · cases h
  · split at h
    · cases h
    · cases h
      exact ⟨rfl, rfl⟩

namespace Compiling

variable {α β : Type}

/-- From some variables on, the result is `a`, with some variables behind it and no reports. -/
def Passes (c : Compiling α) (vs : Variables) (a : α) (vs' : Variables) : Prop :=
  c ⟨vs, #[]⟩ = (a, ⟨vs', #[]⟩)

/-- Nothing is taken back, neither a report nor storage that is needed. -/
class Keeps (c : Compiling α) : Prop where
  keeps : ∀ p, ∀ x ∈ p.reports, x ∈ (c p).2.reports
  needs : ∀ p : Progress, p.vars.needed.Le (c p).2.vars.needed

variable {vs vs' : Variables} {ctx : Context}

instance keeps_pure (a : α) : Keeps (pure a : Compiling α) := ⟨fun _ _ h => h, fun _ => .refl _⟩

theorem Keeps.bind (hc : Keeps c) (hf : ∀ a, Keeps (f a)) : Keeps (c >>= f) :=
  ⟨fun p x hx => (hf _).keeps _ x (hc.keeps p x hx), fun p => (hc.needs p).trans ((hf _).needs _)⟩

instance {f : Scope → Check α} [hf : ∀ s, (f s).Plain] : Keeps (check ctx f) :=
  ⟨fun p => (hf ⟨ctx.api, p.vars⟩).keeps p.reports, fun _ => .refl _⟩

instance {c : Compiling α} {f : α → Compiling β} [hc : Keeps c] [hf : ∀ a, Keeps (f a)] : Keeps (c >>= f) :=
  hc.bind hf

instance {p : Prop} [Decidable p] {c d : Compiling α} [Keeps c] [Keeps d] : Keeps (if p then c else d) := by
  split <;> infer_instance

theorem passes_pure : Passes (pure a : Compiling α) vs b vs' ↔ a = b ∧ vs = vs' := by
  constructor
  · intro h
    cases h
    exact ⟨rfl, rfl⟩
  · rintro ⟨rfl, rfl⟩
    rfl

theorem Passes.partsOf (h : Passes (c >>= f) vs b vs') (hf : ∀ a, Keeps (f a)) :
    ∃ a vs₁, Passes c vs a vs₁ ∧ Passes (f a) vs₁ b vs' := by
  have h' : f (c ⟨vs, #[]⟩).1 (c ⟨vs, #[]⟩).2 = (b, ⟨vs', #[]⟩) := h
  have hr : (c ⟨vs, #[]⟩).2.reports = #[] := Check.eq_empty_of_subset ((hf _).keeps _) (by rw [h'])
  have hp : (c ⟨vs, #[]⟩).2 = ⟨(c ⟨vs, #[]⟩).2.vars, #[]⟩ := congrArg (Progress.mk _) hr
  exact ⟨_, (c ⟨vs, #[]⟩).2.vars, Prod.ext rfl hp, by rw [hp] at h'; exact h'⟩

theorem Passes.parts [hf : ∀ a, Keeps (f a)] (h : Passes (c >>= f) vs b vs') :
    ∃ a vs₁, Passes c vs a vs₁ ∧ Passes (f a) vs₁ b vs' := h.partsOf hf

theorem passes_check (h : Passes (check ctx f) vs a vs') : (f ⟨ctx.api, vs⟩).Passes a ∧ vs' = vs := by
  have h' : ((f ⟨ctx.api, vs⟩ #[]).1, (⟨vs, (f ⟨ctx.api, vs⟩ #[]).2⟩ : Progress)) = (a, ⟨vs', #[]⟩) := h
  obtain ⟨h1, h2⟩ := Prod.mk.inj h'
  obtain ⟨hv, hr⟩ := Progress.mk.inj h2
  exact ⟨Prod.ext h1 hr, hv.symm⟩

theorem passes_modify {f : Variables → Variables} (h : Passes (modify fun p => { p with vars := f p.vars }) vs u vs') :
    vs' = f vs := by
  cases h
  rfl

theorem not_passes_report_bind [∀ a, Keeps (f a)] :
    ¬ Passes ((check ctx fun _ => Check.report span problem) >>= f) vs b vs' := by
  intro h
  obtain ⟨a, vs₁, ha, -⟩ := h.parts
  exact Check.not_passes_report _ _ _ (passes_check ha).1

/-! ### Reports stay -/

end Compiling

namespace Api

open Check

variable (api : Api)

instance (t : TypeRef) : Plain (api.checkType t) := by
  unfold checkType
  infer_instance

instance (owner : Option String) (m : MemberDecl) : Plain (api.checkMember owner m) := by
  unfold checkMember checkFunction checkProperty checkSubscript
  split <;> infer_instance

instance (t : TypeDecl) : Plain (api.checkTypeDecl t) := by
  unfold checkTypeDecl
  repeat' first | infer_instance | refine .bind inferInstance fun _ => ?_ | split

end Api

namespace Compiling

variable {vs vs' : Variables} {ctx : Context}

instance (e : Expr) : Keeps (known ctx e) := by
  unfold known
  infer_instance

theorem passes_known (h : Passes (known ctx e) vs b vs') : b = e.knownBool? ∧ vs' = vs := by
  obtain ⟨l, vs₁, hl, hrest⟩ := h.parts
  obtain ⟨hfold, rfl⟩ := passes_check hl
  obtain ⟨rfl, rfl⟩ := passes_pure.1 hrest
  refine ⟨?_, rfl⟩
  unfold Expr.knownBool? Expr.known?
  rw [hfold.fst]

instance : Keeps (leave ctx) where
  keeps _ _ h := h
  needs p := by
    show p.vars.needed.Le p.vars.pop.2.needed
    unfold Variables.pop
    split <;> exact .refl _

instance (place : Place) (span : Span) : Keeps (atTopLevel ctx place span) := by
  unfold atTopLevel
  infer_instance

instance keeps_jump (place : Place) (span : Span) (kind : MarkKind) (problem : Problem) :
    Keeps (jump ctx place span kind problem) := by
  unfold jump
  infer_instance

/-! ### Declarations in steps -/

def valueCode (ctx : Context) (type : TypeRef) (value : Option Expr) : Compiling Fragment :=
  match value with
  | some e => check ctx fun s => emit s e type.type
  | none => pure ∅

/-- The variable itself, behind the code of its value. -/
def declareAs (ctx : Context) (type : TypeRef) (name : Ident) (k : Kind) (valued : Bool) (code : Fragment) :
    Compiling Fragment := do
  match (← get).vars.declare name.name type.type name.span with
  | .error problem =>
    check ctx fun _ => Check.report name.span problem
    return ∅
  | .ok (v, vars) =>
    modify fun p => { p with vars }
    if !valued then return ∅
    let code := Fragment.opcode .assign ++ .kind k ++ .place v ++ code
    return if ctx.debug then code ++ .debugUpdate name.name v else code

/-- What is left to do once the name is not that of a property. -/
def declareValue (ctx : Context) (type : TypeRef) (name : Ident) (value : Option Expr) :
    Compiling Fragment := do
  check ctx fun _ => ctx.api.checkType type
  match type.type.primitive.kind? with
  | some k => valueCode ctx type value >>= declareAs ctx type name k value.isSome
  | none => check ctx fun _ => do
    Check.report type.span (.variableType type.type)
    return ∅

theorem declare_eq (type : TypeRef) (name : Ident) (value : Option Expr) :
    declare ctx type name value =
      if (ctx.api.propertiesNamed none name.name).isEmpty then declareValue ctx type name value
      else check ctx (fun _ => Check.report name.span (.variableHidesProperty name.name)) >>= fun _ =>
        declareValue ctx type name value := by
  unfold declare declareValue
  cases (ctx.api.propertiesNamed none name.name).isEmpty <;> cases value <;>
    cases type.type.primitive.kind? <;> rfl

instance (type : TypeRef) (value : Option Expr) : Keeps (valueCode ctx type value) := by
  unfold valueCode
  split <;> infer_instance

theorem declareAs_apply (type : TypeRef) (name : Ident) (k : Kind) (valued : Bool) (code : Fragment) (p : Progress) :
    declareAs ctx type name k valued code p = (match p.vars.declare name.name type.type name.span with
      | .error problem => do
        check ctx fun _ => Check.report name.span problem
        return ∅
      | .ok (v, vars) => do
        modify fun p => { p with vars }
        if !valued then return ∅
        let code := Fragment.opcode .assign ++ .kind k ++ .place v ++ code
        return if ctx.debug then code ++ .debugUpdate name.name v else code : Compiling Fragment) p := rfl

instance (type : TypeRef) (name : Ident) (k : Kind) (valued : Bool) (code : Fragment) :
    Keeps (declareAs ctx type name k valued code) := by
  -- either the problem is all that there is, or the variable is
  have hrun (p : Progress) : (∀ x ∈ p.reports, x ∈ (declareAs ctx type name k valued code p).2.reports) ∧
      p.vars.needed.Le (declareAs ctx type name k valued code p).2.vars.needed := by
    rw [declareAs_apply]
    cases hd : p.vars.declare name.name type.type name.span with
    | error problem =>
      have hkeeps : Keeps (do check ctx fun _ => Check.report name.span problem; return (∅ : Fragment)) := inferInstance
      exact ⟨hkeeps.keeps p, hkeeps.needs p⟩
    | ok r =>
      refine ⟨fun x hx => by cases valued <;> exact hx, ?_⟩
      have hvars : p.vars.needed.Le r.2.needed := by
        rw [(Variables.declare_eq hd).2]
        exact Storage.le_max_left _ _
      cases valued <;> exact hvars
  exact ⟨fun p => (hrun p).1, fun p => (hrun p).2⟩

instance (type : TypeRef) (name : Ident) (value : Option Expr) : Keeps (declareValue ctx type name value) := by
  exact .bind inferInstance fun _ => by split <;> infer_instance

instance keeps_declare (type : TypeRef) (name : Ident) (value : Option Expr) : Keeps (declare ctx type name value) := by
  rw [declare_eq]
  infer_instance

theorem passes_valueCode (h : Passes (valueCode ctx type value) vs code vs') : vs' = vs := by
  cases value with
  | none => exact (passes_pure.1 h).2.symm
  | some e =>
    unfold valueCode at h
    exact (passes_check h).2

/-- What a declaration that passes does. -/
theorem passes_declare (h : Passes (declare ctx type name value) vs f vs') :
    ∃ k code v, type.type.primitive = .kind k ∧ Passes (valueCode ctx type value) vs code vs ∧
      vs.declare name.name type.type name.span = .ok (v, vs') ∧ f = if value.isNone then ∅ else if ctx.debug then
            Fragment.opcode .assign ++ .kind k ++ .place v ++ code ++ .debugUpdate name.name v
          else Fragment.opcode .assign ++ .kind k ++ .place v ++ code := by
  rw [declare_eq] at h
  split at h
  · obtain ⟨_, vs₁, hcheck, hrest⟩ := h.partsOf fun _ => by split <;> infer_instance
    obtain ⟨-, rfl⟩ := passes_check hcheck
    split at hrest
    · rename_i k hk
      obtain ⟨code, vs₂, hcode, hdeclare⟩ := hrest.parts
      obtain rfl := passes_valueCode hcode
      refine ⟨k, code, ?_⟩
      unfold Passes at hdeclare
      rw [declareAs_apply] at hdeclare
      match hv : vs₂.declare name.name type.type name.span with
      | .error problem =>
        rw [hv] at hdeclare
        exact absurd hdeclare not_passes_report_bind
      | .ok (v, vars) =>
        rw [hv] at hdeclare
        obtain ⟨_, vs₄, hmodify, hresult⟩ := Passes.parts hdeclare
        obtain rfl : vs₄ = vars := passes_modify (f := fun _ => vars) hmodify
        refine ⟨v, Primitive.kind?_eq_some.1 hk, hcode, ?_⟩
        cases value with
        | none | some _ =>
          obtain ⟨rfl, rfl⟩ := passes_pure.1 hresult
          exact ⟨rfl, rfl⟩
    · exact absurd (passes_check hrest).1 (Check.not_passes_report_bind _ _ _)
  · exact absurd h not_passes_report_bind

/-! ### Statements -/

instance (place : Place) (a : Action) : Keeps (actionCode ctx place a) := by
  unfold actionCode
  split <;> infer_instance

instance keeps_action (place : Place) (a : Action) : Keeps (action ctx place a) := by
  unfold action
  infer_instance

instance (place : Place) (a : Option Action) : Keeps (optionalAction ctx place a) := by
  unfold optionalAction
  split <;> infer_instance

instance (condition : Option Expr) (body : Fragment) : Keeps (looped ctx condition body) := by
  unfold looped
  split <;> infer_instance

theorem keeps_whileCode (condition : Expr) (hb : Keeps body) : Keeps (whileCode ctx condition body) := by
  unfold whileCode
  infer_instance

instance : Keeps enter := ⟨fun _ _ h => h, fun _ => .refl _⟩

/-- Compiles a part in a scope of its own. -/
def inScope (ctx : Context) (c : Compiling Fragment) : Compiling Fragment := do
  enter
  let code ← c
  return code ++ (← leave ctx)

theorem keeps_inScope (hc : Keeps c) : Keeps (inScope ctx c) := by
  unfold inScope
  infer_instance

/-- What the condition of a `for` loop is known to be; without one it holds. -/
def forKnown (ctx : Context) : Option Expr → Compiling (Option Bool)
  | some e => known ctx e
  | none => pure (some true)

/-- A `for` loop without its start. -/
def forLoop (ctx : Context) (place : Place) (constant : Option Bool) (condition : Option Expr)
    (step : Option Action) (body : Compiling Fragment) : Compiling Fragment :=
  if constant = some false then pure ∅
  else do
    let body ← body
    let last ← optionalAction ctx place step
    let code ← looped ctx (if constant = some true then none else condition)
      (body.resolveJumps .continueJump .finish ++ last)
    return code.resolveJumps .breakJump .finish

/-- What stands in the scope of a `for` loop. -/
def forInner (ctx : Context) (place : Place) (start : Option Action) (condition : Option Expr)
    (step : Option Action) (body : Compiling Fragment) : Compiling Fragment := do
  let head ← optionalAction ctx place start
  let constant ← forKnown ctx condition
  let code ← forLoop ctx place constant condition step body
  return head ++ code

theorem forCode_eq (place : Place) (start : Option Action) (condition : Option Expr) (step : Option Action)
    (body : Compiling Fragment) : forCode ctx place start condition step body =
      inScope ctx (forInner ctx place start condition step body) := by
  unfold forCode inScope forInner forLoop
  simp only [bind_assoc, pure_bind]
  congr 1
  funext _
  congr 1
  funext head
  cases condition with
  | none => rfl
  | some e =>
    dsimp only
    congr 1
    funext constant
    split <;> rfl

instance (condition : Option Expr) : Keeps (forKnown ctx condition) := by
  unfold forKnown
  split <;> infer_instance

instance (place : Place) (constant : Option Bool) (condition : Option Expr) (step : Option Action)
    {body : Compiling Fragment} [Keeps body] : Keeps (forLoop ctx place constant condition step body) := by
  unfold forLoop
  infer_instance

theorem keeps_forInner (place : Place) (start : Option Action) (condition : Option Expr) (step : Option Action)
    (hb : Keeps body) : Keeps (forInner ctx place start condition step body) := by
  unfold forInner
  infer_instance

theorem keeps_doWhileCode (condition : Expr) (hb : Keeps body) : Keeps (doWhileCode ctx body condition) := by
  repeat' first | infer_instance | refine .bind inferInstance fun _ => ?_ | split

theorem keeps_branchCode (condition : Expr) {otherwise : Compiling Fragment} (hb : Keeps body) (ho : Keeps otherwise) :
    Keeps (branchCode ctx condition body otherwise) := by
  repeat' first | infer_instance | refine .bind inferInstance fun _ => ?_ | split

mutual
instance keeps_statement (place : Place) : (s : Statement) → Keeps (statement ctx place s)
  | .importing _ _ | .global _ _ | .type _ | .metadata _ _ => by
    unfold statement
    infer_instance
  | .block body => keeps_block place body
  | .whileLoop condition body => keeps_whileCode condition (keeps_block _ body)
  | .forLoop start condition step body => by
    unfold statement
    rw [forCode_eq]
    exact keeps_inScope (keeps_forInner place start condition step (keeps_block _ body))
  | .doWhile body condition => keeps_doWhileCode condition (keeps_block _ body)
  | .branch b => keeps_branch place b
  | .action a => keeps_action place a

instance keeps_block (place : Place) : (b : Block) → Keeps (block ctx place b)
  | .mk _ body => keeps_inScope (keeps_statements _ body ∅)

instance keeps_branch (place : Place) : (b : Branch) → Keeps (branch ctx place b)
  | .mk condition body other => keeps_branchCode condition (keeps_block place body) (keeps_otherwise place other)

instance keeps_otherwise (place : Place) : (o : Otherwise) → Keeps (otherwise ctx place o)
  | .nothing => keeps_pure _
  | .branch b => keeps_branch place b
  | .block body => keeps_block place body

instance keeps_statements (place : Place) : (ss : List Statement) → (code : Fragment) →
    Keeps (statements ctx place ss code)
  | [], _ => keeps_pure _
  | s :: rest, _ => (keeps_statement place s).bind fun _ => keeps_statements place rest _
end

/-! ### What statements are made of

A part that passes tells how its code was made of the code of its own parts. -/

section Making

variable {f : Fragment}

/-- What a debugger is told when a scope is left. -/
def farewell (ctx : Context) (vs : Variables) : Fragment :=
  if ctx.debug then vs.pop.1.foldl (fun code (name, _) => code ++ .opcode .debugDelete ++ .text name) ∅ else ∅

theorem passes_inScope (hb : Keeps body) (h : Passes (inScope ctx body) vs f vs') :
    ∃ code vs₁, Passes body vs.push code vs₁ ∧ vs' = vs₁.pop.2 ∧ f = code ++ farewell ctx vs₁ := by
  obtain ⟨_, vs₁, hpush, hrest⟩ := h.parts
  obtain rfl := passes_modify hpush
  obtain ⟨code, vs₂, hcode, hrest⟩ := hrest.parts
  obtain ⟨last, vs₃, hlast, hrest⟩ := hrest.parts
  obtain ⟨rfl, rfl⟩ := passes_pure.1 hrest
  cases hlast
  exact ⟨code, vs₂, hcode, rfl, rfl⟩

theorem passes_action (h : Passes (action ctx place a) vs f vs') : ∃ code, Passes (actionCode ctx place a) vs code vs' ∧
      f = if ctx.debug then .opcode .debugLine ++ .mark .line ++ .word (min (ctx.sources.line a.span) 65535) ++ code
        else code := by
  obtain ⟨code, vs₁, hcode, hrest⟩ := h.parts
  split at hrest
  · obtain ⟨rfl, rfl⟩ := passes_pure.1 hrest
    exact ⟨code, hcode, by rw [if_pos ‹_›]⟩
  · obtain ⟨rfl, rfl⟩ := passes_pure.1 hrest
    exact ⟨code, hcode, by rw [if_neg ‹_›]⟩

theorem passes_jump (h : Passes (jump ctx place span kind problem) vs f vs') :
    place.inLoop = true ∧ vs' = vs ∧ f = .mark kind ++ .opcode .placeholder ++ .word 0 := by
  unfold jump at h
  split at h
  · obtain ⟨rfl, rfl⟩ := passes_pure.1 h
    exact ⟨‹_›, rfl, rfl⟩
  · exact absurd h not_passes_report_bind

theorem passes_call
    (h : Passes (check ctx fun s => do
      if target.isCall then emitObject s target false
      else
        Check.report target.lastSpan .noEffect
        return ∅) vs f vs') : target.isCall = true ∧ vs' = vs ∧ (emitObject ⟨ctx.api, vs⟩ target false).Passes f := by
  obtain ⟨hcode, rfl⟩ := passes_check h
  split at hcode
  · exact ⟨‹_›, rfl, hcode⟩
  · exact absurd hcode (Check.not_passes_report_bind _ _ _)

/-- What the condition of a loop is known to be; without one it holds. -/
def loopKnown? : Option Expr → Option Bool
  | some e => e.knownBool?
  | none => some true

theorem passes_forKnown (h : Passes (forKnown ctx condition) vs b vs') : b = loopKnown? condition ∧ vs' = vs := by
  cases condition with
  | none =>
    obtain ⟨rfl, rfl⟩ := passes_pure.1 h
    exact ⟨rfl, rfl⟩
  | some e => exact passes_known h

def loopTest (condition : Option Expr) : Option Expr := if loopKnown? condition = some true then none else condition

theorem passes_looped {inner : Fragment} (h : Passes (looped ctx condition inner) vs f vs') :
    vs' = vs ∧ ((condition = none ∧ f = backToStart inner) ∨ ∃ e test, condition = some e ∧
      (emit ⟨ctx.api, vs⟩ e .bool).Passes test ∧
        f = backToStart (.opcode .conditional ++ test ++ .distance (inner.size + 3) ++ inner)) := by
  cases condition with
  | none =>
    obtain ⟨rfl, rfl⟩ := passes_pure.1 h
    exact ⟨rfl, .inl ⟨rfl, rfl⟩⟩
  | some e =>
    obtain ⟨test, vs₁, htest, hrest⟩ := h.parts
    obtain ⟨htest, rfl⟩ := passes_check htest
    obtain ⟨rfl, rfl⟩ := passes_pure.1 hrest
    exact ⟨rfl, .inr ⟨e, test, rfl, htest, rfl⟩⟩

theorem passes_whileCode {condition : Expr} (hb : Keeps body) (h : Passes (whileCode ctx condition body) vs f vs') :
    (loopKnown? (some condition) = some false ∧ vs' = vs ∧ f = ∅) ∨
      ∃ inner vs₁ code, loopKnown? (some condition) ≠ some false ∧ Passes body vs inner vs₁ ∧
        Passes (looped ctx (loopTest (some condition)) inner) vs₁ code vs' ∧
          f = (code.resolveJumps .breakJump .finish).resolveJumps .continueJump .start := by
  obtain ⟨constant, vs₁, hknown, hrest⟩ := h.parts
  obtain ⟨rfl, rfl⟩ := passes_known hknown
  split at hrest
  · obtain ⟨rfl, rfl⟩ := passes_pure.1 hrest
    exact .inl ⟨‹_›, rfl, rfl⟩
  · obtain ⟨inner, vs₁, hinner, hrest⟩ := hrest.parts
    obtain ⟨code, vs₂, hcode, hrest⟩ := hrest.parts
    obtain ⟨rfl, rfl⟩ := passes_pure.1 hrest
    exact .inr ⟨inner, vs₁, code, ‹_›, hinner, hcode, rfl⟩

theorem passes_forInner (hb : Keeps body) (h : Passes (forInner ctx place start condition step body) vs f vs') :
    ∃ head vs₁ code, Passes (optionalAction ctx place start) vs head vs₁ ∧ f = head ++ code ∧
      ((loopKnown? condition = some false ∧ vs' = vs₁ ∧ code = ∅) ∨
        ∃ inner vs₂ last vs₃ whole, loopKnown? condition ≠ some false ∧ Passes body vs₁ inner vs₂ ∧
          Passes (optionalAction ctx place step) vs₂ last vs₃ ∧
            Passes (looped ctx (loopTest condition) (inner.resolveJumps .continueJump .finish ++ last)) vs₃ whole vs' ∧
              code = whole.resolveJumps .breakJump .finish) := by
  obtain ⟨head, vs₁, hhead, hrest⟩ := h.parts
  obtain ⟨constant, vs₂, hknown, hloop⟩ := hrest.parts
  obtain ⟨code, vs₃, hcode, hend⟩ := hloop.parts
  obtain ⟨rfl, rfl⟩ := passes_pure.1 hend
  obtain ⟨rfl, rfl⟩ := passes_forKnown hknown
  refine ⟨head, vs₂, code, hhead, rfl, ?_⟩
  unfold forLoop at hcode
  split at hcode
  · obtain ⟨rfl, rfl⟩ := passes_pure.1 hcode
    exact .inl ⟨‹_›, rfl, rfl⟩
  · obtain ⟨inner, vs₄, hinner, hrest⟩ := hcode.parts
    obtain ⟨last, vs₅, hlast, hrest⟩ := hrest.parts
    obtain ⟨whole, vs₆, hwhole, hrest⟩ := hrest.parts
    obtain ⟨rfl, rfl⟩ := passes_pure.1 hrest
    exact .inr ⟨inner, vs₄, last, vs₅, whole, ‹_›, hinner, hlast, hwhole, rfl⟩

/-- What stands behind the body of a loop that is tested at its end. -/
def checkedCode (known : Option Bool) (inner test : Fragment) : Fragment :=
  match known with
  | some false => inner
  | some true => backToStart inner
  | none => backToStart (inner ++ .opcode .conditional ++ test ++ .word 3)

theorem passes_doWhileCode {condition : Expr} (h : Passes (doWhileCode ctx body condition) vs f vs') :
    ∃ inner test, Passes body vs inner vs' ∧
      (condition.knownBool? = none → (emit ⟨ctx.api, vs'⟩ condition .bool).Passes test) ∧
        f = (checkedCode condition.knownBool? (inner.resolveJumps .continueJump .finish) test).resolveJumps
          .breakJump .finish := by
  obtain ⟨inner, vs₁, hinner, hrest⟩ := h.partsOf fun _ => .bind inferInstance fun _ => by split <;> infer_instance
  obtain ⟨constant, vs₂, hknown, hlast⟩ := hrest.partsOf fun _ => by split <;> infer_instance
  obtain ⟨rfl, rfl⟩ := passes_known hknown
  cases hk : condition.knownBool? with
  | none =>
    rw [hk] at hlast
    obtain ⟨test, vs₁, htest, hend⟩ := hlast.parts
    obtain ⟨htest, rfl⟩ := passes_check htest
    obtain ⟨rfl, rfl⟩ := passes_pure.1 hend
    exact ⟨inner, test, hinner, fun _ => htest, rfl⟩
  | some b =>
    rw [hk] at hlast
    cases b <;>
    · obtain ⟨rfl, rfl⟩ := passes_pure.1 hlast
      exact ⟨inner, ∅, hinner, nofun, rfl⟩

/-- Two branches behind the test that decides between them. Without a second one no jump over it is
made. -/
def branchedCode (test yes no : Fragment) : Fragment :=
  let body := if no.size = 0 then yes else yes ++ .opcode .forward ++ .distance no.size
  .opcode .conditional ++ test ++ .distance body.size ++ body ++ no

theorem passes_branchCode {condition : Expr} {otherwise : Compiling Fragment} (hb : Keeps body) (ho : Keeps otherwise)
    (h : Passes (branchCode ctx condition body otherwise) vs f vs') :
    (condition.knownBool? = some true ∧ Passes body vs f vs') ∨
      (condition.knownBool? = some false ∧ Passes otherwise vs f vs') ∨
        ∃ test yes vs₁ no, condition.knownBool? = none ∧ (emit ⟨ctx.api, vs⟩ condition .bool).Passes test ∧
          Passes body vs yes vs₁ ∧ Passes otherwise vs₁ no vs' ∧ f = branchedCode test yes no := by
  obtain ⟨constant, vs₁, hknown, hrest⟩ := h.partsOf fun _ => by split <;> infer_instance
  obtain ⟨rfl, rfl⟩ := passes_known hknown
  split at hrest
  · exact .inl ⟨‹_›, hrest⟩
  · exact .inr (.inl ⟨‹_›, hrest⟩)
  · obtain ⟨test, vs₂, htest, hparts⟩ := hrest.parts
    obtain ⟨yes, vs₃, hyes, hlast⟩ := hparts.parts
    obtain ⟨no, vs₄, hno, hend⟩ := hlast.parts
    obtain ⟨rfl, rfl⟩ := passes_pure.1 hend
    obtain ⟨htest, rfl⟩ := passes_check htest
    exact .inr (.inr ⟨test, yes, vs₃, no, ‹_›, htest, hyes, hno, rfl⟩)

/-- Declarations for the host are checked, and make no code. -/
theorem passes_declared (hc : Keeps c) (hvs : ∀ {vs u vs'}, Passes c vs u vs' → vs' = vs)
    (h : Passes (atTopLevel ctx place span >>= fun _ => c >>= fun _ => pure ∅) vs f vs') : vs' = vs ∧ f = ∅ := by
  obtain ⟨_, vs₁, htop, hrest⟩ := h.parts
  obtain ⟨_, vs₂, hcheck, hrest⟩ := hrest.parts
  obtain ⟨rfl, rfl⟩ := passes_pure.1 hrest
  obtain rfl := hvs hcheck
  obtain rfl : vs₂ = vs := by
    unfold atTopLevel at htop
    split at htop
    · exact (passes_check htop).2
    · exact (passes_pure.1 htop).2.symm
  exact ⟨rfl, rfl⟩

end Making

end Compiling

end HostScript

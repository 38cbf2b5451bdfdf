import HostScript.Proofs.Compiling
import HostScript.Proofs.Rechecked

/-! Scripts of renumbered files.

A script whose files get other numbers becomes the same code, and leaves the same variables and the
same reports but for the numbers (`Script.compile_renumber`). Lines are looked up by number, so the
sources have to be the same under the new numbers. Variables and reports are also the same if code for
a debugger is made in one case only, so two codes are compared only where both are of the same kind
(`Script.compile_kinds`). -/
namespace HostScript

open Check Statement

variable {c : Compiling Fragment} {ctx ctx' : Context} {code code' : Fragment} {same : Prop}
  {body body' : Compiling Fragment}

/-- The same variables and reports under other numbers. -/
def Progress.renumber (f : Nat → Nat) (p : Progress) : Progress := ⟨p.vars.renumber f, p.reports.renumber f⟩

theorem Progress.renumber_id (p : Progress) : p.renumber id = p := by
  have hentry : Variable.renumberEntry id = id := rfl
  have hframe : Frame.renumber id = id := by
    funext frame
    simp [Frame.renumber, hentry]
  have hreport : Report.renumber id = id := rfl
  simp [Progress.renumber, Variables.renumber, hframe, Reports.renumber, hreport]

def Progress.Renumbered (f : Nat → Nat) (p p' : Progress) : Prop := p' = p.renumber f

/-- The second gives what the first one does, and leaves the same but for the numbers. -/
abbrev Likewise (f : Nat → Nat) {α : Type} (c d : Compiling α) : Prop := Abreast (Progress.Renumbered f) Eq c d

/-- Both leave the same but for the numbers, and code that is to be the same is. -/
abbrev Makes (f : Nat → Nat) (same : Prop) (c d : Compiling Fragment) : Prop :=
  Abreast (Progress.Renumbered f) (fun code code' => same → code = code') c d

/-- The same declarations and the same lines under other numbers. -/
structure Context.Renumbered (f : Nat → Nat) (same : Prop) (ctx ctx' : Context) : Prop where
  api : ctx'.api = ctx.api.renumber f
  debug : same → ctx'.debug = ctx.debug
  lines : ∀ span : Span, ctx'.sources.line (span.renumber f) = ctx.sources.line span

/-- What is found in an update does not depend on the kind of code. -/
theorem emitUpdate_kinds (s : Scope) (debug debug' : Bool) (target : Object) (u : Update) (span : Span) :
    Abreast Eq (fun _ _ => True) (emitUpdate s debug target u span) (emitUpdate s debug' target u span) := by
  have hself : ∀ {α : Type} (c : Check α), Abreast Eq Eq c c := by
    rintro α c r _ rfl
    exact ⟨rfl, rfl⟩
  unfold emitUpdate
  split
  · refine (hself _).after fun applies => ?_
    split
    · exact abreast_pure trivial
    · split
      · exact (hself _).after fun _ => abreast_pure trivial
      · exact abreast_pure trivial
  · rintro r _ rfl
    exact ⟨trivial, rfl⟩

namespace Compiling

variable {f : Nat → Nat} {α β : Type} {Q : α → β → Prop}

theorem makes_pure (code : Fragment) : Makes f same (pure code) (pure code) := abreast_pure fun _ => rfl

theorem makes_map (g : Fragment → Fragment) (h : Makes f same c d) :
    Makes f same (c >>= fun code => pure (g code)) (d >>= fun code => pure (g code)) :=
  h.bind fun _ _ hcode => abreast_pure fun hs => congrArg g (hcode hs)

theorem abreast_enter : Likewise f enter enter := by
  rintro p _ rfl
  exact ⟨rfl, congrArg (Progress.mk · _) p.vars.push_renumber⟩

variable (hctx : Context.Renumbered f same ctx ctx')

include hctx

theorem abreast_check {c : Scope → Check α} {c' : Scope → Check β}
    (h : ∀ s : Scope, s.api = ctx.api → Abreast (Reports.Renumbered f) Q (c s) (c' (s.renumber f))) :
    Abreast (Progress.Renumbered f) Q (check ctx c) (check ctx' c') := by
  rintro p _ rfl
  obtain ⟨hq, hr⟩ := h ⟨ctx.api, p.vars⟩ rfl p.reports _ rfl
  have hscope : Scope.renumber f ⟨ctx.api, p.vars⟩ = ⟨ctx'.api, (p.renumber f).vars⟩ := by rw [hctx.api]; rfl
  rw [hscope] at hq hr
  exact ⟨hq, congrArg (Progress.mk _) hr⟩

theorem likewise_check {c c' : Scope → Check α} (h : ∀ s : Scope, s.api = ctx.api → Alike f (c s) (c' (s.renumber f))) :
    Likewise f (check ctx c) (check ctx' c') := abreast_check hctx fun s hs => (h s hs).abreast

theorem makes_check {c c' : Scope → Check Fragment}
    (h : ∀ s : Scope, s.api = ctx.api → Alike f (c s) (c' (s.renumber f))) :
    Makes f same (check ctx c) (check ctx' c') :=
  abreast_check hctx fun s hs r r' hr => ((h s hs).abreast r r' hr).imp_left fun hcode _ => hcode

theorem makes_leave : Makes f same (leave ctx) (leave ctx') := by
  rintro p _ rfl
  have hpop : (p.renumber f).vars.pop = (p.vars.pop.1.map (Variable.renumberEntry f), p.vars.pop.2.renumber f) :=
    p.vars.pop_renumber
  have hleave : ∀ (ctx : Context) (p : Progress), leave ctx p = (if ctx.debug then
      p.vars.pop.1.foldl (fun code e => code ++ .opcode .debugDelete ++ .text e.1) ∅ else ∅, ⟨p.vars.pop.2, p.reports⟩) :=
    fun _ _ => rfl
  rw [hleave, hleave, hpop]
  exact ⟨fun hs => by rw [List.foldl_map, hctx.debug hs]; rfl, rfl⟩

theorem makes_inScope (hc : Makes f same c c') : Makes f same (inScope ctx c) (inScope ctx' c') :=
  abreast_enter.after fun _ => hc.bind fun _ _ hcode => (makes_leave hctx).bind fun _ _ hlast =>
    abreast_pure fun hs => by rw [hcode hs, hlast hs]

variable [NumbersApart f]

theorem abreast_known (condition : Expr) : Likewise f (known ctx condition) (known ctx' (condition.renumber f)) :=
  (likewise_check hctx fun _ _ => alike_fold condition).after fun _ => abreast_pure rfl

theorem abreast_atTopLevel (place : Place) (span : Span) :
    Likewise f (atTopLevel ctx place span) (atTopLevel ctx' place (span.renumber f)) := by
  unfold atTopLevel
  split
  · exact likewise_check hctx fun _ _ => alike_report span _
  · exact abreast_pure rfl

theorem makes_jump (place : Place) (span : Span) (kind : MarkKind) (problem : Problem) :
    Makes f same (jump ctx place span kind problem) (jump ctx' place (span.renumber f) kind problem) := by
  unfold jump
  split
  · exact makes_pure _
  · exact (likewise_check hctx fun _ _ => alike_report span _).after fun _ => makes_pure _

theorem makes_declareAs (type : TypeRef) (name : Ident) (k : Kind) (valued : Bool) (hcode : same → code = code') :
    Makes f same (declareAs ctx type name k valued code)
      (declareAs ctx' (type.renumber f) (name.renumber f) k valued code') := by
  refine abreast_get.bind fun p _ hp => ?_
  obtain rfl := hp
  have hdeclare : (p.renumber f).vars.declare (name.renumber f).name (type.renumber f).type (name.renumber f).span =
      (p.vars.declare name.name type.type name.span).map fun r => (r.1.renumber f, r.2.renumber f) :=
    p.vars.declare_renumber name.name type.type name.span
  rw [hdeclare]
  cases p.vars.declare name.name type.type name.span with
  | error problem => exact (likewise_check hctx fun _ _ => alike_report name.span problem).after fun _ => makes_pure _
  | ok r =>
    refine (abreast_modify fun p _ hp => ?_).bind fun _ _ _ => ?_
    · rw [hp]
      rfl
    · cases valued
      · exact makes_pure _
      · exact abreast_pure fun hs => by rw [hctx.debug hs, hcode hs]; rfl

theorem makes_declare (type : TypeRef) (name : Ident) (value : Option Expr) : Makes f same (declare ctx type name value)
      (declare ctx' (type.renumber f) (name.renumber f) (value.map (Expr.renumber f))) := by
  have hcode : Makes f same (valueCode ctx type value)
      (valueCode ctx' (type.renumber f) (value.map (Expr.renumber f))) := by
    cases value with
    | none => exact makes_pure _
    | some e => exact makes_check hctx fun s _ => alike_emit s e type.type
  have hvalue : Makes f same (declareValue ctx type name value)
      (declareValue ctx' (type.renumber f) (name.renumber f) (value.map (Expr.renumber f))) := by
    unfold declareValue
    rw [hctx.api]
    refine (likewise_check hctx fun _ _ => ctx.api.alike_checkType type).after fun _ => ?_
    have htype : (type.renumber f).type = type.type := rfl
    rw [htype]
    cases type.type.primitive.kind? with
    | none => exact makes_check hctx fun _ _ => alike_reject type.span _ _
    | some k =>
      refine hcode.bind fun _ _ hcode => ?_
      rw [Option.isSome_map]
      exact makes_declareAs hctx type name k value.isSome hcode
  rw [declare_eq, declare_eq, hctx.api, Api.propertiesNamed_renumber, List.isEmpty_map]
  have hname : (name.renumber f).name = name.name := rfl
  rw [hname]
  split
  · exact hvalue
  · exact (likewise_check hctx fun _ _ => alike_report name.span _).after fun _ => hvalue

theorem makes_update (target : Object) (u : Update) (span : Span) :
    Makes f same (check ctx fun s => emitUpdate s ctx.debug target u span)
      (check ctx' fun s => emitUpdate s ctx'.debug (target.renumber f) (u.renumber f) (span.renumber f)) := by
  refine abreast_check hctx fun s _ r r' hr => ?_
  obtain ⟨-, hkinds⟩ := emitUpdate_kinds s ctx.debug ctx'.debug target u span r r rfl
  obtain ⟨hcode, hreports⟩ := (alike_emitUpdate s u ctx'.debug target span).abreast r r' hr
  rw [← hkinds] at hreports
  exact ⟨fun hs => by rw [← hcode, hctx.debug hs], hreports⟩

theorem makes_actionCode (place : Place) (a : Action) :
    Makes f same (actionCode ctx place a) (actionCode ctx' place (a.renumber f)) := by
  obtain ⟨span, kind⟩ := a
  cases kind with
  | declare type name value => exact makes_declare hctx type name value
  | assign target op value => exact makes_update hctx target (.assign op value) span
  | step target down => exact makes_update hctx target (.step down) span
  | call target =>
    refine makes_check hctx fun s _ => ?_
    rw [Object.isCall_renumber, Object.lastSpan_renumber]
    split
    · exact alike_emitObject s target false
    · exact alike_reject target.lastSpan _ _
  | breakLoop => exact makes_jump hctx place span _ _
  | continueLoop => exact makes_jump hctx place span _ _
  | exit => exact makes_pure _

theorem makes_action (place : Place) (a : Action) :
    Makes f same (action ctx place a) (action ctx' place (a.renumber f)) := by
  have haction : ∀ (ctx : Context) (a : Action), action ctx place a = actionCode ctx place a >>= fun code =>
      pure (if ctx.debug then
        .opcode .debugLine ++ .mark .line ++ .word (min (ctx.sources.line a.span) 65535) ++ code else code) := by
    intro ctx a
    unfold action
    cases ctx.debug <;> rfl
  rw [haction, haction, show (a.renumber f).span = a.span.renumber f from rfl, hctx.lines]
  exact (makes_actionCode hctx place a).bind fun _ _ hcode => abreast_pure fun hs => by rw [hcode hs, hctx.debug hs]

theorem makes_optionalAction (place : Place) (a : Option Action) :
    Makes f same (optionalAction ctx place a) (optionalAction ctx' place (a.map (Action.renumber f))) := by
  cases a with
  | none => exact makes_pure _
  | some a => exact makes_action hctx place a

/-! ### Loops -/

theorem makes_looped (condition : Option Expr) {body body' : Fragment} (hbody : same → body = body') :
    Makes f same (looped ctx condition body) (looped ctx' (condition.map (Expr.renumber f)) body') := by
  cases condition with
  | none => exact abreast_pure fun hs => congrArg backToStart (hbody hs)
  | some e =>
    exact (likewise_check hctx fun s _ => alike_emit s e .bool).after fun _ => abreast_pure fun hs => by rw [hbody hs]

/-- Of a condition that is known, nothing is left. -/
theorem makes_loopedUnless (constant : Prop) [Decidable constant] (condition : Option Expr) {body body' : Fragment}
    (hbody : same → body = body') : Makes f same (looped ctx (if constant then none else condition) body)
      (looped ctx' (if constant then none else condition.map (Expr.renumber f)) body') := by
  split
  · exact makes_looped hctx none hbody
  · exact makes_looped hctx condition hbody

theorem makes_whileCode (condition : Expr) (hbody : Makes f same body body') :
    Makes f same (whileCode ctx condition body) (whileCode ctx' (condition.renumber f) body') := by
  refine (abreast_known hctx condition).after fun constant => ?_
  split
  · exact makes_pure _
  · exact hbody.bind fun _ _ hcode => makes_map _ (makes_loopedUnless hctx _ (some condition) hcode)

theorem makes_doWhileCode (condition : Expr) (hbody : Makes f same body body') :
    Makes f same (doWhileCode ctx body condition) (doWhileCode ctx' body' (condition.renumber f)) := by
  refine hbody.bind fun _ _ hcode => (abreast_known hctx condition).after fun constant => ?_
  match constant with
  | some false => exact abreast_pure fun hs => by rw [hcode hs]
  | some true => exact abreast_pure fun hs => by rw [hcode hs]
  | none =>
    exact (likewise_check hctx fun s _ => alike_emit s condition .bool).after fun _ =>
      abreast_pure fun hs => by rw [hcode hs]

theorem makes_forCode (place : Place) (start : Option Action) (condition : Option Expr) (step : Option Action)
    (hbody : Makes f same body body') : Makes f same (forCode ctx place start condition step body)
      (forCode ctx' place (start.map (Action.renumber f)) (condition.map (Expr.renumber f)) (step.map (Action.renumber f))
        body') := by
  have hknown : Likewise f (forKnown ctx condition) (forKnown ctx' (condition.map (Expr.renumber f))) := by
    cases condition with
    | none => exact abreast_pure rfl
    | some e => exact abreast_known hctx e
  have hloop : ∀ constant, Makes f same (forLoop ctx place constant condition step body)
      (forLoop ctx' place constant (condition.map (Expr.renumber f)) (step.map (Action.renumber f)) body') := by
    intro constant
    unfold forLoop
    split
    · exact makes_pure _
    · exact hbody.bind fun _ _ hcode => (makes_optionalAction hctx place step).bind fun _ _ hlast =>
        makes_map _ (makes_loopedUnless hctx _ condition fun hs => by rw [hcode hs, hlast hs])
  rw [forCode_eq, forCode_eq]
  exact makes_inScope hctx ((makes_optionalAction hctx place start).bind fun _ _ hhead => hknown.after fun constant =>
    (hloop constant).bind fun _ _ hcode => abreast_pure fun hs => by rw [hhead hs, hcode hs])

theorem makes_branchCode (condition : Expr) {otherwise otherwise' : Compiling Fragment}
    (hbody : Makes f same body body') (hotherwise : Makes f same otherwise otherwise') :
    Makes f same (branchCode ctx condition body otherwise)
      (branchCode ctx' (condition.renumber f) body' otherwise') := by
  refine (abreast_known hctx condition).after fun constant => ?_
  split
  · exact hbody
  · exact hotherwise
  · exact (likewise_check hctx fun s _ => alike_emit s condition .bool).after fun _ => hbody.bind fun _ _ hcode =>
      hotherwise.bind fun _ _ hother => abreast_pure fun hs => by rw [hcode hs, hother hs]

/-! ### Statements -/

mutual
theorem makes_statement (place : Place) :
    ∀ s : Statement, Makes f same (statement ctx place s) (statement ctx' place (s.renumber f))
  | .importing span path => (abreast_atTopLevel hctx place span).after fun _ => makes_pure _
  | .global span members => by
    rw [renumber, statement, statement, hctx.api]
    exact (abreast_atTopLevel hctx place span).after fun _ => (likewise_check hctx fun _ _ =>
      Api.alike_forM _ _ (fun m => ctx.api.alike_checkMember none m) members).after fun _ => makes_pure _
  | .type decl => by
    rw [renumber, statement, statement, hctx.api]
    exact (abreast_atTopLevel hctx place decl.span).after fun _ => (likewise_check hctx fun _ _ =>
      ctx.api.alike_checkTypeDecl decl).after fun _ => makes_pure _
  | .metadata span text => makes_pure _
  | .block body => makes_block place body
  | .whileLoop condition body => makes_whileCode hctx condition (makes_block _ body)
  | .forLoop start condition step body => makes_forCode hctx place start condition step (makes_block _ body)
  | .doWhile body condition => makes_doWhileCode hctx condition (makes_block _ body)
  | .branch b => makes_branch place b
  | .action a => makes_action hctx place a

theorem makes_block (place : Place) :
    ∀ b : Block, Makes f same (block ctx place b) (block ctx' place (b.renumber f))
  | .mk _ body => makes_inScope hctx (makes_statements _ body fun _ => rfl)

theorem makes_branch (place : Place) :
    ∀ b : Branch, Makes f same (branch ctx place b) (branch ctx' place (b.renumber f))
  | .mk condition body other => makes_branchCode hctx condition (makes_block place body) (makes_otherwise place other)

theorem makes_otherwise (place : Place) :
    ∀ o : Otherwise, Makes f same (otherwise ctx place o) (otherwise ctx' place (o.renumber f))
  | .nothing => makes_pure _
  | .branch b => makes_branch place b
  | .block body => makes_block place body

theorem makes_statements (place : Place) : ∀ (ss : List Statement) {code code' : Fragment},
    (same → code = code') → Makes f same (statements ctx place ss code) (statements ctx' place (renumberAll f ss) code')
  | [], code, code', hcode => abreast_pure hcode
  | s :: rest, code, code', hcode =>
    (makes_statement place s).bind fun _ _ hmore => makes_statements place rest fun hs => by rw [hcode hs, hmore hs]
end

end Compiling

namespace Script

theorem compile_makes (hf : Function.Injective f) (hctx : Context.Renumbered f same ctx ctx') (script : Script)
    (hcode : same → code = code') (vars : Variables) :
    (same → (script.compile ctx code vars).1 = ((script.renumber f).compile ctx' code' (vars.renumber f)).1) ∧
      ((script.renumber f).compile ctx' code' (vars.renumber f)).2 = (script.compile ctx code vars).2.renumber f := by
  have hstart : Progress.renumber f ⟨vars, #[]⟩ = ⟨vars.renumber f, #[]⟩ := by simp [Progress.renumber, Reports.renumber]
  have : NumbersApart f := ⟨hf⟩
  have hmakes := Compiling.makes_statements hctx ⟨false, false⟩ script hcode ⟨vars, #[]⟩ _ rfl
  rwa [hstart] at hmakes

/-- The numbers of files do not matter to the code. -/
theorem compile_renumber (hf : Function.Injective f) (hctx : Context.Renumbered f True ctx ctx') (script : Script)
    (code : Fragment) (vars : Variables) : (script.renumber f).compile ctx' code (vars.renumber f) =
      ((script.compile ctx code vars).1, (script.compile ctx code vars).2.renumber f) := by
  obtain ⟨hcode, hprogress⟩ := script.compile_makes hf hctx (fun _ => rfl : True → code = code) vars
  exact Prod.ext (hcode trivial).symm hprogress

/-- What is found in a script, and the variables that it leaves, do not depend on the kind of code. -/
theorem compile_kinds (sources : Sources) (api : Api) (script : Script) (debug debug' : Bool) (f f' : Fragment)
    (vars : Variables) :
    (script.compile ⟨sources, api, debug⟩ f vars).2 = (script.compile ⟨sources, api, debug'⟩ f' vars).2 := by
  -- Both are compared with code of one kind under the same numbers.
  have hkind : ∀ debug f, ((script.renumber id).compile ⟨sources, api.renumber id, true⟩ ∅ (vars.renumber id)).2 =
      (script.compile ⟨sources, api, debug⟩ f vars).2 := by
    intro debug f
    have hctx : Context.Renumbered id False ⟨sources, api, debug⟩ ⟨sources, api.renumber id, true⟩ :=
      ⟨rfl, False.elim, fun _ => rfl⟩
    rw [(script.compile_makes Function.injective_id hctx (False.elim : False → f = ∅) vars).2, Progress.renumber_id]
  exact (hkind debug f).symm.trans (hkind debug' f')

end Script

end HostScript

import HostScript.Proofs.Actions
import HostScript.Proofs.Pieced
import HostScript.Proofs.Recompiled

/-! Code made for statements is made of dual lines.

Parts are put together as the compiler puts them together: a scope around a part, a loop
around its body, branches beside each other, statements in a row. A script whose
statements pass makes lines that lead from what is known of the variables in front of it
to what is known behind it (`Script.compile_leads`). -/
namespace HostScript

open Compiling Action Variables

variable {inLoop : Bool} {ctx : Context} {f : Fragment} {G : Known} {step : Option Action} {g : Regime} {a b : Surveying}
  {vs' : Variables} {condition : Option Expr} {place : Place} {vs : Variables}

/-! ### Scopes -/

theorem Variables.knows_pop {frame : Frame} {outer : List Frame} (h : vs.outer = frame :: outer) (b : Nat)
    (hb : vs.pop.2.Knows G b) : vs.Knows G b := by
  obtain hb | ⟨v, ⟨f, hf, hv⟩, hk⟩ := hb
  · exact .inl hb
  · rw [(frames_pop h).1] at hf
    exact .inr ⟨v, ⟨f, List.mem_cons_of_mem _ hf, hv⟩, hk⟩

theorem Variables.mem_pop (h : e ∈ vs.pop.1) : ∃ frame ∈ vs.frames, e ∈ frame.vars.toList := by
  unfold pop at h
  split at h
  · cases h
  · exact ⟨vs.top, List.mem_cons_self .., h⟩

section Scopes

variable {sources : Bool → Sources} {api : Api}

/-- A debugger is told of variables that go out of sight. -/
theorem hasDual_deletes {filled : Leap → Prop} (names : List (String × Variable)) (hclean : ∀ e ∈ names, Clean e.1)
    {f : Bool → Fragment} (h : HasDual g K filled f K) :
    HasDual g K filled (fun debug =>
      if debug then names.foldl (fun code (name, _) => code ++ .opcode .debugDelete ++ .text name) (f true)
      else f false) K := by
  induction names generalizing f with
  | nil => exact h.congr fun debug => by cases debug <;> rfl
  | cons e rest ih =>
    obtain ⟨name, v⟩ := e
    have htyped : (Instr.debugDelete name).Typed (g.rules K) g.room.Holds := hclean (name, v) (List.mem_cons_self ..)
    have hpieces : Fragment.opcode .debugDelete ++ .text name = .ofPieces (Instr.debugDelete name).pieces := by
      rw [← Fragment.ofPieces_opcode, ← Fragment.ofPieces_text, ← Fragment.ofPieces_append]
      rfl
    refine (ih (fun e he => hclean e (List.mem_cons_of_mem _ he)) (h.append (hasDual_extra htyped trivial))).congr
      fun debug => ?_
    cases debug
    · exact (Fragment.append_empty _).symm
    · show List.foldl _ (f true ++ .opcode .debugDelete ++ .text name) rest = List.foldl _ (f true ++ _) rest
      rw [Fragment.append_assoc, hpieces]
      rfl

/-- A part in a scope of its own leaves as much known as there was. -/
theorem Twins.inScope (h : Twins g G inLoop c a) (hn : Surveying.Nested a) :
    Twins g G inLoop (fun debug => Compiling.inScope (.kinds sources api debug) (c debug)) (.inScope a) where
  keeps debug := keeps_inScope (h.keeps debug)
  passes := by
    intro vs f vs' hr ha hp
    choose code vs₁ hcode hvs hf using fun debug => passes_inScope (h.keeps debug) (hp debug)
    obtain ⟨rfl, hready, hdual⟩ := h.passes hr.push ha hcode
    have houter : (a vs.push).2.outer = vs.top :: vs.outer := hn.outer vs.push
    have hframes : (a vs.push).2.pop.2.frames = vs.frames := (Surveying.inScope_frames hn vs).1
    refine ⟨funext hvs, hr.congr hframes (hready.laid.pop houter), ?_⟩
    have hclean : ∀ e ∈ (a vs.push).2.pop.1, Clean e.1 := fun e he => by
      obtain ⟨frame, hframe, he⟩ := mem_pop he
      exact (hready.formed frame hframe e he).1
    rw [knows_push] at hdual
    show HasDual g (vs.Knows G) _ f ((a vs.push).2.pop.2.Knows G)
    rw [knows_congr hframes]
    refine ((hdual.append (hasDual_deletes _ hclean hasDual_empty)).weaken (fun _ b hb => ?_) (.refl g _)).congr hf
    exact knows_pop houter b (by rwa [knows_congr hframes])

end Scopes

/-! ### Loops and branches -/

section Statements

variable {sources : Bool → Sources} {api : Api} {body : Bool → Compiling Fragment}

/-- A part behind which the scopes are what they were in front of it. -/
def Surveying.Level (a : Surveying) : Prop := ∀ vs : Variables, (a vs).2.frames = vs.frames

theorem Surveying.level_inScope (ha : Nested a) : Level (inScope a) := fun vs => (inScope_frames ha vs).1

theorem Block.level_survey (api : Api) (b : Block) : Surveying.Level (b.survey api) := by
  obtain ⟨_, body⟩ := b
  exact Surveying.level_inScope (Statement.nested_surveyAll api body)

theorem Surveying.Level.seq (ha : a.Level) (hb : b.Level) : (Surveying.seq a b).Level := fun vs =>
  (hb _).trans (ha vs)

mutual
theorem Branch.level_survey (api : Api) : (b : Branch) → Surveying.Level (b.survey api)
  | .mk condition body otherwise => by
    unfold Branch.survey
    split
    · exact body.level_survey api
    · exact otherwise.level_survey api
    · exact Surveying.Level.seq (fun _ => rfl) ((body.level_survey api).seq (otherwise.level_survey api))

theorem Otherwise.level_survey (api : Api) : (o : Otherwise) → Surveying.Level (o.survey api)
  | .nothing => fun _ => rfl
  | .branch b => b.level_survey api
  | .block body => body.level_survey api
end

theorem Surveying.Level.le (h : a.Level) (vs : Variables) : g.Le ((a vs).2.Knows G) (vs.Knows G) :=
  knows_congr (h vs) ▸ .refl g _

/-- The variable that a step declares is loose, so it adds nothing to what is known. -/
theorem Action.le_step (h : (surveyOption api true step vs).1.Admits g G) :
    g.Le ((surveyOption api true step vs).2.Knows G) (vs.Knows G) := by
  cases step with
  | none => exact .refl g _
  | some step =>
    obtain ⟨span, kind⟩ := step
    cases kind with
    | declare type name value =>
      have hdeclare : (Surveying.declare type name true vs).1.Admits g G := by
        have hloose := h.right
        rwa [Bool.or_true] at hloose
      show g.Le ((Surveying.declare type name (value.isNone || true) vs).2.Knows G) _
      rw [Bool.or_true]
      unfold Surveying.declare at hdeclare ⊢
      cases hd : vs.declare name.name type.type name.span with
      | error p => exact .refl g _
      | ok r =>
        obtain ⟨v, vs'⟩ := r
        rw [hd] at hdeclare
        intro ht b hb
        obtain hb | ⟨w, hw, hk, rfl⟩ := hb
        · exact .inl hb
        · obtain hw | rfl := (sees_declared hd).1 hw
          · exact .inr ⟨w, hw, hk, rfl⟩
          · exact .inl (hdeclare.loose ht (w, true) (List.mem_singleton_self _) rfl hk)
    | _ => exact .refl g _

/-- The loop around a body, with what is known at its start. -/
theorem hasDual_looped (hapi : api.Formed) (he : ∀ c, e = some c → c.Formed ∧ ∀ x ∈ c.texts, Clean x)
    {vs' : Bool → Variables} {filled : Leap → Prop} {f code : Bool → Fragment} (hr : vs.Ready g G)
    (ha : ∀ c, e = some c → (Surveying.condition api c vs).1.Admits g G) (hle : g.Le (vs.Knows G) K)
    (h : HasDual g K filled f K)
    (hp : ∀ debug, Passes (looped (.kinds sources api debug) e (f debug)) vs (code debug) (vs' debug)) :
    vs' = (fun _ => vs) ∧ HasDual g K filled code K := by
  refine ⟨funext fun debug => (passes_looped (hp debug)).1, ?_⟩
  cases e with
  | none => exact h.loop.congr fun debug => (passes_pure.1 (hp debug)).1.symm
  | some c =>
    have htests : ∀ debug, ∃ test, (emit ⟨api, vs⟩ c .bool).Passes test ∧ code debug =
        backToStart (.opcode .conditional ++ test ++ .distance ((f debug).size + 3) ++ f debug) := by
      intro debug
      obtain ⟨-, ⟨hnone, -⟩ | ⟨c', test, heq, htest, hcode⟩⟩ := passes_looped (hp debug)
      · cases hnone
      · cases heq
        exact ⟨test, htest, hcode⟩
    choose test htest hcode using htests
    obtain ⟨hc, hx⟩ := he c rfl
    obtain ⟨n, hn, ht⟩ := emit_coded (hr.scope hapi) (hr.reads _) c hc hx rfl ((ha c rfl).permits _) (htest false)
    refine (h.guarded ⟨n, hn, n.typed_mono (Regime.rules_le hle) _ ht⟩).congr fun debug => ?_
    rw [hcode, show test debug = test false from (htest debug).fst.symm.trans (htest false).fst]

namespace Surveying

/-- A loop whose condition is known to fail is left out. -/
theorem looped_skip (h : Compiling.loopKnown? condition = some false) (a : Surveying) :
    looped api condition a = skip := by
  cases condition with
  | none => cases h
  | some e =>
    unfold looped
    dsimp only [Compiling.loopKnown?] at h
    simp only [h]

/-- A loop that is not left out is its body, and behind it the condition that it tests. -/
theorem looped_tested (h : Compiling.loopKnown? condition ≠ some false) (a : Surveying) (vs : Variables) :
    (looped api condition a vs).2 = (a vs).2 ∧ ((looped api condition a vs).1.Admits g G →
      (a vs).1.Admits g G ∧ ∀ c, Compiling.loopTest condition = some c →
        condition = some c ∧ (Surveying.condition api c (a vs).2).1.Admits g G) := by
  cases condition with
  | none => exact ⟨rfl, fun ha => ⟨ha, nofun⟩⟩
  | some e =>
    unfold looped Compiling.loopTest Compiling.loopKnown?
    cases hk : e.knownBool? with
    | none =>
      simp only [hk]
      refine ⟨rfl, fun ha => ⟨ha.left, fun c hc => ⟨hc, ?_⟩⟩⟩
      cases hc
      exact ha.right
    | some b =>
      cases b with
      | true =>
        simp only [hk, true_and]
        exact fun ha => ⟨ha, nofun⟩
      | false => exact absurd hk h

end Surveying

theorem twins_while (hapi : api.Formed) {condition : Expr} (hc : condition.Formed)
    (hx : ∀ x ∈ condition.texts, Clean x) (hb : Twins g G true body a) (hlevel : a.Level) :
    Twins g G inLoop (fun debug => whileCode (.kinds sources api debug) condition (body debug))
      (.looped api (some condition) a) where
  keeps debug := keeps_whileCode condition (hb.keeps debug)
  passes := by
    intro vs f vs' hr ha hp
    have hparts := fun debug => passes_whileCode (hb.keeps debug) (hp debug)
    by_cases hknown : loopKnown? (some condition) = some false
    · have hskip := fun debug => (hparts debug).resolve_right fun ⟨_, _, _, hne, _⟩ => hne hknown
      rw [Surveying.looped_skip hknown]
      exact ⟨funext fun debug => (hskip debug).2.1, hr, hasDual_empty.congr fun debug => (hskip debug).2.2⟩
    · choose inner vs₁ code _ hinner hcode hf using fun debug =>
        (hparts debug).resolve_left fun hskip => hknown hskip.1
      obtain ⟨hvs, hadmits⟩ := Surveying.looped_tested (g := g) (G := G) hknown a vs
      obtain ⟨hbody, htest⟩ := hadmits ha
      obtain ⟨rfl, hready, hdual⟩ := hb.passes hr hbody hinner
      rw [knows_congr (hlevel vs)] at hdual
      obtain ⟨hvs', hloop⟩ := hasDual_looped hapi (fun c h => Option.some.inj (htest c h).1 ▸ ⟨hc, hx⟩) hready
        (fun c h => (htest c h).2) (hlevel.le vs) hdual hcode
      rw [hvs]
      refine ⟨hvs', hready, ?_⟩
      rw [knows_congr (hlevel vs)]
      refine (((hloop.fill .breaks .finish).fill .continues .start).imp fun l _ => ?_).congr hf
      cases l
      · exact .inr (.inl rfl)
      · exact .inl rfl

/-- The step stands behind the body and the loop around both. -/
theorem twins_for (hapi : api.Formed) (hstart : ∀ b, start = some b → b.Formed ∧ ∀ x ∈ b.texts, Clean x)
    (hcond : ∀ e, condition = some e → e.Formed ∧ ∀ x ∈ e.texts, Clean x)
    (hstep : ∀ b, step = some b → b.Formed ∧ ∀ x ∈ b.texts, Clean x) (hb : Twins g G true body a) (hlevel : a.Level) :
    Twins g G place.inLoop (fun debug => forInner (.kinds sources api debug) place start condition step (body debug))
      (.seq (surveyOption api false start) (.looped api condition (.seq a (surveyOption api true step)))) where
  keeps debug := keeps_forInner place start condition step (hb.keeps debug)
  passes := by
    intro vs f vs' hr ha hp
    choose head vs₁ code hhead hf hloop using fun debug => passes_forInner (hb.keeps debug) (hp debug)
    obtain ⟨rfl, hready, hhdual⟩ := (twins_optionalAction hapi hstart).passes hr ha.left hhead
    have hright : (Surveying.looped api condition (.seq a (surveyOption api true step))
        (surveyOption api false start vs).2).1.Admits g G := ha.right
    suffices hwhole : vs' = (fun _ => (Surveying.looped api condition (.seq a (surveyOption api true step))
          (surveyOption api false start vs).2).2) ∧ (Surveying.looped api condition
            (.seq a (surveyOption api true step)) (surveyOption api false start vs).2).2.Ready g G ∧
        HasDual g ((surveyOption api false start vs).2.Knows G) (fun _ => place.inLoop = false) code
          ((Surveying.looped api condition (.seq a (surveyOption api true step))
            (surveyOption api false start vs).2).2.Knows G) from
      ⟨hwhole.1, hwhole.2.1, (hhdual.append hwhole.2.2).congr hf⟩
    generalize (surveyOption api false start vs).2 = vs₁ at hready hloop hright ⊢
    by_cases hknown : loopKnown? condition = some false
    · have hskip := fun debug => (hloop debug).resolve_right fun ⟨_, _, _, _, _, hne, _⟩ => hne hknown
      rw [Surveying.looped_skip hknown]
      exact ⟨funext fun debug => (hskip debug).2.1, hready, hasDual_empty.congr fun debug => (hskip debug).2.2⟩
    · choose inner vs₂ last vs₃ whole _ hinner hlast hwhole hcode using fun debug =>
        (hloop debug).resolve_left fun hskip => hknown hskip.1
      obtain ⟨hvs, hadmits⟩ := Surveying.looped_tested (g := g) (G := G) hknown
        (.seq a (surveyOption api true step)) vs₁
      obtain ⟨hbody, htest⟩ := hadmits hright
      obtain ⟨rfl, hready₂, hdual⟩ := hb.passes hready hbody.left hinner
      obtain ⟨rfl, hready₃, hldual⟩ := (twins_optionalAction hapi hstep).passes hready₂ hbody.right hlast
      have hgrows := hldual.grows
      have hlcycle := hldual.cycle
      rw [knows_congr (hlevel vs₁)] at hdual hlcycle hgrows
      -- the step's variable is among the loose ones, so nothing is known behind it that was not before
      have hle := (le_step hbody.right).trans (hlevel.le (G := G) vs₁)
      have hinside : HasDual g (vs₁.Knows G) (fun l => l = .continues ∧ place.inLoop = false) (fun debug =>
          (inner debug).resolveJumps .continueJump .finish ++ last debug) (vs₁.Knows G) :=
        ((hdual.fill .continues .finish).imp fun l hl => .inl hl.1).append (hlcycle.imp fun l hl => hl.2)
      obtain ⟨hvs', hlooped⟩ := hasDual_looped hapi (fun c h => hcond c (htest c h).1) hready₃
        (fun c h => (htest c h).2) hle hinside hwhole
      rw [hvs]
      refine ⟨hvs', hready₃, (((hlooped.fill .breaks .finish).imp fun l hl => ?_).congr hcode).weaken hle hgrows⟩
      cases l
      · exact .inl rfl
      · exact .inr ⟨rfl, hl⟩

section Conditions

variable (hapi : api.Formed) {condition : Expr} (hc : condition.Formed) (hx : ∀ x ∈ condition.texts, Clean x)

include hapi hc hx

theorem twins_doWhile (hb : Twins g G true body a) (hlevel : a.Level) :
    Twins g G inLoop (fun debug => doWhileCode (.kinds sources api debug) (body debug) condition)
      (match condition.knownBool? with
      | some _ => a
      | none => .seq a (.condition api condition)) where
  keeps debug := keeps_doWhileCode condition (hb.keeps debug)
  passes := by
    intro vs f vs' hr ha hp
    have hbody : (a vs).1.Admits g G := by
      cases hk : condition.knownBool? <;> rw [hk] at ha
      · exact ha.left
      · exact ha
    choose inner test hinner htest hf using fun debug => passes_doWhileCode (hp debug)
    obtain ⟨rfl, hready, hdual⟩ := hb.passes hr hbody hinner
    rw [knows_congr (hlevel vs)] at hdual
    have hinside := hdual.fill .continues .finish
    -- whatever stands behind the body, jumps out of the loop are filled in last
    suffices hwhole : HasDual g (vs.Knows G) (fun l => l = .continues ∨ true = false) (fun debug =>
        checkedCode condition.knownBool? ((inner debug).resolveJumps .continueJump .finish) (test debug)) (vs.Knows G) by
      have hdone : HasDual g (vs.Knows G) (fun _ => inLoop = false) f ((a vs).2.Knows G) := by
        rw [knows_congr (hlevel vs)]
        refine ((hwhole.fill .breaks .finish).imp fun l _ => ?_).congr hf
        cases l
        · exact .inl rfl
        · exact .inr (.inl rfl)
      cases condition.knownBool? <;> exact ⟨rfl, hready, hdone⟩
    cases hk : condition.knownBool? with
    | none =>
      simp only [hk] at ha
      have hcoded := emit_coded (hready.scope hapi) (hready.reads _) condition hc hx rfl (ha.right.permits _)
        (htest false hk)
      rw [knows_congr (hlevel vs)] at hcoded
      refine (hinside.checked hcoded).congr fun debug => ?_
      rw [show test debug = test false from (htest debug hk).fst.symm.trans (htest false hk).fst]
      rfl
    | some b =>
      cases b with
      | true => exact hinside.loop
      | false => exact hinside

theorem twins_branch {otherwise : Bool → Compiling Fragment} (hb : Twins g G inLoop body a)
    (hlevel : a.Level) (ho : Twins g G inLoop otherwise b) (hlevel' : b.Level) :
    Twins g G inLoop (fun debug => branchCode (.kinds sources api debug) condition (body debug) (otherwise debug))
      (match condition.knownBool? with
      | some true => a
      | some false => b
      | none => .seq (.condition api condition) (.seq a b)) where
  keeps debug := keeps_branchCode condition (hb.keeps debug) (ho.keeps debug)
  passes := by
    intro vs f vs' hr ha hp
    have hparts := fun debug => passes_branchCode (hb.keeps debug) (ho.keeps debug) (hp debug)
    cases hk : condition.knownBool? with
    | none =>
      simp only [hk, reduceCtorEq, false_and, false_or, true_and] at ha hparts
      choose test yes vs₁ no htest hyes hno hf using hparts
      have hcoded := emit_coded (hr.scope hapi) (hr.reads _) condition hc hx rfl (ha.left.permits _) (htest false)
      obtain ⟨rfl, hready, hydual⟩ := hb.passes hr ha.right.left hyes
      obtain ⟨hvs', hready', hndual⟩ := ho.passes hready ha.right.right hno
      refine ⟨hvs', hready', ?_⟩
      show HasDual g (vs.Knows G) _ f ((b (a vs).2).2.Knows G)
      rw [knows_congr (hlevel' _)] at hndual ⊢
      rw [knows_congr (hlevel vs)] at hydual hndual ⊢
      refine (HasDual.branch hcoded hydual hndual).congr fun debug => ?_
      rw [hf, show test debug = test false from (htest debug).fst.symm.trans (htest false).fst]
    | some known =>
      cases known with
      | true =>
        simp only [hk, reduceCtorEq, false_and, exists_false, or_false, true_and, Option.some.injEq, Bool.true_eq_false]
          at ha hparts
        exact hb.passes hr ha hparts
      | false =>
        simp only [hk, reduceCtorEq, false_and, exists_false, or_false, false_or, true_and, Option.some.injEq,
          Bool.false_eq_true] at ha hparts
        exact ho.passes hr ha hparts

end Conditions

/-! ### Scripts -/

theorem twins_declared {span : Span} {c : Bool → Compiling Unit} (hc : ∀ debug, Keeps (c debug))
    (hvs : ∀ {debug vs u vs'}, Passes (c debug) vs u vs' → vs' = vs) :
    Twins g G inLoop (fun debug => atTopLevel (.kinds sources api debug) place span >>= fun _ => c debug >>= fun _ => pure ∅)
      .skip where
  keeps _ := inferInstance
  passes := by
    intro vs f vs' hr _ hp
    have hparts := fun debug => passes_declared (hc debug) hvs (hp debug)
    exact ⟨funext fun debug => (hparts debug).1, hr, hasDual_empty.congr fun debug => (hparts debug).2⟩

/-- The code of statements in a row is that of the first one and then that of the others. -/
theorem passes_statements_cons (h : Passes (statements ctx place (s :: rest) ∅) vs f vs') :
    ∃ more vs₁ f', Passes (statement ctx place s) vs more vs₁ ∧ Passes (statements ctx place rest ∅) vs₁ f' vs' ∧
      f = more ++ f' := by
  obtain ⟨more, vs₁, hmore, hrest⟩ := h.parts
  rw [Fragment.empty_append, ← Fragment.append_empty more, Passes, statements_behind] at hrest
  obtain ⟨hf, hp⟩ := Prod.mk.inj hrest
  exact ⟨more, vs₁, _, hmore, Prod.ext rfl hp, hf.symm⟩

mutual
theorem twins_statement (hapi : api.Formed) (place : Place) : (s : Statement) → s.Formed → (∀ x ∈ s.texts, Clean x) →
    Twins g G place.inLoop (fun debug => statement (.kinds sources api debug) place s) (s.survey api)
  | .importing span _, _, _ => twins_declared (fun _ => keeps_pure ()) fun h => (passes_pure.1 h).2.symm
  | .global _ _, _, _ | .type _, _, _ => twins_declared inferInstance fun h => (passes_check h).2
  | .metadata _ text, _, hx => by
    unfold statement Statement.survey
    rw [← Fragment.ofPieces_opcode, ← Fragment.ofPieces_text, ← Fragment.ofPieces_append]
    have htyped : ∀ K W, (Instr.metadata text).Typed (g.rules K) W := fun _ _ => hx text (by simp [Statement.texts])
    exact twins_pure fun _ => hasDual_single (i := .metadata text) (htyped _ _) ⟨trivial, id⟩
  | .block body, hf, hx => by
    exact twins_block hapi place body hf hx
  | .whileLoop condition body, hf, hx => by
    exact twins_while hapi hf.1 (fun x h => hx x (List.mem_append_left _ h))
      (twins_block hapi ⟨true, place.nested⟩ body hf.2 fun x h => hx x (List.mem_append_right _ h))
      (body.level_survey api)
  | .forLoop start condition step body, hf, hx => by
    unfold statement Statement.survey
    unfold Statement.texts at hx
    simp only [List.mem_append] at hx
    simp only [forCode_eq]
    obtain ⟨hstart, hcond, hstep, hbody⟩ := hf
    refine Twins.inScope (twins_for hapi (fun b h => ⟨hstart b h, fun x hm => hx x (by simp [h, hm])⟩)
      (fun e h => ⟨hcond e h, fun x hm => hx x (by simp [h, hm])⟩)
      (fun b h => ⟨hstep b h, fun x hm => hx x (by simp [h, hm])⟩)
      (twins_block hapi ⟨true, place.nested⟩ body hbody fun x h => hx x (.inr h)) (body.level_survey api)) ?_
    exact (nested_surveyOption api false start).seq
      (((body.nested_survey api).seq (nested_surveyOption api true step)).looped api condition)
  | .doWhile body condition, hf, hx => by
    exact twins_doWhile hapi hf.2 (fun x h => hx x (List.mem_append_right _ h))
      (twins_block hapi ⟨true, place.nested⟩ body hf.1 fun x h => hx x (List.mem_append_left _ h))
      (body.level_survey api)
  | .branch b, hf, hx => by
    exact twins_branched hapi place b hf hx
  | .action a, hf, hx => by
    exact twins_action hapi hf hx

theorem twins_block (hapi : api.Formed) (place : Place) : (b : Block) → b.Formed → (∀ x ∈ b.texts, Clean x) →
    Twins g G place.inLoop (fun debug => block (.kinds sources api debug) place b) (b.survey api)
  | .mk _ body, hf, hx => by
    exact Twins.inScope (twins_statements hapi ⟨place.inLoop, true⟩ body hf hx) (Statement.nested_surveyAll api body)

theorem twins_branched (hapi : api.Formed) (place : Place) : (b : Branch) → b.Formed → (∀ x ∈ b.texts, Clean x) →
    Twins g G place.inLoop (fun debug => branch (.kinds sources api debug) place b) (b.survey api)
  | .mk condition body other, hf, hx => by
    unfold Branch.texts at hx
    simp only [List.mem_append] at hx
    exact twins_branch hapi hf.1 (fun x h => hx x (.inl (.inl h)))
      (twins_block hapi place body hf.2.1 fun x h => hx x (.inl (.inr h))) (body.level_survey api)
      (twins_otherwise hapi place other hf.2.2 fun x h => hx x (.inr h)) (other.level_survey api)

theorem twins_otherwise (hapi : api.Formed) (place : Place) : (o : Otherwise) → o.Formed → (∀ x ∈ o.texts, Clean x) →
    Twins g G place.inLoop (fun debug => otherwise (.kinds sources api debug) place o) (o.survey api)
  | .nothing, _, _ => twins_pure fun _ => hasDual_empty
  | .branch b, hf, hx => by
    exact twins_branched hapi place b hf hx
  | .block body, hf, hx => by
    exact twins_block hapi place body hf hx

/-- Statements in a row, behind nothing. -/
theorem twins_statements (hapi : api.Formed) (place : Place) : (ss : List Statement) → Statement.FormedAll ss →
    (∀ x ∈ Statement.textsOf ss, Clean x) →
    Twins g G place.inLoop (fun debug => statements (.kinds sources api debug) place ss ∅) (Statement.surveyAll api ss)
  | [], _, _ => twins_pure fun _ => hasDual_empty
  | s :: rest, hf, hx => by
    refine ⟨fun _ => keeps_statements place (s :: rest) ∅, fun {vs f vs'} hr ha hp => ?_⟩
    choose more vs₁ f' hmore hmade hf' using fun debug => passes_statements_cons (hp debug)
    obtain ⟨rfl, hready, hdual⟩ := (twins_statement hapi place s hf.1 fun x h =>
      hx x (List.mem_append_left _ h)).passes hr ha.left hmore
    obtain ⟨hvs', hready', hrest⟩ := (twins_statements hapi place rest hf.2 fun x h =>
      hx x (List.mem_append_right _ h)).passes hready ha.right hmade
    exact ⟨hvs', hready', (hdual.append hrest).congr hf'⟩
end

/-- A script that compiles makes lines that lead on behind the code in front of them. -/
theorem Script.compile_leads {script : Script} (hapi : ctx.api.Formed) (hf : script.Formed)
    (hx : ∀ x ∈ script.texts, Clean x) (hr : vs.Ready g G) (ha : (script.survey ctx.api vs).Admits g G)
    (h : script.compile ctx code vs = (f, ⟨vs', #[]⟩)) :
    vs' = (Statement.surveyAll ctx.api script vs).2 ∧ vs'.Ready g G ∧
      ∃ lines, f = code ++ Line.code lines ∧ Leads g (vs.Knows G) lines (vs'.Knows G) ∧ ∀ l, Line.Free l lines := by
  rw [Script.compile_behind] at h
  obtain ⟨rfl, hprogress⟩ := Prod.mk.inj h
  -- for a debugger or without one, the same variables are left
  have hp : ∀ debug, Passes (statements (.kinds (fun _ => ctx.sources) ctx.api debug) ⟨false, false⟩ script ∅) vs
      (script.compile (.kinds (fun _ => ctx.sources) ctx.api debug) ∅ vs).1 vs' := fun debug =>
    Prod.ext rfl ((Script.compile_kinds ctx.sources ctx.api script debug ctx.debug ∅ ∅ vs).trans hprogress)
  obtain ⟨hvs, hready, ts, hcode, hts, hfree⟩ := (twins_statements hapi ⟨false, false⟩ script hf hx).passes hr ha hp
  obtain rfl : vs' = _ := congrFun hvs ctx.debug
  exact ⟨rfl, hready, DualLine.lines ctx.debug ts, congrArg (code ++ ·) (hcode ctx.debug), hts.leads ctx.debug,
    fun l => hts.free (hfree l rfl) ctx.debug⟩

end Statements

end HostScript

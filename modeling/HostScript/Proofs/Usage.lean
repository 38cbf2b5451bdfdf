import HostScript.Proofs.References

/-! What statements refer to.

The usage of a part of a script lists the variables that it mentions in the order of its
code, those that it declares, and what is in sight at each place in it. Compiler and
survey go through the part side by side with it (`Uses`): the places in the code are
those of the variables mentioned, every variable that is mentioned was in sight or is
declared on the way, and what is in sight at one place shares no storage. -/
namespace HostScript

open Check Fragment Action Surveying

open List hiding append_assoc span
open Compiling hiding Passes Keeps passes_pure

variable {span : Span} {a : Surveying} {x : Using} {vs vs' : Variables} {place : Place}

/-! ### Statements -/

/-- What a part of a script mentions, the variables it declares, and what is in sight at the places
in it. -/
structure Usage where
  mentions : List (String × Variable)
  declared : List (String × Variable)
  scopes : List Variables

namespace Usage

def empty : Usage := ⟨[], [], []⟩

def append (u w : Usage) : Usage := ⟨u.mentions ++ w.mentions, u.declared ++ w.declared, u.scopes ++ w.scopes⟩

instance : Append Usage := ⟨append⟩

end Usage

/-- The usage of a part of a script, given the variables in front of it. -/
abbrev Using := Variables → Usage

namespace Using

def skip : Using := fun _ => .empty

/-- A place in a script. -/
def here : Using := fun vs => ⟨[], [], [vs]⟩

/-- Expressions with the names that are visible now. -/
def mentioning (api : Api) (f : Scope → List (String × Variable)) : Using := fun vs => ⟨f ⟨api, vs⟩, [], [vs]⟩

def condition (api : Api) (e : Expr) : Using := mentioning api fun s => e.mentions s .bool

/-- One part, whose survey is known, and then another one. -/
def seq (a : Surveying) (x y : Using) : Using := fun vs => x vs ++ y (a vs).2

def inScope (x : Using) : Using := fun vs => x vs.push

/-- A loop around a part. The condition stands in front of the part but sees what the part leaves. -/
def looped (api : Api) (condition? : Option Expr) (a : Surveying) (x : Using) : Using :=
  match condition? with
  | none => x
  | some e =>
    match e.knownBool? with
    | some false => skip
    | some true => x
    | none => fun vs => condition api e (a vs).2 ++ x vs

/-- A declaration, with the value that is assigned. -/
def declare (api : Api) (debug : Bool) (type : TypeRef) (name : Ident) (value : Option Expr) : Using := fun vs =>
  match vs.declare name.name type.type name.span with
  | .ok (v, vs') =>
    { mentions :=
        match value with
        | some e =>
          (name.name, v) :: (e.mentions ⟨api, vs⟩ type.type ++ if debug then [(name.name, v)] else [])
        | none => []
      declared := [(name.name, v)]
      scopes := [vs, vs'] }
  | .error _ => .empty

end Using

def Action.usage (api : Api) (debug : Bool) (a : Action) : Using :=
  match a.kind with
  | .declare type name value => .declare api debug type name value
  | .assign target op value => .mentioning api fun s => (Update.assign op value).mentions s debug target
  | .step target down => .mentioning api fun s => (Update.step down).mentions s debug target
  | .call target => .mentioning api fun s => target.mentions s
  | .breakLoop | .continueLoop | .exit => .skip

def Action.usageOption (api : Api) (debug : Bool) : Option Action → Using
  | some a => a.usage api debug
  | none => .skip

mutual
def Statement.usage (api : Api) (debug : Bool) : Statement → Using
  | .importing _ _ | .global _ _ | .type _ | .metadata _ _ => .skip
  | .block body => body.usage api debug
  | .whileLoop condition body => .looped api (some condition) (body.survey api) (body.usage api debug)
  | .forLoop start condition step body => .inScope <|
    .seq (surveyOption api false start) (usageOption api debug start) <|
      .looped api condition (.seq (body.survey api) (surveyOption api true step)) <|
        .seq (body.survey api) (body.usage api debug) (usageOption api debug step)
  | .doWhile body condition =>
    match condition.knownBool? with
    | some _ => body.usage api debug
    | none => .seq (body.survey api) (body.usage api debug) (.condition api condition)
  | .branch b => b.usage api debug
  | .action a => a.usage api debug

def Block.usage (api : Api) (debug : Bool) : Block → Using
  | .mk _ body => .inScope (Statement.usageAll api debug body)

def Branch.usage (api : Api) (debug : Bool) : Branch → Using
  | .mk condition body otherwise =>
    match condition.knownBool? with
    | some true => body.usage api debug
    | some false => otherwise.usage api debug
    | none => .seq (.condition api condition) (.condition api condition) <|
      .seq (body.survey api) (body.usage api debug) (otherwise.usage api debug)

def Otherwise.usage (api : Api) (debug : Bool) : Otherwise → Using
  | .nothing => .skip
  | .branch b => b.usage api debug
  | .block body => body.usage api debug

/-- Statements in a row, with the places between them. -/
def Statement.usageAll (api : Api) (debug : Bool) : List Statement → Using
  | [] => .here
  | s :: rest => .seq .skip .here (.seq (s.survey api) (s.usage api debug) (Statement.usageAll api debug rest))
end

/-! ### Code for statements -/

/-- What is in sight at the places of a part is laid out, and what the part mentions or leaves was in
sight before it or is declared in it, above what was in use. -/
structure Usage.Holds (u : Usage) (vs vs' : Variables) : Prop where
  scopes : ∀ w ∈ u.scopes, w.Laid
  mentions : ∀ e ∈ u.mentions, vs.Has e ∨ e ∈ u.declared
  leaves : ∀ e, vs'.Has e → vs.Has e ∨ e ∈ u.declared
  declared : ∀ e ∈ u.declared, e.2.Between vs.inUse vs'.needed

namespace Usage.Holds

variable {u w : Usage} {vs₁ : Variables}

theorem empty (vs : Variables) : Usage.empty.Holds vs vs := ⟨nofun, nofun, fun _ h => .inl h, nofun⟩

/-- Nothing is declared where expressions stand. -/
theorem mentioning (hl : vs.Laid) (h : ∀ e ∈ es, vs.Has e) : Usage.Holds ⟨es, [], [vs]⟩ vs vs where
  scopes _ hw := mem_singleton.1 hw ▸ hl
  mentions e he := .inl (h e he)
  leaves _ h := .inl h
  declared := nofun

theorem append (h : u.Holds vs vs₁) (h' : w.Holds vs₁ vs') (hinUse : vs.inUse.Le vs₁.inUse)
    (hneeded : vs₁.needed.Le vs'.needed) : (u ++ w).Holds vs vs' where
  scopes x hx := (mem_append.1 hx).elim (h.scopes x) (h'.scopes x)
  mentions e he := by
    obtain he | he := mem_append.1 he
    · exact (h.mentions e he).imp_right (mem_append_left _)
    · obtain he | he := h'.mentions e he
      · exact (h.leaves e he).imp_right (mem_append_left _)
      · exact .inr (mem_append_right _ he)
  leaves e he := by
    obtain he | he := h'.leaves e he
    · exact (h.leaves e he).imp_right (mem_append_left _)
    · exact .inr (mem_append_right _ he)
  declared e he := by
    obtain he | he := mem_append.1 he
    · exact (h.declared e he).mono hneeded
    · exact (h'.declared e he).lower hinUse

/-- The order of parts does not matter to what is said of them. -/
theorem swap (h : (u ++ w).Holds vs vs') : (w ++ u).Holds vs vs' where
  scopes x hx := h.scopes x (mem_append.2 (mem_append.1 hx).symm)
  mentions e he := (h.mentions e (mem_append.2 (mem_append.1 he).symm)).imp_right fun hd =>
    mem_append.2 (mem_append.1 hd).symm
  leaves e he := (h.leaves e he).imp_right fun hd => mem_append.2 (mem_append.1 hd).symm
  declared e he := h.declared e (mem_append.2 (mem_append.1 he).symm)

end Usage.Holds

/-- What is compiled names the variables that are mentioned. -/
structure Uses (c : Compiling Fragment) (a : Surveying) (x : Using) : Prop where
  keeps : Compiling.Keeps c
  passes : ∀ {vs f vs'}, vs.Laid → vs.Formed → Compiling.Passes c vs f vs' →
    vs' = (a vs).2 ∧ vs'.Laid ∧ vs'.Formed ∧ f.Mentions (x vs).mentions ∧ (x vs).Holds vs vs'

section Usages

variable {ctx : Context}

section Using

variable (hapi : ctx.api.Formed)

theorem uses_skip : Uses (pure ∅) .skip .skip where
  keeps := Compiling.keeps_pure _
  passes := by
    intro vs f vs' hl hf h
    obtain ⟨rfl, rfl⟩ := Compiling.passes_pure.1 h
    exact ⟨rfl, hl, hf, mentions_empty, .empty vs⟩

include hapi

theorem uses_declare (hname : Clean name.name) (he : ∀ e, value = some e → e.Formed) :
    Uses (declare ctx type name value) (.seq (.asking ctx.api fun s => (value.map fun e => e.asks s type.type).getD [])
        (.declare type name (value.isNone || isStep))) (.declare ctx.api ctx.debug type name value) where
  keeps := keeps_declare type name value
  passes := by
    intro vs f vs' hl hf h
    obtain ⟨k, code, v, hk, hcode, hd, rfl⟩ := passes_declare h
    have hsurvey : (Surveying.declare type name (value.isNone || isStep) vs).2 = vs' := by
      unfold Surveying.declare
      rw [hd]
    obtain ⟨hv, hvs'⟩ := Variables.declare_eq hd
    have hbetween : v.Between vs.inUse vs'.needed := by
      rw [hv, hvs']
      exact (Variables.between_declared vs.inUse hk name.span).mono (Storage.le_max_right _ _)
    have hlaid := hl.declare ⟨k, hk⟩ hd
    refine ⟨hsurvey.symm, hlaid, hf.declare ⟨k, hk⟩ hname hd, ?_, ?_⟩
    · unfold Using.declare
      rw [hd]
      cases value with
      | none => exact mentions_empty
      | some e =>
        unfold valueCode at hcode
        have hvalue := emit_mentions ⟨hapi, hf⟩ e (he e rfl) (passes_check hcode).1
        have hassign := ((mentions_place (name.name, v)).behind (f := .opcode .assign ++ .kind k)).append hvalue
        rw [show (some e).isNone = false from rfl, if_neg Bool.false_ne_true]
        cases ctx.debug with
        | false =>
          simp only [Bool.false_eq_true, if_false, append_nil]
          exact hassign
        | true => exact hassign.append (mentions_debugUpdate (name.name, v) (hv ▸ ⟨k, hk⟩))
    · unfold Using.declare
      rw [hd]
      refine ⟨fun w hw => ?_, fun d hmem => ?_, fun d hmem => ?_, fun d hmem => ?_⟩
      · grind
      · cases value with
        | none => cases hmem
        | some e =>
          have hsight := e.has_of_mentions (s := ⟨ctx.api, vs⟩) (d := d)
          grind
      · exact ((Variables.has_declared hd).1 hmem).imp_right mem_singleton.2
      · rw [mem_singleton.1 hmem]
        exact hbetween

theorem uses_update (ho : target.Formed) (hu : ∀ e, u.value? = some e → e.Formed) :
    Uses (Compiling.check ctx fun s => emitUpdate s ctx.debug target u span) (.update ctx.api target u.value?)
      (.mentioning ctx.api fun s => u.mentions s ctx.debug target) where
  keeps := inferInstance
  passes := by
    intro vs f vs' hl hf h
    obtain ⟨hcode, rfl⟩ := passes_check h
    exact ⟨rfl, hl, hf, emitUpdate_mentions ⟨hapi, hf⟩ ho hu hcode,
      .mentioning hl fun e he => Update.has_of_mentions he⟩

theorem uses_actionCode (isStep : Bool) {a : Action} (ha : a.Formed) :
    Uses (actionCode ctx place a) (a.survey ctx.api isStep) (a.usage ctx.api ctx.debug) := by
  have hjump : ∀ (l : Leap) (span : Span) (problem : Problem),
      Uses (Compiling.jump ctx place span l.mark problem) .skip .skip := by
    intro l span problem
    refine ⟨keeps_jump place span _ _, fun hl hf h => ?_⟩
    obtain ⟨-, rfl, rfl⟩ := passes_jump h
    exact ⟨rfl, hl, hf, mentions_leap l, .empty _⟩
  obtain ⟨span, kind⟩ := a
  cases kind with
  | declare type name value => exact uses_declare hapi ha.1 ha.2
  | assign target op value =>
    refine uses_update hapi (u := .assign op value) ha.1 ?_
    rintro e he
    cases he
    exact ha.2
  | step target down => exact uses_update hapi (u := .step down) ha nofun
  | call target =>
    refine ⟨inferInstance, fun hl hf h => ?_⟩
    obtain ⟨-, rfl, hcode⟩ := passes_call h
    exact ⟨rfl, hl, hf, emitObject_mentions ⟨hapi, hf⟩ target ha hcode,
        .mentioning hl fun e he => Object.has_of_mentions target he⟩
  | breakLoop => exact hjump .breaks _ _
  | continueLoop => exact hjump .continues _ _
  | exit =>
    refine ⟨Compiling.keeps_pure _, fun hl hf h => ?_⟩
    obtain ⟨rfl, rfl⟩ := Compiling.passes_pure.1 h
    exact ⟨rfl, hl, hf, Blank.mentions, .empty _⟩

theorem uses_action (isStep : Bool) {a : Action} (ha : a.Formed) :
    Uses (Compiling.action ctx place a) (a.survey ctx.api isStep) (a.usage ctx.api ctx.debug) where
  keeps := keeps_action place a
  passes := by
    intro vs f vs' hl hf h
    obtain ⟨code, hcode, rfl⟩ := passes_action h
    obtain ⟨hvs, hlaid, hformed, hmentions, hholds⟩ := (uses_actionCode hapi isStep ha).passes hl hf hcode
    refine ⟨hvs, hlaid, hformed, ?_, hholds⟩
    split
    · rw [Fragment.append_assoc (.opcode _)]
      exact ((mentions_line _).behind).append hmentions
    · exact hmentions

theorem uses_optionalAction (isStep : Bool) {a : Option Action} (ha : ∀ b, a = some b → b.Formed) :
    Uses (optionalAction ctx place a) (surveyOption ctx.api isStep a) (usageOption ctx.api ctx.debug a) := by
  cases a with
  | none => exact uses_skip
  | some a => exact uses_action hapi isStep (ha a rfl)

omit hapi in
theorem mentions_farewell (vs : Variables) : (farewell ctx vs).Mentions [] := by
  unfold farewell
  split
  · generalize vs.pop.1 = names
    have hfold : ∀ code : Fragment, code.Mentions [] → (names.foldl
        (fun code v => code ++ .opcode .debugDelete ++ .text v.1) code).Mentions [] := by
      induction names with
      | nil => exact fun _ h => h
      | cons e rest ih => exact fun code h => ih _ h.before.before
    exact hfold ∅ mentions_empty
  · exact mentions_empty

omit hapi in
theorem Uses.inScope (h : Uses c a x) (hn : Surveying.Nested a) : Uses (inScope ctx c) (.inScope a) (.inScope x) where
  keeps := keeps_inScope h.keeps
  passes := by
    intro vs f vs' hl hf hp
    obtain ⟨code, vs₁, hcode, rfl, rfl⟩ := passes_inScope h.keeps hp
    obtain ⟨rfl, hlaid, hformed, hmentions, hholds⟩ := h.passes hl.push hf.push hcode
    obtain ⟨hframes, -, hneeded⟩ := inScope_frames hn vs
    refine ⟨rfl, hlaid.pop (hn.outer vs.push), hf.congr hframes, (append_nil (x vs.push).mentions ▸ hmentions.append (mentions_farewell _) : _),
      hholds.scopes, fun e he => ?_, fun e he => .inl ((Variables.has_congr hframes).1 he), fun e he => ?_⟩
    · exact (hholds.mentions e he).imp_left Variables.has_push.1
    · have hbetween := hholds.declared e he
      rwa [← hneeded] at hbetween

/-- The loop around a body that is not left out. -/
theorem passes_looped_usage {condition : Option Expr} {inner f : Fragment} (hknown : loopKnown? condition ≠ some false)
    (hc : ∀ e, condition = some e → e.Formed) (hl : (a vs).2.Laid) (hf : (a vs).2.Formed)
    (hinner : inner.Mentions (x vs).mentions) (hholds : (x vs).Holds vs (a vs).2) (hinUse : vs.inUse.Le (a vs).2.inUse)
    (h : Compiling.Passes (looped ctx (loopTest condition) inner) (a vs).2 f vs') :
    vs' = (a vs).2 ∧ f.Mentions (Using.looped ctx.api condition a x vs).mentions ∧
      (Using.looped ctx.api condition a x vs).Holds vs vs' := by
  have hback : ∀ {code : Fragment} {es : List (String × Variable)}, code.Mentions es →
      (backToStart code).Mentions es := fun hcode => hcode.before.before
  obtain ⟨rfl, htest⟩ := passes_looped h
  refine ⟨rfl, ?_⟩
  cases condition with
  | none =>
    obtain ⟨-, rfl⟩ | ⟨e, test, htest, -⟩ := htest
    · exact ⟨hback hinner, hholds⟩
    · cases htest
  | some e =>
    unfold Using.looped
    unfold loopTest loopKnown? at htest
    dsimp only [loopKnown?] at hknown
    cases hk : e.knownBool? with
    | none =>
      simp only [hk, reduceCtorEq, if_false] at htest ⊢
      obtain ⟨htest, -⟩ | ⟨c, test, htest, hcode, rfl⟩ := htest
      · cases htest
      · cases htest
        have hcondition := emit_mentions ⟨hapi, hf⟩ e (hc e rfl) hcode
        refine ⟨hback (hcondition.behind.before.append hinner), ?_⟩
        exact (hholds.append (.mentioning hl fun d hd => e.has_of_mentions _ hd) hinUse (.refl _)).swap
    | some b =>
      cases b with
      | true =>
        simp only [hk, if_true] at htest ⊢
        obtain ⟨-, rfl⟩ | ⟨c, test, htest, -⟩ := htest
        · exact ⟨hback hinner, hholds⟩
        · cases htest
      | false => exact absurd hk hknown

omit hapi in
theorem Using.looped_skip {api : Api} {condition : Option Expr} (h : loopKnown? condition = some false)
    (a : Surveying) (x : Using) : Using.looped api condition a x = .skip := by
  cases condition with
  | none => cases h
  | some e =>
    unfold Using.looped
    dsimp only [loopKnown?] at h
    simp only [h]

omit hapi in
theorem Surveying.looped_snd {api : Api} {condition : Option Expr}
    (h : loopKnown? condition ≠ some false) (a : Surveying) (vs : Variables) :
    (looped api condition a vs).2 = (a vs).2 :=
  (looped_tested (g := ⟨.none, False, False⟩) (G := fun _ => False) h a vs).1

section Parts

variable {body : Compiling Fragment}

theorem uses_while {condition : Expr} (hc : condition.Formed) (hb : Uses body a x) (hn : Surveying.Nested a) :
    Uses (whileCode ctx condition body) (.looped ctx.api (some condition) a)
      (.looped ctx.api (some condition) a x) where
  keeps := keeps_whileCode condition hb.keeps
  passes := by
    intro vs f vs' hl hf hp
    obtain ⟨hknown, rfl, rfl⟩ | ⟨inner, vs₁, code, hknown, hinner, hcode, rfl⟩ := passes_whileCode hb.keeps hp
    · rw [looped_skip hknown, Using.looped_skip hknown]
      exact ⟨rfl, hl, hf, mentions_empty, .empty _⟩
    · obtain ⟨rfl, hlaid, hformed, hmentions, hholds⟩ := hb.passes hl hf hinner
      obtain ⟨rfl, hloop, hholds⟩ := passes_looped_usage hapi hknown
        (fun e he => Option.some.inj he ▸ hc) hlaid hformed hmentions hholds (hn.inUse vs) hcode
      exact ⟨(looped_snd hknown a vs).symm, hlaid, hformed,
        (hloop.resolveJumps .breaks .finish).resolveJumps .continues .start, hholds⟩

theorem uses_for {start step : Option Action} {condition : Option Expr}
    (hstart : ∀ b, start = some b → b.Formed) (hcond : ∀ e, condition = some e → e.Formed)
    (hstep : ∀ b, step = some b → b.Formed) (hb : Uses body a x) (hn : Surveying.Nested a) :
    Uses (forInner ctx place start condition step body) (.seq (surveyOption ctx.api false start)
        (.looped ctx.api condition (.seq a (surveyOption ctx.api true step))))
      (.seq (surveyOption ctx.api false start) (usageOption ctx.api ctx.debug start)
        (.looped ctx.api condition (.seq a (surveyOption ctx.api true step))
          (.seq a x (usageOption ctx.api ctx.debug step)))) where
  keeps := keeps_forInner place start condition step hb.keeps
  passes := by
    intro vs f vs' hl hf hp
    obtain ⟨head, vs₁, code, hhead, rfl, hloop⟩ := passes_forInner hb.keeps hp
    obtain ⟨rfl, hlaid, hformed, hmentions, hholds⟩ := (uses_optionalAction hapi false hstart).passes hl hf hhead
    have hnstart := nested_surveyOption ctx.api false start
    have hnstep := nested_surveyOption ctx.api true step
    have hnloop := (hn.seq hnstep).looped ctx.api condition
    suffices hwhole : vs' = (looped ctx.api condition (.seq a (surveyOption ctx.api true step))
          (surveyOption ctx.api false start vs).2).2 ∧ vs'.Laid ∧ vs'.Formed ∧
        code.Mentions (Using.looped ctx.api condition (.seq a (surveyOption ctx.api true step))
          (.seq a x (usageOption ctx.api ctx.debug step)) (surveyOption ctx.api false start vs).2).mentions ∧
        (Using.looped ctx.api condition (.seq a (surveyOption ctx.api true step))
          (.seq a x (usageOption ctx.api ctx.debug step)) (surveyOption ctx.api false start vs).2).Holds
            (surveyOption ctx.api false start vs).2 vs' by
      obtain ⟨rfl, hlaid', hformed', hmentions', hholds'⟩ := hwhole
      exact ⟨rfl, hlaid', hformed', hmentions.append hmentions',
        hholds.append hholds' (hnstart.inUse vs) (hnloop.needed _)⟩
    generalize (surveyOption ctx.api false start vs).2 = vs₁ at hlaid hformed hloop ⊢
    obtain ⟨hknown, rfl, rfl⟩ | ⟨inner, vs₂, last, vs₃, whole, hknown, hinner, hlast, hwhole, rfl⟩ := hloop
    · rw [looped_skip hknown, Using.looped_skip hknown]
      exact ⟨rfl, hlaid, hformed, mentions_empty, .empty _⟩
    · obtain ⟨rfl, hlaid, hformed, hmentions, hholds⟩ := hb.passes hlaid hformed hinner
      obtain ⟨rfl, hlaid', hformed', hmentions', hholds'⟩ :=
        (uses_optionalAction hapi true hstep).passes hlaid hformed hlast
      obtain ⟨rfl, hloop, hholds⟩ := passes_looped_usage (a := .seq a (surveyOption ctx.api true step))
        (x := .seq a x (usageOption ctx.api ctx.debug step)) hapi hknown hcond hlaid' hformed'
        ((hmentions.resolveJumps .continues .finish).append hmentions')
        (hholds.append hholds' (hn.inUse vs₁) (hnstep.needed _)) ((hn.seq hnstep).inUse vs₁) hwhole
      exact ⟨(looped_snd hknown _ vs₁).symm, hlaid', hformed', hloop.resolveJumps .breaks .finish, hholds⟩

theorem uses_doWhile {condition : Expr} (hc : condition.Formed) (hb : Uses body a x) (hn : Surveying.Nested a) :
    Uses (doWhileCode ctx body condition)
      (match condition.knownBool? with
      | some _ => a
      | none => .seq a (.condition ctx.api condition))
      (match condition.knownBool? with
      | some _ => x
      | none => .seq a x (.condition ctx.api condition)) where
  keeps := keeps_doWhileCode condition hb.keeps
  passes := by
    intro vs f vs' hl hf hp
    obtain ⟨inner, test, hinner, htest, rfl⟩ := passes_doWhileCode hp
    obtain ⟨rfl, hlaid, hformed, hmentions, hholds⟩ := hb.passes hl hf hinner
    have hbody := hmentions.resolveJumps .continues .finish
    cases hk : condition.knownBool? with
    | none =>
      have hcondition := emit_mentions ⟨hapi, hformed⟩ condition hc (htest hk)
      refine ⟨rfl, hlaid, hformed, Mentions.resolveJumps .breaks .finish ?_, ?_⟩
      · exact (hbody.before.append hcondition).before.before.before
      · exact hholds.append (.mentioning hlaid fun e he => Expr.has_of_mentions condition _ he) (hn.inUse vs) (.refl _)
    | some b =>
      refine ⟨rfl, hlaid, hformed, Mentions.resolveJumps .breaks .finish ?_, hholds⟩
      cases b with
      | true => exact hbody.before.before
      | false => exact hbody

theorem uses_branch {condition : Expr} (hc : condition.Formed) {otherwise : Compiling Fragment} {b : Surveying}
    (hb : Uses body a x) (ho : Uses otherwise b y) (hna : Surveying.Nested a) (hnb : Surveying.Nested b) :
    Uses (branchCode ctx condition body otherwise)
      (match condition.knownBool? with
      | some true => a
      | some false => b
      | none => .seq (.condition ctx.api condition) (.seq a b))
      (match condition.knownBool? with
      | some true => x
      | some false => y
      | none => .seq (.condition ctx.api condition) (.condition ctx.api condition) (.seq a x y)) where
  keeps := keeps_branchCode condition hb.keeps ho.keeps
  passes := by
    intro vs f vs' hl hf hp
    obtain ⟨hk, hyes⟩ | ⟨hk, hno⟩ | ⟨test, yes, vs₁, no, hk, htest, hyes, hno, rfl⟩ :=
      passes_branchCode hb.keeps ho.keeps hp
    · simp only [hk]
      exact hb.passes hl hf hyes
    · simp only [hk]
      exact ho.passes hl hf hno
    · simp only [hk]
      have hcondition := emit_mentions ⟨hapi, hf⟩ condition hc htest
      obtain ⟨rfl, hlaid, hformed, hmentions, hholds⟩ := hb.passes hl hf hyes
      obtain ⟨rfl, hlaid', hformed', hmentions', hholds'⟩ := ho.passes hlaid hformed hno
      refine ⟨rfl, hlaid', hformed', ?_, ?_⟩
      · have hbody : (if no.size = 0 then yes else yes ++ .opcode .forward ++ .distance no.size).Mentions
            (x vs).mentions := by
          split
          · exact hmentions
          · exact hmentions.before.before
        show Fragment.Mentions _ (_ ++ (_ ++ _))
        rw [← List.append_assoc]
        exact (hcondition.behind.before.append hbody).append hmentions'
      · have hparts := hholds.append hholds' (hna.inUse vs) (hnb.needed _)
        exact Usage.Holds.append (.mentioning hl fun e he => Expr.has_of_mentions condition _ he) hparts (.refl _)
          ((hna.needed vs).trans (hnb.needed _))

end Parts

omit hapi in
theorem uses_declared (hc : Compiling.Keeps c) (hvs : ∀ {vs u vs'}, Compiling.Passes c vs u vs' → vs' = vs) :
    Uses (atTopLevel ctx place span >>= fun _ => c >>= fun _ => pure ∅) .skip .skip where
  keeps := inferInstance
  passes := by
    intro vs f vs' hl hf hp
    obtain ⟨rfl, rfl⟩ := passes_declared hc hvs hp
    exact ⟨rfl, hl, hf, mentions_empty, .empty _⟩

end Using

mutual
theorem uses_statement (hapi : ctx.api.Formed) (place : Place) : (s : Statement) → s.Formed →
    Uses (Compiling.statement ctx place s) (s.survey ctx.api) (s.usage ctx.api ctx.debug)
  | .importing span _, _ => uses_declared (Compiling.keeps_pure ()) fun h => (Compiling.passes_pure.1 h).2.symm
  | .global _ _, _ | .type _, _ => uses_declared inferInstance fun h => (passes_check h).2
  | .metadata _ text, _ => by
    refine ⟨Compiling.keeps_pure _, fun hl hf h => ?_⟩
    obtain ⟨rfl, rfl⟩ := Compiling.passes_pure.1 h
    exact ⟨rfl, hl, hf, Blank.mentions, .empty _⟩
  | .block body, hf => uses_block hapi place body hf
  | .whileLoop condition body, hf =>
    uses_while hapi hf.1 (uses_block hapi ⟨true, place.nested⟩ body hf.2) (body.nested_survey ctx.api)
  | .forLoop start condition step body, hf => by
    unfold Compiling.statement Statement.survey Statement.usage
    rw [forCode_eq]
    obtain ⟨hstart, hcond, hstep, hbody⟩ := hf
    refine Uses.inScope (uses_for hapi hstart hcond hstep (uses_block hapi ⟨true, place.nested⟩ body hbody)
      (body.nested_survey ctx.api)) ?_
    exact (nested_surveyOption ctx.api false start).seq
      (((body.nested_survey ctx.api).seq (nested_surveyOption ctx.api true step)).looped ctx.api condition)
  | .doWhile body condition, hf =>
    uses_doWhile hapi hf.2 (uses_block hapi ⟨true, place.nested⟩ body hf.1) (body.nested_survey ctx.api)
  | .branch b, hf => uses_branched hapi place b hf
  | .action a, hf => uses_action hapi false hf

theorem uses_block (hapi : ctx.api.Formed) (place : Place) : (b : Block) → b.Formed →
    Uses (Compiling.block ctx place b) (b.survey ctx.api) (b.usage ctx.api ctx.debug)
  | .mk _ body, hf => by
    refine Uses.inScope ⟨keeps_statements _ body ∅, fun hl hformed hp => ?_⟩
      (Statement.nested_surveyAll ctx.api body)
    obtain ⟨f, rfl, hrest⟩ := passes_usages hapi ⟨place.inLoop, true⟩ body hf ∅ hl hformed hp
    rwa [Fragment.empty_append]

theorem uses_branched (hapi : ctx.api.Formed) (place : Place) : (b : Branch) → b.Formed →
    Uses (Compiling.branch ctx place b) (b.survey ctx.api) (b.usage ctx.api ctx.debug)
  | .mk _ body other, hf =>
    uses_branch hapi hf.1 (uses_block hapi place body hf.2.1) (uses_otherwise hapi place other hf.2.2)
      (body.nested_survey ctx.api) (other.nested_survey ctx.api)

theorem uses_otherwise (hapi : ctx.api.Formed) (place : Place) : (o : Otherwise) → o.Formed →
    Uses (otherwise ctx place o) (o.survey ctx.api) (o.usage ctx.api ctx.debug)
  | .nothing, _ => uses_skip
  | .branch b, hf => uses_branched hapi place b hf
  | .block body, hf => uses_block hapi place body hf

/-- Statements stand behind the code in front of them. -/
theorem passes_usages (hapi : ctx.api.Formed) (place : Place) :
    (ss : List Statement) → Statement.FormedAll ss → ∀ (code : Fragment)
    {vs f vs'}, vs.Laid → vs.Formed → Compiling.Passes (statements ctx place ss code) vs f vs' →
    ∃ f', f = code ++ f' ∧ vs' = (Statement.surveyAll ctx.api ss vs).2 ∧ vs'.Laid ∧ vs'.Formed ∧
      f'.Mentions (Statement.usageAll ctx.api ctx.debug ss vs).mentions ∧
        (Statement.usageAll ctx.api ctx.debug ss vs).Holds vs vs'
  | [], _, code, vs, f, vs', hl, hf, hp => by
    obtain ⟨rfl, rfl⟩ := Compiling.passes_pure.1 hp
    exact ⟨∅, (Fragment.append_empty _).symm, rfl, hl, hf, mentions_empty, .mentioning hl nofun⟩
  | s :: rest, hformed, code, vs, f, vs', hl, hf, hp => by
    obtain ⟨more, vs₁, hmore, hrest⟩ := hp.parts
    obtain ⟨rfl, hlaid, hformed', hmentions, hholds⟩ := (uses_statement hapi place s hformed.1).passes hl hf hmore
    obtain ⟨f', rfl, rfl, hlaid', hformed'', hmentions', hholds'⟩ := passes_usages hapi place rest hformed.2 (code ++ more)
      hlaid hformed' hrest
    have hns := s.nested_survey ctx.api
    have hnrest := Statement.nested_surveyAll ctx.api rest
    refine ⟨more ++ f', Fragment.append_assoc .., rfl, hlaid', hformed'', hmentions.append hmentions', ?_⟩
    exact Usage.Holds.append (.mentioning hl nofun) (hholds.append hholds' (hns.inUse vs) (hnrest.needed _))
      (.refl _) ((hns.needed vs).trans (hnrest.needed _))
end

end Usages

end HostScript

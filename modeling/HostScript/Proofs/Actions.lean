import HostScript.Proofs.Layout
import HostScript.Proofs.DualFragments
import Mathlib.Tactic.Choose

/-! Code made for actions is made of dual lines.

The compiler, for a debugger and without one, and the survey go through a script side by
side (`Twins`): when compiling passes, all leave the same variables, and both kinds of
code made are those of dual lines that take what is known before the statement to what is
known behind it. Leaps are left only inside of loops. -/
namespace HostScript

open Compiling Statement Variables List

variable {isStep : Bool} {target : Object} {place : Place} {span : Span}

/-! ### The survey on its own -/

/-- The variable is within storage, as far as its kind says. -/
def Variable.Fits (room : Storage) (v : Variable) : Prop :=
  ∀ k, v.type.primitive = .kind k → room.Holds k v.address

namespace Surveying

/-- A survey leaves the scopes around it, and every variable it lists is above what was in use
before and within what is needed in the end. -/
structure Nested (a : Surveying) : Prop where
  outer : ∀ vs : Variables, (a vs).2.outer = vs.outer
  base : ∀ vs : Variables, (a vs).2.top.base = vs.top.base
  inUse : ∀ vs : Variables, vs.inUse.Le (a vs).2.inUse
  needed : ∀ vs : Variables, vs.needed.Le (a vs).2.needed
  above : ∀ vs : Variables, ∀ e ∈ (a vs).1.vars, ∀ k, e.1.type.primitive = .kind k →
    vs.inUse.Under k e.1.address
  fits : ∀ vs : Variables, ∀ e ∈ (a vs).1.vars, e.1.Fits (a vs).2.needed

variable {a b : Surveying}

/-- Nothing is declared. -/
theorem nested_of_eq (h : ∀ vs : Variables, (a vs).2 = vs ∧ (a vs).1.vars = []) : Nested a := by
  constructor <;> intro vs <;> simp only [h vs]
  · exact .refl _
  · exact .refl _
  · nofun
  · nofun

theorem nested_skip : Nested skip := nested_of_eq fun _ => ⟨rfl, rfl⟩

theorem nested_asking (api : Api) (f : Scope → List Ask) : Nested (asking api f) := nested_of_eq fun _ => ⟨rfl, rfl⟩

theorem Nested.seq (ha : Nested a) (hb : Nested b) : Nested (seq a b) where
  outer vs := (hb.outer _).trans (ha.outer vs)
  base vs := (hb.base _).trans (ha.base vs)
  inUse vs := (ha.inUse vs).trans (hb.inUse _)
  needed vs := (ha.needed vs).trans (hb.needed _)
  above vs e he k hk := by
    obtain he | he := mem_append.1 he
    · exact ha.above vs e he k hk
    · exact (hb.above _ e he k hk).mono (ha.inUse vs)
  fits vs e he := by
    obtain he | he := mem_append.1 he
    · exact fun k hk => (ha.fits vs e he k hk).mono (hb.needed _)
    · exact hb.fits _ e he

theorem nested_declare (type : TypeRef) (name : Ident) (loose : Bool) : Nested (declare type name loose) := by
  have hcases : ∀ vs : Variables, (∃ v vs', vs.declare name.name type.type name.span = .ok (v, vs') ∧
      declare type name loose vs = (⟨[], [(v, loose)]⟩, vs')) ∨ declare type name loose vs = (.empty, vs) := by
    intro vs
    unfold declare
    split
    · exact .inl ⟨_, _, ‹_›, rfl⟩
    · exact .inr rfl
  -- a variable that is declared takes the next free storage
  have hbetween : ∀ (vs : Variables) e k, e ∈ (declare type name loose vs).1.vars →
      e.1.type.primitive = .kind k →
      vs.inUse.Under k e.1.address ∧ (declare type name loose vs).2.needed.Holds k e.1.address := by
    intro vs e k he hk
    obtain ⟨v, vs', hd, h⟩ | h := hcases vs
    · rw [h] at he ⊢
      obtain ⟨hv, hvs'⟩ := declare_eq hd
      rw [mem_singleton.1 he] at hk ⊢
      subst hv
      obtain ⟨j, hj, hunder, hin⟩ := between_declared vs.inUse hk name.span
      obtain rfl : j = k := Primitive.kind.inj (hj.symm.trans hk)
      rw [hvs']
      exact ⟨hunder, hin.mono (Storage.le_max_right _ _)⟩
    · rw [h] at he
      cases he
  refine ⟨fun vs => ?_, fun vs => ?_, fun vs => ?_, fun vs => ?_, fun vs e he k hk => (hbetween vs e k he hk).1,
    fun vs e he k hk => (hbetween vs e k he hk).2⟩ <;> obtain ⟨v, vs', hd, h⟩ | h := hcases vs <;> rw [h]
  · rw [(declare_eq hd).2]
  · rw [(declare_eq hd).2]
    rfl
  · rw [(declare_eq hd).2]
    exact Storage.le_add _ _
  · exact .refl _
  · rw [(declare_eq hd).2]
    exact Storage.le_max_left _ _
  · exact .refl _

/-- A part in a scope of its own leaves the scopes as they were. -/
theorem inScope_frames (ha : Nested a) (vs : Variables) :
    (inScope a vs).2.frames = vs.frames ∧ (inScope a vs).2.inUse = vs.inUse ∧
      (inScope a vs).2.needed = (a vs.push).2.needed := by
  have houter : (a vs.push).2.outer = vs.top :: vs.outer := ha.outer vs.push
  obtain ⟨hf, hu, hn⟩ := frames_pop houter
  refine ⟨?_, ?_, hn⟩
  · rw [show (inScope a vs).2 = (a vs.push).2.pop.2 from rfl, hf, houter]
    rfl
  · rw [show (inScope a vs).2 = (a vs.push).2.pop.2 from rfl, hu, ha.base]
    rfl

theorem Nested.inScope (ha : Nested a) : Nested (inScope a) where
  outer vs := (List.cons.inj (inScope_frames ha vs).1).2
  base vs := congrArg Frame.base (List.cons.inj (inScope_frames ha vs).1).1
  inUse vs := by
    rw [(inScope_frames ha vs).2.1]
    exact .refl _
  needed vs := by
    rw [(inScope_frames ha vs).2.2]
    exact ha.needed vs.push
  above vs := ha.above vs.push
  fits vs e he := by
    rw [(inScope_frames ha vs).2.2]
    exact ha.fits vs.push e he

theorem nested_update (api : Api) (target : Object) (value : Option Expr) : Nested (update api target value) :=
  nested_asking api _

theorem nested_condition (api : Api) (e : Expr) : Nested (condition api e) := nested_asking api _

theorem Nested.looped (ha : Nested a) (api : Api) (condition? : Option Expr) : Nested (looped api condition? a) := by
  unfold Surveying.looped
  split
  · exact ha
  · split
    · exact nested_skip
    · exact ha
    · exact ha.seq (nested_condition api _)

end Surveying

open Surveying

theorem Action.nested_survey (api : Api) (isStep : Bool) (a : Action) : Nested (a.survey api isStep) := by
  unfold Action.survey
  split
  · exact (nested_asking api _).seq (nested_declare _ _ _)
  · exact nested_update api _ _
  · exact nested_update api _ _
  · exact nested_asking api _
  all_goals exact nested_skip

theorem Action.nested_surveyOption (api : Api) (isStep : Bool) (a : Option Action) :
    Nested (Action.surveyOption api isStep a) := by
  cases a with
  | none => exact nested_skip
  | some a => exact a.nested_survey api isStep

mutual
theorem Statement.nested_survey (api : Api) : (s : Statement) → Nested (s.survey api)
  | .importing _ _ | .global _ _ | .type _ | .metadata _ _ => by unfold survey; exact nested_skip
  | .block body => body.nested_survey api
  | .whileLoop condition body => (body.nested_survey api).looped api (some condition)
  | .forLoop start condition step body =>
    ((Action.nested_surveyOption api false start).seq (((body.nested_survey api).seq
      (Action.nested_surveyOption api true step)).looped api condition)).inScope
  | .doWhile body condition => by
    unfold survey
    split
    · exact body.nested_survey api
    · exact (body.nested_survey api).seq (nested_condition api condition)
  | .branch b => b.nested_survey api
  | .action a => a.nested_survey api false

theorem Block.nested_survey (api : Api) : (b : Block) → Nested (b.survey api)
  | .mk _ body => (Statement.nested_surveyAll api body).inScope

theorem Branch.nested_survey (api : Api) : (b : Branch) → Nested (b.survey api)
  | .mk condition body otherwise => by
    unfold Branch.survey
    split
    · exact body.nested_survey api
    · exact otherwise.nested_survey api
    · exact (nested_condition api condition).seq ((body.nested_survey api).seq (otherwise.nested_survey api))

theorem Otherwise.nested_survey (api : Api) : (o : Otherwise) → Nested (o.survey api)
  | .nothing => by unfold Otherwise.survey; exact nested_skip
  | .branch b => b.nested_survey api
  | .block body => body.nested_survey api

theorem Statement.nested_surveyAll (api : Api) : (ss : List Statement) → Nested (Statement.surveyAll api ss)
  | [] => by unfold Statement.surveyAll; exact nested_skip
  | s :: rest => (s.nested_survey api).seq (Statement.nested_surveyAll api rest)
end

/-! ### Compiler and survey side by side -/

/-- What the code of a file is held to admits what a survey lists. -/
structure Survey.Admits (g : Regime) (G : Known) (s : Survey) : Prop where
  asks : ∀ a ∈ s.asks, a.hasVoidOperand = false ∧ (a.wantsFloatBits = true → g.floatBits)
  room : ∀ e ∈ s.vars, e.1.Fits g.room
  respects : g.tracked → ∀ e ∈ s.vars, e.1.Respects G
  loose : g.tracked → ∀ e ∈ s.vars, e.2 = true → e.1.type.primitive = .kind .pointer → G e.1.address

namespace Survey.Admits

variable {g : Regime} {G : Known} {s t : Survey}

theorem left (h : (s ++ t).Admits g G) : s.Admits g G where
  asks a ha := h.asks a (mem_append_left _ ha)
  room e he := h.room e (mem_append_left _ he)
  respects ht e he := h.respects ht e (mem_append_left _ he)
  loose ht e he := h.loose ht e (mem_append_left _ he)

theorem right (h : (s ++ t).Admits g G) : t.Admits g G where
  asks a ha := h.asks a (mem_append_right _ ha)
  room e he := h.room e (mem_append_right _ he)
  respects ht e he := h.respects ht e (mem_append_right _ he)
  loose ht e he := h.loose ht e (mem_append_right _ he)

theorem permits (h : s.Admits g G) (K : Known) : (g.rules K).Permits s.asks := h.asks

end Survey.Admits

/-- What stays the same while a file is compiled, for a debugger or without one. -/
def Context.kinds (sources : Bool → Sources) (api : Api) (debug : Bool) : Context := ⟨sources debug, api, debug⟩

/-- Compiling for a debugger and without one follows the same survey, and both kinds of code take
what is known before to what is known behind. Leaps are left only inside of loops. -/
structure Twins (g : Regime) (G : Known) (inLoop : Bool) (c : Bool → Compiling Fragment) (a : Surveying) : Prop where
  keeps : ∀ debug, Keeps (c debug)
  passes : ∀ {vs : Variables} {f : Bool → Fragment} {vs' : Bool → Variables}, vs.Ready g G → (a vs).1.Admits g G →
    (∀ debug, Passes (c debug) vs (f debug) (vs' debug)) →
    vs' = (fun _ => (a vs).2) ∧ (a vs).2.Ready g G ∧
      HasDual g (vs.Knows G) (fun _ => inLoop = false) f ((a vs).2.Knows G)

theorem Compiling.Passes.unique (h : Passes c vs a vs₁) (h' : Passes c vs b vs₂) : a = b ∧ vs₁ = vs₂ := by
  obtain ⟨hab, hp⟩ := Prod.mk.inj (Eq.trans (Eq.symm h) h')
  exact ⟨hab, (Progress.mk.inj hp).1⟩

/-! ### Actions -/

section Actions

variable {g : Regime} {G : Known} {sources : Bool → Sources} {api : Api} {inLoop : Bool} {vs vs' : Variables}

theorem Variables.Ready.scope (h : vs.Ready g G) (ha : api.Formed) : Scope.Formed ⟨api, vs⟩ := ⟨ha, h.formed⟩

/-- A debugger can be told the value of every variable in sight. -/
theorem typed_debugUpdate (hr : vs.Ready g G) (hsees : vs.Sees v) (hname : Clean name) (hk : v.type.primitive = .kind k)
    : (Instr.debugUpdate name k (.variable k v.address)).Typed (g.rules (vs.Knows G)) g.room.Holds :=
  ⟨hname, rfl, hr.holds hsees hk, fun _ hp => .inr ⟨v, hsees, hp ▸ hk, rfl⟩⟩

theorem sound_assign (hr : vs'.Ready g G) (hsees : vs'.Sees v) (hk : v.type.primitive = .kind k)
    (hn : n.Typed (g.rules (vs.Knows G)) k) (hle : g.Le (vs.Knows G) (vs'.Knows G)) :
    Line.Sound g ⟨.assign k v.address n, vs.Knows G⟩ := by
  refine ⟨⟨hr.holds hsees hk, hn⟩, fun ht j a m heq b hb => ?_⟩
  cases heq
  exact hr.apart ht hsees hk (hle ht b hb)

theorem twins_declare (hapi : api.Formed) {type : TypeRef} {name : Ident} {value : Option Expr}
    (hname : Clean name.name) (he : ∀ e, value = some e → e.Formed ∧ ∀ x ∈ e.texts, Clean x) :
    Twins g G inLoop (fun debug => declare (.kinds sources api debug) type name value)
      (.seq (.asking api fun s => (value.map fun e => e.asks s type.type).getD [])
        (.declare type name (value.isNone || isStep))) where
  keeps _ := keeps_declare type name value
  passes := by
    intro vs f vs' hr ha hp
    obtain ⟨k, code, v, hk, hcode, hd, hfalse⟩ := passes_declare (hp false)
    obtain ⟨k', code', v', hk', hcode', hd', htrue⟩ := passes_declare (hp true)
    obtain rfl : k = k' := Primitive.kind.inj (hk.symm.trans hk')
    obtain ⟨rfl, -⟩ := hcode.unique hcode'
    obtain ⟨rfl, hsame⟩ := Prod.mk.inj (Except.ok.inj (hd.symm.trans hd'))
    have hvk : v.type.primitive = .kind k := by
      rw [(declare_eq hd).1]
      exact hk
    have hsurvey : Surveying.declare type name (value.isNone || isStep) vs =
        (⟨[], [(v, value.isNone || isStep)]⟩, vs' false) := by
      unfold Surveying.declare
      rw [hd]
    have hvar : (Surveying.declare type name (value.isNone || isStep) vs).1.Admits g G := ha.right
    rw [hsurvey] at hvar
    have hmem : (v, value.isNone || isStep) ∈ [(v, value.isNone || isStep)] := mem_singleton.2 rfl
    have hready : (vs' false).Ready g G := hr.declare ⟨k, hk⟩ hname hd ⟨k, hvk, hvar.room _ hmem k hvk⟩
      fun ht => hvar.respects ht _ hmem
    have hsees : (vs' false).Sees v := (sees_declared hd).2 (.inr rfl)
    have hgrows : g.Le (vs.Knows G) ((vs' false).Knows G) := by
      rintro - b (hb | ⟨w, hw, hp⟩)
      · exact .inl hb
      · exact .inr ⟨w, (sees_declared hd).2 (.inl hw), hp⟩
    have hlearned : g.Le ((vs' false).Knows G) fun b => vs.Knows G b ∨ (k = .pointer ∧ v.address = b) := by
      rintro - b (hb | ⟨w, hw, hp, rfl⟩)
      · exact .inl (.inl hb)
      · obtain hw | rfl := (sees_declared hd).1 hw
        · exact .inl (.inr ⟨w, hw, hp, rfl⟩)
        · exact .inr ⟨Primitive.kind.inj (hvk.symm.trans hp), rfl⟩
    have hvs : (Surveying.declare type name (value.isNone || isStep) vs).2 = vs' false := congrArg Prod.snd hsurvey
    refine ⟨funext fun debug => Eq.trans ?_ hvs.symm, hvs ▸ hready, ?_⟩
    · cases debug
      · rfl
      · exact hsame.symm
    show HasDual g (vs.Knows G) _ f ((Surveying.declare type name (value.isNone || isStep) vs).2.Knows G)
    rw [hvs]
    cases value with
    | none =>
      refine (hasDual_empty.weaken (fun ht b hb => ?_) hgrows).congr fun debug => by cases debug <;> assumption
      obtain hb | ⟨rfl, rfl⟩ := hlearned ht b hb
      · exact hb
      · exact .inl (hvar.loose ht _ hmem rfl hvk)
    | some e =>
      obtain ⟨hformed, hx⟩ := he e rfl
      have hcheck : Passes (check (.kinds sources api false) fun s => emit s e type.type) vs code vs := hcode
      obtain ⟨hpasses, -⟩ := passes_check hcheck
      obtain ⟨n, rfl, hn⟩ := emit_coded (hr.scope hapi) (hr.reads _) e hformed hx hk (ha.left.permits _) hpasses
      have hassign : HasDual g (vs.Knows G) (fun _ => inLoop = false)
          (fun _ => .ofPieces (Instr.assign k v.address n).pieces) ((vs' false).Knows G) := by
        refine hasDual_same (sound_assign hready hsees hvk hn hgrows) (.inl ⟨trivial, id⟩) (fun _ => hlearned.trans ?_) hgrows
        rintro - b (hb | ⟨rfl, rfl⟩)
        · exact .inl hb
        · exact .inr ⟨n, rfl⟩
      refine (hassign.append (hasDual_extra (typed_debugUpdate hready hsees hname hvk) ⟨_, _, rfl⟩)).congr fun debug => ?_
      rw [← assign_coded hvk, ← debugUpdate_coded hvk]
      cases debug
      · exact hfalse.trans (Fragment.append_empty _).symm
      · exact htrue

/-- What an update tells a debugger stands behind it. -/
theorem emitUpdate_telling (hs : s.Formed) (h : (emitUpdate s false target u span).Passes f)
    (h' : (emitUpdate s true target u span).Passes f') :
    f' = f ∨ ∃ name v, s.vars.find? name = some v ∧ f' = f ++ .debugUpdate name v := by
  unfold emitUpdate at h h'
  cases hv : target.var? s.vars with
  | none =>
    rw [hv] at h h'
    exact .inl (h'.fst.symm.trans h.fst)
  | some e =>
    obtain ⟨name, v⟩ := e
    rw [hv] at h h'
    have hfind := Object.find_of_variable hv
    obtain ⟨k, hk⟩ := (hs.vars.find hfind).2
    obtain ⟨g, -, hg, rfl⟩ := (passes_emitVariableUpdate hk).1 h
    obtain ⟨g', -, hg', rfl⟩ := (passes_emitVariableUpdate hk).1 h'
    obtain rfl : g = g' := hg.fst.symm.trans hg'.fst
    exact .inr ⟨name, v, hfind, rfl⟩

section

variable (hapi : api.Formed) (ho : target.Formed) (hx : ∀ x ∈ target.texts, Clean x)
include hapi ho hx

theorem twins_update (hu : ∀ e, u.value? = some e → e.Formed ∧ ∀ x ∈ e.texts, Clean x) :
    Twins g G inLoop (fun debug => check (.kinds sources api debug) fun s => emitUpdate s debug target u span)
      (.update api target u.value?) where
  keeps _ := inferInstance
  passes := by
    intro vs f vs' hr ha hp
    obtain ⟨hfalse, -⟩ := passes_check (hp false)
    obtain ⟨htrue, -⟩ := passes_check (hp true)
    refine ⟨funext fun debug => (passes_check (hp debug)).2, hr, ?_⟩
    have hplain : HasDual g (vs.Knows G) (fun _ => inLoop = false) (fun _ => f false) (vs.Knows G) := by
      obtain ⟨name, v, k, n, hfind, hk, hn, hf⟩ | ⟨i, hi, hproceeds, hf⟩ :=
        emitUpdate_coded (hr.scope hapi) (hr.reads _) ho hx hu (ha.permits _) hfalse
      · have hassign := sound_assign hr (sees_of_find hfind) hk hn (.refl g _)
        refine (hasDual_same hassign (.inl ⟨trivial, id⟩) (fun _ _ _ h => .inl h) (.refl g _)).congr fun _ => ?_
        simpa [Variable.updates] using hf
      · exact (hasDual_single hi hproceeds).congr fun _ => hf
    obtain heq | ⟨name, v, hfind, heq⟩ := emitUpdate_telling (hr.scope hapi) hfalse htrue
    · refine hplain.congr fun debug => ?_
      cases debug
      · rfl
      · exact heq
    · obtain ⟨hname, k, hk⟩ := hr.formed.find hfind
      refine (hplain.append (hasDual_extra
        (typed_debugUpdate hr (sees_of_find hfind) hname hk) ⟨_, _, rfl⟩)).congr fun debug => ?_
      rw [← debugUpdate_coded hk]
      cases debug
      · exact (Fragment.append_empty _).symm
      · exact heq

theorem twins_call :
    Twins g G inLoop (fun debug => check (.kinds sources api debug) fun s => do
        if target.isCall then emitObject s target false
        else
          Check.report target.lastSpan .noEffect
          return ∅)
      (.asking api fun s => target.asks s) where
  keeps _ := inferInstance
  passes := by
    intro vs f vs' hr ha hp
    refine ⟨funext fun debug => (passes_call (hp debug)).2.1, hr, ?_⟩
    obtain ⟨hcall, -, hfalse⟩ := passes_call (hp false)
    obtain ⟨t, d, args, hf, ht, hlength, hargs⟩ :=
      emitObject_unused (hr.scope hapi) (hr.reads _) ho hx hcall (ha.permits _) hfalse
    have htyped : (Instr.callUnused t d args).Typed (g.rules (vs.Knows G)) (fun _ _ => False) := ⟨ht, hlength, hargs⟩
    refine (hasDual_single htyped ⟨trivial, id⟩).congr fun debug => ?_
    exact ((passes_call (hp debug)).2.2.fst.symm.trans hfalse.fst).trans hf

end

theorem twins_jump (l : Leap) :
    Twins g G place.inLoop (fun debug => jump (.kinds sources api debug) place span l.mark problem) .skip where
  keeps _ := keeps_jump place span _ _
  passes := by
    intro vs f vs' hr ha hp
    refine ⟨funext fun debug => (passes_jump (hp debug)).2.1, hr, ?_⟩
    refine (hasDual_stop (.inr ⟨l, rfl, by simp [(passes_jump (hp false)).1]⟩)).congr fun debug => ?_
    rw [(passes_jump (hp debug)).2.2]
    exact (Fragment.ofPieces_leap l).symm

theorem twins_pure (h : ∀ K, HasDual g K (fun _ => inLoop = false) (fun _ => code) K) :
    Twins g G inLoop (fun _ => pure code) .skip where
  keeps _ := keeps_pure _
  passes := by
    intro vs f vs' hr _ hp
    exact ⟨funext fun debug => (passes_pure.1 (hp debug)).2.symm, hr,
      (h _).congr fun debug => (passes_pure.1 (hp debug)).1.symm⟩

theorem twins_actionCode (hapi : api.Formed) {a : Action} (ha : a.Formed) (hx : ∀ x ∈ a.texts, Clean x) :
    Twins g G place.inLoop (fun debug => actionCode (.kinds sources api debug) place a) (a.survey api isStep) := by
  obtain ⟨span, kind⟩ := a
  cases kind with
  | declare type name value =>
    exact twins_declare hapi ha.1 fun e he =>
      ⟨ha.2 e he, fun x hx' => hx x (by simp [Action.texts, ActionKind.texts, he, hx'])⟩
  | assign target op value =>
    refine twins_update hapi ha.1 (fun x hx' => hx x (by simp [Action.texts, ActionKind.texts, hx'])) ?_
    rintro e he
    cases he
    exact ⟨ha.2, fun x hx' => hx x (by simp [Action.texts, ActionKind.texts, hx'])⟩
  | step target down =>
    refine twins_update hapi ha (fun x hx' => hx x (by simp [Action.texts, ActionKind.texts, hx'])) ?_
    rintro e he
    cases he
  | call target => exact twins_call hapi ha fun x hx' => hx x (by simp [Action.texts, ActionKind.texts, hx'])
  | breakLoop => exact twins_jump .breaks
  | continueLoop => exact twins_jump .continues
  | exit => exact twins_pure fun _ => hasDual_stop (.inl rfl)

/-- The line of an action is told in front of it. -/
theorem twins_action (hapi : api.Formed) (ha : a.Formed) (hx : ∀ x ∈ a.texts, Clean x) :
    Twins g G place.inLoop (fun debug => action (.kinds sources api debug) place a) (a.survey api isStep) where
  keeps _ := keeps_action place a
  passes := by
    intro vs f vs' hr hadmits hp
    choose code hcode hf using fun debug => passes_action (hp debug)
    obtain ⟨hvs, hready, hdual⟩ := (twins_actionCode hapi ha hx).passes hr hadmits hcode
    refine ⟨hvs, hready, ?_⟩
    have hline : (Instr.debugLine (min ((sources true).line a.span) 65535)).Typed (g.rules (vs.Knows G)) g.room.Holds := by
      show min ((sources true).line a.span) 65535 < 65536
      omega
    refine ((hasDual_extra hline trivial).append hdual).congr fun debug => (hf debug).trans ?_
    have hpieces : Fragment.opcode .debugLine ++ .mark .line ++ .word (min ((sources true).line a.span) 65535) =
        .ofPieces (Instr.debugLine (min ((sources true).line a.span) 65535)).pieces := by
      rw [Fragment.append_assoc, ← Fragment.ofPieces_line, ← Fragment.ofPieces_opcode, ← Fragment.ofPieces_append]
      rfl
    cases debug
    · exact (Fragment.empty_append _).symm
    · rw [← hpieces]
      rfl

theorem twins_optionalAction (hapi : api.Formed) (ha : ∀ b, a = some b → b.Formed ∧ ∀ x ∈ b.texts, Clean x) :
    Twins g G place.inLoop (fun debug => optionalAction (.kinds sources api debug) place a)
      (Action.surveyOption api isStep a) := by
  cases a with
  | none => exact twins_pure fun _ => hasDual_empty
  | some a => exact twins_action hapi (ha a rfl).1 (ha a rfl).2

end Actions

end HostScript

import HostScript.Proofs.Branches
import HostScript.Proofs.Compiling

/-! Assignments with an operator.

An assignment to a variable with an operator is the assignment of what the operator makes of the
variable and the given value: both are accepted or none is, and their code is the same
(`Compiling.shorthand`). The check that comes first in the one form asks no more and no less than the
types of the operands do in the other: the given value has to be assignable to the variable in
both. -/
namespace HostScript

open Check Primitive Update

variable {op : ArithOp} {name : Ident} {k : Kind} {v : Variable} {span : Span} {t : Ty}

section Operands

variable {api : Api} {p : Primitive}

section

variable (h : api.assignable (.prim p) (.prim (.kind k)) = true)
include h

/-- A value that can be assigned to a number kind combines with it, and to that kind. -/
theorem reconcile_assignable :
    (kind k).reconcile p = some (.kind k) := by
  obtain rfl | h := (Api.assignable_prim api p k).1 h
  · simp [reconcile]
  · cases k with
    | int j =>
      obtain rfl | ⟨hj, rfl⟩ := h
      · cases hj : j.signed <;> simp [reconcile, reconcile.settle, isNumeric, isUntyped]
      · simp [reconcile, reconcile.settle, isNumeric, isUntyped, isSignedInteger, hj]
    | float j =>
      cases p <;> cases h <;> rfl
    | _ => cases h

theorem isInteger_of_assignable (hk : (kind k).isInteger = true) : p.isInteger = true := by
  cases k with
  | int j =>
    obtain rfl | rfl | ⟨-, rfl⟩ := (Api.assignable_prim api p _).1 h <;> rfl
  | _ => cases hk

theorem isNumeric_of_assignable (hk : (kind k).isNumeric = true) : p.isNumeric = true := by
  cases k with
  | int j => exact isNumeric_of_isInteger (isInteger_of_assignable h rfl)
  | float j =>
    obtain rfl | h := (Api.assignable_prim api p _).1 h
    · rfl
    · cases p <;> cases h <;> rfl
  | _ => cases hk

end

/-- The operands of an operator have a type just if the operator applies to the first one. -/
theorem passes_arithmeticType_iff (hk : t.primitive = .kind k) (h : api.assignable given t = true) :
    Passes (arithmeticType span op t given) (some u) ↔ (assign (some op) value).problem? t.primitive = none ∧ u = t := by
  cases t with
  | object name =>
    have hproblem : (assign (some op) value).problem? (Ty.object name).primitive ≠ none := by
      cases op <;> nofun
    refine iff_of_false (fun hu => ?_) fun hu => hproblem hu.1
    unfold arithmeticType at hu
    split at hu
    · exact not_passes_refuse _ _ _ hu
    · rw [if_neg (by simp)] at hu
      exact not_passes_refuse _ _ _ hu
  | prim q =>
    obtain rfl : q = .kind k := hk
    cases given with
    | object name =>
      obtain ⟨_, heq, -⟩ := Api.assignable_object.1 h
      cases heq
    | prim p =>
      have hcombined : combinedType span (.prim (.kind k)) (.prim p) = pure (some (.prim (.kind k))) := by
        rw [combinedType, Ty.primitive, Ty.primitive, reconcile_assignable h]
      have hboth : Passes (pure (some (.prim (.kind k))) : Check (Option Ty)) (some u) ↔ u = .prim (.kind k) := by
        rw [passes_pure, Option.some.injEq, eq_comm]
      have hnone {problem : Problem} {v : Option Ty} : ¬ Passes (refuse span problem) v := not_passes_refuse _ _ _
      simp only [arithmeticType, problem?, op?, Ty.primitive, hcombined]
      by_cases hb : op.isBitwise = true
      · by_cases hi : (kind k).isInteger = true
        · simp [hb, hi, isInteger_of_assignable h hi, hboth]
        · simp [hb, hi, hnone]
      · by_cases hn : (kind k).isNumeric = true
        · have hstring : k ≠ .string := by
            rintro rfl
            cases hn
          simp [hb, hn, isNumeric_of_assignable h hn, hstring, hboth]
        · by_cases hadd : op = .add
          · by_cases hstring : k = .string
            · subst hstring
              obtain rfl | h := (Api.assignable_prim api p .string).1 h
              · simpa [hadd, ArithOp.isBitwise] using hboth
              · cases h
            · simp [hn, hadd, hstring, hnone, ArithOp.isBitwise]
          · simp [hb, hn, hadd, hnone]

end Operands

/-! ### Code -/

section Code

variable {s : Scope} {e : Expr} {f : Fragment}

theorem fits_of_emitAs {emit : Ty → Check Fragment} (h : Passes (emitAs s e t emit) f) (hemit : ∀ u, Plain (emit u)) :
    s.Fits e t := by
  obtain ⟨-, -, -, hfits, -⟩ | ⟨-, -, hleaves, -⟩ := passes_emitAs h hemit
  · exact hfits
  · exact hleaves.fits

theorem fits_of_emit (h : Passes (emit s e t) f) : s.Fits e t := by
  cases e with
  | unary => exact fits_of_emitAs h fun _ => by split <;> infer_instance
  | binary _ op => cases op <;> exact fits_of_emitAs h inferInstance
  | ternary => exact fits_of_emitAs h fun _ => .bind inferInstance fun _ => by split <;> infer_instance
  | _ => exact fits_of_emitAs h inferInstance

/-- The code of an expression that may stand where a type is expected. -/
theorem passes_emitAs_iff {emit : Ty → Check Fragment} (hk : t.primitive = .kind k) (hu : Passes (typeOf s e) (some u))
    (hassign : s.api.assignable u t = true) (hfold : Passes (fold e) o) :
    Passes (emitAs s e t emit) f ↔ Passes (match o with
      | none => emit u
      | some l => do
        let some l ← Check.converted e.span (l.cast t.primitive) | return ∅
        return .literal l) f := by
  unfold emitAs
  rw [hk, if_neg (by simp [kind?]), hu.bind_iff]
  dsimp only
  rw [if_neg (by simp [hassign])]
  exact hfold.bind_iff

theorem assignable_self (api : Api) (t : Ty) : api.assignable t t = true := by
  simp [Api.assignable]

section

variable (hv : s.vars.find? name.name = some v)
include hv

theorem passes_typeOf_variable :
    Passes (typeOf s (.object span (.root (.name name)))) (some v.type) := by
  unfold typeOf objectType
  rw [Access.var?, hv]
  rfl

theorem passes_emit_variable (hk : v.type.primitive = .kind k) :
    Passes (emit s (.object span (.root (.name name))) v.type) f ↔ f = .read v := by
  have hobject : emitObject s (.root (.name name)) true = pure (.read v) := by
    unfold emitObject
    rw [Access.var?, hv]
  rw [emit, passes_emitAs_iff hk (passes_typeOf_variable hv) (assignable_self _ _) rfl]
  rw [hobject, passes_pure, eq_comm]

/-- The code of an operator between a variable and a value, both of the type of the variable. -/
theorem passes_emit_operator (hk : v.type.primitive = .kind k) :
    Passes (emit s (.binary span (.arith op) (.object nameSpan (.root (.name name))) e) v.type) f ↔
      (assign (some op) e).problem? v.type.primitive = none ∧
        ∃ g, Passes (emit s e v.type) g ∧ f = .opcode (resultOpcode (.arith op) v.type) ++ .read v ++ g := by
  have htype : Passes (typeOf s (.object nameSpan (.root (.name name)))) (some v.type) := passes_typeOf_variable hv
  constructor
  · intro h
    obtain ⟨l, -, hl, -⟩ | ⟨a, g, ⟨-, u, hu, -⟩, ha, hg, rfl⟩ := passes_emit_binary (fun _ => by simp) h
    · cases passes_pure.1 hl
    · rw [if_neg (by simp)] at ha
      obtain rfl := (passes_emit_variable hv hk).1 ha
      obtain ⟨given, hgiven, hfits⟩ := fits_of_emit hg
      obtain ⟨t, given', ht, hgiven', hu⟩ := passes_typeOf_binary hu (by simp)
      cases htype.fst.symm.trans ht.fst
      cases hgiven.fst.symm.trans hgiven'.fst
      exact ⟨((passes_arithmeticType_iff hk hfits).1 hu).1, g, hg, rfl⟩
  · rintro ⟨hproblem, g, hg, rfl⟩
    obtain ⟨given, hgiven, hfits⟩ := fits_of_emit hg
    have hwhole : Passes (typeOf s (.binary span (.arith op) (.object nameSpan (.root (.name name))) e)) (some v.type) := by
      exact htype.bind (hgiven.bind ((passes_arithmeticType_iff hk hfits).2 ⟨hproblem, rfl⟩))
    unfold emit
    rw [passes_emitAs_iff hk hwhole (assignable_self _ _) rfl]
    exact ((passes_emit_variable hv hk).2 rfl).bind (hg.bind rfl)

end

/-- The literal one stands where a number is expected, and its code is that of a step. -/
theorem passes_emit_one (hk : t.primitive = .kind k) : Passes (emit s (.literal span (.untypedInteger 1)) t) f ↔
      (step down).problem? t.primitive = none ∧ Passes ((step down).emitValue s t) f := by
  have hproblem : (step down).problem? t.primitive = none ↔ k.IsNumeric := by
    simp [hk, problem?, op?, Kind.IsNumeric]
  have hassign : s.api.assignable (.prim .untypedInteger) t = true ↔ k.IsNumeric := by
    cases t with
    | object name =>
      cases hk
      exact iff_of_false (fun h => by cases h) fun h => by cases h
    | prim q =>
      obtain rfl : q = .kind k := hk
      rw [Api.assignable_prim]
      cases k <;> simp [Kind.IsNumeric, isNumeric, isUntyped]
  rw [hproblem]
  by_cases hnumeric : k.IsNumeric
  · obtain ⟨one, hone⟩ := cast_one hnumeric
    have htype : Passes (typeOf s (.literal span (.untypedInteger 1))) (some (.prim .untypedInteger)) := by
      rfl
    rw [emit, passes_emitAs_iff hk htype (hassign.2 hnumeric) rfl, and_iff_right hnumeric]
    simp only [emitValue, hk, hone]
    rfl
  · refine iff_of_false (fun h => ?_) fun h => hnumeric h.1
    obtain ⟨u, hu, hfits⟩ := fits_of_emit h
    cases passes_pure.1 hu
    exact hnumeric (hassign.1 hfits)

end Code

/-! ### Statements -/

namespace Compiling

variable {ctx : Context} {place : Place} {vs vs' : Variables} {code : Fragment}

/-- What one update of a variable makes, another one makes as well. -/
theorem passes_update_mono (hv : vs.find? x.name = some v) (hk : v.type.primitive = .kind k)
    (ha : actionCode ctx place ⟨span, a⟩ = check ctx fun s => emitUpdate s ctx.debug (.root (.name x)) u span)
    (hb : actionCode ctx place ⟨span, b⟩ = check ctx fun s => emitUpdate s ctx.debug (.root (.name x)) w span)
    (hmakes : ∀ g, u.problem? v.type.primitive = none → (u.emitValue ⟨ctx.api, vs⟩ v.type).Passes g →
      ∃ g', w.problem? v.type.primitive = none ∧ (w.emitValue ⟨ctx.api, vs⟩ v.type).Passes g' ∧
        Fragment.assign v k u g = .assign v k w g') (h : Passes (statement ctx place (.action ⟨span, a⟩)) vs code vs') :
    Passes (statement ctx place (.action ⟨span, b⟩)) vs code vs' := by
  have hvar : Object.var? vs (.root (.name x)) = some (x.name, v) := by
    rw [Object.var?, hv]
    rfl
  unfold statement action at ⊢
  obtain ⟨made, vs₁, hmade, hrest⟩ := h.parts
  rw [ha] at hmade
  obtain ⟨hmade, rfl⟩ := passes_check hmade
  have hsame : (emitUpdate ⟨ctx.api, vs₁⟩ ctx.debug (.root (.name x)) w span).Passes made := by
    simp only [emitUpdate, hvar, passes_emitVariableUpdate hk] at hmade ⊢
    obtain ⟨g, hproblem, hg, rfl⟩ := hmade
    obtain ⟨g', hproblem', hg', heq⟩ := hmakes g hproblem hg
    exact ⟨g', hproblem', hg', by rw [heq]⟩
  show StateT.bind (actionCode ctx place ⟨span, b⟩) _ ⟨vs₁, #[]⟩ = _
  rw [hb]
  unfold StateT.bind check
  dsimp only
  rw [show emitUpdate _ _ _ _ _ #[] = (made, #[]) from hsame]
  exact hrest

theorem assign_operator (v : Variable) (k : Kind) (op : ArithOp) (e e' : Expr) (g : Fragment) :
    Fragment.assign v k (.assign (some op) e) g =
      .assign v k (.assign none e') (.opcode (resultOpcode (.arith op) v.type) ++ .read v ++ g) := by
  show Fragment.opcode .assign ++ .kind k ++ .place v ++ .opcode (resultOpcode (.arith op) v.type) ++ .read v ++ g =
    Fragment.opcode .assign ++ .kind k ++ .place v ++ (.opcode (resultOpcode (.arith op) v.type) ++ .read v ++ g)
  simp only [Fragment.append_assoc]

/-- An assignment to a variable by an operator means, and makes, the assignment of what the operator gives; and a
step is such an assignment with one. -/
theorem shorthand (ctx : Context) (place : Place) {vs : Variables} (hvs : vs.Formed) {x : Ident} {v : Variable}
    (hv : vs.find? x.name = some v) (span : Span) (code : Fragment) (vs' : Variables) :
    (∀ op e opSpan nameSpan, Passes (statement ctx place (.action ⟨span, .assign (.root (.name x)) (some op) e⟩)) vs code vs' ↔
      Passes (statement ctx place (.action ⟨span, .assign (.root (.name x)) none
        (.binary opSpan (.arith op) (.object nameSpan (.root (.name x))) e)⟩)) vs code vs') ∧
    ∀ down oneSpan, Passes (statement ctx place (.action ⟨span, .step (.root (.name x)) down⟩)) vs code vs' ↔
      Passes (statement ctx place (.action ⟨span, .assign (.root (.name x)) (some (if down then .sub else .add))
        (.literal oneSpan (.untypedInteger 1))⟩)) vs code vs' := by
  obtain ⟨k, hk⟩ := (hvs.find hv).2
  refine ⟨fun op e opSpan nameSpan => ⟨passes_update_mono hv hk rfl rfl fun g hproblem hg => ?_,
      passes_update_mono hv hk rfl rfl fun f _ hf => ?_⟩,
    fun down oneSpan => ⟨passes_update_mono hv hk rfl rfl fun g hproblem hg => ?_,
      passes_update_mono hv hk rfl rfl fun g _ hg => ?_⟩⟩
  · exact ⟨_, rfl, (passes_emit_operator hv hk).2 ⟨hproblem, g, hg, rfl⟩, assign_operator v k op e _ g⟩
  · obtain ⟨hproblem, g, hg, rfl⟩ := (passes_emit_operator hv hk).1 hf
    exact ⟨g, hproblem, hg, (assign_operator v k op e _ g).symm⟩
  · refine ⟨g, ?_, (passes_emit_one hk).2 ⟨hproblem, hg⟩, rfl⟩
    revert hproblem
    cases down <;> simp +contextual [problem?, op?, ArithOp.isBitwise]
  · obtain ⟨hproblem, hg⟩ := (passes_emit_one hk).1 hg
    exact ⟨g, hproblem, hg, rfl⟩

/-! ### A counter -/

namespace Shorthand

def here : Span := ⟨0, 0, 0⟩

def x : Ident := ⟨"x", here⟩

def counter : Variable := ⟨.prim (.kind (.int .int32)), 0, here⟩

/-- One variable, `int32 x`. -/
def scope : Variables := ⟨⟨#[("x", counter)], .none⟩, [], ⟨4, 0⟩, ⟨4, 0⟩⟩

/-- No declarations, and code for a debugger. -/
def context : Context := ⟨#[], ⟨[], []⟩, true⟩

/-- `x += 2` -/
def added : Statement := .action ⟨here, .assign (.root (.name x)) (some .add) (.literal here (.untypedInteger 2))⟩

/-- `x = x + 2` -/
def assigned : Statement := .action ⟨here, .assign (.root (.name x)) none
  (.binary here (.arith .add) (.object here (.root (.name x))) (.literal here (.untypedInteger 2)))⟩

theorem shorthand_counter : scope.Formed ∧ scope.find? "x" = some counter ∧
    ∃ code, code.bytes = #[43, 0, 0, 35, 3, 0, 0, 7, 6, 0, 0, 2, 2, 0, 0, 0, 44, 120, 0, 3, 6, 0, 0] ∧
      Passes (statement context ⟨false, false⟩ added) scope code scope ∧
      Passes (statement context ⟨false, false⟩ assigned) scope code scope := by
  have hformed : scope.Formed := by
    intro frame hframe e he
    cases List.mem_singleton.1 hframe
    cases List.mem_singleton.1 he
    exact ⟨by decide, _, rfl⟩
  have hadded : Passes (statement context ⟨false, false⟩ added) scope
      (statement context ⟨false, false⟩ added ⟨scope, #[]⟩).1 scope := by rfl
  exact ⟨hformed, rfl, _, by decide +kernel, hadded, ((shorthand context _ hformed rfl here _ _).1 .add _ here here).1 hadded⟩

end Shorthand

end Compiling

end HostScript

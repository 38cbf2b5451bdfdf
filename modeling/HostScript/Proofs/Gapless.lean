import HostScript.Proofs.Emits

/-! Code without gaps.

Code for an expression is made operand by operand, and where a part has no type that values can
have the rest of it is left out without a word. Typing reports every such part but one: the result
of a function that returns nothing, compared by `==` or `!=` or given to a cast. So code that comes
with no report is the code of a whole tree exactly when nothing of that kind is asked for. -/
namespace HostScript

open Check

variable {s : Scope} {span : Span} {t : Ty}

namespace Ask

/-- Nothing without a value is compared or cast. -/
def Valued (asks : List Ask) : Prop := ∀ a ∈ asks, a.hasVoidOperand = false

theorem valued_nil : Valued [] := nofun

theorem Valued.append (ha : Valued as) (hb : Valued bs) : Valued (as ++ bs) :=
  fun a h => (List.mem_append.1 h).elim (ha a) (hb a)

theorem valued_asking (h : hasVoidOperand ⟨s, e, t⟩ = false) (hparts : Valued parts) : Valued (e.asking s t parts) := by
  unfold Expr.asking
  split
  · exact valued_nil
  · exact List.forall_mem_cons.2 ⟨h, hparts⟩

/-- What is known becomes a literal, and nothing is asked of it. -/
theorem valued_known (h : Passes (fold e) (some l)) : Valued (e.asks s t) := by
  have hknown : e.known?.isSome = true := by
    unfold Expr.known?
    rw [h.fst]
    rfl
  have hasking : ∀ parts, Valued (e.asking s t parts) := fun parts => by
    unfold Expr.asking
    rw [if_pos hknown]
    exact valued_nil
  cases e with
  | literal span value => unfold Expr.asks; exact valued_nil
  | object _ _ | parens _ _ | cast _ _ _ | unary _ _ _ | binary _ _ _ _ | ternary _ _ _ _ =>
    exact hasking _

end Ask

open Ask

theorem Primitive.reconcile_void_right {l p : Primitive} (h : l.reconcile .void = some p) : p = .void := by
  by_cases heq : l = .void
  · rw [Primitive.reconcile, if_pos heq] at h
    exact (Option.some.inj h).symm.trans heq
  · rw [Primitive.reconcile, if_neg heq] at h
    simp [Primitive.isNumeric] at h

/-- What is compared as a value of a kind has a value. -/
theorem ne_void_of_comparison (ht : Passes (comparisonType span op l r) (some t))
    (hk : (comparisonOperandTypes span op l r).1.primitive = .kind k) : l ≠ .prim .void ∧ r ≠ .prim .void := by
  have hnone : ∀ p, l.primitive.reconcile r.primitive = some p → t = .prim p → p ≠ .void := by
    rintro _ - rfl rfl
    unfold comparisonOperandTypes at hk
    rw [ht.fst] at hk
    cases hk
  obtain ⟨hl, hr, -⟩ | ⟨hcombined, -⟩ := passes_comparisonType ht
  · constructor
    · rintro rfl
      cases hl
    · rintro rfl
      cases hr
  · obtain ⟨p, htp, hp⟩ := passes_combinedType hcombined
    refine ⟨fun h => hnone p hp htp ?_, fun h => hnone p hp htp ?_⟩
    · rw [h] at hp
      exact Primitive.reconcile_void hp
    · rw [h] at hp
      exact Primitive.reconcile_void_right hp

theorem operand_valued {type : TypeRef} (h : Passes (typeOf s operand) (some source)) (hvalue : source ≠ .prim .void) :
    hasVoidOperand ⟨s, .cast span type operand, t⟩ = false := by
  simp [hasVoidOperand, show operand.type? s = some source from h.fst, hvalue]

mutual
/-- Nothing in a tree stands for what has no value. -/
theorem Emits.valued : Emits .full s e u n → Valued (e.asks s u)
  | .literal hl _ _ => valued_known hl
  | .object _ hobject => valued_asking rfl hobject.valued
  | .parens _ hinner => valued_asking rfl hinner.valued
  | @Emits.castSame _ _ _ operand _ _ _ _ source _ hkind hsource hsame hoperand => by
    have hvalue : source ≠ .prim .void := by
      rintro rfl
      obtain hsame | hsame := hsame
      · cases hsame.trans hkind
      · cases hsame
    unfold Expr.asks
    rw [show operand.type? s = some source from hsource.fst]
    exact valued_asking (operand_valued hsource hvalue) hoperand.valued
  | @Emits.cast _ _ _ operand _ _ _ _ type source _ _ hsource hj _ hoperand => by
    have hvalue : source ≠ .prim .void := by
      rintro rfl
      cases hj
    have htypes : castOperandType source type.type = source := by
      simp [castOperandType, hj, Primitive.isUntyped]
    unfold Expr.asks
    rw [show operand.type? s = some source from hsource.fst]
    refine valued_asking (operand_valued hsource hvalue) ?_
    dsimp only
    rw [htypes]
    exact hoperand.valued
  | .not _ hoperand => valued_asking rfl hoperand.valued
  | .negate _ hoperand => valued_asking rfl hoperand.valued
  | .complement _ hoperand => valued_asking rfl hoperand.valued
  | .arith _ hleft hright => valued_asking rfl (hleft.valued.append hright.valued)
  | .and _ hleft hright => valued_asking rfl (hleft.valued.append hright.valued)
  | .or _ hleft hright => valued_asking rfl (hleft.valued.append hright.valued)
  | .coalesce _ hleft hright => valued_asking rfl (hleft.valued.append hright.valued)
  | @Emits.compare _ _ _ _ left right _ l r _ _ _ hleaves hl hr hkl hkr hleft hright => by
    obtain ⟨u, htype, -⟩ := hleaves.fits
    obtain ⟨l', r', hl', hr', -, w, hw⟩ := passes_typeOf_binary htype (by simp)
    cases hl.symm.trans hl'
    cases hr.symm.trans hr'
    obtain ⟨hlv, hrv⟩ := ne_void_of_comparison hw hkl
    unfold Expr.asks
    dsimp only
    rw [show left.type? s = some l from hl.fst, show right.type? s = some r from hr.fst]
    refine valued_asking ?_ (hleft.valued.append hright.valued)
    simp [hasVoidOperand, show left.type? s = some l from hl.fst, show right.type? s = some r from hr.fst, hlv, hrv]
  | @Emits.chosen _ _ _ _ _ _ _ b _ _ hchoice hbranch => by
    unfold Expr.asks
    rw [knownBool_of_choice hchoice]
    refine valued_asking rfl ?_
    cases b with
    | true => exact hbranch.valued
    | false => exact hbranch.valued
  | .ternary _ hchoice hcondition hyes hno => by
    unfold Expr.asks
    rw [knownBool_of_choice hchoice]
    exact valued_asking rfl ((hcondition.valued.append hyes.valued).append hno.valued)

theorem EmitsObject.valued : EmitsObject .full s o n → Valued (o.asks s)
  | .read hv _ => by
    unfold Object.asks
    rw [hv]
    exact valued_nil
  | .global hv haccess => by
    unfold Object.asks
    rw [hv]
    exact haccess.valued
  | @EmitsObject.member _ _ _ _ _ _ _ owner _ hname howner haccess => by
    unfold Object.asks
    rw [show owner.type? s = _ from hname.fst]
    exact howner.valued.append haccess.valued
  | @EmitsObject.index _ _ index _ _ _ _ _ owner _ _ hname ht hi _ howner hindex => by
    unfold Object.asks
    rw [show owner.type? s = _ from hname.fst, show index.type? s = _ from ht.fst]
    dsimp only
    rw [hi.fst]
    exact howner.valued.append hindex.valued

theorem EmitsAccess.valued : EmitsAccess .full s owner a d args → Valued (a.asks s owner)
  | .name _ => valued_nil
  | .call htypes hf _ hargs => by
    unfold Access.asks
    rw [htypes.fst, mapM_id_map_some]
    dsimp only
    rw [hf.fst]
    exact hargs.valued

theorem EmitsArgs.valued : EmitsArgs .full s es types declared args → Valued (Expr.argumentAsks s es types declared)
  | .nil => valued_nil
  | .cons _ he hrest => he.valued.append hrest.valued
end

/-- The code of every tree starts with an instruction. -/
theorem Node.pieces_head (n : Node) : ∃ op rest, n.pieces = .op op :: rest := by
  cases n <;> exact ⟨_, _, rfl⟩

/-- Code that comes with no report is whole, each instruction in it with the code of all its operands,
exactly when no operand of `==`, `!=` or a cast that code is made for has no value. -/
theorem whole_iff_valued {s : Scope} (hs : s.Formed) {e : Expr} (he : e.Formed) {t : Ty} {k : Kind}
    (hk : t.primitive = .kind k) {f : Fragment} (h : Passes (emit s e t) f) :
    (∃ n op rest, Emits .full s e t n ∧ f = .ofPieces n.pieces ∧ n.pieces = .op op :: rest) ↔
      ∀ a ∈ e.asks s t, a.hasVoidOperand = false := by
  constructor
  · rintro ⟨n, -, -, hn, -, -⟩
    exact hn.valued
  · intro hvalued
    have hpermits : Rules.Permits ⟨fun _ _ => True, True⟩ (e.asks s t) := fun a ha => ⟨hvalued a ha, fun _ => trivial⟩
    obtain ⟨n, hf, hn⟩ := emit_emits hs e he hk hpermits h
    obtain ⟨op, rest, hpieces⟩ := n.pieces_head
    exact ⟨n, op, rest, hn, hf, hpieces⟩

/-! ### Functions that return nothing -/

namespace Gapless

def here : Span := ⟨0, 0, 0⟩

/-- The members of the host: `bool f()` and `void g()`. -/
def asking : FunctionDecl := ⟨⟨.bool, here⟩, ⟨"f", here⟩, [], false, here⟩

def telling : FunctionDecl := ⟨⟨.prim .void, here⟩, ⟨"g", here⟩, [], false, here⟩

def scope : Scope := ⟨⟨[], [.function asking, .function telling]⟩, .empty⟩

theorem formed_scope : scope.Formed where
  api := ⟨nofun, by
    intro m hm
    obtain rfl | rfl : m = .function asking ∨ m = .function telling := by simpa [scope] using hm
    · exact ⟨nofun, .inl ⟨.bool, rfl⟩⟩
    · exact ⟨nofun, .inr rfl⟩⟩
  vars := by
    intro frame hframe e he
    obtain rfl := List.mem_singleton.1 hframe
    cases he

/-- A call without arguments. -/
def call (name : String) : Expr := .object here (.root (.call here ⟨name, here⟩ []))

def equal (l r : Expr) : Expr := .binary here (.compare .eq) l r

def int8 : Ty := .prim (.kind (.int .int8))

/-- `f() == f()` -/
def answers : Expr := equal (call "f") (call "f")

def answersTree : Node := .compare .eq .bool (.call .global "GLOBAL_f" .nil) (.call .global "GLOBAL_f" .nil)

theorem whole_answers :
    Passes (emit scope answers .bool) (.ofPieces answersTree.pieces) ∧
      ∃ n op rest, Emits .full scope answers .bool n ∧ Fragment.ofPieces answersTree.pieces = .ofPieces n.pieces ∧
        n.pieces = .op op :: rest := by
  have hemit : Passes (emit scope answers .bool) (.ofPieces answersTree.pieces) := by
    show @Eq (Fragment × Reports) (emit scope answers .bool #[]) (.ofPieces answersTree.pieces, #[])
    decide +kernel
  exact ⟨hemit, (whole_iff_valued formed_scope (e := answers) ⟨trivial, trivial⟩ rfl hemit).2 (by decide +kernel)⟩

/-- Of a comparison or a cast of what has no value nothing is made, and nothing is reported. -/
theorem nothing_made :
    Passes (emit scope (equal (call "g") (call "g")) .bool) ∅ ∧
      Passes (emit scope (.cast here ⟨int8, here⟩ (call "g")) int8) ∅ ∧
      ∀ n : Node, Fragment.ofPieces n.pieces ≠ ∅ := by
  refine ⟨by rfl, by rfl, fun n hn => ?_⟩
  obtain ⟨op, rest, hpieces⟩ := n.pieces_head
  have hsize := congrArg Fragment.size hn
  rw [Fragment.size_ofPieces, hpieces] at hsize
  cases hsize

end Gapless

end HostScript

import HostScript.Proofs.Formed
import HostScript.Proofs.Known
import HostScript.Proofs.Tree

/-! The trees that code is made from.

`Emits` relates an expression to the tree whose code stands for it where a type is
expected, one rule for each kind of expression. How much of what is known before a run
is put to use is a parameter: with `Folding.full` an expression that is known becomes a
literal, with `Folding.off` only what is written as a literal is one. The code that the
compiler makes is that of a tree with full folding (`emit_emits`). -/
namespace HostScript

open Check Fragment Primitive List Option

/-! ### Reports stay -/

instance plain_emitAs {s : Scope} {e : Expr} {expected : Ty} {emit : Ty → Check Fragment} [∀ t, Plain (emit t)] :
    Plain (emitAs s e expected emit) := by
  unfold emitAs
  infer_instance

instance {span : Span} {op : CompareOp} {l r : Ty} {left right : Ty → Check Fragment}
    [∀ t, Plain (left t)] [∀ t, Plain (right t)] : Plain (emitComparison span op l r left right) := by
  refine .bind inferInstance fun t => ?_
  repeat' first | infer_instance | split

instance {api : Api} {span : Span} {source target : Ty} {operand : Ty → Check Fragment}
    [∀ t, Plain (operand t)] : Plain (emitCast api span source target operand) := by
  unfold emitCast
  repeat' first | infer_instance | split

instance (span : Span) (declared : Option Ty) (actual : Ty) : Answers (argumentType span declared actual) := by
  unfold argumentType
  split <;> infer_instance

mutual
instance plain_emit (s : Scope) : (e : Expr) → (t : Ty) → Plain (emit s e t)
  | .literal span value, t => by
    unfold emit
    infer_instance
  | .object span object, t => by
    have := plain_emitObject s object
    unfold emit
    infer_instance
  | .parens span inner, t => by
    have := plain_emit s inner
    unfold emit
    infer_instance
  | .cast span type operand, t => by
    have := plain_emit s operand
    unfold emit
    infer_instance
  | .unary span op operand, t => by
    have := plain_emit s operand
    unfold emit
    cases op <;> infer_instance
  | .binary span op left right, t => by
    have := plain_emit s left
    have := plain_emit s right
    unfold emit
    cases op <;> infer_instance
  | .ternary span condition yes no, t => by
    have := plain_emit s condition
    have := plain_emit s yes
    have := plain_emit s no
    exact @plain_emitAs _ _ _ _ fun _ => .bind inferInstance fun _ => by split <;> infer_instance

instance plain_emitObject (s : Scope) : (o : Object) → (used : Bool) → Plain (emitObject s o used)
  | .root access, used => by
    have := fun target [Plain target] => plain_emitAccess s none target access
    unfold emitObject
    split <;> infer_instance
  | .member _ owner access, used => by
    have := plain_emitObject s owner
    have := fun name target [Plain target] => plain_emitAccess s (some name) target access
    unfold emitObject
    infer_instance
  | .index span owner index, used => by
    have := plain_emitObject s owner
    have := plain_emit s index
    repeat' first | infer_instance | refine .bind inferInstance fun _ => ?_ | split

instance plain_emitAccess (s : Scope) (owner : Option String) (target : Check Fragment) [Plain target] :
    (a : Access) → (used : Bool) → Plain (emitAccess s owner target a used)
  | .name ident, used => by
    unfold emitAccess
    infer_instance
  | .call span ident args, used => by
    have := plain_emitArguments s args
    exact .bind inferInstance fun _ => by split <;> infer_instance

instance plain_emitArguments (s : Scope) : (es : List Expr) → (types declared : List Ty) → (code : Fragment) →
    Plain (emitArguments s es types declared code)
  | e :: rest, actual :: types, declared, code => by
    have := plain_emit s e
    have := plain_emitArguments s rest
    repeat' first | infer_instance | refine .bind inferInstance fun _ => ?_ | split
  | [], _, _, _ | _ :: _, [], _, _ => by
    unfold emitArguments
    infer_instance
end

/-! ### Trees -/

def Node.ofLiteral : Literal → Node
  | .bool b => .bool b
  | .null => .null
  | l => .literal l.value

/-- How much of what is known before a run is put to use. -/
structure Folding where
  /-- The literal that takes the place of an expression. -/
  literal : Expr → Check (Option Literal)
  /-- The way that a choice is known to go. -/
  choice : Expr → Check (Option Bool)

namespace Folding

/-- Whatever is known is used. -/
def full : Folding where
  literal := fold
  choice condition := do return (← fold condition).bind Literal.bool?

/-- Nothing is computed: literals are those that are written. -/
def off : Folding where
  literal
    | .literal _ value => return some value
    | _ => return none
  choice _ := return none

end Folding

theorem knownBool_eq (h : Passes (fold c) o) : c.knownBool? = o.bind Literal.bool? := by
  unfold Expr.knownBool? Expr.known?
  rw [h.fst]

theorem knownBool_of_choice (h : Passes (Folding.full.choice c) b) : c.knownBool? = b := by
  obtain ⟨_, hc, hb⟩ := h.parts
  rw [knownBool_eq hc]
  exact passes_pure.1 hb

/-- The tree of an operator with a result of a type. -/
def Node.ofArith (op : ArithOp) (t : Ty) (l r : Node) : Node :=
  if op = .add ∧ t.primitive = .kind .string then .concat l r else .arith op l r

/-- The expression may stand where the type is expected. -/
def Scope.Fits (s : Scope) (e : Expr) (t : Ty) : Prop :=
  ∃ u, Passes (typeOf s e) (some u) ∧ s.api.assignable u t = true

/-- The expression may stand where the type is expected, and no literal takes its place. -/
structure Folding.Leaves (F : Folding) (s : Scope) (e : Expr) (t : Ty) : Prop where
  unknown : Passes (F.literal e) none
  fits : s.Fits e t

mutual
/-- The tree that code for an expression is made from where a type is expected. -/
inductive Emits (F : Folding) (s : Scope) : Expr → Ty → Node → Prop
  | literal {t : Ty} {l : Literal} (hl : Passes (F.literal e) (some l)) (hfits : s.Fits e t)
      (hcast : l.cast t.primitive = .ok m) : Emits F s e t (.ofLiteral m)
  | object (h : F.Leaves s (.object sp o) t) (hobject : EmitsObject F s o n) : Emits F s (.object sp o) t n
  | parens (h : F.Leaves s (.parens sp e) t) (hinner : Emits F s e t n) : Emits F s (.parens sp e) t n
  /-- A cast that changes nothing at run time. -/
  | castSame {type : TypeRef} {source : Ty} (h : F.Leaves s (.cast sp type operand) t)
      (hkind : type.type.primitive = .kind k) (hsource : Passes (typeOf s operand) (some source))
      (hsame : source.primitive = type.type.primitive ∨ source.primitive.isUntyped = true)
      (hoperand : Emits F s operand (castOperandType source type.type) n) : Emits F s (.cast sp type operand) t n
  | cast {type : TypeRef} {source : Ty} (h : F.Leaves s (.cast sp type operand) t)
      (hkind : type.type.primitive = .kind k) (hsource : Passes (typeOf s operand) (some source))
      (hj : source.primitive = .kind j) (hne : source.primitive ≠ type.type.primitive)
      (hoperand : Emits F s operand source n) : Emits F s (.cast sp type operand) t (.cast j n)
  | not (h : F.Leaves s (.unary sp .not operand) t) (hoperand : Emits F s operand .bool n) :
      Emits F s (.unary sp .not operand) t (.not n)
  | negate (h : F.Leaves s (.unary sp .negate operand) t) (hoperand : Emits F s operand t n) :
      Emits F s (.unary sp .negate operand) t (.negate n)
  | complement (h : F.Leaves s (.unary sp .complement operand) t)
      (hoperand : Emits F s operand t n) : Emits F s (.unary sp .complement operand) t (.complement n)
  | arith (h : F.Leaves s (.binary sp (.arith op) left right) t) (hleft : Emits F s left t m)
      (hright : Emits F s right t n) : Emits F s (.binary sp (.arith op) left right) t (.ofArith op t m n)
  | compare (h : F.Leaves s (.binary sp (.compare op) left right) t)
      (hl : Passes (typeOf s left) (some l)) (hr : Passes (typeOf s right) (some r))
      (hkl : (comparisonOperandTypes sp op l r).1.primitive = .kind k)
      (hkr : (comparisonOperandTypes sp op l r).2.primitive = .kind k)
      (hleft : Emits F s left (comparisonOperandTypes sp op l r).1 m)
      (hright : Emits F s right (comparisonOperandTypes sp op l r).2 n) :
      Emits F s (.binary sp (.compare op) left right) t (.compare op k m n)
  | and (h : F.Leaves s (.binary sp .and left right) t) (hleft : Emits F s left .bool m)
      (hright : Emits F s right .bool n) : Emits F s (.binary sp .and left right) t (.and m n)
  | or (h : F.Leaves s (.binary sp .or left right) t) (hleft : Emits F s left .bool m)
      (hright : Emits F s right .bool n) : Emits F s (.binary sp .or left right) t (.or m n)
  | coalesce (h : F.Leaves s (.binary sp .coalesce left right) t) (hleft : Emits F s left t m)
      (hright : Emits F s right t n) : Emits F s (.binary sp .coalesce left right) t (.coalesce m n)
  | chosen (h : F.Leaves s (.ternary sp condition yes no) t) (hchoice : Passes (F.choice condition) (some b))
      (hbranch : Emits F s (if b then yes else no) t n) : Emits F s (.ternary sp condition yes no) t n
  | ternary (h : F.Leaves s (.ternary sp condition yes no) t) (hchoice : Passes (F.choice condition) none)
      (hcondition : Emits F s condition .bool l) (hyes : Emits F s yes t m) (hno : Emits F s no t n) :
      Emits F s (.ternary sp condition yes no) t (.ternary l m n)

/-- The tree of a chain of names, calls and subscripts. -/
inductive EmitsObject (F : Folding) (s : Scope) : Object → Node → Prop
  | read {access : Access} {v : Variable} (hv : access.var? s.vars = some v) (hk : v.type.primitive = .kind k) :
      EmitsObject F s (.root access) (.variable k v.address)
  | global {access : Access} (hv : access.var? s.vars = none) (haccess : EmitsAccess F s none access d args) :
      EmitsObject F s (.root access) (.call .global d args)
  | member {owner : Object} {name : String} (hname : Passes (objectType s owner) (some (.object name)))
      (howner : EmitsObject F s owner n) (haccess : EmitsAccess F s (some name) access d args) :
      EmitsObject F s (.member sp owner access) (.call (.of n) d args)
  | index {owner : Object} {name : String} {i : Member SubscriptDecl}
      (hname : Passes (objectType s owner) (some (.object name))) (ht : Passes (typeOf s index) (some t))
      (hi : Passes (s.indexer name t sp) (some i)) (hk : i.decl.index.type.primitive = .kind k)
      (howner : EmitsObject F s owner m) (hindex : Emits F s index i.decl.index.type n) :
      EmitsObject F s (.index sp owner index) (.subscript m k n)

/-- The member that a property or a call means, and its arguments. -/
inductive EmitsAccess (F : Folding) (s : Scope) : Option String → Access → String → Args → Prop
  | name {owner : Option String} {ident : Ident} {p : Member PropertyDecl}
      (hp : Passes (s.property owner ident) (some p)) : EmitsAccess F s owner (.name ident) p.propertyDescriptor .nil
  | call {owner : Option String} {ident : Ident} {es : List Expr} {types : List Ty} {f : Member FunctionDecl}
      (htypes : Passes (typesOf s es) (types.map some)) (hf : Passes (s.callee owner ident types) (some f))
      (hlength : es.length ≤ 255) (hargs : EmitsArgs F s es types f.decl.types args) :
      EmitsAccess F s owner (.call sp ident es) f.functionDescriptor args

/-- Arguments, each as the type of its parameter or as its own beyond the last one. -/
inductive EmitsArgs (F : Folding) (s : Scope) : List Expr → List Ty → List Ty → Args → Prop
  | nil : EmitsArgs F s [] types declared .nil
  | cons {declared : List Ty} (hk : (declared.head?.getD actual).primitive = .kind k)
      (he : Emits F s e (declared.head?.getD actual) n) (hrest : EmitsArgs F s rest types declared.tail args) :
      EmitsArgs F s (e :: rest) (actual :: types) declared (.cons k n args)
end

/-! ### Steps taken apart -/

/-- Nothing without a value is compared or cast, and bits of floating-point numbers are asked for
only where the rules allow it. -/
def Rules.Permits (R : Rules) (asks : List Ask) : Prop :=
  ∀ a ∈ asks, a.hasVoidOperand = false ∧ (a.wantsFloatBits = true → R.floatBits)

variable {used : Bool} {index left operand right : Expr} {rest : List Expr} {p : Primitive} {source target : Ty} {v : Variable}
  {op : CompareOp} {e : Expr} {f : Fragment} {k : Kind} {declared types : List Ty} {owner : Object} {s : Scope}
  {span : Span} {l r t : Ty}

namespace Rules

variable {R : Rules}

theorem permits_append : R.Permits (as ++ bs) ↔ R.Permits as ∧ R.Permits bs :=
  forall_mem_append

theorem permits_asking (hk : e.known? = none) (h : R.Permits (e.asking s t parts)) :
    (Ask.mk s e t).hasVoidOperand = false ∧ ((Ask.mk s e t).wantsFloatBits = true → R.floatBits) ∧ R.Permits parts := by
  rw [Expr.asking, hk] at h
  have hself := h _ (mem_cons_self ..)
  exact ⟨hself.1, hself.2, fun a ha => h a (mem_cons_of_mem _ ha)⟩

end Rules

theorem pieces_ofLiteral (l : Literal) : literal l = .ofPieces (Node.ofLiteral l).pieces := by
  cases l with
  | bool b => cases b <;> rfl
  | null => rfl
  | _ =>
    simp [literal, Node.ofLiteral, Node.pieces, Literal.value, Value.encoded, ofPieces,
      Piece.op, Piece.bytes, Piece.marksFrom, Piece.mark?]

theorem place_coded (hk : v.type.primitive = .kind k) : place v = .ofPieces [.variable k v.address] := by
  have hstring : v.isString = decide (k = .string) := by
    unfold Variable.isString
    rw [hk]
    by_cases h : k = .string <;> simp [h]
  rw [← ofPieces_place, hstring]
  rfl

theorem read_coded (hk : v.type.primitive = .kind k) :
    Fragment.read v = .ofPieces (Node.variable k v.address).pieces := by
  rw [Fragment.read, place_coded hk, ← Fragment.ofPieces_opcode, ← Fragment.ofPieces_append]
  rfl

/-- The expression is known, and its code is that of a literal of the expected type. -/
def BecomesLiteral (s : Scope) (e : Expr) (t : Ty) (f : Fragment) : Prop :=
  ∃ l m, Passes (fold e) (some l) ∧ s.Fits e t ∧ l.cast t.primitive = .ok m ∧ f = .literal m

/-- What is checked of every expression. What is known becomes a literal. -/
theorem passes_emitAs {emit : Ty → Check Fragment} (h : Passes (emitAs s e t emit) f) (hemit : ∀ u, Plain (emit u)) :
    BecomesLiteral s e t f ∨ ∃ u, Passes (typeOf s e) (some u) ∧ Folding.full.Leaves s e t ∧ Passes (emit u) f := by
  unfold emitAs at h
  split at h
  · exact absurd h (not_passes_report_bind _ _ _)
  · obtain ⟨u, hu, h⟩ := h.found
    dsimp only at h
    split at h
    · exact absurd h (not_passes_report_bind _ _ _)
    · rename_i hassign
      have hfits : s.Fits e t := ⟨u, hu, by simpa using hassign⟩
      obtain ⟨l, hl, h⟩ := h.parts
      cases l with
      | none => exact .inr ⟨u, hu, ⟨hl, hfits⟩, h⟩
      | some l =>
        obtain ⟨m, hm, h⟩ := h.found
        obtain ⟨m, hcast, hm'⟩ := passes_converted hm
        cases hm'
        exact .inl ⟨l, m, hl, hfits, hcast, (passes_pure.1 h).symm⟩

theorem Ty.eq_void (h : t.primitive = .void) : t = .prim .void := by
  cases t with
  | prim p => exact congrArg Ty.prim h
  | object name => cases h

/-- What is no number combines only with itself. -/
theorem Primitive.reconcile_nonnumeric {l r : Primitive} (h : l.reconcile r = some p) (hp : p.isNumeric = false) :
    l = p ∧ r = p := by
  by_cases heq : l = r
  · subst heq
    rw [reconcile, if_pos rfl] at h
    cases h
    exact ⟨rfl, rfl⟩
  · have hboth : l.isNumeric = true ∧ r.isNumeric = true := by
      rw [reconcile, if_neg heq] at h
      split at h
      · cases h
      · rename_i hn
        simpa using hn
    rw [reconcile_numeric hboth.1 hboth.2 h] at hp
    cases hp

theorem Primitive.reconcile_void {r : Primitive} (h : void.reconcile r = some p) : p = .void := by
  by_cases heq : void = r
  · rw [reconcile, if_pos heq] at h
    exact (Option.some.inj h).symm
  · rw [reconcile, if_neg heq] at h
    cases h

theorem passes_comparisonType (h : Passes (comparisonType span op l r) (some t)) :
    (l.primitive = .kind .pointer ∧ r.primitive = .kind .pointer ∧ t = .null) ∨
      Passes (combinedType span l r) (some t) ∧ (op.isOrdering = true → t.primitive.isNumeric = true) := by
  unfold comparisonType at h
  split at h
  · rename_i hp
    split at h
    · exact absurd h (not_passes_refuse _ _ _)
    · exact .inl ⟨hp.1, hp.2, (Option.some.inj (passes_pure.1 h)).symm⟩
  · obtain ⟨u, hu, h⟩ := h.found
    dsimp only at h
    split at h
    · exact absurd h (not_passes_refuse _ _ _)
    · rename_i hord
      cases passes_pure.1 h
      exact .inr ⟨hu, fun ho => by simpa [ho] using hord⟩

/-- Both sides are taken as the kind that the instruction names, or both are nothing. -/
theorem comparisonType_kind (hl : l.Proper) (hr : r.Proper)
    (h : Passes (comparisonType span op l r) (some t)) (hu : t.primitive.isUntyped = false) :
    (∃ k, l ≠ .prim .void ∧ t.primitive = .kind k ∧ (comparisonOperandTypes span op l r).1.primitive = .kind k ∧
        (comparisonOperandTypes span op l r).2.primitive = .kind k) ∨
      op.isOrdering = false ∧ l = .prim .void ∧ r = .prim .void ∧ t = .prim .void := by
  have htypes : comparisonOperandTypes span op l r =
      if t.primitive = .kind .pointer then (l, r) else (t, t) := by
    unfold comparisonOperandTypes
    rw [h.fst]
  rw [htypes]
  obtain ⟨hlp, hrp, rfl⟩ | ⟨hc, hord⟩ := passes_comparisonType h
  · refine .inl ⟨.pointer, ?_, rfl, hlp, hrp⟩
    rintro rfl
    cases hlp
  · obtain ⟨p, rfl, hp⟩ := passes_combinedType hc
    by_cases hvoid : p = .void
    · subst hvoid
      obtain ⟨hlv, hrv⟩ := reconcile_nonnumeric hp rfl
      refine .inr ⟨?_, Ty.eq_void hlv, Ty.eq_void hrv, rfl⟩
      cases ho : op.isOrdering with
      | false => rfl
      | true => exact absurd (hord ho) (by decide)
    · obtain ⟨k, hk⟩ := (proper_combinedType hl hr hc).hasKind hu hvoid
      refine .inl ⟨k, ?_, hk, ?_⟩
      · rintro rfl
        exact hvoid (reconcile_void hp)
      split
      · rename_i hptr
        have hkp : k = .pointer := by rw [hk] at hptr; cases hptr; rfl
        obtain rfl : p = .kind .pointer := hptr
        obtain ⟨h1, h2⟩ := reconcile_nonnumeric hp rfl
        exact ⟨hkp ▸ h1, hkp ▸ h2⟩
      · exact ⟨hk, hk⟩

/-- A comparison is made of both sides, each as the type it is taken as. For a comparison of nothing
with nothing there is no code. -/
theorem passes_emitComparison {left right : Ty → Check Fragment} (hl : l.Proper) (hr : r.Proper)
    [∀ t, Plain (left t)] [∀ t, Plain (right t)] (h : Passes (emitComparison span op l r left right) f) :
    (∃ k x y, l ≠ .prim .void ∧ (comparisonOperandTypes span op l r).1.primitive = .kind k ∧
      (comparisonOperandTypes span op l r).2.primitive = .kind k ∧
        Passes (left (comparisonOperandTypes span op l r).1) x ∧
          Passes (right (comparisonOperandTypes span op l r).2) y ∧ f = opcode (.compare op) ++ .kind k ++ x ++ y) ∨
      op.isOrdering = false ∧ l = .prim .void ∧ r = .prim .void ∧ f = ∅ := by
  obtain ⟨t, ht, h⟩ := h.foundOf ⟨fun _ => by repeat' first | infer_instance | split⟩
  dsimp only at h
  split at h
  · exact absurd h (not_passes_report_bind _ _ _)
  · rename_i huntyped
    obtain ⟨k, hne, hk, hkl', hkr'⟩ | ⟨hop, hlv, hrv, rfl⟩ := comparisonType_kind hl hr ht (by simpa using huntyped)
    · have htypes : comparisonOperandTypes span op l r = if k = .pointer then (l, r) else (t, t) := by
        unfold comparisonOperandTypes
        rw [ht.fst]
        simp only [hk, kind.injEq]
      rw [hk] at h
      dsimp only [kind?] at h
      have hboth : Passes (left (comparisonOperandTypes span op l r).1 >>= fun x =>
          right (comparisonOperandTypes span op l r).2 >>= fun y =>
            pure (opcode (.compare op) ++ .kind k ++ x ++ y)) f := by
        rw [htypes]
        by_cases hptr : k = .pointer
        · rw [if_pos hptr] at h ⊢
          exact h
        · rw [if_neg hptr] at h ⊢
          exact h
      obtain ⟨x, hx, h⟩ := hboth.parts
      obtain ⟨y, hy, h⟩ := h.parts
      exact .inl ⟨k, x, y, hne, hkl', hkr', hx, hy, (passes_pure.1 h).symm⟩
    · exact .inr ⟨hop, hlv, hrv, (passes_pure.1 h).symm⟩

/-- The operand of a cast that changes nothing at run time is of the kind that is cast to. -/
theorem castOperandType_kind (hk : target.primitive = .kind k)
    (h : source.primitive = target.primitive ∨ source.primitive.isUntyped = true) :
    (castOperandType source target).primitive = .kind k := by
  by_cases heq : source.primitive = target.primitive
  · simp [castOperandType, heq, hk]
  · rw [castOperandType, if_pos ⟨heq, h.resolve_left heq⟩, hk]

/-- A cast is made of its operand alone, or it has an instruction of its own. For a cast of nothing
there is no code. -/
theorem passes_emitCast {operand : Ty → Check Fragment} (hs : source.Proper)
    (h : Passes (emitCast api span source target operand) f) :
    ((source.primitive = target.primitive ∨ source.primitive.isUntyped = true) ∧
        Passes (operand (castOperandType source target)) f) ∨
      (∃ j g, source.primitive = .kind j ∧ source.primitive ≠ target.primitive ∧ Passes (operand source) g ∧
        f = opcode .typecast ++ .kind j ++ g) ∨ source = .prim .void ∧ source.primitive ≠ target.primitive ∧ f = ∅ := by
  have hsame : source.primitive = target.primitive → Passes (operand source) f →
      Passes (operand (castOperandType source target)) f := by
    intro heq hf
    rwa [show castOperandType source target = source by simp [castOperandType, heq]]
  unfold emitCast at h
  split at h
  · split at h
    · exact absurd h (not_passes_report_bind _ _ _)
    · exact .inl ⟨.inl rfl, hsame rfl h⟩
  · split at h
    · rename_i heq
      exact .inl ⟨.inl heq, hsame heq h⟩
    · rename_i hne
      split at h
      · exact absurd h (not_passes_report_bind _ _ _)
      · split at h
        · exact absurd h (not_passes_report_bind _ _ _)
        · split at h
          · rename_i hu
            split at h
            · refine .inl ⟨.inr hu, ?_⟩
              rwa [show castOperandType source target = target by simp [castOperandType, hne, hu]]
            · exact absurd h (not_passes_report_bind _ _ _)
          · rename_i hu
            by_cases hv : source.primitive = .void
            · rw [hv] at h
              exact .inr (.inr ⟨Ty.eq_void hv, hne, (passes_pure.1 h).symm⟩)
            · obtain ⟨j, hj⟩ := hs.hasKind (by simpa using hu) hv
              rw [hj] at h
              obtain ⟨g, hg, h⟩ := h.parts
              exact .inr (.inl ⟨j, g, hj, hne, hg, (passes_pure.1 h).symm⟩)

theorem opcode_append (op : Opcode) (ps : List Piece) : opcode op ++ .ofPieces ps = .ofPieces (.op op :: ps) := by
  rw [← ofPieces_opcode, ← ofPieces_append]
  rfl

/-- The subscript that an index means, with what is needed to find it. -/
theorem passes_indexer_bind {problem : Ty → Problem} {g : Member SubscriptDecl → Check α}
    (h : Passes (objectType s owner >>= fun t => Scope.ownerBefore span problem t >>= fun name =>
      match name with
      | some name => typeOf s index >>= fun t =>
        match t with
        | some t => s.indexer name t span >>= fun i =>
          match i with
          | some i => g i
          | _ => pure d
        | _ => pure d
      | _ => pure d) a) (hg : ∀ i, Plain (g i)) :
    ∃ name t i, Passes (objectType s owner) (some (.object name)) ∧ Passes (typeOf s index) (some t) ∧
      Passes (s.indexer name t span) (some i) ∧ Passes (g i) a := by
  obtain ⟨name, hname, h⟩ := passes_ownerBefore_bind h
  obtain ⟨t, ht, h⟩ := h.found
  obtain ⟨i, hi, h⟩ := h.found
  exact ⟨name, t, i, hname, ht, hi, h⟩

theorem passes_typesOf_cons (h : Passes (typesOf s (e :: rest)) (types.map some)) :
    ∃ t ts, types = t :: ts ∧ Passes (typeOf s e) (some t) ∧ Passes (typesOf s rest) (ts.map some) := by
  obtain ⟨t, ht, h⟩ := h.found
  obtain ⟨ts, hts, h⟩ := h.foundAll inferInstance
  have heq : (t :: ts).map some = types.map some := passes_pure.1 h
  exact ⟨t, ts, ((List.map_inj_right fun _ _ => Option.some.inj).1 heq).symm, ht, hts⟩

/-- The type that an argument is passed as is one of values. -/
theorem hasKind_argumentType (hd : ∀ t ∈ declared, t.HasKind) (ha : actual.Proper)
    (h : Passes (argumentType span declared.head? actual) (some t)) : t = declared.head?.getD actual ∧ t.HasKind := by
  unfold argumentType at h
  split at h
  · rename_i u hu
    cases passes_pure.1 h
    exact ⟨by rw [hu]; rfl, hd t (mem_of_mem_head? hu)⟩
  · rename_i hn
    split at h
    · exact absurd h (not_passes_refuse _ _ _)
    · rename_i huntyped
      split at h
      · exact absurd h (not_passes_refuse _ _ _)
      · rename_i hv
        cases passes_pure.1 h
        exact ⟨by rw [hn]; rfl, ha.hasKind (by simpa using huntyped) hv⟩

/-! ### What code is made of

A piece of code that was made without reports tells how it was made. -/

theorem passes_emit_cast {type : TypeRef} (h : Passes (emit s (.cast span type operand) t) f) :
    BecomesLiteral s (.cast span type operand) t f ∨
      ∃ source, Folding.full.Leaves s (.cast span type operand) t ∧ Passes (typeOf s operand) (some source) ∧
        Passes (emitCast s.api span source type.type (emit s operand)) f := by
  refine (passes_emitAs h inferInstance).imp_right ?_
  rintro ⟨u, hu, hleaves, h⟩
  unfold typeOf Scope.namedType at hu
  split at hu
  · cases passes_pure.1 hu
    obtain ⟨source, hsource, h⟩ := h.found
    exact ⟨source, hleaves, hsource, h⟩
  · exact absurd hu (not_passes_refuse _ _ _)

/-- The instruction of an operator with one operand. -/
def UnaryOp.opcode : UnaryOp → Opcode
  | .negate => .negate
  | .complement => .complement
  | .not => .not

theorem passes_emit_unary {op : UnaryOp} (h : Passes (emit s (.unary span op operand) t) f) :
    BecomesLiteral s (.unary span op operand) t f ∨ ∃ g, Folding.full.Leaves s (.unary span op operand) t ∧
        Passes (emit s operand (if op = .not then .bool else t)) g ∧ f = opcode op.opcode ++ g := by
  refine (passes_emitAs h fun _ => by split <;> infer_instance).imp_right ?_
  rintro ⟨-, -, hleaves, h⟩
  cases op <;>
  · obtain ⟨g, hg, h⟩ := h.parts
    exact ⟨g, hleaves, hg, (passes_pure.1 h).symm⟩

theorem passes_emit_compare (h : Passes (emit s (.binary span (.compare op) left right) t) f) :
    BecomesLiteral s (.binary span (.compare op) left right) t f ∨
      ∃ l r, Folding.full.Leaves s (.binary span (.compare op) left right) t ∧
        Passes (typeOf s left) (some l) ∧ Passes (typeOf s right) (some r) ∧
          Passes (emitComparison span op l r (emit s left) (emit s right)) f := by
  refine (passes_emitAs h inferInstance).imp_right ?_
  rintro ⟨-, -, hleaves, h⟩
  obtain ⟨l, hl, h⟩ := h.found
  obtain ⟨r, hr, h⟩ := h.found
  exact ⟨l, r, hleaves, hl, hr, h⟩

/-- Operators other than comparisons. -/
theorem passes_emit_binary {op : BinaryOp}
    (hop : ∀ c, op ≠ .compare c) (h : Passes (emit s (.binary span op left right) t) f) :
    BecomesLiteral s (.binary span op left right) t f ∨ ∃ a b, Folding.full.Leaves s (.binary span op left right) t ∧
        Passes (emit s left (if op = .and ∨ op = .or then .bool else t)) a ∧
          Passes (emit s right (if op = .and ∨ op = .or then .bool else t)) b ∧
            f = opcode (resultOpcode op t) ++ a ++ b := by
  cases op with
  | compare c => exact absurd rfl (hop c)
  | _ =>
    refine (passes_emitAs h inferInstance).imp_right ?_
    rintro ⟨-, -, hleaves, h⟩
    obtain ⟨a, ha, h⟩ := h.parts
    obtain ⟨b, hb, h⟩ := h.parts
    exact ⟨a, b, hleaves, ha, hb, (passes_pure.1 h).symm⟩

/-- A choice whose condition is known is its branch. -/
theorem passes_emit_ternary {condition yes no : Expr} (h : Passes (emit s (.ternary span condition yes no) t) f) :
    BecomesLiteral s (.ternary span condition yes no) t f ∨ Folding.full.Leaves s (.ternary span condition yes no) t ∧
        Passes (Folding.full.choice condition) condition.knownBool? ∧
        ((∃ b, condition.knownBool? = some b ∧ Passes (emit s (if b then yes else no) t) f) ∨
          ∃ x y z, condition.knownBool? = none ∧ Passes (emit s condition .bool) x ∧ Passes (emit s yes t) y ∧
            Passes (emit s no t) z ∧ f = opcode .ternary ++ x ++ y ++ z) := by
  refine (passes_emitAs h fun _ => .bind inferInstance fun _ => by split <;> infer_instance).imp_right ?_
  rintro ⟨-, -, hleaves, h⟩
  obtain ⟨c, hc, h⟩ := h.partsOf ⟨fun _ => by split <;> infer_instance⟩
  have hknown : condition.knownBool? = c.bind Literal.bool? := by
    unfold Expr.knownBool? Expr.known?
    rw [hc.fst]
  rw [hknown]
  refine ⟨hleaves, hc.bind (passes_pure.2 rfl), ?_⟩
  split at h
  · exact .inl ⟨true, ‹_›, h⟩
  · exact .inl ⟨false, ‹_›, h⟩
  · obtain ⟨x, hx, h⟩ := h.parts
    obtain ⟨y, hy, h⟩ := h.parts
    obtain ⟨z, hz, h⟩ := h.parts
    exact .inr ⟨x, y, z, ‹_›, hx, hy, hz, (passes_pure.1 h).symm⟩

theorem passes_emitObject_member (h : Passes (emitObject s (.member span owner access) used) f) :
    ∃ name, Passes (objectType s owner) (some (.object name)) ∧
      Passes (emitAccess s (some name) (emitObject s owner true) access used) f := by
  exact passes_ownerBefore_bind h

theorem passes_emitObject_index (hs : s.Formed) (h : Passes (emitObject s (.index span owner index) used) f) :
    ∃ name t i k a b, Passes (objectType s owner) (some (.object name)) ∧ Passes (typeOf s index) (some t) ∧
      Passes (s.indexer name t span) (some i) ∧ i.decl.index.type.primitive = .kind k ∧
        Passes (emitObject s owner true) a ∧ Passes (emit s index i.decl.index.type) b ∧
          f = opcode .subscript ++ a ++ .kind k ++ b := by
  obtain ⟨name, t, i, hname, ht, hi, h⟩ := passes_indexer_bind h fun _ => by split <;> infer_instance
  obtain ⟨k, hk⟩ := (hs.indexer hi).2
  rw [hk] at h
  obtain ⟨a, ha, h⟩ := h.parts
  obtain ⟨b, hb, h⟩ := h.parts
  exact ⟨name, t, i, k, a, b, hname, ht, hi, hk, ha, hb, (passes_pure.1 h).symm⟩

section Access

variable {owner : Option String} {target : Check Fragment} [Plain target] {ident : Ident}

theorem passes_emitAccess_name (h : Passes (emitAccess s owner target (.name ident) used) f) :
    ∃ p g, Passes (s.property owner ident) (some p) ∧ Passes target g ∧
      f = opcode .call ++ g ++ .symbol p.propertyDescriptor ++ .byte 0 := by
  obtain ⟨p, hp, h⟩ := h.found
  obtain ⟨g, hg, h⟩ := h.parts
  exact ⟨p, g, hp, hg, (passes_pure.1 h).symm⟩

theorem passes_emitAccess_call (h : Passes (emitAccess s owner target (.call span ident args) used) f) :
    ∃ types m g, Passes (typesOf s args) (types.map some) ∧ Passes (s.callee owner ident types) (some m) ∧
      args.length ≤ 255 ∧ Passes target g ∧
        Passes (emitArguments s args types m.decl.types (opcode (if used then .call else .callUnused) ++
          g ++ .symbol m.functionDescriptor ++ .byte args.length)) f := by
  obtain ⟨types, htypes, h⟩ := h.foundAll ⟨fun _ => by split <;> infer_instance⟩
  rw [mapM_id_map_some] at h
  obtain ⟨m, hm, h⟩ := h.found
  dsimp only at h
  split at h
  · exact absurd h (not_passes_report_bind _ _ _)
  · rename_i hlen
    obtain ⟨g, hg, h⟩ := h.parts
    exact ⟨types, m, g, htypes, hm, by omega, hg, h⟩

end Access

theorem passes_emitArguments_cons (hs : s.Formed) (he : e.Formed)
    (htypes : Passes (typesOf s (e :: rest)) (types.map some)) (hd : ∀ t ∈ declared, t.HasKind)
    (h : Passes (emitArguments s (e :: rest) types declared code) f) :
    ∃ actual ts k g, types = actual :: ts ∧ Passes (typesOf s rest) (ts.map some) ∧
      (declared.head?.getD actual).primitive = .kind k ∧ Passes (emit s e (declared.head?.getD actual)) g ∧
        Passes (emitArguments s rest ts declared.tail (code ++ .kind k ++ g)) f := by
  obtain ⟨actual, ts, rfl, hactual, hts⟩ := passes_typesOf_cons htypes
  obtain ⟨t, hargument, h⟩ := h.foundOf ⟨fun _ => by repeat' first | infer_instance | split⟩
  obtain ⟨rfl, k, hk⟩ := hasKind_argumentType hd (proper_typeOf hs e he hactual) hargument
  dsimp only at h
  rw [hk] at h
  obtain ⟨g, hg, h⟩ := h.parts
  exact ⟨actual, ts, k, g, rfl, hts, hk, hg, h⟩

/-! ### Expressions -/

/-- The fragment is the code of a tree for an expression. -/
def Made (s : Scope) (e : Expr) (t : Ty) (f : Fragment) : Prop :=
  ∃ n : Node, f = .ofPieces n.pieces ∧ Emits .full s e t n

theorem BecomesLiteral.made (h : BecomesLiteral s e t f) : Made s e t f := by
  obtain ⟨l, m, hl, hfits, hcast, rfl⟩ := h
  exact ⟨Node.ofLiteral m, pieces_ofLiteral m, .literal hl hfits hcast⟩

/-- The code of a call through a target. -/
def Target.callPieces (op : Opcode) (t : Target) (d : String) (args : Args) : List Piece :=
  .op op :: (t.pieces ++ (.symbol d :: .raw [UInt8.ofNat args.length] :: args.pieces))

theorem EmitsArgs.length_eq (h : EmitsArgs F s es types declared args) : args.length = es.length := by
  induction es generalizing types declared args with
  | nil => cases h; rfl
  | cons e rest ih =>
    cases h with
    | cons _ _ hrest => simp [Args.length, ih hrest]

section Trees

variable {R : Rules}

mutual
theorem emit_emits (hs : s.Formed) : (e : Expr) → e.Formed → ∀ {t : Ty} {k : Kind} {f : Fragment},
    t.primitive = .kind k → R.Permits (e.asks s t) → Passes (emit s e t) f → Made s e t f
  | .literal span value, _, t, k, f, _, _, h => by
    obtain h | ⟨-, -, hleaves, -⟩ := passes_emitAs h inferInstance
    · exact h.made
    · cases hleaves.unknown.fst
  | .object span object, he, t, k, f, _, hp, h => by
    obtain h | ⟨-, -, hleaves, h⟩ := passes_emitAs h inferInstance
    · exact h.made
    obtain ⟨n, rfl, hn⟩ := emitObject_emits hs object he (Rules.permits_asking hleaves.unknown.fst hp).2.2 h
    exact ⟨n, rfl, .object hleaves hn⟩
  | .parens span inner, he, t, k, f, hk, hp, h => by
    obtain h | ⟨-, -, hleaves, h⟩ := passes_emitAs h inferInstance
    · exact h.made
    obtain ⟨n, rfl, hn⟩ := emit_emits hs inner he hk (Rules.permits_asking hleaves.unknown.fst hp).2.2 h
    exact ⟨n, rfl, .parens hleaves hn⟩
  | .cast span type operand, he, t, k, f, hk, hp, h => by
    obtain h | ⟨source, hleaves, hsource, h⟩ := passes_emit_cast h
    · exact h.made
    obtain ⟨i, hi⟩ := he.1
    have htype : operand.type? s = some source := hsource.fst
    obtain ⟨hvoid, -, hparts⟩ := Rules.permits_asking hleaves.unknown.fst hp
    rw [htype] at hparts
    obtain ⟨hsame, h⟩ | ⟨j, g, hj, hne, hg, rfl⟩ | ⟨rfl, -, -⟩ :=
      passes_emitCast (proper_typeOf hs operand he.2 hsource) h
    · obtain ⟨n, rfl, hn⟩ := emit_emits hs operand he.2 (castOperandType_kind hi hsame) hparts h
      exact ⟨n, rfl, .castSame hleaves hi hsource hsame hn⟩
    · have htypes : castOperandType source type.type = source := by
        simp [castOperandType, hj, isUntyped]
      dsimp only at hparts
      rw [htypes] at hparts
      obtain ⟨n, rfl, hn⟩ := emit_emits hs operand he.2 hj hparts hg
      refine ⟨.cast j n, ?_, .cast hleaves hi hsource hj hne hn⟩
      simp only [← ofPieces_opcode, ← ofPieces_kind, ← ofPieces_append]
      rfl
    · simp [Ask.hasVoidOperand, htype] at hvoid
  | .unary span op operand, he, t, k, f, hk, hp, h => by
    obtain h | ⟨g, hleaves, hg, rfl⟩ := passes_emit_unary h
    · exact h.made
    obtain ⟨-, -, hparts⟩ := Rules.permits_asking hleaves.unknown.fst hp
    cases op with
    | not =>
      obtain ⟨n, rfl, hn⟩ := emit_emits hs operand he rfl hparts hg
      exact ⟨.not n, opcode_append _ _, .not hleaves hn⟩
    | negate =>
      obtain ⟨n, rfl, hn⟩ := emit_emits hs operand he hk hparts hg
      exact ⟨.negate n, opcode_append _ _, .negate hleaves hn⟩
    | complement =>
      obtain ⟨n, rfl, hn⟩ := emit_emits hs operand he hk hparts hg
      exact ⟨.complement n, opcode_append _ _, .complement hleaves hn⟩
  | .binary span op left right, he, t, k, f, hk, hp, h => by
    have hsides : ∀ (op' : Opcode) (m n : Node), opcode op' ++ .ofPieces m.pieces ++ .ofPieces n.pieces =
        .ofPieces (.op op' :: (m.pieces ++ n.pieces)) := by
      intro op' m n
      rw [opcode_append, ← ofPieces_append]
      rfl
    cases op with
    | compare op =>
      obtain h | ⟨l, r, hleaves, hl, hr, h⟩ := passes_emit_compare h
      · exact h.made
      have htl : left.type? s = some l := hl.fst
      have htr : right.type? s = some r := hr.fst
      obtain ⟨hvoid, -, hparts⟩ := Rules.permits_asking hleaves.unknown.fst hp
      rw [htl, htr] at hparts
      obtain ⟨hpl, hpr⟩ := Rules.permits_append.1 hparts
      obtain ⟨j, x, y, -, hjl, hjr, hx, hy, rfl⟩ | ⟨hop, rfl, -, -⟩ := passes_emitComparison
        (proper_typeOf hs left he.1 hl) (proper_typeOf hs right he.2 hr) h
      · obtain ⟨m, rfl, hm⟩ := emit_emits hs left he.1 hjl hpl hx
        obtain ⟨n, rfl, hn⟩ := emit_emits hs right he.2 hjr hpr hy
        refine ⟨.compare op j m n, ?_, .compare hleaves hl hr hjl hjr hm hn⟩
        simp only [← ofPieces_opcode, ← ofPieces_kind, ← ofPieces_append]
        rfl
      · simp [Ask.hasVoidOperand, htl, hop] at hvoid
    | arith op =>
      obtain h | ⟨a, b, hleaves, ha, hb, rfl⟩ := passes_emit_binary (by simp) h
      · exact h.made
      obtain ⟨hpl, hpr⟩ := Rules.permits_append.1 (Rules.permits_asking hleaves.unknown.fst hp).2.2
      obtain ⟨m, rfl, hm⟩ := emit_emits hs left he.1 hk hpl ha
      obtain ⟨n, rfl, hn⟩ := emit_emits hs right he.2 hk hpr hb
      refine ⟨.ofArith op t m n, (hsides _ m n).trans ?_, .arith hleaves hm hn⟩
      unfold Node.ofArith resultOpcode
      by_cases hc : op = .add ∧ t.primitive = .kind .string
      · rw [if_pos hc, if_pos ⟨congrArg BinaryOp.arith hc.1, hc.2⟩]
        rfl
      · rw [if_neg hc, if_neg fun h => hc ⟨BinaryOp.arith.inj h.1, h.2⟩]
        rfl
    | and =>
      obtain h | ⟨a, b, hleaves, ha, hb, rfl⟩ := passes_emit_binary (by simp) h
      · exact h.made
      obtain ⟨hpl, hpr⟩ := Rules.permits_append.1 (Rules.permits_asking hleaves.unknown.fst hp).2.2
      obtain ⟨m, rfl, hm⟩ := emit_emits hs left he.1 rfl hpl ha
      obtain ⟨n, rfl, hn⟩ := emit_emits hs right he.2 rfl hpr hb
      exact ⟨.and m n, hsides _ m n, .and hleaves hm hn⟩
    | or =>
      obtain h | ⟨a, b, hleaves, ha, hb, rfl⟩ := passes_emit_binary (by simp) h
      · exact h.made
      obtain ⟨hpl, hpr⟩ := Rules.permits_append.1 (Rules.permits_asking hleaves.unknown.fst hp).2.2
      obtain ⟨m, rfl, hm⟩ := emit_emits hs left he.1 rfl hpl ha
      obtain ⟨n, rfl, hn⟩ := emit_emits hs right he.2 rfl hpr hb
      exact ⟨.or m n, hsides _ m n, .or hleaves hm hn⟩
    | coalesce =>
      obtain h | ⟨a, b, hleaves, ha, hb, rfl⟩ := passes_emit_binary (by simp) h
      · exact h.made
      obtain ⟨hpl, hpr⟩ := Rules.permits_append.1 (Rules.permits_asking hleaves.unknown.fst hp).2.2
      obtain ⟨m, rfl, hm⟩ := emit_emits hs left he.1 hk hpl ha
      obtain ⟨n, rfl, hn⟩ := emit_emits hs right he.2 hk hpr hb
      exact ⟨.coalesce m n, hsides _ m n, .coalesce hleaves hm hn⟩
  | .ternary span condition yes no, he, t, k, f, hk, hp, h => by
    obtain h | ⟨hleaves, hchoice, h⟩ := passes_emit_ternary h
    · exact h.made
    obtain ⟨-, -, hparts⟩ := Rules.permits_asking hleaves.unknown.fst hp
    obtain ⟨b, hb, h⟩ | ⟨x, y, z, hnone, hx, hy, hz, rfl⟩ := h
    · rw [hb] at hparts hchoice
      cases b with
      | true =>
        obtain ⟨n, rfl, hn⟩ := emit_emits hs yes he.2.1 hk hparts h
        exact ⟨n, rfl, .chosen hleaves hchoice hn⟩
      | false =>
        obtain ⟨n, rfl, hn⟩ := emit_emits hs no he.2.2 hk hparts h
        exact ⟨n, rfl, .chosen hleaves hchoice hn⟩
    · rw [hnone] at hparts hchoice
      obtain ⟨hpcy, hpn⟩ := Rules.permits_append.1 hparts
      obtain ⟨hpc, hpy⟩ := Rules.permits_append.1 hpcy
      obtain ⟨l, rfl, hl⟩ := emit_emits hs condition he.1 rfl hpc hx
      obtain ⟨m, rfl, hm⟩ := emit_emits hs yes he.2.1 hk hpy hy
      obtain ⟨n, rfl, hn⟩ := emit_emits hs no he.2.2 hk hpn hz
      refine ⟨.ternary l m n, ?_, .ternary hleaves hchoice hl hm hn⟩
      rw [opcode_append, ← ofPieces_append, ← ofPieces_append, List.append_assoc]
      rfl

theorem emitObject_emits (hs : s.Formed) : (o : Object) → o.Formed → ∀ {f : Fragment},
    R.Permits (o.asks s) → Passes (emitObject s o true) f →
      ∃ n : Node, f = .ofPieces n.pieces ∧ EmitsObject .full s o n
  | .root access, ho, f, hp, h => by
    unfold emitObject at h
    unfold Object.asks at hp
    split at h
    · rename_i v hv
      cases passes_pure.1 h
      cases access with
      | name ident =>
        obtain ⟨j, hj⟩ := (hs.vars.find hv).2
        exact ⟨.variable j v.address, read_coded hj, .read hv hj⟩
      | call span ident args => cases hv
    · rename_i hv
      rw [hv] at hp
      obtain ⟨t, d, args, rfl, rfl, hargs⟩ := emitAccess_emits hs none
        (fun g hg => ⟨.global, (passes_pure.1 hg).symm.trans (ofPieces_opcode _).symm, rfl⟩)
        access ho hp h
      exact ⟨.call .global d args, rfl, .global hv hargs⟩
  | .member _ owner access, ho, f, hp, h => by
    obtain ⟨name, hname, h⟩ := passes_emitObject_member h
    unfold Object.asks at hp
    rw [show owner.type? s = _ from hname.fst] at hp
    obtain ⟨hpo, hpa⟩ := Rules.permits_append.1 hp
    obtain ⟨t, d, args, rfl, ⟨n, rfl, hn⟩, hargs⟩ := emitAccess_emits (Q := fun t => ∃ n, t = .of n ∧
      EmitsObject .full s owner n) hs (some name) (fun g hg => by
        obtain ⟨n, rfl, hn⟩ := emitObject_emits hs owner ho.1 hpo hg
        exact ⟨.of n, rfl, n, rfl, hn⟩) access ho.2 hpa h
    exact ⟨.call (.of n) d args, rfl, .member hname hn hargs⟩
  | .index span owner index, ho, f, hp, h => by
    obtain ⟨name, t, i, j, a, b, hname, ht, hi, hj, ha, hb, rfl⟩ := passes_emitObject_index hs h
    unfold Object.asks at hp
    rw [show owner.type? s = _ from hname.fst, show index.type? s = _ from ht.fst] at hp
    dsimp only at hp
    rw [hi.fst] at hp
    obtain ⟨hpo, hpi⟩ := Rules.permits_append.1 hp
    obtain ⟨m, rfl, hm⟩ := emitObject_emits hs owner ho.1 hpo ha
    obtain ⟨n, rfl, hn⟩ := emit_emits hs index ho.2 hj hpi hb
    refine ⟨.subscript m j n, ?_, .index hname ht hi hj hm hn⟩
    rw [opcode_append, ← ofPieces_kind, ← ofPieces_append, ← ofPieces_append, List.append_assoc]
    rfl

theorem emitAccess_emits {Q : Target → Prop} (hs : s.Formed) (owner : Option String) {target : Check Fragment}
    [Plain target] (htarget : ∀ g, Passes target g → ∃ t : Target, g = .ofPieces t.pieces ∧ Q t) :
      (a : Access) → a.Formed → ∀ {used : Bool} {f : Fragment}, R.Permits (a.asks s owner) →
        Passes (emitAccess s owner target a used) f → ∃ t d args,
          f = .ofPieces (Target.callPieces (if !used && a.isCall then .callUnused else .call) t d args) ∧
            Q t ∧ EmitsAccess .full s owner a d args
  | .name ident, _, used, f, _, h => by
    obtain ⟨p, g, hp, hg, rfl⟩ := passes_emitAccess_name h
    obtain ⟨t, rfl, ht⟩ := htarget g hg
    refine ⟨t, p.propertyDescriptor, .nil, ?_, ht, .name hp⟩
    rw [opcode_append, ← ofPieces_symbol, ← ofPieces_byte, ← ofPieces_append, ← ofPieces_append]
    simp [Target.callPieces, Access.isCall, Args.pieces, Args.length]
  | .call span ident args, ha, used, f, hp, h => by
    obtain ⟨types, m, g, htypes, hm, hlen, hg, h⟩ := passes_emitAccess_call h
    unfold Access.asks at hp
    rw [htypes.fst, mapM_id_map_some] at hp
    dsimp only at hp
    rw [hm.fst] at hp
    obtain ⟨t, rfl, ht⟩ := htarget g hg
    rw [opcode_append, ← ofPieces_symbol, ← ofPieces_byte, ← ofPieces_append, ← ofPieces_append] at h
    obtain ⟨as, rfl, has⟩ := emitArguments_emits hs args ha htypes (hs.callee hm).1 hp h
    refine ⟨t, m.functionDescriptor, as, ?_, ht, .call htypes hm hlen has⟩
    cases used <;> simp [Target.callPieces, has.length_eq, Access.isCall]

theorem emitArguments_emits (hs : s.Formed) : (es : List Expr) → Expr.FormedAll es →
    ∀ {types declared : List Ty} {ps : List Piece} {f : Fragment}, Passes (typesOf s es) (types.map some) →
      (∀ t ∈ declared, t.HasKind) → R.Permits (Expr.argumentAsks s es types declared) →
        Passes (emitArguments s es types declared (.ofPieces ps)) f →
          ∃ args : Args, f = .ofPieces (ps ++ args.pieces) ∧ EmitsArgs .full s es types declared args
  | [], _, types, declared, ps, f, _, _, _, h => by
    cases passes_pure.1 h
    exact ⟨.nil, by simp [Args.pieces], .nil⟩
  | e :: rest, he, types, declared, ps, f, ht, hd, hp, h => by
    obtain ⟨actual, types, k, g, rfl, htypes, hk, hg, h⟩ := passes_emitArguments_cons hs he.1 ht hd h
    obtain ⟨hpe, hprest⟩ := Rules.permits_append.1 hp
    obtain ⟨n, rfl, hn⟩ := emit_emits hs e he.1 hk hpe hg
    rw [← ofPieces_kind, ← ofPieces_append, ← ofPieces_append] at h
    obtain ⟨args, rfl, hargs⟩ := emitArguments_emits hs rest he.2 htypes
      (fun t ht => hd t (mem_of_mem_tail ht)) hprest h
    refine ⟨.cons k n args, ?_, .cons hk hn hargs⟩
    simp [Args.pieces, Piece.kind]
end

end Trees

end HostScript

import HostScript.Proofs.Abreast
import HostScript.Proofs.Renumbering

/-! Checks of renumbered files.

When files get other numbers, checking an expression gives the same type, the same literal and the
same code, and says the same of the same places. The proof goes through the checks as they are
defined: two of them go *abreast*, and what one has reported is what the other has, renumbered
(`Check.Alike`). -/
namespace HostScript

open List Option

section Abreast

variable {σ τ α γ δ : Type} {R : σ → τ → Prop} {Q : γ → δ → Prop}

theorem Abreast.after (h : Abreast R Eq c d) (hfg : ∀ a, Abreast R Q (f a) (g a)) :
    Abreast R Q (c >>= f) (d >>= g) := by
  refine h.bind ?_
  rintro a _ rfl
  exact hfg a

end Abreast

/-- The same reports of renumbered places. -/
def Reports.Renumbered (f : Nat → Nat) (r r' : Reports) : Prop := r' = r.renumber f

theorem TypeRef.type_renumber (f : Nat → Nat) (t : TypeRef) : (t.renumber f).type = t.type := rfl

theorem TypeRef.span_renumber (f : Nat → Nat) (t : TypeRef) : (t.renumber f).span = t.span.renumber f := rfl

def Scope.renumber (f : Nat → Nat) (s : Scope) : Scope := ⟨s.api.renumber f, s.vars.renumber f⟩

/-- No two files get the same number. -/
abbrev NumbersApart (f : Nat → Nat) : Prop := Fact (Function.Injective f)

namespace Check

variable {f : Nat → Nat} {α β : Type} {c c' d d' : Check α} {k l : α → Check β}

/-- The second check gives what the first one does, and reports the same of renumbered places. -/
class Alike (f : Nat → Nat) (c d : Check α) : Prop where
  abreast : Abreast (Reports.Renumbered f) Eq c d

/-- Whatever they are given, two checks that follow are alike. -/
class AlikeTail (f : Nat → Nat) (k l : α → Check β) : Prop where
  alike : ∀ a, Alike f (k a) (l a)

instance alike_pure (a : α) : Alike f (pure a : Check α) (pure a) := ⟨abreast_pure rfl⟩

instance (priority := low) [h : ∀ a, Alike f (k a) (l a)] : AlikeTail f k l := ⟨h⟩

instance {k l : Option α → Check β} [hn : Alike f (k none) (l none)] [hs : ∀ a, Alike f (k (some a)) (l (some a))] :
    AlikeTail f k l where
  alike
    | none => hn
    | some a => hs a

theorem Alike.bind (h : Alike f c d) (hkl : ∀ a, Alike f (k a) (l a)) : Alike f (c >>= k) (d >>= l) :=
  ⟨h.abreast.after fun a => (hkl a).abreast⟩

instance [h : Alike f c d] [hkl : AlikeTail f k l] : Alike f (c >>= k) (d >>= l) := h.bind hkl.alike

instance {p : Prop} [Decidable p] [Alike f c d] [Alike f c' d'] :
    Alike f (if p then c else c') (if p then d else d') := by
  split <;> infer_instance

instance alike_report [hf : NumbersApart f] (span : Span) (problem : Problem) :
    Alike f (report span problem) (report (span.renumber f) problem) where
  abreast := by
    rintro r _ rfl
    exact ⟨rfl, Reports.add_renumber hf.out r span problem⟩

instance alike_refuse [NumbersApart f] (span : Span) (problem : Problem) :
    Alike f (refuse span problem : Check (Option α)) (refuse (span.renumber f) problem) := by
  unfold refuse
  infer_instance

instance [NumbersApart f] (span : Span) (r : Except CastError Literal) :
    Alike f (converted span r) (converted (span.renumber f) r) := by
  cases r with
  | ok l => exact alike_pure (some l)
  | error e => exact alike_refuse span _

/-- A problem, and nothing made. -/
theorem alike_reject [NumbersApart f] (span : Span) (problem : Problem) (a : α) :
    Alike f (do report span problem; return a) (do report (span.renumber f) problem; return a) :=
  inferInstance

theorem alike_reportIf [NumbersApart f] (b : Bool) (span : Span) (problem : Problem) :
    Alike f (if b = true then report span problem else pure ())
      (if b = true then report (span.renumber f) problem else pure ()) :=
  inferInstance

/-- One finds a member where the other one finds it renumbered. -/
theorem Alike.found {g : α → α} {c d : Check (Option (Member α))} {k l : Option (Member α) → Check β}
    (h : Abreast (Reports.Renumbered f) (fun o o' => o' = o.map (Member.renumber g)) c d) (hn : Alike f (k none) (l none))
    (hs : ∀ m, Alike f (k (some m)) (l (some (m.renumber g)))) : Alike f (c >>= k) (d >>= l) where
  abreast := by
    refine h.bind ?_
    rintro (_ | m) _ rfl
    · exact hn.abreast
    · exact (hs m).abreast

end Check

open Check

variable {f : Nat → Nat} [hf : NumbersApart f]

/-! ### Types -/

instance (span : Span) (op : UnaryOp) (t : Ty) : Alike f (unaryType span op t) (unaryType (span.renumber f) op t) := by
  unfold unaryType
  cases op <;> dsimp only <;> infer_instance

instance (span : Span) (l r : Ty) : Alike f (combinedType span l r) (combinedType (span.renumber f) l r) := by
  unfold combinedType
  split <;> infer_instance

instance (span : Span) (op : CompareOp) (l r : Ty) :
    Alike f (comparisonType span op l r) (comparisonType (span.renumber f) op l r) := by
  unfold comparisonType
  infer_instance

instance (span : Span) (op : ArithOp) (l r : Ty) :
    Alike f (arithmeticType span op l r) (arithmeticType (span.renumber f) op l r) := by
  unfold arithmeticType
  infer_instance

instance (s : Scope) (span : Span) (l r : Ty) :
    Alike f (branchType s.api span l r) (branchType (s.renumber f).api (span.renumber f) l r) := by
  unfold branchType
  rw [show (s.renumber f).api.commonAncestors = s.api.commonAncestors from funext₂ s.api.commonAncestors_renumber]
  repeat' first | infer_instance | split

/-! ### Names -/

namespace Scope

variable (s : Scope)

instance (t : TypeRef) : Alike f (s.namedType t) ((s.renumber f).namedType (t.renumber f)) := by
  unfold namedType
  rw [TypeRef.type_renumber, TypeRef.span_renumber,
    show (s.renumber f).api.declares t.type = _ from s.api.declares_renumber t.type]
  infer_instance

theorem abreast_property (owner : Option String) (name : Ident) : Abreast (Reports.Renumbered f)
    (fun o o' => o' = o.map (Member.renumber (PropertyDecl.renumber f))) (s.property owner name)
      ((s.renumber f).property owner (name.renumber f)) := by
  unfold property
  rw [show (s.renumber f).api.propertiesNamed owner (name.renumber f).name = _ from s.api.propertiesNamed_renumber owner name.name]
  cases s.api.propertiesNamed owner name.name with
  | nil => exact (alike_report name.span _).abreast.after fun _ => abreast_pure rfl
  | cons p rest => exact abreast_pure rfl

theorem abreast_callee (owner : Option String) (name : Ident) (types : List Ty) : Abreast (Reports.Renumbered f)
    (fun o o' => o' = o.map (Member.renumber (FunctionDecl.renumber f))) (s.callee owner name types)
      ((s.renumber f).callee owner (name.renumber f) types) := by
  have hspan : ∀ m : Member FunctionDecl, (m.renumber (FunctionDecl.renumber f)).decl.span = m.decl.span.renumber f := fun _ => rfl
  unfold callee
  rw [show (s.renumber f).api.callees owner (name.renumber f).name types = _ from s.api.callees_renumber owner name.name types,
    firstTwo_renumber hf.out hspan]
  match firstTwo? (fun m : Member FunctionDecl => m.decl.span) (s.api.callees owner name.name types) with
  | none => exact (alike_report name.span _).abreast.after fun _ => abreast_pure rfl
  | some (g, none) => exact abreast_pure rfl
  | some (g, some h) =>
    have hsignature : ∀ m : Member FunctionDecl, (m.renumber (FunctionDecl.renumber f)).signature = m.signature := fun m =>
      congrArg (fun types => HostScript.signature m.owner m.decl.name.name types m.decl.variadic) m.decl.types_renumber
    dsimp only [map_some]
    rw [hsignature, hsignature]
    exact (alike_report name.span _).abreast.after fun _ => abreast_pure rfl

theorem abreast_indexer (owner : String) (index : Ty) (span : Span) : Abreast (Reports.Renumbered f)
    (fun o o' => o' = o.map (Member.renumber (SubscriptDecl.renumber f))) (s.indexer owner index span)
      ((s.renumber f).indexer owner index (span.renumber f)) := by
  have hspan : ∀ m : Member SubscriptDecl, (m.renumber (SubscriptDecl.renumber f)).decl.span = m.decl.span.renumber f := fun _ => rfl
  unfold indexer
  rw [show (s.renumber f).api.indexers owner index = _ from s.api.indexers_renumber owner index, firstTwo_renumber hf.out hspan]
  match firstTwo? (fun m : Member SubscriptDecl => m.decl.span) (s.api.indexers owner index) with
  | none => exact (alike_report span _).abreast.after fun _ => abreast_pure rfl
  | some (i, none) => exact abreast_pure rfl
  | some (i, some j) => exact (alike_report span _).abreast.after fun _ => abreast_pure rfl

omit hf in
theorem variable_renumber (a : Access) :
    Access.var? (s.renumber f).vars (a.renumber f) = (a.var? s.vars).map (Variable.renumber f) := by
  cases a with
  | name ident => exact s.vars.find_renumber ident.name
  | call => rfl

omit hf in
theorem assignable_renumber : (s.renumber f).api.assignable = s.api.assignable := funext₂ s.api.assignable_renumber

instance (span : Span) (problem : Ty → Problem) (t : Option Ty) :
    Alike f (ownerBefore span problem t) (ownerBefore (span.renumber f) problem t) := by
  unfold ownerBefore
  split <;> infer_instance

end Scope

/-! ### Expressions -/

mutual
instance alike_typeOf (s : Scope) : (e : Expr) → Alike f (typeOf s e) (typeOf (s.renumber f) (e.renumber f))
  | .literal _ _ | .cast _ _ _ => by
    unfold Expr.renumber typeOf
    infer_instance
  | .object span object => alike_objectType s object
  | .parens span inner => alike_typeOf s inner
  | .unary span op operand => by
    have := alike_typeOf s operand
    unfold Expr.renumber typeOf
    infer_instance
  | .binary span op left right => by
    have := alike_typeOf s left
    have := alike_typeOf s right
    unfold Expr.renumber typeOf
    cases op <;> infer_instance
  | .ternary span condition yes no => by
    have := alike_typeOf s yes
    have := alike_typeOf s no
    unfold Expr.renumber typeOf
    infer_instance

instance alike_objectType (s : Scope) :
    (o : Object) → Alike f (objectType s o) (objectType (s.renumber f) (o.renumber f))
  | .root access => by
    have := alike_accessType s none access
    unfold Object.renumber objectType
    rw [s.variable_renumber]
    cases access.var? s.vars <;> dsimp only [Option.map, Variable.renumber] <;> infer_instance
  | .member span owner access => by
    have := alike_objectType s owner
    have := fun name => alike_accessType s (some name) access
    unfold Object.renumber objectType
    infer_instance
  | .index span owner index => by
    have := alike_objectType s owner
    have := alike_typeOf s index
    have hfound : ∀ name t, Alike f (do return (← s.indexer name t span).map (·.decl.result.type))
        (do return (← (s.renumber f).indexer name t (span.renumber f)).map (·.decl.result.type)) := fun name t =>
      .found (s.abreast_indexer name t span) inferInstance fun i => alike_pure (some i.decl.result.type)
    unfold Object.renumber objectType
    infer_instance

instance alike_accessType (s : Scope) (owner : Option String) :
    (a : Access) → Alike f (accessType s owner a) (accessType (s.renumber f) owner (a.renumber f))
  | .name ident => .found (s.abreast_property owner ident) inferInstance fun p => alike_pure (some p.decl.type.type)
  | .call span ident args => by
    have := alike_typesOf s args
    refine .bind inferInstance fun types => ?_
    cases types.mapM id with
    | none => exact alike_pure none
    | some types =>
      exact .found (s.abreast_callee owner ident types) inferInstance fun g => alike_pure (some g.decl.result.type)

instance alike_typesOf (s : Scope) :
    (es : List Expr) → Alike f (typesOf s es) (typesOf (s.renumber f) (Expr.renumberAll f es))
  | [] => by
    unfold Expr.renumberAll typesOf
    infer_instance
  | e :: rest => by
    have := alike_typeOf s e
    have := alike_typesOf s rest
    unfold Expr.renumberAll typesOf
    infer_instance
end

/-! ### Literals -/

instance (span : Span) (l r : Literal) : Alike f (Fold.operands span l r) (Fold.operands (span.renumber f) l r) := by
  unfold Fold.operands
  split <;> infer_instance

instance (span : Span) (op : ArithOp) (l r : Literal) :
    Alike f (Fold.arithmetic span op l r) (Fold.arithmetic (span.renumber f) op l r) := by
  unfold Fold.arithmetic
  repeat' first | infer_instance | split

instance (span : Span) (op : BinaryOp) (l r : Literal) :
    Alike f (Fold.binary span op l r) (Fold.binary (span.renumber f) op l r) := by
  unfold Fold.binary
  split <;> infer_instance

omit hf in
instance (decisive : Bool) {left right left' right' : Check (Option Literal)} [Alike f left left']
    [Alike f right right'] : Alike f (Fold.logical decisive left right) (Fold.logical decisive left' right') := by
  unfold Fold.logical
  infer_instance

instance alike_fold : (e : Expr) → Alike f (fold e) (fold (e.renumber f))
  | .literal _ _ | .object _ _ => by
    unfold Expr.renumber fold
    infer_instance
  | .parens span inner => alike_fold inner
  | .cast span type operand => by
    have := alike_fold operand
    unfold Expr.renumber fold
    rw [TypeRef.type_renumber]
    infer_instance
  | .unary span op operand => by
    have := alike_fold operand
    unfold Expr.renumber fold
    infer_instance
  | .binary span op left right => by
    have := alike_fold left
    have := alike_fold right
    unfold Expr.renumber fold
    cases op <;> infer_instance
  | .ternary span condition yes no => by
    have := alike_fold condition
    have := alike_fold yes
    have := alike_fold no
    exact .bind inferInstance fun value => by split <;> infer_instance

/-! ### Code -/

omit hf in
theorem Fragment.place_renumber (v : Variable) : Fragment.place (v.renumber f) = .place v := rfl

omit hf in
theorem Fragment.read_renumber (v : Variable) : Fragment.read (v.renumber f) = .read v := rfl

omit hf in
theorem Member.functionDescriptor_renumber (m : Member FunctionDecl) :
    (m.renumber (FunctionDecl.renumber f)).functionDescriptor = m.functionDescriptor := by
  unfold functionDescriptor
  rw [show (m.renumber (FunctionDecl.renumber f)).decl.types = m.decl.types from m.decl.types_renumber]
  rfl

theorem alike_emitAs (s : Scope) (e : Expr) (expected : Ty) {emit emit' : Ty → Check Fragment}
    (hemit : ∀ t, Alike f (emit t) (emit' t)) :
    Alike f (emitAs s e expected emit) (emitAs (s.renumber f) (e.renumber f) expected emit') := by
  unfold emitAs
  rw [Expr.span_renumber, s.assignable_renumber]
  infer_instance

instance (span : Span) (op : CompareOp) (l r : Ty) {left right left' right' : Ty → Check Fragment}
    [∀ t, Alike f (left t) (left' t)] [∀ t, Alike f (right t) (right' t)] :
    Alike f (emitComparison span op l r left right) (emitComparison (span.renumber f) op l r left' right') := by
  refine .bind inferInstance fun t => ?_
  cases t with
  | none => exact alike_pure ∅
  | some t => repeat' first | infer_instance | split

instance (s : Scope) (span : Span) (source target : Ty) {operand operand' : Ty → Check Fragment}
    [∀ t, Alike f (operand t) (operand' t)] : Alike f (emitCast s.api span source target operand)
      (emitCast (s.renumber f).api (span.renumber f) source target operand') := by
  unfold emitCast
  rw [show (s.renumber f).api.inherits = s.api.inherits from funext₂ s.api.inherits_renumber, s.assignable_renumber]
  repeat' first | infer_instance | split

instance (span : Span) (declared : Option Ty) (actual : Ty) :
    Alike f (argumentType span declared actual) (argumentType (span.renumber f) declared actual) := by
  unfold argumentType
  split <;> infer_instance

mutual
instance alike_emit (s : Scope) : (e : Expr) → (expected : Ty) →
    Alike f (emit s e expected) (emit (s.renumber f) (e.renumber f) expected)
  | .literal span value, expected => alike_emitAs s _ expected fun _ => inferInstance
  | .object span object, expected => alike_emitAs s _ expected fun _ => alike_emitObject s object true
  | .parens span inner, expected => alike_emitAs s _ expected fun _ => alike_emit s inner expected
  | .cast span type operand, expected => by
    have := fun t => alike_emit s operand t
    exact alike_emitAs s _ expected fun target => inferInstance
  | .unary span op operand, expected => by
    have := fun t => alike_emit s operand t
    refine alike_emitAs s _ expected fun _ => ?_
    cases op <;> dsimp only <;> infer_instance
  | .binary span op left right, expected => by
    have := fun t => alike_emit s left t
    have := fun t => alike_emit s right t
    refine alike_emitAs s _ expected fun _ => ?_
    split <;> infer_instance
  | .ternary span condition yes no, expected => by
    have := alike_emit s condition .bool
    have := alike_emit s yes expected
    have := alike_emit s no expected
    refine alike_emitAs s _ expected fun _ => .bind inferInstance fun value => ?_
    split <;> infer_instance

instance alike_emitObject (s : Scope) : (o : Object) → (used : Bool) →
    Alike f (emitObject s o used) (emitObject (s.renumber f) (o.renumber f) used)
  | .root access, used => by
    have := @alike_emitAccess s none access used
    unfold Object.renumber emitObject
    rw [s.variable_renumber]
    cases access.var? s.vars with
    | none =>
      dsimp only [map_none]
      infer_instance
    | some v => exact alike_pure (Fragment.read v)
  | .member span owner access, used => by
    have := alike_emitObject s owner true
    have := fun name => @alike_emitAccess s (some name) access used
    unfold Object.renumber emitObject
    rw [Object.span_renumber]
    infer_instance
  | .index span owner index, used => by
    have := alike_emitObject s owner true
    have := fun t => alike_emit s index t
    have hfound : ∀ name t, Alike f
        (do
          let some i ← s.indexer name t span | return ∅
          let some k := i.decl.index.type.primitive.kind? | return ∅
          let head := Fragment.opcode .subscript ++ (← emitObject s owner true)
          return head ++ .kind k ++ (← emit s index i.decl.index.type))
        (do
          let some i ← (s.renumber f).indexer name t (span.renumber f) | return ∅
          let some k := i.decl.index.type.primitive.kind? | return ∅
          let head := Fragment.opcode .subscript ++ (← emitObject (s.renumber f) (owner.renumber f) true)
          return head ++ .kind k ++ (← emit (s.renumber f) (index.renumber f) i.decl.index.type)) := fun name t =>
      .found (s.abreast_indexer name t span) inferInstance fun i => by
        dsimp only [Member.renumber, SubscriptDecl.renumber, TypeRef.renumber]
        split <;> infer_instance
    unfold Object.renumber emitObject
    infer_instance

instance alike_emitAccess (s : Scope) (owner : Option String) : (a : Access) → (used : Bool) →
    {target target' : Check Fragment} → [Alike f target target'] →
      Alike f (emitAccess s owner target a used) (emitAccess (s.renumber f) owner target' (a.renumber f) used)
  | .name ident, used, target, target', htarget =>
    .found (s.abreast_property owner ident) inferInstance fun p => .bind htarget fun _ => alike_pure _
  | .call span ident args, used, target, target', htarget => by
    refine .bind inferInstance fun types => ?_
    cases types.mapM id with
    | none => exact alike_pure ∅
    | some types =>
      refine .found (s.abreast_callee owner ident types) inferInstance fun g => ?_
      have := fun code => alike_emitArguments s args types g.decl.types code
      have hlength : (Expr.renumberAll f args).length = args.length := by rw [Expr.renumberAll_eq, length_map]
      have htypes : (g.renumber (FunctionDecl.renumber f)).decl.types = g.decl.types := g.decl.types_renumber
      dsimp only
      rw [hlength, Member.functionDescriptor_renumber, htypes]
      infer_instance

instance alike_emitArguments (s : Scope) : (es : List Expr) → (types declared : List Ty) → (code : Fragment) →
    Alike f (emitArguments s es types declared code)
      (emitArguments (s.renumber f) (Expr.renumberAll f es) types declared code)
  | [], _, _, code | _ :: _, [], _, code => alike_pure code
  | e :: rest, actual :: types, declared, code => by
    have := fun t => alike_emit s e t
    have := fun code => alike_emitArguments s rest types declared.tail code
    unfold Expr.renumberAll emitArguments
    rw [Expr.span_renumber]
    refine .bind inferInstance fun t => ?_
    cases t with
    | none => exact alike_pure code
    | some t =>
      dsimp only
      split <;> infer_instance
end

/-! ### Assignments -/

def Update.renumber (f : Nat → Nat) : Update → Update
  | .assign op value => .assign op (value.renumber f)
  | .step down => .step down

section Assignments

variable (s : Scope) (u : Update)

omit hf

theorem Update.op_renumber : (u.renumber f).op? = u.op? := by cases u <;> rfl

theorem Update.problem_renumber (p : Primitive) : (u.renumber f).problem? p = u.problem? p := by
  cases u with
  | assign op value => cases op <;> rfl
  | step down => rfl

theorem Update.opcode_renumber (t : Ty) : (u.renumber f).opcode t = u.opcode t := by cases u <;> rfl

theorem Object.variable_renumber (o : Object) :
    Object.var? (s.renumber f).vars (o.renumber f) = (o.var? s.vars).map (Variable.renumberEntry f) := by
  match o with
  | .root (.name ident) =>
    show ((s.renumber f).vars.find? ident.name).map (ident.name, ·) = _
    rw [show (s.renumber f).vars.find? ident.name = _ from s.vars.find_renumber ident.name, Object.var?, Option.map_map,
      Option.map_map]
    rfl
  | .root (.call ..) | .member .. | .index .. => rfl

include hf

instance (t : Ty) : Alike f (u.emitValue s t) ((u.renumber f).emitValue (s.renumber f) t) := by
  cases u with
  | assign op value => exact alike_emit s value t
  | step down =>
    have hstep : ((Update.step down).renumber f).emitValue (s.renumber f) t = (Update.step down).emitValue s t := rfl
    rw [hstep, Update.emitValue]
    split <;> infer_instance

instance (t : Ty) (span : Span) : Alike f (u.applies t span) ((u.renumber f).applies t (span.renumber f)) := by
  unfold Update.applies
  rw [Update.problem_renumber]
  split <;> infer_instance

instance alike_emitVariableUpdate (debug : Bool) (name : String) (v : Variable) (span : Span) :
    Alike f (emitVariableUpdate s debug name v u span)
      (emitVariableUpdate (s.renumber f) debug name (v.renumber f) (u.renumber f) (span.renumber f)) := by
  have htype : (v.renumber f).type = v.type := rfl
  have hdebug : Fragment.debugUpdate name (v.renumber f) = .debugUpdate name v := rfl
  unfold emitVariableUpdate
  rw [htype, hdebug, Fragment.place_renumber, Fragment.read_renumber, Update.op_renumber, Update.opcode_renumber]
  cases v.type.primitive.kind? <;> infer_instance

instance alike_emitPropertyUpdate (owner : Option String) {target target' : Check Fragment} [Alike f target target']
    (name : Ident) (t : Ty) (k : Kind) (span : Span) : Alike f (emitPropertyUpdate s owner target name t k u span)
      (emitPropertyUpdate (s.renumber f) owner target' (name.renumber f) t k (u.renumber f) (span.renumber f)) := by
  refine .found (s.abreast_property owner name) inferInstance fun p => ?_
  have hreadonly : (p.renumber (PropertyDecl.renumber f)).decl.readonly = p.decl.readonly := rfl
  have hdescriptor : (p.renumber (PropertyDecl.renumber f)).propertyDescriptor = p.propertyDescriptor := rfl
  dsimp only
  rw [hreadonly, hdescriptor, Update.opcode_renumber]
  split
  · exact alike_reject name.span _ _
  · infer_instance

instance alike_emitSubscriptUpdate (span : Span) (owner : Object) (index : Expr) (t : Ty) (k : Kind)
    (actionSpan : Span) : Alike f (emitSubscriptUpdate s span owner index t k u actionSpan)
      (emitSubscriptUpdate (s.renumber f) (span.renumber f) (owner.renumber f) (index.renumber f) t k (u.renumber f)
        (actionSpan.renumber f)) := by
  refine .bind inferInstance fun ownerType => .bind inferInstance fun name => ?_
  cases name with
  | none => exact alike_pure _
  | some name =>
    refine .bind inferInstance fun indexType => ?_
    cases indexType with
    | none => exact alike_pure _
    | some indexType =>
      refine .found (s.abreast_indexer name indexType span) inferInstance fun i => ?_
      have hreadonly : (i.renumber (SubscriptDecl.renumber f)).decl.readonly = i.decl.readonly := rfl
      have hindex : (i.renumber (SubscriptDecl.renumber f)).decl.index.type = i.decl.index.type := rfl
      dsimp only
      rw [hreadonly, hindex, Update.opcode_renumber]
      split
      · exact alike_reject span _ _
      · cases i.decl.index.type.primitive.kind? <;> infer_instance

instance alike_emitUpdate (debug : Bool) (target : Object) (span : Span) : Alike f (emitUpdate s debug target u span)
    (emitUpdate (s.renumber f) debug (target.renumber f) (u.renumber f) (span.renumber f)) := by
  unfold emitUpdate
  rw [Object.variable_renumber, Object.isCall_renumber, Object.lastSpan_renumber]
  cases target.var? s.vars with
  | some entry => exact alike_emitVariableUpdate s u debug entry.1 entry.2 span
  | none =>
    dsimp only [map_none]
    split
    · exact alike_reject target.lastSpan _ _
    · refine .bind inferInstance fun t => ?_
      cases t with
      | none => exact alike_pure _
      | some t =>
        dsimp only
        cases t.primitive.kind? with
        | none => exact alike_pure _
        | some k =>
          match target with
          | .index indexSpan owner index => exact alike_emitSubscriptUpdate s u indexSpan owner index t k span
          | .root (.name name) => exact alike_emitPropertyUpdate s u none name t k span
          | .root (.call ..) | .member _ _ (.call ..) => exact alike_pure _
          | .member _ owner (.name name) =>
            unfold Object.renumber Access.renumber
            dsimp only
            rw [Object.span_renumber]
            infer_instance

end Assignments

/-! ### Declarations -/

namespace Api

variable (api : Api)

theorem any_elsewhere (span : α → Span) (g : α → α) (hg : ∀ a, span (g a) = (span a).renumber f) (as : List α)
    (here : Span) : (as.map g).any (fun a => span a ≠ here.renumber f) = as.any fun a => span a ≠ here := by
  rw [List.any_map]
  congr 1
  funext a
  simp only [Function.comp_apply, hg, ne_eq, (Span.renumber_injective hf.out).eq_iff]

omit hf in
theorem alike_forM (check' : α → Check PUnit) (g : α → α) (h : ∀ a, Alike f (check a) (check' (g a))) (as : List α) :
    Alike f (as.forM check) ((as.map g).forM check') := by
  induction as with
  | nil => exact alike_pure _
  | cons a rest ih => exact (h a).bind fun _ => ih

instance alike_checkType (t : TypeRef) : Alike f (api.checkType t) ((api.renumber f).checkType (t.renumber f)) := by
  unfold checkType
  rw [TypeRef.type_renumber, TypeRef.span_renumber, api.declares_renumber]
  infer_instance

instance alike_checkFunction (owner : Option String) (d : FunctionDecl) :
    Alike f (api.checkFunction owner d) ((api.renumber f).checkFunction owner (d.renumber f)) := by
  have hothers : ((api.renumber f).functionsOf owner (d.renumber f).name.name (d.renumber f).types (d.renumber f).variadic).any
      (fun m => m.decl.span ≠ (d.renumber f).span) =
        (api.functionsOf owner d.name.name d.types d.variadic).any fun m => m.decl.span ≠ d.span := by
    rw [FunctionDecl.types_renumber]
    exact (congrArg (List.any · _) (api.functionsOf_renumber owner d.name.name d.types d.variadic)).trans
      (any_elsewhere (fun m : Member FunctionDecl => m.decl.span) _ (fun _ => rfl) _ d.span)
  have hparams := alike_forM (fun p => (api.renumber f).checkType p.type) (Param.renumber f)
    (fun p => api.alike_checkType p.type) d.params
  unfold checkFunction
  dsimp only
  rw [hothers, FunctionDecl.types_renumber]
  exact (api.alike_checkType d.result).bind fun _ => hparams.bind fun _ => alike_reportIf _ d.name.span _

instance alike_checkProperty (owner : Option String) (d : PropertyDecl) :
    Alike f (api.checkProperty owner d) ((api.renumber f).checkProperty owner (d.renumber f)) := by
  have hothers : ((api.renumber f).propertiesNamed owner (d.renumber f).name.name).any
      (fun m => m.decl.span ≠ (d.renumber f).span) =
        (api.propertiesNamed owner d.name.name).any fun m => m.decl.span ≠ d.span :=
    (congrArg (List.any · _) (api.propertiesNamed_renumber owner d.name.name)).trans
      (any_elsewhere (fun m : Member PropertyDecl => m.decl.span) _ (fun _ => rfl) _ d.span)
  unfold checkProperty
  rw [hothers]
  exact (api.alike_checkType d.type).bind fun _ => alike_reportIf _ d.name.span _

instance alike_checkSubscript (owner : String) (d : SubscriptDecl) :
    Alike f (api.checkSubscript owner d) ((api.renumber f).checkSubscript owner (d.renumber f)) := by
  have hothers : ((api.renumber f).subscriptsOf owner (d.renumber f).index.type).any
      (fun m => m.decl.span ≠ (d.renumber f).span) =
        (api.subscriptsOf owner d.index.type).any fun m => m.decl.span ≠ d.span :=
    (congrArg (List.any · _) (api.subscriptsOf_renumber owner d.index.type)).trans
      (any_elsewhere (fun m : Member SubscriptDecl => m.decl.span) _ (fun _ => rfl) _ d.span)
  unfold checkSubscript
  rw [hothers]
  exact (api.alike_checkType d.result).bind fun _ => (api.alike_checkType d.index).bind fun _ =>
    alike_reportIf _ d.index.span _

instance alike_checkMember (owner : Option String) (d : MemberDecl) :
    Alike f (api.checkMember owner d) ((api.renumber f).checkMember owner (d.renumber f)) := by
  cases d with
  | function d => exact api.alike_checkFunction owner d
  | property d => exact api.alike_checkProperty owner d
  | subscript d =>
    cases owner with
    | none => exact alike_pure _
    | some owner => exact api.alike_checkSubscript owner d

instance alike_checkTypeDecl (t : TypeDecl) :
    Alike f (api.checkTypeDecl t) ((api.renumber f).checkTypeDecl (t.renumber f)) := by
  have hothers : ((api.renumber f).typesNamed (t.renumber f).name.name).any (fun u => u.span ≠ (t.renumber f).span) =
      (api.typesNamed t.name.name).any fun u => u.span ≠ t.span :=
    (congrArg (List.any · _) (api.typesNamed_renumber t.name.name)).trans (any_elsewhere TypeDecl.span _ (fun _ => rfl) _ t.span)
  have hname : (t.renumber f).name.name = t.name.name := rfl
  have hspan : (t.renumber f).name.span = t.name.span.renumber f := rfl
  have hancestor : ∀ a : Ident, Alike f
      (if (api.findType? a.name).isNone = true then report a.span (.missingType (.object a.name)) else pure ())
      (if ((api.renumber f).findType? (a.renumber f).name).isNone = true then
        report (a.renumber f).span (.missingType (.object (a.renumber f).name)) else pure ()) := fun a => by
    rw [show (api.renumber f).findType? (a.renumber f).name = _ from api.findType_renumber a.name, isNone_map]
    exact alike_reportIf _ a.span _
  have hancestors : Alike f (t.ancestors.forM _) ((t.renumber f).ancestors.forM _) :=
    alike_forM (fun a => if ((api.renumber f).findType? a.name).isNone = true then
      report a.span (.missingType (.object a.name)) else pure ()) (Ident.renumber f) hancestor t.ancestors
  have hmembers : Alike f (t.members.forM _) ((t.renumber f).members.forM _) :=
    alike_forM ((api.renumber f).checkMember (some t.name.name)) (MemberDecl.renumber f)
      (api.alike_checkMember (some t.name.name)) t.members
  unfold checkTypeDecl
  rw [hothers, hname, hspan, diamond_renumber]
  split <;> split <;> infer_instance

end Api

end HostScript

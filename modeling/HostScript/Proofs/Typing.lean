import HostScript.Proofs.Check

/-! What a type found for an expression says about it.

Typing takes no report back, and always finds a type when nothing is reported. -/
namespace HostScript

open Check

variable {api : Api} {k : Kind} {owner : Object} {l p r : Primitive} {span : Span} {source t target : Ty} {α : Type}

/-! ### Typing -/

instance (span : Span) (op : UnaryOp) (t : Ty) : Answers (unaryType span op t) := by
  unfold unaryType
  cases op <;> dsimp only <;> infer_instance

instance (span : Span) (l r : Ty) : Answers (combinedType span l r) := by
  unfold combinedType
  split <;> infer_instance

instance (span : Span) (op : CompareOp) (l r : Ty) : Answers (comparisonType span op l r) := by
  unfold comparisonType
  infer_instance

instance (span : Span) (op : ArithOp) (l r : Ty) : Answers (arithmeticType span op l r) := by
  unfold arithmeticType
  infer_instance

instance (api : Api) (span : Span) (l r : Ty) : Answers (branchType api span l r) := by
  unfold branchType
  repeat' first | infer_instance | split

namespace Scope

variable (s : Scope)

instance (t : TypeRef) : Answers (s.namedType t) := by
  unfold namedType
  infer_instance

instance (owner : Option String) (name : Ident) : Answers (s.property owner name) := by
  unfold property
  split <;> infer_instance

instance (owner : Option String) (name : Ident) (types : List Ty) : Answers (s.callee owner name types) := by
  unfold callee
  split <;> infer_instance

instance (owner : String) (index : Ty) (span : Span) : Answers (s.indexer owner index span) := by
  unfold indexer
  split <;> infer_instance

instance (span : Span) (problem : Ty → Problem) (t : Option Ty) : Plain (ownerBefore span problem t) := by
  unfold ownerBefore
  split <;> infer_instance

theorem passes_ownerBefore (h : Passes (ownerBefore span problem (some t)) a) :
    ∃ name, t = .object name ∧ a = some name := by
  cases t with
  | object name => exact ⟨name, rfl, (passes_pure.1 h).symm⟩
  | prim p => exact absurd h (not_passes_refuse span _ a)

instance (span : Span) (problem : Ty → Problem) (t : Ty) : Answers (ownerBefore span problem (some t)) where
  found _ h := (passes_ownerBefore h).imp fun _ h => h.2

end Scope

/-- Everything in a list is found. -/
class Check.AnswersAll {α : Type} (c : Check (List (Option α))) : Prop extends Plain c where
  found : ∀ ts, Passes c ts → ∃ us : List α, ts = us.map some

theorem Check.Passes.foundAll [hc : AnswersAll c] (h : Passes (c >>= g) b) (hg : Tail g) :
    ∃ us : List α, Passes c (us.map some) ∧ Passes (g (us.map some)) b := by
  obtain ⟨ts, hts, hb⟩ := h.partsOf hg
  obtain ⟨us, rfl⟩ := hc.found ts hts
  exact ⟨us, hts, hb⟩

theorem mapM_id_map_some (us : List α) : (us.map some).mapM id = some us := by
  induction us with
  | nil => rfl
  | cons u rest ih => simp [ih]

mutual
instance answers_typeOf (s : Scope) : (e : Expr) → Answers (typeOf s e)
  | .literal _ _ | .cast _ _ _ => by
    unfold typeOf
    infer_instance
  | .parens _ inner => answers_typeOf s inner
  | .object _ object => answers_objectType s object
  | .unary span op operand => by
    have := answers_typeOf s operand
    unfold typeOf
    infer_instance
  | .binary span op left right => by
    have := answers_typeOf s left
    have := answers_typeOf s right
    unfold typeOf
    cases op <;> infer_instance
  | .ternary span _ yes no => by
    have := answers_typeOf s yes
    have := answers_typeOf s no
    unfold typeOf
    infer_instance

instance answers_objectType (s : Scope) : (o : Object) → Answers (objectType s o)
  | .root access => by
    have := answers_accessType s none access
    unfold objectType
    split <;> infer_instance
  | .member span owner access => by
    have := answers_objectType s owner
    have := fun name => answers_accessType s (some name) access
    unfold objectType
    infer_instance
  | .index span owner index => by
    have := answers_objectType s owner
    have := answers_typeOf s index
    unfold objectType
    infer_instance

instance answers_accessType (s : Scope) (owner : Option String) : (a : Access) → Answers (accessType s owner a)
  | .name ident => by
    unfold accessType
    infer_instance
  | .call _ ident args => by
    have := answers_typesOf s args
    refine { Plain.bind inferInstance fun _ => by split <;> infer_instance with found := fun a h => ?_ }
    obtain ⟨us, -, h⟩ := h.foundAll ⟨fun _ => by split <;> infer_instance⟩
    rw [mapM_id_map_some] at h
    exact Answers.found a h

instance answers_typesOf (s : Scope) : (es : List Expr) → AnswersAll (typesOf s es)
  | [] => by
    unfold typesOf
    exact { found := fun ts h => ⟨[], (passes_pure.1 h).symm⟩ }
  | e :: rest => by
    have := answers_typeOf s e
    have := answers_typesOf s rest
    refine { (plain_bind : Plain _) with found := fun ts h => ?_ }
    obtain ⟨t, -, h⟩ := h.found
    obtain ⟨us, -, h⟩ := h.foundAll inferInstance
    exact ⟨t :: us, (passes_pure.1 h).symm⟩
end

/-! ### Types of parts

What passes when a type is found. -/

section Inversion

variable {s : Scope}

theorem passes_typeOf_unary (h : Passes (typeOf s (.unary span op operand)) (some t)) :
    ∃ u, Passes (typeOf s operand) (some u) ∧ Passes (unaryType span op u) (some t) := by
  exact h.found

theorem passes_typeOf_binary (h : Passes (typeOf s (.binary span op left right)) (some t))
    (hop : ¬ (op = .and ∨ op = .or)) :
    ∃ l r, Passes (typeOf s left) (some l) ∧ Passes (typeOf s right) (some r) ∧
      match op with
      | .compare op => t = .bool ∧ ∃ u, Passes (comparisonType span op l r) (some u)
      | .arith op => Passes (arithmeticType span op l r) (some t)
      | _ => l.primitive = .kind .pointer ∧ Passes (branchType s.api span l r) (some t) := by
  unfold typeOf at h
  rw [if_neg hop] at h
  obtain ⟨l, hl, h⟩ := h.foundOf (by cases op <;> infer_instance)
  obtain ⟨r, hr, h⟩ := h.foundOf (by cases op <;> infer_instance)
  refine ⟨l, r, hl, hr, ?_⟩
  cases op with
  | compare op =>
    obtain ⟨u, hu, rfl⟩ := h.map
    exact ⟨rfl, u, hu⟩
  | arith op => exact h
  | and => exact absurd (.inl rfl) hop
  | or => exact absurd (.inr rfl) hop
  | coalesce =>
    dsimp only at h
    split at h
    · exact ⟨‹_›, h⟩
    · exact absurd h (not_passes_refuse _ _ _)

theorem passes_typeOf_ternary (h : Passes (typeOf s (.ternary span condition yes no)) (some t)) :
    ∃ l r, Passes (typeOf s yes) (some l) ∧ Passes (typeOf s no) (some r) ∧
      Passes (branchType s.api span l r) (some t) := by
  obtain ⟨l, hl, h⟩ := h.found
  obtain ⟨r, hr, h⟩ := h.found
  exact ⟨l, r, hl, hr, h⟩

/-- The object type that a member or subscript is reached through. -/
theorem passes_ownerBefore_bind (h : Passes (objectType s owner >>= fun t => Scope.ownerBefore span problem t >>= g) a)
    [Tail g] : ∃ name, Passes (objectType s owner) (some (.object name)) ∧ Passes (g (some name)) a := by
  obtain ⟨u, hu, h⟩ := h.found
  obtain ⟨o, ho, h⟩ := h.parts
  obtain ⟨name, rfl, rfl⟩ := Scope.passes_ownerBefore ho
  exact ⟨name, hu, h⟩

theorem passes_objectType_member (h : Passes (objectType s (.member span owner access)) (some t)) :
    ∃ name, Passes (objectType s owner) (some (.object name)) ∧ Passes (accessType s (some name) access) (some t) := by
  exact passes_ownerBefore_bind h

theorem passes_objectType_index (h : Passes (objectType s (.index span owner index)) (some t)) :
    ∃ name u i, Passes (objectType s owner) (some (.object name)) ∧
      Passes (typeOf s index) (some u) ∧ Passes (s.indexer name u span) (some i) ∧ t = i.decl.result.type := by
  obtain ⟨name, howner, h⟩ := passes_ownerBefore_bind h
  obtain ⟨u, hu, h⟩ := h.found
  obtain ⟨i, hi, rfl⟩ := h.map
  exact ⟨name, u, i, howner, hu, hi, rfl⟩

theorem passes_accessType_call {owner : Option String} {ident : Ident}
    (h : Passes (accessType s owner (.call span ident args)) (some t)) :
    ∃ types f, Passes (typesOf s args) (types.map some) ∧ Passes (s.callee owner ident types) (some f) ∧
      t = f.decl.result.type := by
  obtain ⟨types, htypes, h⟩ := h.foundAll ⟨fun _ => by split <;> infer_instance⟩
  rw [mapM_id_map_some] at h
  obtain ⟨f, hf, rfl⟩ := h.map
  exact ⟨types, f, htypes, hf, rfl⟩

end Inversion

/-! ### Types of operators

What the type of an operator's result says about the place it can stand in: numbers only
where numbers are expected, and text and pointers where just these are. -/

namespace Primitive

theorem kind?_eq_some : p.kind? = some k ↔ p = .kind k := by
  cases p <;> simp [kind?]

theorem isNumeric_of_isInteger (h : p.isInteger = true) : p.isNumeric = true := by
  unfold isInteger at h
  split at h <;> first | rfl | cases h

/-- Primitives combine to one of the two, or to a literal. -/
theorem reconcile_cases (h : l.reconcile r = some p) : p = l ∨ p = r ∨ (l.isUntyped = true ∧ r.isUntyped = true ∧
      (p = .untypedSigned ∨ (p = .untypedFloat ∧ (l = .untypedFloat ∨ r = .untypedFloat)))) := by
  have hsettle : ∀ {c q : Primitive}, reconcile.settle c q = some p → p = c := by
    intro c q hq
    unfold reconcile.settle at hq
    split at hq
    · cases hq; rfl
    · split at hq
      · split at hq
        · cases hq
        · cases hq; rfl
      · split at hq
        · cases hq; rfl
        · cases hq
  unfold reconcile at h
  split at h
  · cases h; exact .inl rfl
  · split at h
    · cases h
    · split at h
      · rename_i hl hr
        refine .inr (.inr ⟨hl, hr, ?_⟩)
        split at h
        · rename_i hf; cases h; exact .inr ⟨rfl, hf⟩
        · cases h; exact .inl rfl
      · cases h
      · exact .inl (hsettle h)
      · exact .inr (.inl (hsettle h))

theorem reconcile_numeric (hl : l.isNumeric = true) (hr : r.isNumeric = true) (h : l.reconcile r = some p) :
    p.isNumeric = true := by
  obtain rfl | rfl | ⟨-, -, rfl | ⟨rfl, -⟩⟩ := reconcile_cases h
  · exact hl
  · exact hr
  · rfl
  · rfl

theorem reconcile_integer (hl : l.isInteger = true) (hr : r.isInteger = true) (h : l.reconcile r = some p) :
    p.isInteger = true := by
  obtain rfl | rfl | ⟨-, -, rfl | ⟨rfl, rfl | rfl⟩⟩ := reconcile_cases h
  · exact hl
  · exact hr
  · rfl
  · cases hl
  · cases hr

end Primitive

section

variable (h : api.assignable source target = true) (hk : target.primitive.kind? = some k)
include h hk

/-- What can stand where a value of a kind is expected has that kind, or is a number literal
and the kind is one of numbers. -/
theorem Api.assignable_kind :
    source.primitive = .kind k ∨ (source.primitive.isUntyped = true ∧ (Primitive.kind k).isNumeric = true) := by
  rw [Primitive.kind?_eq_some] at hk
  unfold Api.assignable at h
  rw [Bool.or_eq_true] at h
  obtain h | h := h
  · have heq : source = target := by simpa using h
    exact .inl (heq ▸ hk)
  · cases target with
    | object ancestor =>
      cases hk
      cases source with
      | object child => exact .inl rfl
      | prim p => exact .inl (of_decide_eq_true h)
    | prim p =>
      obtain rfl : p = .kind k := hk
      dsimp only at h
      cases k with
      | int k =>
        refine .inr ⟨?_, rfl⟩
        split at h
        · rw [of_decide_eq_true h]; rfl
        · split at h
          · rw [Bool.or_eq_true] at h
            obtain h | h := h
            · rw [of_decide_eq_true h]; rfl
            · rw [of_decide_eq_true h]; rfl
          · simp [Primitive.isFloat] at h
      | float k => exact .inr ⟨h, rfl⟩
      | bool | string | pointer => cases h

theorem Api.assignable_numeric (hs : source.primitive.isNumeric = true) : (Primitive.kind k).isNumeric = true := by
  obtain heq | ⟨-, hn⟩ := Api.assignable_kind h hk
  · rw [← heq]; exact hs
  · exact hn

/-- Where something of a kind that is no number stands, just this kind is expected. -/
theorem Api.assignable_same (hs : source.primitive = .kind j) : j = k := by
  obtain heq | ⟨hu, -⟩ := Api.assignable_kind h hk
  · rw [hs] at heq
    cases heq
    rfl
  · rw [hs] at hu
    cases hu

end

theorem passes_combinedType {l r : Ty} (h : Passes (combinedType span l r) (some t)) :
    ∃ p, t = .prim p ∧ l.primitive.reconcile r.primitive = some p := by
  unfold combinedType at h
  split at h
  · rename_i p hp
    exact ⟨p, by simpa using (passes_pure.1 h).symm, hp⟩
  · exact absurd h (not_passes_refuse _ _ _)

theorem passes_arithmeticType {op : ArithOp} {l r : Ty} (h : Passes (arithmeticType span op l r) (some t)) :
    (op = .add ∧ t = .string) ∨
      (t.primitive.isNumeric = true ∧ (op.isBitwise = true → t.primitive.isInteger = true)) := by
  unfold arithmeticType at h
  split at h
  · split at h
    · rename_i hb hlr
      rw [Bool.and_eq_true] at hlr
      obtain ⟨p, rfl, hp⟩ := passes_combinedType h
      have hint : p.isInteger = true := Primitive.reconcile_integer hlr.1 hlr.2 hp
      exact .inr ⟨Primitive.isNumeric_of_isInteger hint, fun _ => hint⟩
    · exact absurd h (not_passes_refuse _ _ _)
  · rename_i hb
    split at h
    · rename_i hadd
      exact .inl ⟨hadd.1, by simpa using (passes_pure.1 h).symm⟩
    · split at h
      · rename_i hlr
        rw [Bool.and_eq_true] at hlr
        obtain ⟨p, rfl, hp⟩ := passes_combinedType h
        exact .inr ⟨Primitive.reconcile_numeric hlr.1 hlr.2 hp, fun hop => absurd hop hb⟩
      · exact absurd h (not_passes_refuse _ _ _)

theorem passes_unaryType (h : Passes (unaryType span op t) (some u)) :
    (op = .not ∧ u = .bool) ∨ (op = .negate ∧ u.primitive.isNumeric = true) ∨
      (op = .complement ∧ u.primitive.isInteger = true) := by
  unfold unaryType at h
  dsimp only at h
  split at h
  · exact .inl ⟨rfl, by simpa using (passes_pure.1 h).symm⟩
  · refine .inr (.inl ⟨rfl, ?_⟩)
    split at h
    · exact absurd h (not_passes_refuse _ _ _)
    · split at h
      · cases passes_pure.1 h; rfl
      · split at h
        · rename_i hn; cases passes_pure.1 h; exact hn
        · exact absurd h (not_passes_refuse _ _ _)
  · refine .inr (.inr ⟨rfl, ?_⟩)
    split at h
    · rename_i hi; cases passes_pure.1 h; exact hi
    · exact absurd h (not_passes_refuse _ _ _)

/-- Two pointers meet in a pointer. -/
theorem passes_branchType_pointer {l r : Ty} (hl : l.primitive = .kind .pointer)
    (h : Passes (branchType api span l r) (some t)) : t.primitive = .kind .pointer := by
  unfold branchType at h
  split at h
  · cases passes_pure.1 h; exact hl
  · rename_i hne
    split at h
    · cases passes_pure.1 h; rfl
    · cases passes_pure.1 h; rfl
    · split at h
      · cases passes_pure.1 h; rfl
      · exact absurd h (not_passes_refuse _ _ _)
    · obtain ⟨p, rfl, hp⟩ := passes_combinedType h
      rw [hl] at hp
      unfold Primitive.reconcile at hp
      split at hp
      · cases hp; rfl
      · cases hp

end HostScript

import HostScript.Proofs.Survey
import HostScript.Proofs.Text
import HostScript.Proofs.Typing

/-! Scripts as the grammar makes them.

Only functions may return nothing: parameters, properties, subscripts, variables and
casts name types that values can have. So the type of an expression is the type of
values, that of a number literal, or that of a function that returns nothing. -/
namespace HostScript

open Check List Option

variable {types : List Ty} {f : Member FunctionDecl} {o : Object} {vs : Variables}
  {api : Api} {owner : Option String} {span : Span} {name : String} {t : Ty} {v : Variable}

/-- Values can have the type. -/
def Ty.HasKind (t : Ty) : Prop := ∃ k, t.primitive = .kind k

namespace MemberDecl

/-- The types of a declaration are such that values can have them, but for what a function
returns. -/
def Formed : MemberDecl → Prop
  | .function f => (∀ t ∈ f.types, t.HasKind) ∧ (f.result.type.HasKind ∨ f.result.type = .prim .void)
  | .property p => p.type.type.HasKind
  | .subscript d => d.result.type.HasKind ∧ d.index.type.HasKind

end MemberDecl

structure Api.Formed (api : Api) : Prop where
  types : ∀ t ∈ api.types, ∀ m ∈ t.members, m.Formed
  globals : ∀ m ∈ api.globals, m.Formed

/-- Names of variables are words, so they have no `NUL` character. -/
def Variables.Formed (vs : Variables) : Prop :=
  ∀ frame ∈ vs.frames, ∀ e ∈ frame.vars.toList, Clean e.1 ∧ e.2.type.HasKind

structure Scope.Formed (s : Scope) : Prop where
  api : s.api.Formed
  vars : s.vars.Formed

mutual
/-- Casts name types that values can have. -/
def Expr.Formed : Expr → Prop
  | .literal _ _ => True
  | .object _ object => object.Formed
  | .parens _ inner => inner.Formed
  | .cast _ type operand => type.type.HasKind ∧ operand.Formed
  | .unary _ _ operand => operand.Formed
  | .binary _ _ left right => left.Formed ∧ right.Formed
  | .ternary _ condition yes no => condition.Formed ∧ yes.Formed ∧ no.Formed

def Object.Formed : Object → Prop
  | .root access => access.Formed
  | .member _ owner access => owner.Formed ∧ access.Formed
  | .index _ owner index => owner.Formed ∧ index.Formed

def Access.Formed : Access → Prop
  | .name _ => True
  | .call _ _ args => Expr.FormedAll args

def Expr.FormedAll : List Expr → Prop
  | [] => True
  | e :: rest => e.Formed ∧ Expr.FormedAll rest
end

def ActionKind.Formed : ActionKind → Prop
  | .declare _ name value => Clean name.name ∧ ∀ e, value = some e → e.Formed
  | .assign target _ value => target.Formed ∧ value.Formed
  | .step target _ => target.Formed
  | .call target => target.Formed
  | .breakLoop | .continueLoop | .exit => True

def Action.Formed (a : Action) : Prop := a.kind.Formed

mutual
def Statement.Formed : Statement → Prop
  | .importing _ _ | .metadata _ _ => True
  | .global _ members => ∀ m ∈ members, m.Formed
  | .type decl => ∀ m ∈ decl.members, m.Formed
  | .block body => body.Formed
  | .whileLoop condition body => condition.Formed ∧ body.Formed
  | .forLoop start condition step body =>
    (∀ a, start = some a → a.Formed) ∧ (∀ e, condition = some e → e.Formed) ∧
      (∀ a, step = some a → a.Formed) ∧ body.Formed
  | .doWhile body condition => body.Formed ∧ condition.Formed
  | .branch b => b.Formed
  | .action a => a.Formed

def Block.Formed : Block → Prop
  | .mk _ body => Statement.FormedAll body

def Branch.Formed : Branch → Prop
  | .mk condition body otherwise => condition.Formed ∧ body.Formed ∧ otherwise.Formed

def Otherwise.Formed : Otherwise → Prop
  | .nothing => True
  | .branch b => b.Formed
  | .block body => body.Formed

def Statement.FormedAll : List Statement → Prop
  | [] => True
  | s :: rest => s.Formed ∧ Statement.FormedAll rest
end

def Script.Formed (s : Script) : Prop := Statement.FormedAll s

/-! ### Variables -/

theorem Frame.mem_of_find {frame : Frame} (h : frame.find? name = some v) : (name, v) ∈ frame.vars.toList := by
  obtain ⟨e, he, rfl⟩ := map_eq_some_iff.1 h
  have hname : e.1 = name := by simpa using Array.find?_some he
  subst hname
  exact (Array.mem_of_find?_eq_some he).val

theorem Variables.mem_of_find (h : vs.find? name = some v) : ∃ frame ∈ vs.frames, (name, v) ∈ frame.vars.toList := by
  obtain ⟨frame, hmem, hf⟩ := exists_of_findSome?_eq_some h
  exact ⟨frame, hmem, Frame.mem_of_find hf⟩

theorem Variables.Formed.find (hvs : vs.Formed) (h : vs.find? name = some v) : Clean name ∧ v.type.HasKind := by
  obtain ⟨frame, hframe, hmem⟩ := Variables.mem_of_find h
  exact hvs frame hframe _ hmem

/-! ### Members -/

namespace Api

theorem mem_types_of_mem_lineageFrom {t : TypeDecl} :
    ∀ {fuel : Nat} {queue seen : List String}, t ∈ api.lineageFrom fuel queue seen → t ∈ api.types := by
  intro fuel
  induction fuel with
  | zero => intro queue seen h; cases h
  | succ fuel ih =>
    intro queue seen h
    cases queue with
    | nil => cases h
    | cons name queue =>
      unfold lineageFrom at h
      split at h
      · exact ih h
      · split at h
        · exact ih h
        · rename_i u hu
          obtain rfl | h := mem_cons.1 h
          · exact mem_of_find?_eq_some hu
          · exact ih h

theorem Formed.member (h : api.Formed) (hm : m ∈ api.members owner) : m.decl.Formed := by
  cases owner with
  | none =>
    obtain ⟨d, hd, rfl⟩ := mem_map.1 hm
    exact h.globals d hd
  | some name =>
    obtain ⟨t, ht, hm⟩ := mem_flatMap.1 hm
    obtain ⟨d, hd, rfl⟩ := mem_map.1 hm
    exact h.types t (mem_types_of_mem_lineageFrom ht) d hd

theorem mem_of_mem_part {f : MemberDecl → Option α} {ms : List (Member MemberDecl)} {m : Member α}
    (h : m ∈ ms.filterMap (Member.part? f)) : ∃ d ∈ ms, f d.decl = some m.decl := by
  obtain ⟨d, hd, hm⟩ := mem_filterMap.1 h
  obtain ⟨x, hx, rfl⟩ := map_eq_some_iff.1 hm
  exact ⟨d, hd, hx⟩

theorem Formed.part {f : MemberDecl → Option α} {g : α → MemberDecl} (h : api.Formed) {m : Member α}
    (hg : ∀ d a, f d = some a → d = g a) (hm : m ∈ (api.members owner).filterMap (Member.part? f)) :
    (g m.decl).Formed := by
  obtain ⟨d, hd, hf⟩ := mem_of_mem_part hm
  exact hg _ _ hf ▸ h.member hd

theorem Formed.function (h : api.Formed) {m : Member FunctionDecl} (hm : m ∈ api.functions owner) :
    (MemberDecl.function m.decl).Formed :=
  h.part (by rintro (_ | _ | _) _ ⟨⟩; rfl) hm

theorem Formed.property (h : api.Formed) {m : Member PropertyDecl} (hm : m ∈ api.properties owner) :
    (MemberDecl.property m.decl).Formed :=
  h.part (by rintro (_ | _ | _) _ ⟨⟩; rfl) hm

theorem Formed.subscript (h : api.Formed) {m : Member SubscriptDecl} (hm : m ∈ api.subscripts owner) :
    (MemberDecl.subscript m.decl).Formed :=
  h.part (by rintro (_ | _ | _) _ ⟨⟩; rfl) hm

end Api

namespace Scope

variable {s : Scope}

theorem Formed.property (h : s.Formed) {name : Ident} {p : Member PropertyDecl}
    (hp : Passes (s.property owner name) (some p)) : p.decl.type.type.HasKind := by
  unfold Scope.property at hp
  split at hp
  · rename_i q rest heq
    cases passes_pure.1 hp
    have hmem : p ∈ s.api.propertiesNamed owner name.name := by rw [heq]; exact mem_cons_self ..
    exact h.api.property (mem_filter.1 hmem).1
  · exact absurd hp (not_passes_refuse _ _ _)

theorem firstTwo?_mem {span : α → Span} (h : firstTwo? span xs = some (a, b)) : a ∈ xs := by
  cases xs with
  | nil => cases h
  | cons x rest =>
    cases h
    exact mem_cons_self ..

theorem callee_mem {name : Ident} (hf : Passes (s.callee owner name types) (some f)) :
    f ∈ s.api.callees owner name.name types := by
  unfold Scope.callee at hf
  split at hf
  · exact absurd hf (not_passes_refuse _ _ _)
  · rename_i heq
    cases passes_pure.1 hf
    exact firstTwo?_mem heq
  · exact absurd hf (not_passes_refuse _ _ _)

theorem Formed.callee (h : s.Formed) {name : Ident} (hf : Passes (s.callee owner name types) (some f)) :
    (MemberDecl.function f.decl).Formed :=
  h.api.function (mem_filter.1 (callee_mem hf)).1

theorem Formed.indexer (h : s.Formed) {owner : String} {index : Ty} {i : Member SubscriptDecl}
    (hi : Passes (s.indexer owner index span) (some i)) : (MemberDecl.subscript i.decl).Formed := by
  unfold Scope.indexer at hi
  split at hi
  · exact absurd hi (not_passes_refuse _ _ _)
  · rename_i heq
    cases passes_pure.1 hi
    exact h.api.subscript (mem_filter.1 (firstTwo?_mem heq)).1
  · exact absurd hi (not_passes_refuse _ _ _)

end Scope

/-! ### Types of expressions -/

/-- The type of something that a script can name: a value, or the result of a function that
returns nothing. -/
def Ty.Declared (t : Ty) : Prop := t.HasKind ∨ t = .prim .void

/-- The type of an expression. -/
def Ty.Proper (t : Ty) : Prop := t.Declared ∨ t.primitive.isUntyped = true

theorem Ty.HasKind.proper (h : t.HasKind) : t.Proper := .inl (.inl h)

theorem Ty.proper_of_numeric (h : t.primitive.isNumeric = true) : t.Proper := by
  cases hp : t.primitive with
  | kind k => exact .inl (.inl ⟨k, hp⟩)
  | untypedSigned | untypedInteger | untypedFloat => exact .inr (by rw [hp]; rfl)
  | _ => rw [hp] at h; cases h

theorem Ty.proper_prim_iff : (Ty.prim p).Proper ↔ p ≠ .uninitialized ∧ p ≠ .invalid := by
  unfold Ty.Proper Ty.Declared Ty.HasKind Ty.primitive
  cases p <;> simp [Primitive.isUntyped]

theorem Ty.Proper.primitive (h : t.Proper) : t.primitive ≠ .uninitialized ∧ t.primitive ≠ .invalid := by
  cases t with
  | prim p => exact Ty.proper_prim_iff.1 h
  | object name => exact ⟨Primitive.noConfusion, Primitive.noConfusion⟩

/-- What is neither a literal without a kind nor nothing is a value. -/
theorem Ty.Proper.hasKind (h : t.Proper) (hu : t.primitive.isUntyped = false) (hv : t.primitive ≠ .void) :
    t.HasKind := by
  obtain (h | rfl) | h := h
  · exact h
  · exact absurd rfl hv
  · rw [hu] at h
    cases h

theorem proper_combinedType (hl : l.Proper) (hr : r.Proper) (h : Passes (combinedType span l r) (some t)) :
    t.Proper := by
  obtain ⟨p, rfl, hp⟩ := passes_combinedType h
  obtain rfl | rfl | ⟨-, -, rfl | ⟨rfl, -⟩⟩ := Primitive.reconcile_cases hp
  · exact Ty.proper_prim_iff.2 hl.primitive
  · exact Ty.proper_prim_iff.2 hr.primitive
  · exact .inr rfl
  · exact .inr rfl

theorem proper_branchType (hl : l.Proper) (hr : r.Proper) (h : Passes (branchType api span l r) (some t)) :
    t.Proper := by
  unfold branchType at h
  split at h
  · cases passes_pure.1 h
    exact hl
  · split at h
    · cases passes_pure.1 h
      exact hr
    · cases passes_pure.1 h
      exact hl
    · split at h
      · cases passes_pure.1 h
        exact Ty.HasKind.proper ⟨.pointer, rfl⟩
      · exact absurd h (not_passes_refuse _ _ _)
    · exact proper_combinedType hl hr h

section Proper

variable {s : Scope} (hs : s.Formed)

include hs

theorem hasKind_accessType (h : Passes (accessType s owner (.name ident)) (some t)) : t.HasKind := by
  obtain ⟨p, hp, rfl⟩ := h.map
  exact hs.property hp

theorem declared_accessType (h : Passes (accessType s owner a) (some t)) : t.Declared := by
  cases a with
  | name ident => exact .inl (hasKind_accessType hs h)
  | call span ident args =>
    obtain ⟨types, f, -, hf, rfl⟩ := passes_accessType_call h
    exact (hs.callee hf).2

/-- Only a call can return nothing. -/
theorem hasKind_objectType (ho : o.isCall = false) (h : Passes (objectType s o) (some t)) : t.HasKind := by
  cases o with
  | root access =>
    cases access with
    | call span ident args => cases ho
    | name ident =>
      unfold objectType at h
      split at h
      · rename_i v hv
        cases passes_pure.1 h
        exact (hs.vars.find hv).2
      · exact hasKind_accessType hs h
  | member span owner access =>
    obtain ⟨name, -, h⟩ := passes_objectType_member h
    cases access with
    | call callSpan ident args => cases ho
    | name ident => exact hasKind_accessType hs h
  | index span owner index =>
    obtain ⟨name, u, i, -, -, hi, rfl⟩ := passes_objectType_index h
    exact (hs.indexer hi).1

theorem declared_objectType (h : Passes (objectType s o) (some t)) : t.Declared := by
  cases ho : o.isCall with
  | false => exact .inl (hasKind_objectType hs ho h)
  | true =>
    cases o with
    | root access =>
      cases access with
      | name ident => cases ho
      | call span ident args =>
        exact declared_accessType hs h
    | member span owner access =>
      obtain ⟨name, -, h⟩ := passes_objectType_member h
      exact declared_accessType hs h
    | index span owner index => cases ho

theorem proper_typeOf : (e : Expr) → e.Formed → ∀ {t : Ty}, Passes (typeOf s e) (some t) → t.Proper
  | .literal _ value, _, t, h => by
    cases passes_pure.1 h
    cases value <;> exact Ty.proper_prim_iff.2 ⟨Primitive.noConfusion, Primitive.noConfusion⟩
  | .parens _ inner, he, t, h => by
    exact proper_typeOf inner he h
  | .object _ object, _, t, h => by
    exact .inl (declared_objectType hs h)
  | .cast _ type operand, he, t, h => by
    unfold typeOf Scope.namedType at h
    split at h
    · cases passes_pure.1 h
      exact he.1.proper
    · exact absurd h (not_passes_refuse _ _ _)
  | .unary span op operand, _, t, h => by
    obtain ⟨u, -, h⟩ := passes_typeOf_unary h
    obtain ⟨-, rfl⟩ | ⟨-, hn⟩ | ⟨-, hi⟩ := passes_unaryType h
    · exact Ty.HasKind.proper ⟨.bool, rfl⟩
    · exact Ty.proper_of_numeric hn
    · exact Ty.proper_of_numeric (Primitive.isNumeric_of_isInteger hi)
  | .binary span op left right, he, t, h => by
    by_cases hop : op = .and ∨ op = .or
    · unfold typeOf at h
      rw [if_pos hop] at h
      cases passes_pure.1 h
      exact Ty.HasKind.proper ⟨.bool, rfl⟩
    · obtain ⟨l, r, hl, hr, h⟩ := passes_typeOf_binary h hop
      cases op with
      | compare op =>
        obtain ⟨rfl, -⟩ := h
        exact Ty.HasKind.proper ⟨.bool, rfl⟩
      | arith op =>
        obtain ⟨-, rfl⟩ | ⟨hn, -⟩ := passes_arithmeticType h
        · exact Ty.HasKind.proper ⟨.string, rfl⟩
        · exact Ty.proper_of_numeric hn
      | _ => exact proper_branchType (proper_typeOf left he.1 hl) (proper_typeOf right he.2 hr) h.2
  | .ternary span condition yes no, he, t, h => by
    obtain ⟨l, r, hl, hr, h⟩ := passes_typeOf_ternary h
    exact proper_branchType (proper_typeOf yes he.2.1 hl) (proper_typeOf no he.2.2 hr) h

end Proper

end HostScript

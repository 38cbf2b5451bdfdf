import HostScript.Proofs.Symbols

/-! Which members names stand for.

`choices` lists the functions and properties that the names in a part of a script are
resolved to, in the order in which its code refers to them. Nothing is chosen in a part that
there is no code for: one that is known or refused, and what stands in it. The numbers that
are left open in the code of a part are those of the members chosen in it and no others,
whatever is wrong with the script (`always_emit_cites`, `chooses_statement`). -/
namespace HostScript

open Check Check.Plain List

variable {bytes : Array UInt8} {d : Choosing} {f : Fragment} {cs ds : List Choice} {span : Span}

/-- A name in a script, and the member that it is resolved to. -/
structure Choice where
  name : Ident
  offer : Offer

@[simp] def Choice.descriptor (c : Choice) : String := c.offer.descriptor

/-! ### Fragments -/

namespace Fragment

/-- The descriptors whose numbers are left open, in order. -/
def cited (f : Fragment) : List String := f.marks.toList.filterMap fun m => MarkKind.descriptor? m.kind

/-- The numbers left open are those of chosen members. -/
def Cites (cs : List Choice) (f : Fragment) : Prop := f.cited = cs.map Choice.descriptor

variable {g : Fragment}

@[simp] theorem cited_append (f g : Fragment) : (f ++ g).cited = f.cited ++ g.cited := by
  show (f.marks ++ g.marks.map (moved f.bytes.size)).toList.filterMap _ = _
  rw [Array.toList_append, Array.toList_map, filterMap_append, filterMap_map]
  rfl

/-- Marks of other kinds may go. -/
theorem cited_filter (f : Fragment) (h : ∀ m, keep m = false → MarkKind.descriptor? m.kind = none) :
    cited ⟨bytes, f.marks.filter keep⟩ = f.cited := by
  unfold cited
  rw [Array.toList_filter, filterMap_filter]
  refine filterMap_congr fun m _ => ?_
  split
  · rfl
  · next hkeep => exact (h m (Bool.not_eq_true _ ▸ hkeep)).symm

/-- Resolving jumps leaves what is cited. -/
theorem cited_resolveJumps (f : Fragment) (l : Leap) (target : Target) :
    (f.resolveJumps l.mark target).cited = f.cited := by
  refine cited_filter f fun m hm => ?_
  rw [decide_eq_false_iff_not, not_not] at hm
  rw [hm]
  cases l <;> rfl

@[simp] theorem cited_resolveBreaks (f : Fragment) (target : Target) :
    (f.resolveJumps .breakJump target).cited = f.cited := cited_resolveJumps f .breaks target

@[simp] theorem cited_resolveContinues (f : Fragment) (target : Target) :
    (f.resolveJumps .continueJump target).cited = f.cited := cited_resolveJumps f .continues target

theorem cited_zeroLines (f : Fragment) : f.zeroLines.cited = f.cited := by
  refine cited_filter f fun m hm => ?_
  rw [decide_eq_false_iff_not, not_not] at hm
  rw [hm]
  rfl

theorem cited_relocate (base : Storage) (f : Fragment) : (f.relocate base).cited = f.cited := rfl

theorem cites_empty : Cites [] ∅ := rfl

theorem Cites.append (hf : Cites cs f) (hg : Cites ds g) : Cites (cs ++ ds) (f ++ g) := by
  unfold Cites at *
  rw [cited_append, hf, hg, map_append]

@[simp] theorem cited_empty : cited ∅ = [] := rfl

@[simp] theorem cited_opcode (op : Opcode) : (opcode op).cited = [] := rfl

@[simp] theorem cited_kind (k : Kind) : (kind k).cited = [] := rfl

@[simp] theorem cited_byte (n : Nat) : (byte n).cited = [] := rfl

@[simp] theorem cited_word (n : Nat) : (word n).cited = [] := rfl

@[simp] theorem cited_distance (n : Nat) : (distance n).cited = [] := rfl

@[simp] theorem cited_text (x : String) : (text x).cited = [] := rfl

@[simp] theorem cited_mark (kind : MarkKind) : (mark kind).cited = (MarkKind.descriptor? kind).toList := by
  show [(⟨0, kind⟩ : Mark)].filterMap (fun m => MarkKind.descriptor? m.kind) = _
  rw [filterMap_cons]
  cases MarkKind.descriptor? kind <;> rfl

@[simp] theorem cited_place (v : Variable) : (place v).cited = [] := by
  unfold place
  split <;> simp [MarkKind.descriptor?]

@[simp] theorem cited_read (v : Variable) : (read v).cited = [] := by simp [read]

@[simp] theorem cited_symbol (x : String) : (symbol x).cited = [x] := by simp [symbol, MarkKind.descriptor?]

@[simp] theorem cited_literal (l : Literal) : (literal l).cited = [] := by
  unfold literal
  split <;> rfl

@[simp] theorem cited_debugUpdate (name : String) (v : Variable) : (debugUpdate name v).cited = [] := by
  unfold debugUpdate
  split <;> simp

end Fragment

open Fragment

/-! ### Expressions -/

/-- What is chosen in an expression, given its type, if there is code for it where a type is expected. -/
def Expr.coded (s : Scope) (e : Expr) (expected : Ty) (parts : Ty → List Choice) : List Choice :=
  if expected.primitive.kind?.isNone then []
  else
    match e.type? s with
    | some t => if !s.api.assignable t expected || e.known?.isSome then [] else parts t
    | none => []

/-- The type that there is code for in a cast that does not only change the type of a pointer. -/
def conversionOperand? (api : Api) (source target : Ty) : Option Ty :=
  if source.primitive = target.primitive then some source
  else if target.primitive = .kind .pointer then none
  else if source.primitive = .kind .pointer ∧ target.primitive ≠ .kind .string then none
  else if source.primitive.isUntyped then if api.assignable source target then some target else none
  else source.primitive.kind?.map fun _ => source

/-- The type that there is code for in a cast, if it is allowed. -/
def castOperand? (api : Api) (source target : Ty) : Option Ty :=
  match source, target with
  | .object child, .object ancestor =>
    if !api.inherits ancestor child && !api.inherits child ancestor then none else some (.object child)
  | source, target => conversionOperand? api source target

/-- The types that there is code for on both sides of a comparison, if it is allowed. -/
def comparisonOperands? (span : Span) (op : CompareOp) (l r : Ty) : Option (Ty × Ty) :=
  match (comparisonType span op l r #[]).1 with
  | some t =>
    if t.primitive.isUntyped then none
    else t.primitive.kind?.map fun k => if k = .pointer then (l, r) else (t, t)
  | none => none

def Ty.object? : Ty → Option String
  | .object name => some name
  | _ => none

mutual
/-- The members that are chosen in an expression that is expected to have a type. -/
def Expr.choices (s : Scope) : Expr → Ty → List Choice
  | .literal _ _, _ => []
  | .object span object, t => Expr.coded s (.object span object) t fun _ => object.choices s
  | .parens span inner, t => Expr.coded s (.parens span inner) t fun _ => inner.choices s t
  | .cast span type operand, t =>
    Expr.coded s (.cast span type operand) t fun target =>
      match (operand.type? s).bind fun source => castOperand? s.api source target with
      | some source => operand.choices s source
      | none => []
  | .unary span op operand, t =>
    Expr.coded s (.unary span op operand) t fun _ => operand.choices s (if op = .not then .bool else t)
  | .binary span op left right, t =>
    Expr.coded s (.binary span op left right) t fun _ =>
      match op with
      | .compare op =>
        match left.type? s, right.type? s with
        | some l, some r =>
          match comparisonOperands? span op l r with
          | some (l, r) => left.choices s l ++ right.choices s r
          | none => []
        | _, _ => []
      | op =>
        let operand := if op = .and ∨ op = .or then .bool else t
        left.choices s operand ++ right.choices s operand
  | .ternary span condition yes no, t =>
    Expr.coded s (.ternary span condition yes no) t fun _ =>
      match condition.knownBool? with
      | some true => yes.choices s t
      | some false => no.choices s t
      | none => condition.choices s .bool ++ yes.choices s t ++ no.choices s t

def Object.choices (s : Scope) : Object → List Choice
  | .root access =>
    match access.var? s.vars with
    | some _ => []
    | none => access.choices s none []
  | .member _ owner access =>
    match (owner.type? s).bind Ty.object? with
    | some name => access.choices s (some name) (owner.choices s)
    | none => []
  | .index span owner index =>
    match (owner.type? s).bind Ty.object?, index.type? s with
    | some name, some t =>
      match (s.indexer name t span #[]).1 with
      | some i =>
        if i.decl.index.type.primitive.kind?.isSome then owner.choices s ++ index.choices s i.decl.index.type else []
      | none => []
    | _, _ => []

/-- What is chosen in a property or a call behind the choices on the way to it. -/
def Access.choices (s : Scope) (owner : Option String) (before : List Choice) : Access → List Choice
  | .name ident =>
    match (s.property owner ident #[]).1 with
    | some p => before ++ [⟨ident, .property p⟩]
    | none => []
  | .call _ ident args =>
    match (typesOf s args #[]).1.mapM id with
    | some types =>
      match (s.callee owner ident types #[]).1 with
      | some f =>
        if 255 < args.length then []
        else before ++ ⟨ident, .function f⟩ :: Expr.argumentChoices s args types f.decl.types
      | none => []
    | none => []

/-- What is chosen in arguments up to one that is refused. -/
def Expr.argumentChoices (s : Scope) : List Expr → List Ty → List Ty → List Choice
  | e :: rest, actual :: types, declared =>
    match (argumentType e.span declared.head? actual #[]).1 with
    | some t =>
      if t.primitive.kind?.isSome then e.choices s t ++ Expr.argumentChoices s rest types declared.tail else []
    | none => []
  | _, _, _ => []
end

/-! ### Code of expressions -/

section Emit

variable {s : Scope}

theorem ownerBefore_eq (span : Span) (problem : Ty → Problem) (t : Option Ty) :
    (Scope.ownerBefore span problem t #[]).1 = t.bind Ty.object? := by
  match t with
  | none | some (.object _) | some (.prim _) => rfl

theorem coded_nil (s : Scope) (e : Expr) (expected : Ty) : e.coded s expected (fun _ => []) = [] := by
  unfold Expr.coded
  split
  · rfl
  · split
    · split <;> rfl
    · rfl

theorem always_refused : Always (do c; return (∅ : Fragment)) (Cites []) :=
  .after _ fun _ => always_pure cites_empty

theorem always_emitAs_cites (h : ∀ t, Always (code t) (Cites (parts t))) :
    Always (emitAs s e expected code) (Cites (e.coded s expected parts)) := by
  unfold emitAs Expr.coded
  split
  · exact always_refused
  refine always_bind ?_
  unfold Expr.type? Expr.known?
  rcases (typeOf s e #[]).1 with _ | actual
  · exact always_pure cites_empty
  dsimp only
  cases s.api.assignable actual expected with
  | false => exact always_refused
  | true =>
    refine always_bind ?_
    rcases (fold e #[]).1 with _ | l
    · exact h actual
    refine .after _ fun l => ?_
    split <;> exact always_pure (by simp [Cites])

theorem always_emitComparison_cites {left right : Ty → Check Fragment} {cs ds : Ty → List Choice}
    (hl : ∀ t, Always (left t) (Cites (cs t))) (hr : ∀ t, Always (right t) (Cites (ds t))) :
    Always (emitComparison span op l r left right)
      (Cites (match comparisonOperands? span op l r with | some (l, r) => cs l ++ ds r | none => [])) := by
  have hsides : ∀ k l r, Always (do
      return Fragment.opcode (.compare op) ++ .kind k ++ (← left l) ++ (← right r)) (Cites (cs l ++ ds r)) :=
    fun k l r => (hl l).bind fun _ h => (hr r).bind fun _ h' => always_pure (by simp_all [Cites])
  unfold comparisonOperands?
  refine always_bind ?_
  rcases (comparisonType span op l r #[]).1 with _ | t
  · exact always_pure cites_empty
  dsimp only
  split
  · exact always_refused
  rcases t.primitive.kind? with _ | k
  · exact always_pure cites_empty
  dsimp only [Option.map_some]
  split
  · exact hsides k l r
  · exact hsides k t t

theorem always_emitCast_cites {operand : Ty → Check Fragment} {cs : Ty → List Choice}
    (h : ∀ t, Always (operand t) (Cites (cs t))) :
    Always (emitCast api span source target operand)
      (Cites (match castOperand? api source target with | some t => cs t | none => [])) := by
  unfold emitCast
  split
  · unfold castOperand?
    dsimp only
    split
    · exact always_refused
    · exact h _
  · next hobjects =>
    have hcast : castOperand? api source target = conversionOperand? api source target := by
      unfold castOperand?
      split
      · exact (hobjects _ _ rfl rfl).elim
      · rfl
    rw [hcast]
    unfold conversionOperand?
    split
    · exact h _
    split
    · exact always_refused
    split
    · exact always_refused
    split
    · split
      · exact h _
      · exact always_refused
    rcases source.primitive.kind? with _ | k
    · exact always_pure cites_empty
    · exact (h _).bind fun _ hcode => always_pure (by simp_all [Cites])

mutual
/-- The code of an expression cites the members that were chosen for it. -/
theorem always_emit_cites (s : Scope) :
    (e : Expr) → (expected : Ty) → Always (emit s e expected) (Cites (e.choices s expected))
  | .literal span value, expected => by
    unfold Expr.choices
    rw [← coded_nil s (.literal span value) expected]
    exact always_emitAs_cites fun _ => always_pure cites_empty
  | .object span object, expected => always_emitAs_cites fun _ => always_emitObject_cites s object true
  | .parens span inner, expected => always_emitAs_cites fun _ => always_emit_cites s inner expected
  | .cast span type operand, expected => by
    refine always_emitAs_cites fun target => always_bind ?_
    unfold Expr.type?
    rcases (typeOf s operand #[]).1 with _ | source
    · exact always_pure cites_empty
    · exact always_emitCast_cites (always_emit_cites s operand)
  | .unary span op operand, expected => by
    refine always_emitAs_cites fun _ => ?_
    cases op <;> exact (always_emit_cites s operand _).bind fun _ h => always_pure (by simp_all [Cites])
  | .binary span op left right, expected => by
    refine always_emitAs_cites fun _ => ?_
    have hboth : ∀ op t, Always (do
        return Fragment.opcode op ++ (← emit s left t) ++ (← emit s right t)) (Cites (left.choices s t ++ right.choices s t)) :=
      fun op t => (always_emit_cites s left t).bind fun _ hl => (always_emit_cites s right t).bind fun _ hr =>
        always_pure (by simp_all [Cites])
    cases op with
    | compare op =>
      refine always_bind (always_bind ?_)
      unfold Expr.type?
      rcases (typeOf s left #[]).1 with _ | l
      · exact always_pure cites_empty
      rcases (typeOf s right #[]).1 with _ | r
      · exact always_pure cites_empty
      · exact always_emitComparison_cites (always_emit_cites s left) (always_emit_cites s right)
    | _ => exact hboth _ _
  | .ternary span condition yes no, expected => by
    refine always_emitAs_cites fun _ => always_bind ?_
    unfold Expr.knownBool?
    match (fold condition #[]).1.bind Literal.bool? with
    | some true => exact always_emit_cites s yes expected
    | some false => exact always_emit_cites s no expected
    | none =>
      exact (always_emit_cites s condition .bool).bind fun _ hc => (always_emit_cites s yes expected).bind fun _ hy =>
        (always_emit_cites s no expected).bind fun _ hn => always_pure (by simp_all [Cites])

theorem always_emitObject_cites (s : Scope) :
    (o : Object) → (used : Bool) → Always (emitObject s o used) (Cites (o.choices s))
  | .root access, used => by
    unfold emitObject Object.choices
    cases access.var? s.vars with
    | some v => exact always_pure (cited_read v)
    | none => exact always_emitAccess_cites s access used (always_pure (cited_opcode _))
  | .member span owner access, used => by
    unfold Object.choices
    refine always_bind (always_bind ?_)
    rw [ownerBefore_eq]
    unfold Object.type?
    rcases (objectType s owner #[]).1.bind Ty.object? with _ | name
    · exact always_pure cites_empty
    · exact always_emitAccess_cites s access used (always_emitObject_cites s owner true)
  | .index span owner index, used => by
    unfold Object.choices
    refine always_bind (always_bind ?_)
    rw [ownerBefore_eq]
    unfold Object.type? Expr.type?
    rcases (objectType s owner #[]).1.bind Ty.object? with _ | name
    · exact always_pure cites_empty
    refine always_bind ?_
    rcases (typeOf s index #[]).1 with _ | t
    · exact always_pure cites_empty
    refine always_bind ?_
    dsimp only
    rcases (s.indexer name t span #[]).1 with _ | i
    · exact always_pure cites_empty
    dsimp only
    rcases i.decl.index.type.primitive.kind? with _ | k
    · exact always_pure cites_empty
    · exact (always_emitObject_cites s owner true).bind fun _ ho => (always_emit_cites s index _).bind fun _ hi =>
        always_pure (by simp_all [Cites])

theorem always_emitAccess_cites (s : Scope) : (a : Access) → (used : Bool) → {owner : Option String} →
    {target : Check Fragment} → {before : List Choice} → Always target (Cites before) →
    Always (emitAccess s owner target a used) (Cites (a.choices s owner before))
  | .name ident, used, owner, target, before, ht => by
    unfold Access.choices
    refine always_bind ?_
    rcases (s.property owner ident #[]).1 with _ | p
    · exact always_pure cites_empty
    · exact ht.bind fun _ h => always_pure (by simp_all [Cites, Offer.descriptor])
  | .call span ident args, used, owner, target, before, ht => by
    unfold Access.choices
    refine always_bind ?_
    rcases (typesOf s args #[]).1.mapM id with _ | types
    · exact always_pure cites_empty
    refine always_bind ?_
    dsimp only
    rcases (s.callee owner ident types #[]).1 with _ | f
    · exact always_pure cites_empty
    dsimp only
    split
    · exact always_refused
    refine ht.bind fun _ h => ?_
    rw [append_cons]
    exact always_emitArguments_cites s args types _ (by simp_all [Cites, Offer.descriptor])

theorem always_emitArguments_cites (s : Scope) : (args : List Expr) → (types declared : List Ty) → {code : Fragment} →
    {before : List Choice} → Cites before code →
    Always (emitArguments s args types declared code) (Cites (before ++ Expr.argumentChoices s args types declared))
  | [], _, _, _, _, hcode | e :: _, [], _, _, _, hcode => by
    unfold Expr.argumentChoices
    rw [List.append_nil]
    exact always_pure hcode
  | e :: rest, actual :: types, declared, code, before, hcode => by
    unfold Expr.argumentChoices
    refine always_bind ?_
    cases (argumentType e.span declared.head? actual #[]).1 with
    | none => exact always_pure (by rwa [List.append_nil])
    | some t =>
      dsimp only
      cases t.primitive.kind? with
      | none => exact always_pure (by rwa [Option.isSome_none, if_neg Bool.false_ne_true, List.append_nil])
      | some k =>
        refine (always_emit_cites s e t).bind fun _ h => ?_
        rw [Option.isSome_some, if_pos rfl, ← List.append_assoc]
        exact always_emitArguments_cites s rest types _ (by simp_all [Cites])
end

end Emit

/-! ### Updates -/

/-- What is chosen in the value that is given. -/
def Update.choices (u : Update) (s : Scope) (t : Ty) : List Choice :=
  match u with
  | .assign _ value => value.choices s t
  | .step _ => []

/-- What is chosen in an update of a property behind the choices on the way to it. -/
def Update.propertyChoices (u : Update) (s : Scope) (owner : Option String) (before : List Choice) (name : Ident) (t : Ty) :
    List Choice :=
  match (s.property owner name #[]).1 with
  | some p =>
    if p.decl.readonly || (u.problem? t.primitive).isSome then []
    else before ++ ⟨name, .property p⟩ :: u.choices s t
  | none => []

def Update.subscriptChoices (u : Update) (s : Scope) (span : Span) (owner : Object) (index : Expr) (t : Ty) : List Choice :=
  match (owner.type? s).bind Ty.object?, index.type? s with
  | some name, some indexType =>
    match (s.indexer name indexType span #[]).1 with
    | some i =>
      if i.decl.readonly || (u.problem? t.primitive).isSome || i.decl.index.type.primitive.kind?.isNone then []
      else owner.choices s ++ index.choices s i.decl.index.type ++ u.choices s t
    | none => []
  | _, _ => []

/-- What is chosen in an update of a member. -/
def Update.memberChoices (u : Update) (s : Scope) (t : Ty) : Object → List Choice
  | .index span owner index => u.subscriptChoices s span owner index t
  | .root (.name name) => u.propertyChoices s none [] name t
  | .member _ owner (.name name) =>
    match (owner.type? s).bind Ty.object? with
    | some ownerName => u.propertyChoices s (some ownerName) (owner.choices s) name t
    | none => []
  | _ => []

/-- What is chosen in the target and the value of an update. -/
def Update.allChoices (u : Update) (s : Scope) (target : Object) : List Choice :=
  match target.var? s.vars with
  | some (_, v) => if (u.problem? v.type.primitive).isSome || v.type.primitive.kind?.isNone then [] else u.choices s v.type
  | none =>
    match target.type? s with
    | some t => if target.isCall || t.primitive.kind?.isNone then [] else u.memberChoices s t target
    | none => []

section Update

variable {s : Scope}

theorem applies_eq (u : Update) (t : Ty) (span : Span) :
    (u.applies t span #[]).1 = (u.problem? t.primitive).isNone := by
  unfold Update.applies
  cases u.problem? t.primitive <;> rfl

theorem always_emitValue_cites (u : Update) (s : Scope) (t : Ty) :
    Always (u.emitValue s t) (Cites (u.choices s t)) := by
  cases u with
  | assign op value => exact always_emit_cites s value t
  | step down =>
    unfold Update.emitValue
    dsimp only
    split <;> exact always_pure (by simp [Cites, Update.choices])

theorem always_emitPropertyUpdate_cites (h : Always target (Cites before)) (name : Ident) (t : Ty) (k : Kind)
    (u : Update) (span : Span) :
    Always (emitPropertyUpdate s owner target name t k u span) (Cites (u.propertyChoices s owner before name t)) := by
  unfold Update.propertyChoices
  refine always_bind ?_
  rcases (s.property owner name #[]).1 with _ | p
  · exact always_pure cites_empty
  dsimp only
  rcases p.decl.readonly with _ | _
  · refine always_bind ?_
    rw [applies_eq]
    rcases u.problem? t.primitive with _ | problem
    · exact h.bind fun _ hcode => (always_emitValue_cites u s t).bind fun _ hvalue => always_pure
        (by simp_all [Cites, Offer.descriptor])
    · exact always_pure cites_empty
  · exact always_refused

theorem always_emitSubscriptUpdate_cites (span : Span) (owner : Object) (index : Expr) (t : Ty) (k : Kind) (u : Update)
    (actionSpan : Span) :
    Always (emitSubscriptUpdate s span owner index t k u actionSpan) (Cites (u.subscriptChoices s span owner index t)) := by
  unfold Update.subscriptChoices
  refine always_bind (always_bind ?_)
  rw [ownerBefore_eq]
  unfold Object.type? Expr.type?
  rcases (objectType s owner #[]).1.bind Ty.object? with _ | name
  · exact always_pure cites_empty
  refine always_bind ?_
  rcases (typeOf s index #[]).1 with _ | indexType
  · exact always_pure cites_empty
  refine always_bind ?_
  dsimp only
  rcases (s.indexer name indexType span #[]).1 with _ | i
  · exact always_pure cites_empty
  dsimp only
  rcases i.decl.readonly with _ | _
  · refine always_bind ?_
    rw [applies_eq]
    rcases u.problem? t.primitive with _ | problem
    · rcases i.decl.index.type.primitive.kind? with _ | j
      · exact always_pure cites_empty
      · exact (always_emitObject_cites s owner true).bind fun _ ho => (always_emit_cites s index _).bind fun _ hi =>
          (always_emitValue_cites u s t).bind fun _ hvalue => always_pure (by simp_all [Cites])
    · exact always_pure cites_empty
  · exact always_refused

theorem always_emitVariableUpdate_cites (debug : Bool) (name : String) (v : Variable) (u : Update) (span : Span) :
    Always (emitVariableUpdate s debug name v u span)
      (Cites (if (u.problem? v.type.primitive).isSome || v.type.primitive.kind?.isNone then [] else u.choices s v.type)) := by
  refine always_bind ?_
  rw [applies_eq]
  cases u.problem? v.type.primitive with
  | some problem => exact always_pure cites_empty
  | none =>
    cases v.type.primitive.kind? with
    | none => exact always_pure cites_empty
    | some k =>
      refine (always_emitValue_cites u s v.type).bind fun value hvalue => always_pure ?_
      cases u.op?.isSome <;> cases debug <;> simp_all [Cites]

theorem always_emitUpdate_cites (debug : Bool) (target : Object) (u : Update) (span : Span) :
    Always (emitUpdate s debug target u span) (Cites (u.allChoices s target)) := by
  unfold emitUpdate Update.allChoices
  cases target.var? s.vars with
  | some nv => exact always_emitVariableUpdate_cites debug nv.1 nv.2 u span
  | none =>
    dsimp only
    cases target.isCall with
    | true =>
      refine .after _ fun _ => always_pure ?_
      split <;> exact cites_empty
    | false =>
      refine always_bind ?_
      unfold Object.type?
      cases (objectType s target #[]).1 with
      | none => exact always_pure cites_empty
      | some t =>
        dsimp only
        cases t.primitive.kind? with
        | none => exact always_pure cites_empty
        | some k =>
          match target with
          | .index span' owner index => exact always_emitSubscriptUpdate_cites span' owner index t k u span
          | .root (.name name) => exact always_emitPropertyUpdate_cites (always_pure (by simp [Cites])) name t k u span
          | .member _ owner (.name name) =>
            refine always_bind (always_bind ?_)
            rw [ownerBefore_eq]
            show Always _ (Cites (match (objectType s owner #[]).1.bind Ty.object? with
              | some ownerName => u.propertyChoices s (some ownerName) (owner.choices s) name t
              | none => []))
            cases (objectType s owner #[]).1.bind Ty.object? with
            | none => exact always_pure cites_empty
            | some ownerName => exact always_emitPropertyUpdate_cites (always_emitObject_cites s owner true) name t k u span
          | .root (.call _ _ _) | .member _ _ (.call _ _ _) => exact always_pure cites_empty

end Update

/-! ### Statements -/

/-- The members chosen in a part of a script, which takes the variables in front of it to those behind it. -/
abbrev Choosing := StateM Variables (List Choice)

namespace Choosing

/-- What is chosen with the names that are visible now. -/
def within (api : Api) (f : Scope → List Choice) : Choosing := fun vs => (f ⟨api, vs⟩, vs)

def inScope (c : Choosing) : Choosing := do
  modify Variables.push
  let cs ← c
  modify (·.pop.2)
  return cs

/-- The variable itself, once its value is there; without the variable there is no code for the value. -/
def declareAs (type : TypeRef) (name : Ident) (value : List Choice) : Choosing := do
  match (← get).declare name.name type.type name.span with
  | .error _ => return []
  | .ok (_, vars) =>
    set vars
    return value

def declare (api : Api) (type : TypeRef) (name : Ident) (value : Option Expr) : Choosing :=
  match type.type.primitive.kind? with
  | some _ => within api (fun s => (value.map (·.choices s type.type)).getD []) >>= declareAs type name
  | none => return []

def action (api : Api) (a : Action) : Choosing :=
  match a.kind with
  | .declare type name value => declare api type name value
  | .assign target op value => within api fun s => (Update.assign op value).allChoices s target
  | .step target down => within api fun s => (Update.step down).allChoices s target
  | .call target => within api fun s => if target.isCall then target.choices s else []
  | .breakLoop | .continueLoop | .exit => return []

def optionalAction (api : Api) : Option Action → Choosing
  | some a => action api a
  | none => return []

/-- The condition of a loop is checked after its body and stands before it. -/
def looped (api : Api) (condition : Option Expr) (body : List Choice) : Choosing :=
  match condition with
  | none => return body
  | some e => do return (← within api fun s => e.choices s .bool) ++ body

def whileLoop (api : Api) (condition : Expr) (body : Choosing) : Choosing :=
  if condition.knownBool? = some false then return []
  else do
    let body ← body
    looped api (if condition.knownBool? = some true then none else some condition) body

def forRest (api : Api) (known : Option Bool) (condition : Option Expr) (step : Option Action) (body : Choosing) : Choosing :=
  if known = some false then return []
  else do
    let body ← body
    let last ← optionalAction api step
    looped api (if known = some true then none else condition) (body ++ last)

def forLoop (api : Api) (start : Option Action) (condition : Option Expr) (step : Option Action) (body : Choosing) :
    Choosing :=
  inScope do
    let head ← optionalAction api start
    return head ++ (← forRest api ((condition.map Expr.knownBool?).getD (some true)) condition step body)

def doWhile (api : Api) (body : Choosing) (condition : Expr) : Choosing := do
  let body ← body
  if condition.knownBool?.isSome then return body
  else return body ++ (← within api fun s => condition.choices s .bool)

def branch (api : Api) (condition : Expr) (body otherwise : Choosing) : Choosing :=
  match condition.knownBool? with
  | some true => body
  | some false => otherwise
  | none => do
    let condition ← within api fun s => condition.choices s .bool
    return condition ++ (← body) ++ (← otherwise)

end Choosing

mutual
def Statement.choices (api : Api) : Statement → Choosing
  | .importing _ _ | .global _ _ | .type _ | .metadata _ _ => return []
  | .block body => body.choices api
  | .whileLoop condition body => .whileLoop api condition (body.choices api)
  | .forLoop start condition step body => .forLoop api start condition step (body.choices api)
  | .doWhile body condition => .doWhile api (body.choices api) condition
  | .branch b => b.choices api
  | .action a => .action api a

def Block.choices (api : Api) : Block → Choosing
  | .mk _ body => .inScope (Statement.allChoices api body)

def Branch.choices (api : Api) : Branch → Choosing
  | .mk condition body otherwise => .branch api condition (body.choices api) (otherwise.choices api)

def Otherwise.choices (api : Api) : Otherwise → Choosing
  | .nothing => return []
  | .branch b => b.choices api
  | .block body => body.choices api

def Statement.allChoices (api : Api) : List Statement → Choosing
  | [] => return []
  | s :: rest => do return (← s.choices api) ++ (← Statement.allChoices api rest)
end

/-- The members chosen in a script where some declarations and variables are visible. -/
def Script.choices (api : Api) (vars : Variables) (s : Script) : List Choice := (Statement.allChoices api s vars).1

/-! ### Code of statements -/

/-- The code of a part has the numbers of what is chosen in it left open, and both leave the same variables. -/
def Chooses (c : Compiling Fragment) (d : Choosing) : Prop :=
  Abreast (fun p vs => p.vars = vs) (fun f cs => Cites cs f) c d

/-- What the compiler does besides leaves the variables as they are. -/
theorem Chooses.after {g : α → Compiling Fragment} (hc : ∀ p, (c p).2.vars = p.vars) (hg : ∀ a, Chooses (g a) d) :
    Chooses (c >>= g) d :=
  fun p vs h => hg _ _ vs ((hc p).trans h)

namespace Compiling

variable {ctx : Context}

theorem chooses_pure (h : Cites cs f) : Chooses (pure f) (pure cs) := abreast_pure h

theorem chooses_check {g : Scope → Check Fragment} {d : Scope → List Choice} (h : ∀ s, Always (g s) (Cites (d s))) :
    Chooses (check ctx g) (.within ctx.api d) := by
  rintro p _ rfl
  exact ⟨h ⟨ctx.api, p.vars⟩ p.reports, rfl⟩

theorem chooses_emit (e : Expr) (t : Ty) :
    Chooses (check ctx fun s => emit s e t) (.within ctx.api fun s => e.choices s t) :=
  chooses_check fun s => always_emit_cites s e t

/-- What a condition is known to be does not depend on the run. -/
theorem chooses_known (e : Expr) (h : Chooses (g e.knownBool?) d) : Chooses (known ctx e >>= g) d := by
  rintro p vs hvars
  have hknown : (known ctx e p).1 = e.knownBool? := congrArg (·.bind Literal.bool?) ((plain_fold e).steady p.reports)
  have hstep := h (known ctx e p).2 vs hvars
  rw [← hknown] at hstep
  exact hstep

theorem cites_leave (ctx : Context) (p : Progress) : Cites [] (leave ctx p).1 := by
  have hall : ∀ (vars : List (String × Variable)) (code : Fragment), Cites [] code →
      Cites [] (vars.foldl (fun code v => code ++ Fragment.opcode .debugDelete ++ .text v.1) code) := by
    intro vars
    induction vars with
    | nil => exact fun _ h => h
    | cons x rest ih => exact fun code h => ih _ (by simp_all [Cites])
  show Cites [] (if ctx.debug then _ else ∅)
  split
  · exact hall _ _ cites_empty
  · exact cites_empty

theorem chooses_inScope (h : Chooses c d) : Chooses (inScope ctx c) (.inScope d) := by
  rintro p _ rfl
  obtain ⟨hcode, hvars⟩ := h { p with vars := p.vars.push } p.vars.push rfl
  refine ⟨?_, congrArg (·.pop.2) hvars⟩
  have hwhole := hcode.append (cites_leave ctx (c { p with vars := p.vars.push }).2)
  rwa [append_nil] at hwhole

theorem chooses_jump (place : Place) (span : Span) (l : Leap) (problem : Problem) :
    Chooses (jump ctx place span l.mark problem) (pure []) := by
  unfold jump
  split
  · exact chooses_pure (by cases l <;> simp [Cites, Leap.mark, MarkKind.descriptor?])
  · exact .after (fun _ => rfl) fun _ => chooses_pure cites_empty

theorem abreast_valueCode (type : TypeRef) (value : Option Expr) :
    Abreast (fun p vs => p.vars = vs) (fun f cs => Cites cs f ∧ (value.isSome = false → cs = [])) (valueCode ctx type value)
      (Choosing.within ctx.api fun s => (value.map (·.choices s type.type)).getD []) := by
  rintro p _ rfl
  cases value with
  | none => exact ⟨⟨cites_empty, fun _ => rfl⟩, rfl⟩
  | some e => exact ⟨⟨(chooses_emit e type.type p p.vars rfl).1, nofun⟩, rfl⟩

theorem chooses_declareAs (type : TypeRef) (name : Ident) (k : Kind) (hcode : Cites cs code)
    (hnone : valued = false → cs = []) : Chooses (declareAs ctx type name k valued code) (.declareAs type name cs) := by
  refine abreast_get.bind ?_
  rintro p _ rfl
  match p.vars.declare name.name type.type name.span with
  | .error _ => exact Chooses.after (fun _ => rfl) fun _ => chooses_pure cites_empty
  | .ok (v, vars) =>
    rintro q _ -
    refine ⟨?_, ?_⟩
    · cases valued with
      | false => exact hnone rfl ▸ cites_empty
      | true =>
        show Cites cs (if ctx.debug then _ else _)
        split <;> simp_all [Cites]
    · cases valued <;> rfl

theorem chooses_declareValue (type : TypeRef) (name : Ident) (value : Option Expr) :
    Chooses (declareValue ctx type name value) (.declare ctx.api type name value) := by
  refine .after (fun _ => rfl) fun _ => ?_
  unfold Choosing.declare
  cases type.type.primitive.kind? with
  | none =>
    rintro p _ rfl
    exact ⟨cites_empty, rfl⟩
  | some k => exact (abreast_valueCode type value).bind fun _ _ h => chooses_declareAs type name k h.1 h.2

theorem chooses_declare (type : TypeRef) (name : Ident) (value : Option Expr) :
    Chooses (declare ctx type name value) (.declare ctx.api type name value) := by
  rw [declare_eq]
  split
  · exact chooses_declareValue type name value
  · exact .after (fun _ => rfl) fun _ => chooses_declareValue type name value

theorem chooses_actionCode (place : Place) (a : Action) : Chooses (actionCode ctx place a) (.action ctx.api a) := by
  unfold actionCode Choosing.action
  cases a.kind with
  | declare type name value => exact chooses_declare type name value
  | assign target _ _ | step target _ => exact chooses_check fun s => always_emitUpdate_cites ctx.debug target _ a.span
  | call target =>
    refine chooses_check fun s => ?_
    cases target.isCall with
    | true => exact always_emitObject_cites s target false
    | false => exact .after _ fun _ => always_pure cites_empty
  | breakLoop => exact chooses_jump place _ .breaks _
  | continueLoop => exact chooses_jump place _ .continues _
  | exit => exact chooses_pure (cited_opcode _)

theorem chooses_action (place : Place) (a : Action) : Chooses (action ctx place a) (.action ctx.api a) := by
  rintro p vs hp
  have hboth : Chooses (actionCode ctx place a) (.action ctx.api a) := chooses_actionCode place a
  obtain ⟨hcode, hvars⟩ := hboth p vs hp
  unfold action
  cases ctx.debug with
  | false => exact ⟨hcode, hvars⟩
  | true => exact ⟨@Cites.append _ [] _ _ (by simp [Cites, MarkKind.descriptor?]) hcode, hvars⟩

theorem chooses_optionalAction (place : Place) (a : Option Action) :
    Chooses (optionalAction ctx place a) (.optionalAction ctx.api a) := by
  cases a with
  | none => exact chooses_pure cites_empty
  | some a => exact chooses_action place a

/-! ### Code of loops and branches -/

@[simp] theorem cited_backToStart (f : Fragment) : (backToStart f).cited = f.cited := by simp [backToStart]

theorem chooses_looped (condition : Option Expr) (h : Cites cs body) :
    Chooses (looped ctx condition body) (.looped ctx.api condition cs) := by
  cases condition with
  | none => exact chooses_pure (by simp_all [Cites])
  | some e => exact (chooses_emit e .bool).bind fun _ _ hcode => chooses_pure (by simp_all [Cites])

section Control

variable {body otherwise : Compiling Fragment} {d' : Choosing} (h : Chooses body d)
include h

theorem chooses_whileCode (condition : Expr) :
    Chooses (whileCode ctx condition body) (.whileLoop ctx.api condition d) := by
  refine chooses_known condition ?_
  unfold Choosing.whileLoop
  split
  · exact chooses_pure cites_empty
  · refine h.bind fun _ _ hbody => ?_
    rw [← bind_pure (Choosing.looped _ _ _)]
    exact (chooses_looped _ hbody).bind fun _ _ hcode => chooses_pure (by simp_all [Cites])

theorem chooses_forLoop (place : Place) (constant : Option Bool) (condition : Option Expr) (step : Option Action) :
    Chooses (forLoop ctx place constant condition step body) (.forRest ctx.api constant condition step d) := by
  unfold forLoop Choosing.forRest
  split
  · exact chooses_pure cites_empty
  · refine h.bind fun _ _ hbody => (chooses_optionalAction place step).bind fun _ _ hlast => ?_
    rw [← bind_pure (Choosing.looped _ _ _)]
    exact (chooses_looped _ (by simp_all [Cites])).bind fun _ _ hcode => chooses_pure (by simp_all [Cites])

theorem chooses_forCode (place : Place) (start : Option Action) (condition : Option Expr) (step : Option Action) :
    Chooses (forCode ctx place start condition step body) (.forLoop ctx.api start condition step d) := by
  rw [forCode_eq]
  refine chooses_inScope ((chooses_optionalAction place start).bind fun _ _ hhead => ?_)
  have hrest : ∀ constant, Chooses (forLoop ctx place constant condition step body >>= fun code => pure (_ ++ code))
      (Choosing.forRest ctx.api constant condition step d >>= fun cs => pure (_ ++ cs)) := fun constant =>
    (chooses_forLoop h place constant condition step).bind fun _ _ hcode => chooses_pure (hhead.append hcode)
  cases condition with
  | none => exact hrest (some true)
  | some e => exact chooses_known e (hrest e.knownBool?)

theorem chooses_doWhileCode (condition : Expr) :
    Chooses (doWhileCode ctx body condition) (.doWhile ctx.api d condition) := by
  refine h.bind fun _ _ hbody => chooses_known condition ?_
  match condition.knownBool? with
  | some false | some true => exact chooses_pure (by simp_all [Cites])
  | none => exact (chooses_emit condition .bool).bind fun _ _ hcode => chooses_pure (by simp_all [Cites])

theorem chooses_branchCode (condition : Expr) (ho : Chooses otherwise d') :
    Chooses (branchCode ctx condition body otherwise) (.branch ctx.api condition d d') := by
  unfold Choosing.branch
  refine chooses_known condition ?_
  match condition.knownBool? with
  | some true => exact h
  | some false => exact ho
  | none =>
    refine (chooses_emit condition .bool).bind fun _ _ hcode => h.bind fun yes _ hbody => ho.bind fun no _ hother => ?_
    refine chooses_pure ?_
    split <;> simp_all [Cites]

end Control

theorem vars_atTopLevel (place : Place) (span : Span) (p : Progress) :
    (atTopLevel ctx place span p).2.vars = p.vars := by
  unfold atTopLevel
  split <;> rfl

mutual
/-- The code of a statement cites the members that were chosen for it. -/
theorem chooses_statement (place : Place) : (s : Statement) → Chooses (statement ctx place s) (s.choices ctx.api)
  | .importing span path => .after (vars_atTopLevel place span) fun _ => chooses_pure cites_empty
  | .global span members =>
    .after (vars_atTopLevel place span) fun _ => .after (fun _ => rfl) fun _ => chooses_pure cites_empty
  | .type decl => .after (vars_atTopLevel place _) fun _ => .after (fun _ => rfl) fun _ => chooses_pure cites_empty
  | .metadata span text => chooses_pure (by simp [Cites])
  | .block body => chooses_block place body
  | .whileLoop condition body => chooses_whileCode (chooses_block _ body) condition
  | .forLoop start condition step body => chooses_forCode (chooses_block _ body) place start condition step
  | .doWhile body condition => chooses_doWhileCode (chooses_block _ body) condition
  | .branch b => chooses_branch place b
  | .action a => chooses_action place a

theorem chooses_block (place : Place) : (b : Block) → Chooses (block ctx place b) (b.choices ctx.api)
  | .mk _ body => chooses_inScope (chooses_statements _ body cites_empty)

theorem chooses_branch (place : Place) : (b : Branch) → Chooses (branch ctx place b) (b.choices ctx.api)
  | .mk condition body other =>
    chooses_branchCode (chooses_block place body) condition (chooses_otherwise place other)

theorem chooses_otherwise (place : Place) : (o : Otherwise) → Chooses (otherwise ctx place o) (o.choices ctx.api)
  | .nothing => chooses_pure cites_empty
  | .branch b => chooses_branch place b
  | .block body => chooses_block place body

/-- Statements behind code that is there already. -/
theorem chooses_statements (place : Place) : (ss : List Statement) → {code : Fragment} → {before : List Choice} →
    Cites before code → Chooses (statements ctx place ss code) ((before ++ ·) <$> Statement.allChoices ctx.api ss)
  | [], code, before, h => by
    unfold Statement.allChoices
    rw [map_pure, List.append_nil]
    exact chooses_pure h
  | s :: rest, code, before, h => by
    unfold Statement.allChoices
    rw [map_bind]
    refine (chooses_statement place s).bind fun _ cs hs => ?_
    have hrest := chooses_statements place rest (h.append hs)
    simp only [List.append_assoc] at hrest
    exact hrest
end

end Compiling

/-- The numbers that are left open in the code of a script are those of the members chosen in it. -/
theorem Script.cites_compile (ctx : Context) (script : Script) (vars : Variables) :
    Cites (script.choices ctx.api vars) (script.compile ctx ∅ vars).1 :=
  (Compiling.chooses_statements _ script cites_empty ⟨vars, #[]⟩ vars rfl).1

end HostScript
